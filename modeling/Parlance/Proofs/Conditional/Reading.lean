import Parlance.Evaluator.Run
import Parlance.Proofs.Instruction.Code

/-! What a conditional chain means, told without the calls that it is lowered to. The arms are taken in
order; a guard is evaluated with the scrutinee for every operand that it leaves out, and what runs after a
guard runs in a frame of its own. Fuel is spent as the calls spend it. -/
namespace Parlance.Conditional

open Evaluator

variable {H : Type}

def operand : Option (Value H) → Eval H (Value H)
  | some v => pure v
  | none => lookup Lower.scrutineeName

variable [Host H]

def evalAs (it : Option (Value H)) : Nat → Instruction H → Eval H (Value H)
  | 0, _ => Eval.outOfFuel
  | fuel + 1, i =>
    match i with
    | .literal value => pure (Value.ofLiteral value)
    | .lookup name => if name = Lower.scrutineeName then operand it else lookup name
    | .assign name value => do
      let v ← evalAs it fuel value
      assign name v
    | .function params body => make (.user params body)
    | .call name args => do
      let callee ← lookup name
      let args ← evalEach (evalAs it fuel) args
      invokeValue (runWith (evalInstruction fuel)) (callValue fuel) name true callee args
    | .callFunction params body args => do
      let args ← evalEach (evalAs it fuel) args
      let it := if params = [Lower.scrutineeName] then none else it
      invoke (runWith (evalAs it fuel)) (callValue fuel) anonymous false (.user params body) args
    | .callNative n args => do
      let args ← evalEach (evalAs it fuel) args
      invoke (runWith (evalInstruction fuel)) (callValue fuel) anonymous false (.native n) args

theorem evalAsNone (fuel : Nat) : evalAs (H := H) none fuel = evalInstruction fuel := by
  induction fuel with
  | zero =>
    funext i
    rfl
  | succ fuel ih =>
    funext i
    cases i with
    | lookup name =>
      by_cases same : name = Lower.scrutineeName
      · simp [evalAs, evalInstruction, operand, same]
      · simp [evalAs, evalInstruction, same]
    | literal value => rfl
    | assign name value => simp [evalAs, evalInstruction, ih]
    | function params body => rfl
    | call name args => simp [evalAs, evalInstruction, ih]
    | callFunction params body args => simp [evalAs, evalInstruction, ih]
    | callNative n args => simp [evalAs, evalInstruction, ih]

def setAside : Eval H Unit := fun s => .value () { s with nextId := s.nextId + 2 }

/-- The first arm whose guard holds has its block run, in a fresh frame. Each guard that fails opens one
more frame for the arms after it. -/
def readArms (it : Option (Value H)) : Nat → List (Arm H) → Eval H (Value H)
  | 0, _ => Eval.outOfFuel
  | _ + 1, [] => pure .nil
  | fuel + 1, ⟨.catchAll, block⟩ :: _ => inFrame [] (runWith (evalInstruction fuel) block)
  | 1, ⟨.test _, _⟩ :: _ => Eval.outOfFuel
  | fuel + 2, ⟨.test guard, block⟩ :: rest => do
    let v ← evalAs it (fuel + 1) guard
    setAside
    inFrame [] (if v.isTruthy then runWith (evalInstruction fuel) block else readArms it fuel rest)

/-- A scrutinee is evaluated once, and the arms are taken in a frame of their own. Without one they are
taken in the frame at hand. -/
def readChain : Nat → Option (Instruction H) → List (Arm H) → Eval H (Value H)
  | fuel, none, arms => readArms none fuel arms
  | 0, some _, _ => Eval.outOfFuel
  | fuel + 1, some scrutinee, arms => do
    let v ← evalInstruction fuel scrutinee
    inFrame [] (readArms (some v) fuel arms)

end Parlance.Conditional
