import Parlance.Evaluator
import Parlance.Value.Operation

/-! Running programs. The arguments of a call are evaluated from left to right, then its callee runs in
a frame that binds the parameters. Calls by name of functions written in the language count towards
the depth limit; natives, groups and conditional chains do not. -/
namespace Parlance.Evaluator

variable {H : Type} [Host H]

def anonymous : String := "<anonymous>"

def runScript (callBack : Value H → List (Value H) → Eval H (Value H)) :
    Script H → Eval H (Value H)
  | .done v => pure v
  | .fail e => Eval.fail e
  | .call f args next => do
    let v ← callBack f args
    runScript callBack (next v)
  | .lookup name next => do
    let v ← lookup name
    runScript callBack (next v)
  | .define name v next => do
    define name v
    runScript callBack next
  | .assign name v next => do
    let _ ← assign name v
    runScript callBack next
  | .frameCount next => do
    let n ← frameCount
    runScript callBack (next n)

def runNative (callBack : Value H → List (Value H) → Eval H (Value H)) (n : Native H)
    (args : List (Value H)) : Eval H (Value H) :=
  match n, args with
  | .arithmetic op, [a, b] => Eval.ofExcept (Operation.arithmetic op a b)
  | .negate, [a] => Eval.ofExcept (Operation.negate a)
  | .compare op, [a, b] => Eval.ofExcept (Operation.comparison op a b)
  | .identity, [a] => pure a
  | .group, [a] => pure a
  | .branch, [guard, yes, no] => callBack (if guard.isTruthy then yes else no) []
  | .host h, args => runScript callBack (Host.run h args)
  | n, args => Eval.fail (.arity anonymous n.params.length args.length)

def runBody (byName : Bool) (frame : Frame H) (body : Eval H (Value H)) : Eval H (Value H) :=
  if byName then counted (inFrame frame body) else inFrame frame body

def invoke (run : List (Instruction H) → Eval H (Value H))
    (callBack : Value H → List (Value H) → Eval H (Value H)) (label : String) (byName : Bool)
    (f : Function H) (args : List (Value H)) : Eval H (Value H) :=
  if args.length != f.arity then Eval.fail (.arity label f.arity args.length)
  else
    let frame := Frame.bindAll f.params args []
    match f with
    | .user _ body => runBody byName frame (run body)
    | .native n => inFrame frame (runNative callBack n args)

def invokeValue (run : List (Instruction H) → Eval H (Value H))
    (callBack : Value H → List (Value H) → Eval H (Value H)) (label : String) (byName : Bool)
    (callee : Value H) (args : List (Value H)) : Eval H (Value H) :=
  match callee with
  | .function _ f => invoke run callBack label byName f args
  | v => Eval.fail (.notCallable v.kind)

def evalEach (step : Instruction H → Eval H (Value H)) :
    List (Instruction H) → Eval H (List (Value H))
  | [] => pure []
  | i :: is => do
    let v ← step i
    let vs ← evalEach step is
    pure (v :: vs)

def runFrom (step : Instruction H → Eval H (Value H)) :
    Value H → List (Instruction H) → Eval H (Value H)
  | last, [] => pure last
  | _, i :: is => do
    let v ← step i
    runFrom step v is

def runWith (step : Instruction H → Eval H (Value H)) (program : List (Instruction H)) :
    Eval H (Value H) :=
  runFrom step .nil program

mutual

/-- The value of an instruction. Fuel bounds the nesting of instructions and calls. -/
def evalInstruction : Nat → Instruction H → Eval H (Value H)
  | 0, _ => Eval.outOfFuel
  | fuel + 1, i =>
    match i with
    | .literal value => pure (Value.ofLiteral value)
    | .lookup name => lookup name
    | .assign name value => do
      let v ← evalInstruction fuel value
      assign name v
    | .function params body => make (.user params body)
    | .call name args => do
      let callee ← lookup name
      let args ← evalEach (evalInstruction fuel) args
      invokeValue (runWith (evalInstruction fuel)) (callValue fuel) name true callee args
    | .callFunction params body args => do
      let args ← evalEach (evalInstruction fuel) args
      invoke (runWith (evalInstruction fuel)) (callValue fuel) anonymous false
        (.user params body) args
    | .callNative n args => do
      let args ← evalEach (evalInstruction fuel) args
      invoke (runWith (evalInstruction fuel)) (callValue fuel) anonymous false (.native n) args

def callValue : Nat → Value H → List (Value H) → Eval H (Value H)
  | 0, _, _ => Eval.outOfFuel
  | fuel + 1, callee, args =>
    invokeValue (runWith (evalInstruction fuel)) (callValue fuel) anonymous false callee args

end

/-- Room for two to 62 nested instructions within each call that the depth limit allows, and as many
around them. -/
def fuelFor (s : Evaluator H) : Nat := twoTo 62 * (s.maxDepth + 1)

def eval (program : List (Instruction H)) : Eval H (Value H) := fun s =>
  runWith (evalInstruction s.fuelFor) program s

def call (callee : Value H) (args : List (Value H)) : Eval H (Value H) := fun s =>
  callValue s.fuelFor callee args s

end Parlance.Evaluator
