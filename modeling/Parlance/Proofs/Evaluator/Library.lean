import Parlance.Evaluator.StandardLibrary
import Parlance.Proofs.Evaluator.Calls
import Parlance.Proofs.Evaluator.Frames
import Parlance.Proofs.Sequence

/-! Calls of standard functions. In a new evaluator each standard name means its own function, and a call of
one that computes takes its arguments from the left and leaves no trace. -/
namespace Parlance

variable {H : Type}

namespace Frame

theorem bindsFound {f : Frame H} {name : String} (bound : f.binds name = true) :
    ∃ v, f.lookup name = some v := by
  cases found : f.lookup name with
  | some v => exact ⟨v, rfl⟩
  | none =>
    obtain ⟨entry, member, same⟩ := List.any_eq_true.mp bound
    have apart := List.lookup_eq_none_iff.mp found entry member
    rw [eq_of_beq same] at apart
    simp at apart

end Frame

namespace Evaluator

theorem defineAllBinds (entries : List (String × Native H)) {s : Evaluator H} {f : Frame H}
    {fs : List (Frame H)} (innermost : s.frames = f :: fs) :
    ∃ after g, defineAll entries s = .value () after ∧ after.frames = g :: fs ∧ f.Grows g ∧
      ∀ entry ∈ entries, g.binds entry.1 = true := by
  induction entries generalizing s f with
  | nil => exact ⟨s, f, rfl, innermost, fun _ bound => bound, by simp⟩
  | cons first entries ih =>
    obtain ⟨name, n⟩ := first
    let v : Value H := .function s.nextId (.native n)
    obtain ⟨after, g, run, frames, grows, bound⟩ :=
      @ih ⟨bindInnermost name v s.frames, s.depth, s.maxDepth, s.nextId + 1⟩ (f.bind name v)
        (by rw [innermost]; rfl)
    have earlier : f.Grows g := fun other before => grows other (Frame.bindGrows name v f other before)
    have here : g.binds name = true := grows name (by simp [Frame.bindsBind])
    exact ⟨after, g, run, frames, earlier, List.forall_mem_cons.mpr ⟨here, bound⟩⟩

def Equipped (s : Evaluator H) : Prop :=
  ∀ name n, (name, n) ∈ standardLibrary → ∃ id, find? name s.frames = some (.function id (.native n))

theorem standardEquipped : (standard : Evaluator H).Equipped := by
  intro name n listed
  have innermost : (empty : Evaluator H).frames = [[]] := rfl
  obtain ⟨after, g, run, frames, -, bound⟩ := defineAllBinds standardLibrary innermost
  have same : (standard : Evaluator H) = after := by
    unfold standard install
    rw [run]
  obtain ⟨v, found⟩ := Frame.bindsFound (bound (name, n) listed)
  have looked : find? name (standard : Evaluator H).frames = some v := by
    rw [same, frames, find?, found]
  -- of the entries of that name there is one
  have once : (standardLibrary.map (Prod.fst (β := Native H))).Nodup := by
    have names : (standardLibrary (H := H)).map Prod.fst = (standardLibrary (H := Empty)).map Prod.fst := rfl
    rw [names]
    decide
  obtain ⟨m, id, member, rfl⟩ := standardEntry.2 _ (findEntry looked)
  cases mappedOnce once listed member rfl
  exact ⟨id, looked⟩

section Calls

variable {fuel : Nat} {s : Evaluator H}

theorem evalPair {step : Instruction H → Eval H (Value H)} {i j : Instruction H}
    {r q : Except EvalError (Value H)} (left : step i s = Eval.ofExcept r s)
    (right : step j s = Eval.ofExcept q s) : evalEach step [i, j] s = Eval.ofExcept (do
      let a ← r
      let b ← q
      .ok [a, b]) s := by
  simp only [evalEach, Bind.bind, Eval.bind, left]
  cases r with
  | error e => rfl
  | ok a =>
    simp only [Eval.ofExcept, Eval.pure, right]
    cases q <;> rfl

theorem runSole {step : Instruction H → Eval H (Value H)} {i : Instruction H}
    {r : Except EvalError (Value H)} (found : step i s = Eval.ofExcept r s) :
    runWith step [i] s = Eval.ofExcept r s := by
  simp only [runWith, runFrom, Bind.bind, Eval.bind, found]
  cases r <;> rfl

variable [Host H]

theorem callArithmetic {name : String} {op : Arithmetic} {id : Nat}
    (named : find? name s.frames = some (.function id (.native (.arithmetic op))))
    {i j : Instruction H} {r q : Except EvalError (Value H)}
    (left : evalInstruction fuel i s = Eval.ofExcept r s)
    (right : evalInstruction fuel j s = Eval.ofExcept q s) :
    evalInstruction (fuel + 1) (.call name [i, j]) s = Eval.ofExcept (do
      let a ← r
      let b ← q
      Operation.arithmetic op a b) s := by
  have callee : lookup name s = .value (.function id (.native (.arithmetic op))) s := by
    rw [lookup, named]
  have native : ∀ a b : Value H, invoke (runWith (evalInstruction fuel)) (callValue fuel) name true
      (.native (.arithmetic op)) [a, b] = Eval.ofExcept (Operation.arithmetic op a b) := fun a b =>
    Alike.inFrameExcept _ _
  rw [evalLevel]
  simp only [evalWith, Bind.bind, Eval.bind, callee, evalPair left right]
  cases r with
  | error e => rfl
  | ok a =>
    cases q with
    | error e => rfl
    | ok b => exact congrFun (native a b) s

theorem callNegate {name : String} {id : Nat} (named : find? name s.frames = some (.function id (.native .negate)))
    {i : Instruction H} {v : Value H} (operand : evalInstruction fuel i s = .value v s) :
    evalInstruction (fuel + 1) (.call name [i]) s = Eval.ofExcept (Operation.negate v) s := by
  have callee : lookup name s = .value (.function id (.native .negate)) s := by
    rw [lookup, named]
  have native : invoke (runWith (evalInstruction fuel)) (callValue fuel) name true (.native .negate) [v] =
      Eval.ofExcept (Operation.negate v) := Alike.inFrameExcept _ _
  rw [evalLevel]
  simp only [evalWith, evalEach, Bind.bind, Eval.bind, callee, operand]
  exact congrFun native s

end Calls

end Evaluator
end Parlance
