import Parlance.Proofs.Evaluator.Alike

/-! Computations that agree. On the states that a relation holds of, they do the same, and what they leave is
related to what they found, in a value as in an error. A relation that composes passes from the pieces of
an evaluation to the whole. -/
namespace Parlance

variable {H α β : Type}

def Outcome.Ends (cut : Prop) (P : α → Prop) (K : Evaluator H → Prop) :
    Outcome EvalError (Evaluator H) α → Prop
  | .value a s => P a ∧ K s
  | .error _ s => K s
  | .outOfFuel => cut

theorem Outcome.endsMono {cut : Prop} {P Q : α → Prop} {K L : Evaluator H → Prop}
    {o : Outcome EvalError (Evaluator H) α} (ends : o.Ends cut P K) (values : ∀ a, P a → Q a)
    (states : ∀ s, K s → L s) : o.Ends cut Q L := by
  cases o with
  | value a s => exact ⟨values a ends.1, states s ends.2⟩
  | error e s => exact states s ends
  | outOfFuel => exact ends

theorem Outcome.endsAfter {cut : Prop} {P : α → Prop} {K : Evaluator H → Prop}
    {o : Outcome EvalError (Evaluator H) α} (ends : o.Ends cut P K) {s : Evaluator H}
    (found : o.after? = some s) : K s := by
  cases o with
  | value a after =>
    cases found
    exact ends.2
  | error e after =>
    cases found
    exact ends
  | outOfFuel => contradiction

theorem Outcome.endsLeaving {cut : Prop} {P : α → Prop} {K L : Evaluator H → Prop}
    {o : Outcome EvalError (Evaluator H) α} (ends : o.Ends cut P K) {change : Evaluator H → Evaluator H}
    (states : ∀ s, K s → L (change s)) : (o.leaving change).Ends cut P L := by
  cases o with
  | value a s => exact ⟨ends.1, states s ends.2⟩
  | error e s => exact states s ends
  | outOfFuel => exact ends

structure Composes (R : Evaluator H → Evaluator H → Prop) : Prop where
  onward : ∀ {s t}, R s t → R t t
  trans : ∀ {s t u}, R s t → R t u → R s u

/-- On states to go on from, two computations do the same; a value is in `P`, and the state after is
related to the state before. -/
def Agree (R : Evaluator H → Evaluator H → Prop) (cut : Prop) (P : α → Prop) (x y : Eval H α) : Prop :=
  ∀ s, R s s → x s = y s ∧ (y s).Ends cut P (R s)

namespace Agree

variable {R : Evaluator H → Evaluator H → Prop} {cut : Prop} {P Q : α → Prop} {S : β → Prop}
  {x y : Eval H α}

theorem mono (h : Agree R cut P x y) (values : ∀ a, P a → Q a) : Agree R cut Q x y := fun s start =>
  ⟨(h s start).1, Outcome.endsMono (h s start).2 values fun _ kept => kept⟩

theorem pure {a : α} (h : P a) : Agree R cut P (Eval.pure a) (Eval.pure a) := fun _ start =>
  ⟨rfl, h, start⟩

theorem fail (e : EvalError) : Agree R cut P (Eval.fail e) (Eval.fail e) := fun _ start => ⟨rfl, start⟩

theorem ofExcept {r : Except EvalError α} (h : ∀ a, r = .ok a → P a) :
    Agree R cut P (Eval.ofExcept r) (Eval.ofExcept r) := by
  cases r with
  | ok a => exact pure (h a rfl)
  | error e => exact fail e

theorem bind (composes : Composes R) {f g : α → Eval H β} (first : Agree R cut P x y)
    (next : ∀ a, P a → Agree R cut S (f a) (g a)) : Agree R cut S (x >>= f) (y >>= g) := by
  intro s start
  obtain ⟨same, ends⟩ := first s start
  simp only [Bind.bind, Eval.bind, same]
  cases out : y s with
  | value a middle =>
    rw [out] at ends
    obtain ⟨same', ends'⟩ := next a ends.1 middle (composes.onward ends.2)
    exact ⟨same', Outcome.endsMono ends' (fun _ kept => kept) fun _ kept => composes.trans ends.2 kept⟩
  | error e after =>
    rw [out] at ends
    exact ⟨rfl, ends⟩
  | outOfFuel =>
    rw [out] at ends
    exact ⟨rfl, ends⟩

theorem leaving {R' : Evaluator H → Evaluator H → Prop} (inner : Agree R' cut P x y)
    {go back : Evaluator H → Evaluator H} {s : Evaluator H} (start : R' (go s) (go s))
    (finish : ∀ t, R' (go s) t → R s (back t)) :
    (x (go s)).leaving back = (y (go s)).leaving back ∧ ((y (go s)).leaving back).Ends cut P (R s) := by
  obtain ⟨same, ends⟩ := inner (go s) start
  exact ⟨by rw [same], Outcome.endsLeaving ends finish⟩

section Sequences

variable {step step' : Instruction H → Eval H (Value H)} {V : Value H → Prop} (composes : Composes R)

include composes

theorem evalEach {is : List (Instruction H)} (each : ∀ i ∈ is, Agree R cut V (step i) (step' i)) :
    Agree R cut (fun vs => ∀ v ∈ vs, V v) (Evaluator.evalEach step is)
      (Evaluator.evalEach step' is) := by
  induction is with
  | nil => exact pure (by simp)
  | cons i is ih =>
    have first := each i List.mem_cons_self
    have later := ih fun j member => each j (List.mem_cons_of_mem _ member)
    refine first.bind composes fun v valued => later.bind composes fun vs others => pure ?_
    simpa using ⟨valued, others⟩

theorem runFrom {is : List (Instruction H)} (each : ∀ i ∈ is, Agree R cut V (step i) (step' i))
    {last : Value H} (valued : V last) :
    Agree R cut V (Evaluator.runFrom step last is) (Evaluator.runFrom step' last is) := by
  induction is generalizing last with
  | nil => exact pure valued
  | cons i is ih =>
    have first := each i List.mem_cons_self
    exact first.bind composes fun v valued =>
      ih (fun j member => each j (List.mem_cons_of_mem _ member)) valued

theorem runWith {is : List (Instruction H)} (each : ∀ i ∈ is, Agree R cut V (step i) (step' i))
    (nothing : V .nil) :
    Agree R cut V (Evaluator.runWith step is) (Evaluator.runWith step' is) :=
  runFrom composes each nothing

end Sequences

end Agree
end Parlance
