import Parlance.Proofs.Evaluator.Alike

/-! Calls and sequences of alike parts are alike. -/
namespace Parlance.Alike

variable {H α : Type} {σ τ : List (Layer H)} {P : α → Prop}
  {step step' : Instruction H → Eval H (Value H)}

theorem ofExcept {r : Except EvalError α} (h : ∀ a, r = .ok a → P a) :
    Alike σ τ P (Eval.ofExcept r) (Eval.ofExcept r) := by
  cases r with
  | ok a => exact pure (h a rfl)
  | error e => exact fail e

theorem evalEach {is : List (Instruction H)}
    (each : ∀ i ∈ is, Alike σ τ Value.Tame (step i) (step' i)) :
    Alike σ τ (fun vs => ∀ v ∈ vs, v.Tame) (Evaluator.evalEach step is)
      (Evaluator.evalEach step' is) := by
  induction is with
  | nil => exact pure (by simp)
  | cons i is ih =>
    have first := each i List.mem_cons_self
    have later := ih fun j member => each j (List.mem_cons_of_mem _ member)
    refine first.bind fun v tame => later.bind fun vs tames => pure ?_
    simpa using ⟨tame, tames⟩

theorem runFrom {is : List (Instruction H)}
    (each : ∀ i ∈ is, Alike σ τ Value.Tame (step i) (step' i)) {last : Value H} (tame : last.Tame) :
    Alike σ τ Value.Tame (Evaluator.runFrom step last is) (Evaluator.runFrom step' last is) := by
  induction is generalizing last with
  | nil => exact pure tame
  | cons i is ih =>
    have first := each i List.mem_cons_self
    refine first.bind fun v tame => ?_
    exact ih (fun j member => each j (List.mem_cons_of_mem _ member)) tame

theorem runWith {is : List (Instruction H)}
    (each : ∀ i ∈ is, Alike σ τ Value.Tame (step i) (step' i)) :
    Alike σ τ Value.Tame (Evaluator.runWith step is) (Evaluator.runWith step' is) :=
  runFrom each trivial

theorem inFrameExcept (f : Frame H) (r : Except EvalError α) :
    Evaluator.inFrame f (Eval.ofExcept r) = Eval.ofExcept r := by
  cases r <;> rfl

variable [Host H] {callBack callBack' : Value H → List (Value H) → Eval H (Value H)}

theorem quietResult {n : Native H} (quiet : n.Quiet) (args : List (Value H)) :
    ∃ r : Except EvalError (Value H), (∀ v, r = .ok v → v ∈ args ∨ v.IsData) ∧
      ∀ callBack, Evaluator.runNative callBack n args = Eval.ofExcept r := by
  unfold Evaluator.runNative
  split
  · exact ⟨_, fun v h => .inr (Operation.arithmeticData h), fun _ => rfl⟩
  · exact ⟨_, fun v h => .inr (Operation.negateData h), fun _ => rfl⟩
  · exact ⟨_, fun v h => .inr (Operation.comparisonData h), fun _ => rfl⟩
  · rename_i a
    exact ⟨.ok a, fun v h => .inl (by simp [Except.ok.inj h]), fun _ => rfl⟩
  · rename_i a
    exact ⟨.ok a, fun v h => .inl (by simp [Except.ok.inj h]), fun _ => rfl⟩
  · exact quiet.elim
  · exact quiet.elim
  · exact ⟨.error _, nofun, fun _ => rfl⟩

theorem invoke {run run' : List (Instruction H) → Eval H (Value H)} {f : Function H} (tame : f.Tame)
    {args : List (Value H)} (tames : ∀ v ∈ args, v.Tame) (label : String) (byName : Bool)
    (body : ∀ params is, f = .user params is →
      Alike (.mask [] :: σ) (.mask [] :: τ) Value.Tame (run is) (run' is)) :
    Alike σ τ Value.Tame (Evaluator.invoke run callBack label byName f args)
      (Evaluator.invoke run' callBack' label byName f args) := by
  unfold Evaluator.invoke
  split
  · exact fail _
  · cases f with
    | user params is =>
      have bound := Frame.plainBindAll Frame.plainNil tame.1 tames
      have framed := inFrame bound (body params is rfl)
      cases byName with
      | false => exact framed
      | true => exact counted framed
    | native n =>
      obtain ⟨r, results, same⟩ := quietResult (n := n) tame args
      simp only [same, inFrameExcept]
      exact ofExcept fun v h => (results v h).elim (tames v) dataTame

end Parlance.Alike
