import Mathlib.Data.List.Forall2
import Parlance.Proofs.Evaluator.Frames

/-! Frames are maps. Evaluation asks a frame for the value of a name and binds names in it, so where two
evaluators hold frames that answer every name alike, whatever the order of their entries, it does the same,
and the frames answer alike again. -/
namespace Parlance

variable {H α β : Type}

namespace Frame

def Answers (f g : Frame H) : Prop := ∀ name, g.lookup name = f.lookup name

theorem lookupEntries (name first : String) (w : Value H) (f : Frame H) :
    List.lookup name ((first, w) :: f) = if name = first then some w else f.lookup name := by
  by_cases same : name = first
  · simp [same]
  · simp [List.lookup_cons, same, beq_eq_false_iff_ne.mpr same]

theorem lookupBind (name other : String) (v : Value H) (f : Frame H) :
    (f.bind name v).lookup other = if other = name then some v else f.lookup other := by
  induction f with
  | nil => exact lookupEntries other name v []
  | cons entry f ih =>
    obtain ⟨first, w⟩ := entry
    simp only [bind]
    by_cases here : first = name
    · subst here
      simp only [BEq.rfl, if_true, lookupEntries]
      split <;> rfl
    · simp only [beq_eq_false_iff_ne.mpr here, Bool.false_eq_true, if_false, lookupEntries, ih]
      by_cases front : other = first
      · have apart : other ≠ name := fun same => here (front.symm.trans same)
        simp only [if_pos front, if_neg apart]
      · simp only [if_neg front]

theorem bindsLookup (name : String) (f : Frame H) : f.binds name = (f.lookup name).isSome := by
  induction f with
  | nil => rfl
  | cons entry f ih =>
    obtain ⟨first, w⟩ := entry
    have split : binds ((first, w) :: f) name = (first == name || binds f name) := rfl
    rw [split, lookupEntries]
    by_cases same : name = first
    · simp [same]
    · simp [same, Ne.symm same, ih]

theorem answersBind {f g : Frame H} (h : f.Answers g) (name : String) (v : Value H) :
    (f.bind name v).Answers (g.bind name v) := by
  intro other
  rw [lookupBind, lookupBind, h other]

end Frame

namespace Evaluator

abbrev SameMaps : List (Frame H) → List (Frame H) → Prop := List.Forall₂ Frame.Answers

theorem sameMapsRefl (fs : List (Frame H)) : SameMaps fs fs := by
  induction fs with
  | nil => exact .nil
  | cons f fs ih => exact .cons (fun _ => rfl) ih

theorem findMaps {fs gs : List (Frame H)} (h : SameMaps fs gs) (name : String) :
    find? name gs = find? name fs := by
  induction h with
  | nil => rfl
  | cons first _ ih => simp only [find?, first name, ih]

theorem rebindMaps {fs gs : List (Frame H)} (h : SameMaps fs gs) (name : String) (v : Value H) :
    Option.Rel SameMaps (rebind name v fs) (rebind name v gs) := by
  induction h with
  | nil => exact .none
  | @cons f g fs gs first others ih =>
    simp only [rebind, Frame.bindsLookup, first name]
    split
    · exact .some (.cons (Frame.answersBind first name v) others)
    · revert ih
      cases rebind name v fs <;> cases rebind name v gs <;> intro ih
      · exact .none
      · cases ih
      · cases ih
      · cases ih with
        | some related => exact .some (.cons first related)

theorem bindInnermostMaps {fs gs : List (Frame H)} (h : SameMaps fs gs) (name : String) (v : Value H) :
    SameMaps (bindInnermost name v fs) (bindInnermost name v gs) := by
  cases h with
  | nil => exact sameMapsRefl _
  | cons first others => exact .cons (Frame.answersBind first name v) others

structure Matches (s t : Evaluator H) : Prop where
  frames : SameMaps s.frames t.frames
  depth : t.depth = s.depth
  limit : t.maxDepth = s.maxDepth
  ids : t.nextId = s.nextId

theorem matchesPush {s t : Evaluator H} (h : Matches s t) (f : Frame H) : Matches (s.push f) (t.push f) :=
  ⟨.cons (fun _ => rfl) h.frames, h.depth, h.limit, h.ids⟩

theorem matchesPop {s t : Evaluator H} (h : Matches s t) : Matches s.pop t.pop := by
  refine ⟨?_, h.depth, h.limit, h.ids⟩
  have frames := h.frames
  simp only [pop]
  generalize s.frames = fs at frames
  generalize t.frames = gs at frames
  cases frames with
  | nil => exact .nil
  | cons first others => exact others

end Evaluator

def Outcome.Paired (cut : Prop) (R : Evaluator H → Evaluator H → Prop) :
    Outcome EvalError (Evaluator H) α → Outcome EvalError (Evaluator H) α → Prop
  | .value a s, .value b t => b = a ∧ R s t
  | .error e s, .error d t => d = e ∧ R s t
  | .outOfFuel, .outOfFuel => cut
  | _, _ => False

theorem Outcome.pairedLeaving {cut : Prop} {R S : Evaluator H → Evaluator H → Prop}
    {change : Evaluator H → Evaluator H} (changed : ∀ s t, R s t → S (change s) (change t))
    {o p : Outcome EvalError (Evaluator H) α} (h : o.Paired cut R p) :
    (o.leaving change).Paired cut S (p.leaving change) := by
  cases o <;> cases p <;> try contradiction
  · exact ⟨h.1, changed _ _ h.2⟩
  · exact ⟨h.1, changed _ _ h.2⟩
  · exact h

def Extensional (x : Eval H α) : Prop :=
  ∀ s t, s.Matches t → (x s).Paired True Evaluator.Matches (x t)

namespace Extensional

open Evaluator

theorem pure (a : α) : Extensional (Eval.pure a : Eval H α) := fun _ _ h => ⟨rfl, h⟩

theorem fail (e : EvalError) : Extensional (Eval.fail e : Eval H α) := fun _ _ h => ⟨rfl, h⟩

theorem outOfFuel : Extensional (Eval.outOfFuel : Eval H α) := fun _ _ _ => trivial

theorem ofExcept (r : Except EvalError α) : Extensional (Eval.ofExcept r : Eval H α) := by
  cases r with
  | ok a => exact pure a
  | error e => exact fail e

theorem bind {x : Eval H α} {f : α → Eval H β} (first : Extensional x) (next : ∀ a, Extensional (f a)) :
    Extensional (x >>= f) := by
  intro s t h
  have one := first s t h
  simp only [Bind.bind, Eval.bind]
  revert one
  cases x s <;> cases x t <;> intro one <;> try contradiction
  · obtain ⟨rfl, later⟩ := one
    exact next _ _ _ later
  · exact one
  · trivial

theorem lookup (name : String) : Extensional (Evaluator.lookup name : Eval H (Value H)) := by
  intro s t h
  unfold Evaluator.lookup
  rw [findMaps h.frames name]
  split
  · exact ⟨rfl, h⟩
  · exact ⟨rfl, h⟩

theorem define (name : String) (v : Value H) : Extensional (Evaluator.define name v) := fun _ _ h =>
  ⟨rfl, bindInnermostMaps h.frames name v, h.depth, h.limit, h.ids⟩

theorem assign (name : String) (v : Value H) : Extensional (Evaluator.assign name v) := by
  intro s t h
  have nearest := rebindMaps h.frames name v
  have innermost := bindInnermostMaps h.frames name v
  unfold Evaluator.assign
  refine ⟨rfl, ?_, h.depth, h.limit, h.ids⟩
  dsimp only
  revert nearest
  cases rebind name v s.frames <;> cases rebind name v t.frames <;> intro nearest
  · exact innermost
  · cases nearest
  · cases nearest
  · cases nearest with
    | some related => exact related

theorem make (f : Function H) : Extensional (Evaluator.make f) := by
  intro s t h
  refine ⟨?_, h.frames, h.depth, h.limit, ?_⟩
  · rw [h.ids]
  · simp only [h.ids]

theorem frameCount : Extensional (Evaluator.frameCount : Eval H Nat) := fun _ _ h =>
  ⟨h.frames.length_eq.symm, h⟩

theorem inFrame (f : Frame H) {x : Eval H α} (inner : Extensional x) :
    Extensional (Evaluator.inFrame f x) := by
  intro s t h
  rw [inFrameRun, inFrameRun]
  exact Outcome.pairedLeaving (fun _ _ kept => matchesPop kept) (inner _ _ (matchesPush h f))

theorem counted {x : Eval H α} (inner : Extensional x) : Extensional (Evaluator.counted x) := by
  intro s t h
  by_cases full : s.depth ≥ s.maxDepth
  · have full' : t.depth ≥ t.maxDepth := by rwa [h.depth, h.limit]
    simp only [Evaluator.counted, if_pos full, if_pos full']
    exact ⟨by rw [h.limit], h⟩
  · have room : ¬ t.depth ≥ t.maxDepth := by rwa [h.depth, h.limit]
    rw [countedRun x full, countedRun x room]
    have entered : Matches s.enter t.enter := ⟨h.frames, congrArg (· + 1) h.depth, h.limit, h.ids⟩
    exact Outcome.pairedLeaving
      (fun _ _ kept => ⟨kept.frames, congrArg (· - 1) kept.depth, kept.limit, kept.ids⟩)
      (inner _ _ entered)

section Sequences

variable {step : Instruction H → Eval H (Value H)} (each : ∀ i, Extensional (step i))

include each

theorem evalEach (is : List (Instruction H)) : Extensional (Evaluator.evalEach step is) := by
  induction is with
  | nil => exact pure _
  | cons i is ih => exact (each i).bind fun v => ih.bind fun vs => pure _

theorem runFrom (last : Value H) (is : List (Instruction H)) :
    Extensional (Evaluator.runFrom step last is) := by
  induction is generalizing last with
  | nil => exact pure last
  | cons i is ih => exact (each i).bind ih

end Sequences

section Calls

variable [Host H] {run : List (Instruction H) → Eval H (Value H)}
  {callBack : Value H → List (Value H) → Eval H (Value H)}
  (calls : ∀ callee args, Extensional (callBack callee args))

include calls

omit [Host H] in
theorem runScript (script : Script H) : Extensional (Evaluator.runScript callBack script) := by
  induction script with
  | done v => exact pure v
  | fail e => exact fail e
  | call f args next ih => exact (calls f args).bind ih
  | lookup name next ih => exact (lookup name).bind ih
  | define name v next ih => exact (define name v).bind fun _ => ih
  | assign name v next ih => exact (assign name v).bind fun _ => ih
  | frameCount next ih => exact frameCount.bind ih

theorem runNative (n : Native H) (args : List (Value H)) :
    Extensional (Evaluator.runNative callBack n args) := by
  unfold Evaluator.runNative
  split
  · exact ofExcept _
  · exact ofExcept _
  · exact ofExcept _
  · exact pure _
  · exact pure _
  · exact calls _ _
  · exact runScript calls _
  · exact fail _

variable (bodies : ∀ body, Extensional (run body))

include bodies

theorem invoke (label : String) (byName : Bool) (f : Function H) (args : List (Value H)) :
    Extensional (Evaluator.invoke run callBack label byName f args) := by
  unfold Evaluator.invoke
  split
  · exact fail _
  · cases f with
    | user params body =>
      cases byName with
      | false => exact inFrame _ (bodies body)
      | true => exact counted (inFrame _ (bodies body))
    | native n => exact inFrame _ (runNative calls n args)

theorem invokeValue (label : String) (byName : Bool) (callee : Value H) (args : List (Value H)) :
    Extensional (Evaluator.invokeValue run callBack label byName callee args) := by
  cases callee with
  | function id f => exact invoke calls bodies label byName f args
  | nil => exact fail _
  | integer n => exact fail _
  | float x => exact fail _

theorem evalWith {step : Instruction H → Eval H (Value H)} (steps : ∀ i, Extensional (step i))
    (i : Instruction H) : Extensional (Evaluator.evalWith step run callBack i) := by
  cases i with
  | literal value => exact pure _
  | lookup name => exact lookup name
  | assign name value => exact (steps value).bind fun v => assign name v
  | function params body => exact make _
  | call name args =>
    exact (lookup name).bind fun callee => (evalEach steps args).bind fun vs =>
      invokeValue calls bodies name true callee vs
  | callFunction params body args =>
    exact (evalEach steps args).bind fun vs => invoke calls bodies anonymous false (.user params body) vs
  | callNative n args =>
    exact (evalEach steps args).bind fun vs => invoke calls bodies anonymous false (.native n) vs

end Calls

theorem evaluation [Host H] (fuel : Nat) : (∀ i : Instruction H, Extensional (evalInstruction fuel i)) ∧
    ∀ (callee : Value H) args, Extensional (callValue fuel callee args) := by
  -- By induction on fuel, for instructions and for call backs at once.
  induction fuel with
  | zero => exact ⟨fun i => outOfFuel, fun callee args => outOfFuel⟩
  | succ fuel ih =>
    obtain ⟨steps, calls⟩ := ih
    have bodies : ∀ body, Extensional (runWith (evalInstruction fuel) body) := runFrom steps .nil
    refine ⟨fun i => ?_, fun callee args => invokeValue calls bodies anonymous false callee args⟩
    rw [evalLevel]
    exact evalWith calls bodies steps i

theorem eval [Host H] (program : List (Instruction H)) : Extensional (Evaluator.eval program) := by
  intro s t h
  have fuel : t.fuelFor = s.fuelFor := by simp only [fuelFor, h.limit]
  unfold Evaluator.eval
  rw [fuel]
  exact runFrom (evaluation _).1 .nil program s t h

end Extensional
end Parlance
