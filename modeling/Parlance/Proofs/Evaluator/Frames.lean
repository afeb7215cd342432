import Parlance.Proofs.Evaluator.Agree
import Parlance.Evaluator.Run

/-! What evaluation leaves of the frames it runs in. Every frame goes on binding the names that it bound,
only the innermost may come to bind more, and a call adds no name at all. The depth of calls stays within its
limit on the way: an evaluation that is watched for it at every instruction, body and call back is the
plain one. -/
namespace Parlance

variable {H α : Type}

namespace Frame

def Same (f g : Frame H) : Prop := ∀ name, g.binds name = f.binds name

def Grows (f g : Frame H) : Prop := ∀ name, f.binds name = true → g.binds name = true

theorem bindsBind (name other : String) (v : Value H) (f : Frame H) :
    (f.bind name v).binds other = (name == other || f.binds other) := by
  induction f with
  | nil => simp [bind, binds]
  | cons entry f ih =>
    obtain ⟨first, w⟩ := entry
    simp only [binds] at ih
    simp only [bind]
    split
    · rename_i same
      simp [binds, beq_iff_eq.mp same]
    · simp only [binds, List.any_cons, ih, Bool.or_left_comm]

theorem bindGrows (name : String) (v : Value H) (f : Frame H) : f.Grows (f.bind name v) := by
  intro other bound
  simp [bindsBind, bound]

theorem bindSame {name : String} (v : Value H) {f : Frame H} (bound : f.binds name = true) :
    f.Same (f.bind name v) := by
  intro other
  rw [bindsBind]
  cases same : name == other with
  | false => simp
  | true => simp [← beq_iff_eq.mp same, bound]

end Frame

namespace Evaluator

inductive SameNames : List (Frame H) → List (Frame H) → Prop where
  | nil : SameNames [] []
  | cons {f g fs gs} (here : Frame.Same f g) (later : SameNames fs gs) : SameNames (f :: fs) (g :: gs)

def Grown : List (Frame H) → List (Frame H) → Prop
  | f :: fs, g :: gs => f.Grows g ∧ SameNames fs gs
  | _, _ => False

theorem sameNamesRefl (fs : List (Frame H)) : SameNames fs fs := by
  induction fs with
  | nil => exact .nil
  | cons f fs ih => exact .cons (fun _ => rfl) ih

theorem sameNamesTrans {fs gs hs : List (Frame H)} (first : SameNames fs gs)
    (second : SameNames gs hs) : SameNames fs hs := by
  induction first generalizing hs with
  | nil => exact second
  | cons here _ ih =>
    cases second with
    | cons here' later' => exact .cons (fun name => (here' name).trans (here name)) (ih later')

theorem sameNamesLength {fs gs : List (Frame H)} (same : SameNames fs gs) : gs.length = fs.length := by
  induction same with
  | nil => rfl
  | cons _ _ ih => simp [ih]

theorem sameNamesGrown {fs gs : List (Frame H)} (framed : fs ≠ []) (same : SameNames fs gs) :
    Grown fs gs := by
  cases same with
  | nil => exact absurd rfl framed
  | cons here later => exact ⟨fun name bound => (here name).trans bound, later⟩

theorem grownTrans {fs gs hs : List (Frame H)} (first : Grown fs gs) (second : Grown gs hs) :
    Grown fs hs := by
  match fs, gs, hs with
  | f :: fs, g :: gs, h :: hs =>
    exact ⟨fun name bound => second.1 name (first.1 name bound), sameNamesTrans first.2 second.2⟩

theorem grownFramed {fs gs : List (Frame H)} (grown : Grown fs gs) : gs ≠ [] := by
  match fs, gs with
  | f :: fs, g :: gs => simp

theorem grownLength {fs gs : List (Frame H)} (grown : Grown fs gs) : gs.length = fs.length := by
  match fs, gs with
  | f :: fs, g :: gs => simp [sameNamesLength grown.2]

theorem rebindSame {name : String} {v : Value H} {fs gs : List (Frame H)}
    (h : rebind name v fs = some gs) : SameNames fs gs := by
  induction fs generalizing gs with
  | nil => simp [rebind] at h
  | cons f fs ih =>
    simp only [rebind] at h
    split at h
    · rename_i bound
      cases h
      exact .cons (Frame.bindSame v bound) (sameNamesRefl fs)
    · obtain ⟨hs, found, rfl⟩ := Option.map_eq_some_iff.mp h
      exact .cons (fun _ => rfl) (ih found)

theorem bindInnermostGrown (name : String) (v : Value H) {fs : List (Frame H)} (framed : fs ≠ []) :
    Grown fs (bindInnermost name v fs) := by
  cases fs with
  | nil => exact absurd rfl framed
  | cons f fs => exact ⟨Frame.bindGrows name v f, sameNamesRefl fs⟩

/-- The depth is within its limit and afterwards what it was; `K` relates the frames. -/
structure Balanced (K : List (Frame H) → List (Frame H) → Prop) (s after : Evaluator H) : Prop where
  framed : s.frames ≠ []
  within : s.depth ≤ s.maxDepth
  limit : after.maxDepth = s.maxDepth
  depth : after.depth = s.depth
  frames : K s.frames after.frames

variable {s after : Evaluator H}

theorem balancedSelf (framed : s.frames ≠ []) (within : s.depth ≤ s.maxDepth) : Balanced Grown s s :=
  ⟨framed, within, rfl, rfl, sameNamesGrown framed (sameNamesRefl _)⟩

theorem balancedGrown (h : Balanced SameNames s after) : Balanced Grown s after :=
  ⟨h.framed, h.within, h.limit, h.depth, sameNamesGrown h.framed h.frames⟩

theorem balancedSame (h : Balanced Grown s s) : Balanced SameNames s s :=
  ⟨h.framed, h.within, rfl, rfl, sameNamesRefl _⟩

theorem balancedComposes : Composes (Balanced (H := H) Grown) where
  onward h := balancedSelf (grownFramed h.frames) (by rw [h.depth, h.limit]; exact h.within)
  trans first second := ⟨first.framed, first.within, second.limit.trans first.limit,
    second.depth.trans first.depth, grownTrans first.frames second.frames⟩

end Evaluator

abbrev Kept (K : List (Frame H) → List (Frame H) → Prop) (x y : Eval H α) : Prop :=
  Agree (Evaluator.Balanced K) True (fun _ => True) x y

namespace Kept

open Evaluator

variable {x y : Eval H α} {K : List (Frame H) → List (Frame H) → Prop}

theorem grown (h : Kept SameNames x y) : Kept Grown x y := by
  intro s start
  obtain ⟨same, ends⟩ := h s (balancedSame start)
  exact ⟨same, Outcome.endsMono ends (fun _ kept => kept) fun _ => balancedGrown⟩

theorem outOfFuel : Kept K (Eval.outOfFuel : Eval H α) Eval.outOfFuel := fun _ _ => ⟨rfl, trivial⟩

theorem lookup (name : String) : Kept Grown (Evaluator.lookup (H := H) name) (Evaluator.lookup name) := by
  intro s start
  refine ⟨rfl, ?_⟩
  unfold Evaluator.lookup
  split
  · exact ⟨trivial, start⟩
  · exact start

theorem frameCount : Kept Grown (Evaluator.frameCount (H := H)) Evaluator.frameCount := fun _ start =>
  ⟨rfl, trivial, start⟩

theorem make (f : Function H) : Kept Grown (Evaluator.make f) (Evaluator.make f) := fun _ start =>
  ⟨rfl, trivial, start.framed, start.within, rfl, rfl, start.frames⟩

theorem define (name : String) (v : Value H) :
    Kept Grown (Evaluator.define name v) (Evaluator.define name v) := fun _ start =>
  ⟨rfl, trivial, start.framed, start.within, rfl, rfl, bindInnermostGrown name v start.framed⟩

theorem assign (name : String) (v : Value H) :
    Kept Grown (Evaluator.assign name v) (Evaluator.assign name v) := by
  intro s start
  refine ⟨rfl, trivial, start.framed, start.within, rfl, rfl, ?_⟩
  dsimp only
  cases found : rebind name v s.frames with
  | none => exact bindInnermostGrown name v start.framed
  | some gs => exact sameNamesGrown start.framed (rebindSame found)

theorem inFrame (f : Frame H) (h : Kept Grown x y) :
    Kept SameNames (Evaluator.inFrame f x) (Evaluator.inFrame f y) := by
  intro s start
  simp only [inFrameRun]
  refine Agree.leaving h (balancedSelf (by simp [push]) start.within) fun after kept => ?_
  refine ⟨start.framed, start.within, kept.limit, kept.depth, ?_⟩
  have grown : Grown (f :: s.frames) after.frames := kept.frames
  revert grown
  cases left : after.frames with
  | nil => exact False.elim
  | cons g gs => exact fun grown => by simpa [pop, left] using grown.2

theorem counted (h : Kept SameNames x y) :
    Kept SameNames (Evaluator.counted x) (Evaluator.counted y) := by
  intro s start
  by_cases full : s.depth ≥ s.maxDepth
  · simp only [Evaluator.counted, if_pos full]
    exact ⟨trivial, start⟩
  · rw [countedRun x full, countedRun y full]
    have entered : Balanced SameNames s.enter s.enter :=
      ⟨start.framed, Nat.lt_of_not_le full, rfl, rfl, sameNamesRefl _⟩
    refine Agree.leaving h entered fun after kept => ?_
    have depth : after.depth = s.depth + 1 := kept.depth
    exact ⟨start.framed, start.within, kept.limit, by simp [leave, depth], kept.frames⟩

end Kept

namespace Evaluator

variable [Host H]

def evalWith (step : Instruction H → Eval H (Value H)) (run : List (Instruction H) → Eval H (Value H))
    (callBack : Value H → List (Value H) → Eval H (Value H)) : Instruction H → Eval H (Value H)
  | .literal value => pure (Value.ofLiteral value)
  | .lookup name => lookup name
  | .assign name value => do
    let v ← step value
    assign name v
  | .function params body => make (.user params body)
  | .call name args => do
    let callee ← lookup name
    let args ← evalEach step args
    invokeValue run callBack name true callee args
  | .callFunction params body args => do
    let args ← evalEach step args
    invoke run callBack anonymous false (.user params body) args
  | .callNative n args => do
    let args ← evalEach step args
    invoke run callBack anonymous false (.native n) args

theorem evalLevel (fuel : Nat) : evalInstruction (H := H) (fuel + 1) =
    evalWith (evalInstruction fuel) (runWith (evalInstruction fuel)) (callValue fuel) := by
  funext i
  cases i <;> simp only [evalInstruction, evalWith]

/-- Raises an alarm in place of running at a depth beyond the limit. -/
def watch (alarm : EvalError) (x : Eval H α) : Eval H α := fun s =>
  if s.depth ≤ s.maxDepth then x s else .error alarm s

mutual

def watchedInstruction (alarm : EvalError) : Nat → Instruction H → Eval H (Value H)
  | 0, _ => watch alarm Eval.outOfFuel
  | fuel + 1, i => watch alarm
    (evalWith (watchedInstruction alarm fuel)
      (fun body => watch alarm (runWith (watchedInstruction alarm fuel) body))
      (watchedCall alarm fuel) i)

def watchedCall (alarm : EvalError) : Nat → Value H → List (Value H) → Eval H (Value H)
  | 0, _, _ => watch alarm Eval.outOfFuel
  | fuel + 1, callee, args => watch alarm
    (invokeValue (fun body => watch alarm (runWith (watchedInstruction alarm fuel) body))
      (watchedCall alarm fuel) anonymous false callee args)

end

end Evaluator

namespace Kept

open Evaluator

variable {run run' : List (Instruction H) → Eval H (Value H)}
  {callBack callBack' : Value H → List (Value H) → Eval H (Value H)}

theorem watch (alarm : EvalError) {x y : Eval H α} {K : List (Frame H) → List (Frame H) → Prop}
    (h : Kept K x y) : Kept K (Evaluator.watch alarm x) y := by
  intro s start
  simp only [Evaluator.watch, if_pos start.within]
  exact h s start

section Calls

variable (calls : ∀ callee args, Kept Grown (callBack callee args) (callBack' callee args))

include calls

theorem runScript (script : Script H) :
    Kept Grown (Evaluator.runScript callBack script) (Evaluator.runScript callBack' script) := by
  induction script with
  | done v => exact .pure trivial
  | fail e => exact .fail e
  | call f args next ih => exact (calls f args).bind balancedComposes fun v _ => ih v
  | lookup name next ih => exact (lookup name).bind balancedComposes fun v _ => ih v
  | define name v next ih => exact (define name v).bind balancedComposes fun _ _ => ih
  | assign name v next ih => exact (assign name v).bind balancedComposes fun _ _ => ih
  | frameCount next ih => exact frameCount.bind balancedComposes fun n _ => ih n

variable [Host H]

theorem runNative (n : Native H) (args : List (Value H)) :
    Kept Grown (Evaluator.runNative callBack n args) (Evaluator.runNative callBack' n args) := by
  unfold Evaluator.runNative
  split
  · exact .ofExcept fun _ _ => trivial
  · exact .ofExcept fun _ _ => trivial
  · exact .ofExcept fun _ _ => trivial
  · exact .pure trivial
  · exact .pure trivial
  · exact calls _ _
  · exact runScript calls _
  · exact .fail _

variable (bodies : ∀ body, Kept Grown (run body) (run' body))

include bodies

theorem invoke (label : String) (byName : Bool) (f : Function H) (args : List (Value H)) :
    Kept SameNames (Evaluator.invoke run callBack label byName f args)
      (Evaluator.invoke run' callBack' label byName f args) := by
  unfold Evaluator.invoke
  split
  · exact .fail _
  · cases f with
    | user params body =>
      cases byName with
      | false => exact inFrame _ (bodies body)
      | true => exact counted (inFrame _ (bodies body))
    | native n => exact inFrame _ (runNative calls n args)

theorem invokeValue (label : String) (byName : Bool) (callee : Value H) (args : List (Value H)) :
    Kept SameNames (Evaluator.invokeValue run callBack label byName callee args)
      (Evaluator.invokeValue run' callBack' label byName callee args) := by
  cases callee with
  | function id f => exact invoke calls bodies label byName f args
  | nil => exact .fail _
  | integer n => exact .fail _
  | float x => exact .fail _

theorem evalWith {step step' : Instruction H → Eval H (Value H)}
    (steps : ∀ i, Kept Grown (step i) (step' i)) (i : Instruction H) :
    Kept Grown (Evaluator.evalWith step run callBack i) (Evaluator.evalWith step' run' callBack' i) := by
  have arguments : ∀ args, Kept Grown (evalEach step args) (evalEach step' args) := fun args =>
    (Agree.evalEach balancedComposes fun i _ => steps i).mono fun _ _ => trivial
  cases i with
  | literal value => exact .pure trivial
  | lookup name => exact lookup name
  | assign name value => exact (steps value).bind balancedComposes fun v _ => assign name v
  | function params body => exact make _
  | call name args =>
    refine (lookup name).bind balancedComposes fun callee _ => ?_
    exact (arguments args).bind balancedComposes fun vs _ =>
      (invokeValue calls bodies name true callee vs).grown
  | callFunction params body args =>
    exact (arguments args).bind balancedComposes fun vs _ =>
      (invoke calls bodies anonymous false (.user params body) vs).grown
  | callNative n args =>
    exact (arguments args).bind balancedComposes fun vs _ =>
      (invoke calls bodies anonymous false (.native n) vs).grown

end Calls

theorem body [Host H] {alarm : EvalError} {fuel : Nat}
    (steps : ∀ i : Instruction H, Kept Grown (watchedInstruction alarm fuel i) (evalInstruction fuel i))
    (is : List (Instruction H)) :
    Kept Grown (Evaluator.watch alarm (runWith (watchedInstruction alarm fuel) is))
      (runWith (evalInstruction fuel) is) :=
  watch alarm (Agree.runWith balancedComposes (fun i _ => steps i) trivial)

theorem evaluation [Host H] (alarm : EvalError) (fuel : Nat) :
    (∀ i : Instruction H, Kept Grown (watchedInstruction alarm fuel i) (evalInstruction fuel i)) ∧
      ∀ (callee : Value H) args,
        Kept SameNames (watchedCall alarm fuel callee args) (callValue fuel callee args) := by
  -- By induction on fuel, for instructions and for call backs at once.
  induction fuel with
  | zero => exact ⟨fun i => watch alarm outOfFuel, fun callee args => watch alarm outOfFuel⟩
  | succ fuel ih =>
    obtain ⟨steps, calls⟩ := ih
    have calls' : ∀ callee args, Kept Grown (watchedCall alarm fuel callee args)
        (callValue fuel callee args) := fun callee args => (calls callee args).grown
    constructor
    · intro i
      rw [evalLevel]
      exact watch alarm (evalWith calls' (body steps) steps i)
    · intro callee args
      exact watch alarm (invokeValue calls' (body steps) anonymous false callee args)

end Kept

namespace Evaluator

/-- Evaluating an instruction in any frames, within the depth limit: watched for the limit it is the same,
and in a value as in an error it leaves the depth, all frames and all their names, of which only the
innermost frame may have more. A call leaves every frame the names it had. -/
theorem evaluationBalanced [Host H] (alarm : EvalError) (fuel : Nat) {s : Evaluator H}
    (framed : s.frames ≠ []) (within : s.depth ≤ s.maxDepth) :
    (∀ i, watchedInstruction alarm fuel i s = evalInstruction fuel i s ∧
      ∀ after, (evalInstruction fuel i s).after? = some after →
        after.frames.length = s.frames.length ∧ after.depth = s.depth ∧
          after.maxDepth = s.maxDepth ∧ Grown s.frames after.frames) ∧
    ∀ callee args, watchedCall alarm fuel callee args s = callValue fuel callee args s ∧
      ∀ after, (callValue fuel callee args s).after? = some after →
        after.depth = s.depth ∧ after.maxDepth = s.maxDepth ∧ SameNames s.frames after.frames := by
  obtain ⟨instructions, calls⟩ := Kept.evaluation (H := H) alarm fuel
  have start := balancedSelf framed within
  constructor
  · intro i
    obtain ⟨same, ends⟩ := instructions i s start
    refine ⟨same, fun after found => ?_⟩
    have kept := Outcome.endsAfter ends found
    exact ⟨grownLength kept.frames, kept.depth, kept.limit, kept.frames⟩
  · intro callee args
    obtain ⟨same, ends⟩ := calls callee args s (balancedSame start)
    refine ⟨same, fun after found => ?_⟩
    have kept := Outcome.endsAfter ends found
    exact ⟨kept.depth, kept.limit, kept.frames⟩

theorem evaluationBalancedInError :
    ∃ (s after : Evaluator Empty) (i : Instruction Empty), s.frames ≠ [] ∧ s.depth ≤ s.maxDepth ∧
      evalInstruction 5 i s = .error (.unboundName "missing") after ∧
      after.frames.map (List.map Prod.fst) = [["y"], ["x"]] ∧
      after.frames.length = s.frames.length ∧ after.depth = s.depth ∧
      Grown s.frames after.frames := by
  let s : Evaluator Empty := ⟨[[], [("x", .nil)]], 1, 1, 0⟩
  let i : Instruction Empty := .callFunction ["p"]
    [.assign "x" (.lookup "p"), .assign "own" (.lookup "x"), .lookup "missing"]
    [.assign "y" (.literal (.integer 1))]
  obtain ⟨-, kept⟩ :=
    (evaluationBalanced (EvalError.integerOverflow) 5 (s := s) (by simp [s]) (by simp [s])).1 i
  obtain ⟨length, depth, -, grown⟩ := kept _ rfl
  exact ⟨s, _, i, by simp [s], by simp [s], rfl, rfl, length, depth, grown⟩

end Evaluator
end Parlance
