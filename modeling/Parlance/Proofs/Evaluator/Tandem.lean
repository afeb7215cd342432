import Parlance.Proofs.Evaluator.Frames
import Parlance.Proofs.Evaluator.Matched

/-! Two evaluations side by side. Their code is related piece by piece, their frames match and their limits are
related; then one keeps beside the other through every piece of an evaluation, unless one of them fails in a
way that the comparison gives up. The first runs with some fuel, the second with as much as it takes. -/
namespace Parlance

variable {H α β γ δ : Type}

def Instruction.grouped (i : Instruction H) : Nat → Instruction H
  | 0 => i
  | n + 1 => .callNative .group [i.grouped n]

/-- What two evaluations have in common, with the reasons why it lasts. The code of the second may be in other
groups than that of the first. After an error that is lost for the first, or missed by the second, nothing is
compared any more; where the second is bounded it needs no more fuel than the first. What else is known of the
frames of the first is its guard, which may depend on how many frames there are. -/
structure Tandem (H : Type) [Host H] where
  codes : Instruction H → Instruction H → Prop
  limits : Nat → Nat → Prop
  lost : EvalError → Prop
  missed : EvalError → Prop
  bounded : Prop
  World : Type := Unit
  inner : World → World := id
  guard : World → List (Frame H) → Prop := fun _ _ => True
  shaped : ∀ {i j : Instruction H}, codes i j → ∃ (m n : Nat) (i' j' : Instruction H),
    i = i'.grouped m ∧ j = j'.grouped n ∧ (bounded → n ≤ m) ∧ i'.Shaped codes j'
  full : ∀ {a b depth}, limits a b → a ≤ depth → lost (.callDepthExceeded a) ∨
    b ≤ depth ∧ (missed (.callDepthExceeded b) ∨ b = a)
  roomy : ∀ {a b depth}, limits a b → ¬ a ≤ depth → b ≤ depth → missed (.callDepthExceeded b)
  hosts : ∀ h {args args'}, List.Forall₂ (Value.Matched codes) args args' →
    (Host.run h args).Matched codes (Host.run h args')
  rebound : ∀ {w name v fs gs}, guard w fs → Evaluator.rebind name v fs = some gs → guard w gs := by
    intros
    trivial
  bound : ∀ {w fs} name v, guard w fs → guard w (Evaluator.bindInnermost name v fs) := by
    intros
    trivial
  pushed : ∀ {w fs} f, guard w fs → guard (inner w) (f :: fs) := by
    intros
    trivial
  popped : ∀ {w fs}, guard (inner w) fs → guard w fs.tail := by
    intros
    trivial

namespace Tandem

variable [Host H] (T : Tandem H)

structure States (w : T.World) (s t : Evaluator H) : Prop where
  frames : Evaluator.FramesMatched T.codes s.frames t.frames
  depth : t.depth = s.depth
  ids : t.nextId = s.nextId
  limit : T.limits s.maxDepth t.maxDepth
  guard : T.guard w s.frames

def Lost : Outcome EvalError (Evaluator H) α → Prop
  | .value _ _ => False
  | .error e _ => T.lost e
  | .outOfFuel => True

def Met (w : T.World) (V : α → β → Prop) :
    Outcome EvalError (Evaluator H) α → Outcome EvalError (Evaluator H) β → Prop
  | .value a s, .value b t => V a b ∧ T.States w s t
  | .error e s, .error d t => T.missed d ∨ d = e ∧ T.States w s t
  | .value _ _, .error d _ => T.missed d
  | _, _ => False

/-- From related states the first is lost, or the second ends beside it from some fuel on. -/
def Keeps (fuel : Nat) (V : α → β → Prop) (x : Eval H α) (y : Nat → Eval H β) : Prop :=
  ∀ w s t, T.States w s t → T.Lost (x s) ∨
    ∃ least p, (T.bounded → least ≤ fuel) ∧ (∀ more ≥ least, y more t = p) ∧ T.Met w V (x s) p

variable {T} {fuel : Nat} {V : α → β → Prop} {W : γ → δ → Prop} {x : Eval H α} {y : Nat → Eval H β}

theorem keepsOf {z : Eval H β} (met : ∀ w s t, T.States w s t → T.Met w V (x s) (z t)) :
    T.Keeps fuel V x fun _ => z := fun w s t h =>
  .inr ⟨0, z t, fun _ => Nat.zero_le _, fun _ _ => rfl, met w s t h⟩

theorem pure {a : α} {b : β} (h : V a b) : T.Keeps fuel V (Eval.pure a) fun _ => Eval.pure b :=
  keepsOf fun _ _ _ states => ⟨h, states⟩

theorem fail (e : EvalError) : T.Keeps fuel V (Eval.fail e) fun _ => Eval.fail e :=
  keepsOf fun _ _ _ states => .inr ⟨rfl, states⟩

theorem ofExcept {r : Except EvalError (Value H)} (data : ∀ v, r = .ok v → v.IsData) :
    T.Keeps fuel (Value.Matched T.codes) (Eval.ofExcept r) fun _ => Eval.ofExcept r := by
  cases r with
  | ok v => exact pure (dataMatched (data v rfl))
  | error e => exact fail e

theorem metMissed {w : T.World} {e : EvalError} (missed : T.missed e) (t : Evaluator H)
    (o : Outcome EvalError (Evaluator H) α) : T.Lost o ∨ T.Met w V o (.error e t) := by
  cases o with
  | value a s => exact .inr missed
  | error d s => exact .inr (.inl missed)
  | outOfFuel => exact .inl trivial

theorem bind {f : α → Eval H γ} {g : Nat → β → Eval H δ} (first : T.Keeps fuel V x y)
    (next : ∀ a b, V a b → T.Keeps fuel W (f a) fun n => g n b) :
    T.Keeps fuel W (x >>= f) fun n => y n >>= g n := by
  intro w s t states
  simp only [Bind.bind, Eval.bind]
  obtain lost | ⟨least, p, within, settled, met⟩ := first w s t states
  · revert lost
    cases x s with
    | value a s' => exact False.elim
    | error e s' => exact .inl
    | outOfFuel => exact .inl
  revert met
  cases x s with
  | outOfFuel => exact fun _ => .inl trivial
  | error e s' =>
    cases p with
    | value b t' => exact False.elim
    | outOfFuel => exact False.elim
    | error d t' =>
      exact fun met => .inr ⟨least, .error d t', within, fun more le => by rw [settled more le], met⟩
  | value a s' =>
    cases p with
    | outOfFuel => exact False.elim
    | error d t' =>
      intro missed
      obtain lost | met := metMissed (V := W) (w := w) missed t' (f a s')
      · exact .inl lost
      · exact .inr ⟨least, .error d t', within, fun more le => by rw [settled more le], met⟩
    | value b t' =>
      rintro ⟨related, states'⟩
      refine (next a b related w s' t' states').imp id ?_
      rintro ⟨least', q, within', settled', met⟩
      refine ⟨max least least', q, fun bounded => ?_, fun more le => ?_, met⟩
      · exact Nat.max_le.mpr ⟨within bounded, within' bounded⟩
      · rw [settled more (by omega)]
        exact settled' more (by omega)

theorem deeper {z : Nat → Eval H β} {k d : Nat} (h : T.Keeps fuel V x y)
    (same : ∀ n, z (n + k) = y n) (le : T.bounded → k ≤ d) : T.Keeps (fuel + d) V x z := by
  intro w s t states
  refine (h w s t states).imp id ?_
  rintro ⟨least, p, within, settled, met⟩
  refine ⟨least + k, p, fun bounded => Nat.add_le_add (within bounded) (le bounded), fun more enough => ?_,
    met⟩
  obtain ⟨n, rfl⟩ := Nat.exists_eq_add_of_le' (Nat.le_of_add_left_le enough)
  rw [same n]
  exact settled n (by omega)

theorem lookup (name : String) : T.Keeps fuel (Value.Matched T.codes) (Evaluator.lookup name)
    fun _ => Evaluator.lookup name := by
  refine keepsOf fun w s t states => ?_
  have found := Evaluator.findMatched states.frames name
  unfold Evaluator.lookup
  revert found
  cases Evaluator.find? name s.frames <;> cases Evaluator.find? name t.frames <;> intro found <;>
    cases found
  · exact .inr ⟨rfl, states⟩
  · rename_i same
    exact ⟨same, states⟩

section Bindings

variable {v u : Value H} (same : v.Matched T.codes u)

include same

theorem define (name : String) : T.Keeps fuel Eq (Evaluator.define name v)
    fun _ => Evaluator.define name u :=
  keepsOf fun _ _ _ states => ⟨rfl, Evaluator.bindInnermostMatched states.frames same name,
    states.depth, states.ids, states.limit, T.bound name v states.guard⟩

theorem assign (name : String) : T.Keeps fuel (Value.Matched T.codes) (Evaluator.assign name v)
    fun _ => Evaluator.assign name u := by
  refine keepsOf fun w s t states => ⟨same, ?_, states.depth, states.ids, states.limit, ?_⟩
  · have nearest := Evaluator.rebindMatched states.frames same name
    have innermost := Evaluator.bindInnermostMatched states.frames same name
    dsimp only
    revert nearest
    cases Evaluator.rebind name v s.frames <;> cases Evaluator.rebind name u t.frames <;>
      intro nearest <;> cases nearest
    · exact innermost
    · rename_i matched
      exact matched
  · dsimp only
    cases found : Evaluator.rebind name v s.frames with
    | none => exact T.bound name v states.guard
    | some gs => exact T.rebound states.guard found

end Bindings

theorem make {f g : Function H} (same : f.Matched T.codes g) :
    T.Keeps fuel (Value.Matched T.codes) (Evaluator.make f) fun _ => Evaluator.make g := by
  refine keepsOf fun w s t states => ⟨?_, states.frames, states.depth, ?_, states.limit, states.guard⟩
  · rw [states.ids]
    exact .function _ same
  · exact congrArg (· + 1) states.ids

theorem frameCount : T.Keeps fuel Eq Evaluator.frameCount fun _ => Evaluator.frameCount :=
  keepsOf fun _ _ _ states => ⟨states.frames.length_eq, states⟩

theorem leaving {w inside : T.World} {s t : Evaluator H} {back : Evaluator H → Evaluator H}
    (h : T.Keeps fuel V x y) (entered : T.States inside s t)
    (left : ∀ s t, T.States inside s t → T.States w (back s) (back t)) :
    T.Lost ((x s).leaving back) ∨ ∃ least p, (T.bounded → least ≤ fuel) ∧
      (∀ more ≥ least, (y more t).leaving back = p) ∧ T.Met w V ((x s).leaving back) p := by
  obtain lost | ⟨least, p, within, settled, met⟩ := h _ _ _ entered
  · left
    revert lost
    cases x s <;> exact id
  · refine .inr ⟨least, p.leaving back, within, fun more le => by rw [settled more le], ?_⟩
    revert met
    cases x s <;> cases p <;> intro met <;> try contradiction
    · exact ⟨met.1, left _ _ met.2⟩
    · exact met
    · exact met.imp id fun met => ⟨met.1, left _ _ met.2⟩

theorem inFrame {f g : Frame H} (same : f.Matched T.codes g) (h : T.Keeps fuel V x y) :
    T.Keeps fuel V (Evaluator.inFrame f x) fun n => Evaluator.inFrame g (y n) := by
  intro w s t states
  simp only [Evaluator.inFrameRun]
  have entered : T.States (T.inner w) (s.push f) (t.push g) :=
    ⟨.cons same states.frames, states.depth, states.ids, states.limit, T.pushed f states.guard⟩
  exact leaving h entered fun s t states => ⟨Evaluator.tailMatched states.frames, states.depth,
    states.ids, states.limit, T.popped states.guard⟩

theorem counted (h : T.Keeps fuel V x y) :
    T.Keeps fuel V (Evaluator.counted x) fun n => Evaluator.counted (y n) := by
  intro w s t states
  have depth := states.depth
  by_cases full : s.depth ≥ s.maxDepth
  · have ended : Evaluator.counted x s = .error (.callDepthExceeded s.maxDepth) s := by
      simp only [Evaluator.counted, if_pos full]
    rw [ended]
    refine (T.full states.limit full).imp id ?_
    rintro ⟨full', given⟩
    refine ⟨0, .error (.callDepthExceeded t.maxDepth) t, fun _ => Nat.zero_le _, fun more _ => ?_, ?_⟩
    · simp only [Evaluator.counted, if_pos (depth ▸ full' : t.depth ≥ t.maxDepth)]
    · exact given.imp id fun same => ⟨congrArg _ same, states⟩
  · by_cases full' : t.depth ≥ t.maxDepth
    · have missed := T.roomy states.limit full (depth ▸ full')
      obtain lost | met := metMissed (V := V) (w := w) missed t (Evaluator.counted x s)
      · exact .inl lost
      · refine .inr ⟨0, _, fun _ => Nat.zero_le _, fun more _ => ?_, met⟩
        simp only [Evaluator.counted, if_pos full']
    · simp only [Evaluator.countedRun _ full, Evaluator.countedRun _ full']
      have entered : T.States w s.enter t.enter := ⟨states.frames, congrArg (· + 1) states.depth,
        states.ids, states.limit, states.guard⟩
      exact leaving h entered fun s t states => ⟨states.frames, congrArg (· - 1) states.depth,
        states.ids, states.limit, states.guard⟩

section Levels

variable {step : Instruction H → Eval H (Value H)} {step' : Nat → Instruction H → Eval H (Value H)}
  {run : List (Instruction H) → Eval H (Value H)} {run' : Nat → List (Instruction H) → Eval H (Value H)}
  {callBack : Value H → List (Value H) → Eval H (Value H)}
  {callBack' : Nat → Value H → List (Value H) → Eval H (Value H)}

section Sequences

variable (steps : ∀ {i j}, T.codes i j → T.Keeps fuel (Value.Matched T.codes) (step i) fun n => step' n j)
  {is js : List (Instruction H)} (related : List.Forall₂ T.codes is js)

include steps related

theorem evalEach : T.Keeps fuel (List.Forall₂ (Value.Matched T.codes)) (Evaluator.evalEach step is)
    fun n => Evaluator.evalEach (step' n) js := by
  induction related with
  | nil => exact pure .nil
  | cons first _ ih =>
    exact bind (steps first) fun v w same => bind ih fun vs ws others => pure (.cons same others)

theorem runFrom {last last' : Value H} (same : last.Matched T.codes last') :
    T.Keeps fuel (Value.Matched T.codes) (Evaluator.runFrom step last is)
      fun n => Evaluator.runFrom (step' n) last' js := by
  induction related generalizing last last' with
  | nil => exact pure same
  | cons first _ ih => exact bind (steps first) fun v w same => ih same

theorem runWith : T.Keeps fuel (Value.Matched T.codes) (Evaluator.runWith step is)
    fun n => Evaluator.runWith (step' n) js :=
  runFrom steps related .nil

end Sequences

variable (calls : ∀ {f g args args'}, f.Matched T.codes g → List.Forall₂ (Value.Matched T.codes) args args' →
  T.Keeps fuel (Value.Matched T.codes) (callBack f args) fun n => callBack' n g args')

include calls

theorem runScript {script script' : Script H} (same : script.Matched T.codes script') :
    T.Keeps fuel (Value.Matched T.codes) (Evaluator.runScript callBack script)
      fun n => Evaluator.runScript (callBack' n) script' := by
  induction same with
  | done result => exact pure result
  | fail e => exact fail e
  | call callee given _ ih => exact bind (calls callee given) fun v w same => ih v w same
  | lookup name _ ih => exact bind (lookup name) fun v w same => ih v w same
  | define name given _ ih => exact bind (define given name) fun _ _ _ => ih
  | assign name given _ ih => exact bind (assign given name) fun _ _ _ => ih
  | frameCount _ ih => exact bind frameCount fun n _ same => same ▸ ih n

theorem runNative (n : Native H) {args args' : List (Value H)} (arity : args.length = n.params.length)
    (given : List.Forall₂ (Value.Matched T.codes) args args') :
    T.Keeps fuel (Value.Matched T.codes) (Evaluator.runNative callBack n args)
      fun m => Evaluator.runNative (callBack' m) n args' := by
  cases n with
  | arithmetic op =>
    obtain ⟨a, b, rfl⟩ := List.length_eq_two.mp arity
    obtain _ | ⟨left, _ | ⟨right, _ | _⟩⟩ := given
    simp only [Evaluator.runNative, Operation.arithmeticMatched left right]
    exact ofExcept fun v => Operation.arithmeticData
  | negate =>
    obtain ⟨a, rfl⟩ := List.length_eq_one_iff.mp arity
    obtain _ | ⟨operand, _ | _⟩ := given
    simp only [Evaluator.runNative, Operation.negateMatched operand]
    exact ofExcept fun v => Operation.negateData
  | compare op =>
    obtain ⟨a, b, rfl⟩ := List.length_eq_two.mp arity
    obtain _ | ⟨left, _ | ⟨right, _ | _⟩⟩ := given
    simp only [Evaluator.runNative, Operation.comparisonMatched left right]
    exact ofExcept fun v => Operation.comparisonData
  | identity =>
    obtain ⟨a, rfl⟩ := List.length_eq_one_iff.mp arity
    obtain _ | ⟨value, _ | _⟩ := given
    exact pure value
  | group =>
    obtain ⟨a, rfl⟩ := List.length_eq_one_iff.mp arity
    obtain _ | ⟨value, _ | _⟩ := given
    exact pure value
  | branch =>
    obtain ⟨a, b, c, rfl⟩ := List.length_eq_three.mp arity
    obtain _ | ⟨guard, _ | ⟨yes, _ | ⟨no, _ | _⟩⟩⟩ := given
    simp only [Evaluator.runNative, truthMatched guard]
    split
    · exact calls yes .nil
    · exact calls no .nil
  | host h => exact runScript calls (T.hosts h given)

variable (bodies : ∀ {is js}, List.Forall₂ T.codes is js →
  T.Keeps fuel (Value.Matched T.codes) (run is) fun n => run' n js)

include bodies

theorem invoke (label : String) (byName : Bool) {f g : Function H} {args args' : List (Value H)}
    (callee : f.Matched T.codes g) (given : List.Forall₂ (Value.Matched T.codes) args args') :
    T.Keeps fuel (Value.Matched T.codes) (Evaluator.invoke run callBack label byName f args)
      fun n => Evaluator.invoke (run' n) (callBack' n) label byName g args' := by
  have params : g.params = f.params := by cases callee <;> rfl
  have frame := Frame.bindAllMatched given f.params (.nil : Frame.Matched T.codes [] [])
  simp only [Evaluator.invoke, Function.arity, params, ← given.length_eq, bne_iff_ne]
  by_cases arity : args.length = f.params.length
  · simp only [if_neg (not_not_intro arity)]
    cases callee with
    | user params body =>
      cases byName with
      | false => exact inFrame frame (bodies body)
      | true => exact counted (inFrame frame (bodies body))
    | native n => exact inFrame frame (runNative calls n arity given)
  · simp only [if_pos arity]
    exact fail _

theorem invokeValue (label : String) (byName : Bool) {v w : Value H} {args args' : List (Value H)}
    (callee : v.Matched T.codes w) (given : List.Forall₂ (Value.Matched T.codes) args args') :
    T.Keeps fuel (Value.Matched T.codes) (Evaluator.invokeValue run callBack label byName v args)
      fun n => Evaluator.invokeValue (run' n) (callBack' n) label byName w args' := by
  cases callee with
  | nil => exact fail _
  | integer n => exact fail _
  | float x => exact fail _
  | function id same => exact invoke calls bodies label byName same given

theorem evalWith (steps : ∀ {i j}, T.codes i j →
      T.Keeps fuel (Value.Matched T.codes) (step i) fun n => step' n j)
    {i j : Instruction H} (shaped : i.Shaped T.codes j) :
    T.Keeps fuel (Value.Matched T.codes) (Evaluator.evalWith step run callBack i)
      fun n => Evaluator.evalWith (step' n) (run' n) (callBack' n) j := by
  cases shaped with
  | literal value => exact pure (dataMatched (literalData value))
  | lookup name => exact lookup name
  | assign name part => exact bind (steps part) fun v w same => assign same name
  | function params body => exact make (.user params body)
  | call name args =>
    refine bind (lookup name) fun callee callee' same => ?_
    exact bind (evalEach steps args) fun vs ws given => invokeValue calls bodies name true same given
  | callFunction params inner args =>
    exact bind (evalEach steps args) fun vs ws given =>
      invoke calls bodies Evaluator.anonymous false (.user params inner) given
  | callNative n args =>
    exact bind (evalEach steps args) fun vs ws given =>
      invoke calls bodies Evaluator.anonymous false (.native n) given

end Levels

end Tandem

namespace Evaluator

variable [Host H]

theorem evalGroup (fuel : Nat) (i : Instruction H) :
    evalInstruction (fuel + 1) (.callNative .group [i]) = evalInstruction fuel i := by
  funext s
  simp only [evalInstruction, evalEach, Bind.bind, Eval.bind]
  cases evalInstruction fuel i s <;> rfl

theorem evalGrouped (fuel : Nat) (i : Instruction H) (n : Nat) :
    evalInstruction (fuel + n) (i.grouped n) = evalInstruction fuel i := by
  induction n with
  | zero => rfl
  | succ n ih => exact (evalGroup (fuel + n) _).trans ih

theorem groupedStarved (i : Instruction H) (s : Evaluator H) {fuel n : Nat} (starved : fuel ≤ n) :
    evalInstruction fuel (i.grouped n) s = .outOfFuel := by
  induction n generalizing fuel with
  | zero =>
    obtain rfl := Nat.le_zero.mp starved
    rfl
  | succ n ih =>
    cases fuel with
    | zero => rfl
    | succ fuel => exact (congrFun (evalGroup fuel _) s).trans (ih (Nat.le_of_succ_le_succ starved))

end Evaluator

namespace Tandem

open Evaluator

variable [Host H] (T : Tandem H)

theorem evaluation (fuel : Nat) :
    (∀ {i j}, T.codes i j →
      T.Keeps fuel (Value.Matched T.codes) (evalInstruction fuel i) fun n => evalInstruction n j) ∧
    ∀ {f g args args'}, f.Matched T.codes g → List.Forall₂ (Value.Matched T.codes) args args' →
      T.Keeps fuel (Value.Matched T.codes) (callValue fuel f args) fun n => callValue n g args' := by
  -- By induction on the fuel of the first, for instructions and for calls at once. Groups are taken off both codes
  -- before the forms below are compared.
  induction fuel using Nat.strongRecOn with
  | ind fuel ih =>
    constructor
    · intro i j related
      obtain ⟨m, n, i, j, rfl, rfl, le, shaped⟩ := T.shaped related
      by_cases starved : fuel ≤ m
      · exact fun w s t _ => .inl (by rw [groupedStarved i s starved]; trivial)
      · obtain ⟨d, rfl⟩ := Nat.exists_eq_add_of_lt (Nat.lt_of_not_le starved)
        obtain ⟨steps, calls⟩ := ih d (by omega)
        have level := evalWith calls (runWith steps) steps shaped
        have lower := deeper (z := fun more => evalInstruction more (j.grouped n)) (k := 1 + n) (d := 1 + m)
          level (fun more => by rw [← Nat.add_assoc, evalGrouped, evalLevel]) fun bounded =>
            Nat.add_le_add_left (le bounded) 1
        rw [show m + d + 1 = d + 1 + m by omega, evalGrouped, evalLevel, Nat.add_assoc]
        exact lower
    · intro f g args args' callee given
      cases fuel with
      | zero => exact fun w s t _ => .inl trivial
      | succ fuel =>
        obtain ⟨steps, calls⟩ := ih fuel (Nat.lt_succ_self fuel)
        exact deeper (invokeValue calls (runWith steps) anonymous false callee given) (fun _ => rfl)
          fun _ => Nat.le_refl 1

end Tandem
end Parlance
