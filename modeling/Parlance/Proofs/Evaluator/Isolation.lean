import Parlance.Proofs.Evaluator.Limit
import Parlance.Proofs.Language.Hygiene

/-! Parameters isolate the caller. Names are bound in the nearest frame that binds them, and while a call runs
its own frame binds its parameters, so whatever is called from there on and however it ends, nothing below
that frame is asked about a parameter. -/
namespace Parlance

variable {H : Type} {p name : String} {v : Value H} {fs gs : List (Frame H)}

theorem rebindOther (other : name ≠ p) (found : Evaluator.rebind name v fs = some gs) :
    Answering (· = p) fs gs := by
  induction fs generalizing gs with
  | nil => cases found
  | cons f fs ih =>
    simp only [Evaluator.rebind] at found
    split at found
    · cases found
      refine .cons ?_ (answeringMaps (Evaluator.sameMapsRefl fs))
      rintro _ rfl
      rw [Frame.lookupBind, if_neg other.symm]
    · obtain ⟨gs, inner, rfl⟩ := Option.map_eq_some_iff.mp found
      exact .cons (fun _ _ => rfl) (ih inner)

/-- The frame with so many frames above it binds the name, and those below answer it as the base does. -/
def Shielded (p : String) (base : List (Frame H)) : Nat → List (Frame H) → Prop
  | 0, f :: outer => f.binds p = true ∧ Answering (· = p) base outer
  | n + 1, _ :: fs => Shielded p base n fs
  | _, [] => False

variable {base : List (Frame H)} {n : Nat}

theorem shieldedRebind (shielded : Shielded p base n fs)
    (found : Evaluator.rebind name v fs = some gs) : Shielded p base n gs := by
  induction fs generalizing n gs with
  | nil => cases found
  | cons f fs ih =>
    simp only [Evaluator.rebind] at found
    split at found
    · cases found
      cases n with
      | zero => exact ⟨by simp [Frame.bindsBind, shielded.1], shielded.2⟩
      | succ n => exact shielded
    · rename_i unbound
      obtain ⟨gs, inner, rfl⟩ := Option.map_eq_some_iff.mp found
      cases n with
      | zero =>
        -- the frame of the call is passed over only for another name
        have other : name ≠ p := by
          rintro rfl
          exact unbound shielded.1
        exact ⟨shielded.1, answeringTrans shielded.2 (rebindOther other inner)⟩
      | succ n => exact ih (n := n) shielded inner

theorem shieldedBind (name : String) (v : Value H) (shielded : Shielded p base n fs) :
    Shielded p base n (Evaluator.bindInnermost name v fs) := by
  cases fs with
  | nil => cases n <;> exact shielded.elim
  | cons f fs =>
    cases n with
    | zero => exact ⟨by simp [Frame.bindsBind, shielded.1], shielded.2⟩
    | succ n => exact shielded

theorem shieldedTail (shielded : Shielded p base (n + 1) fs) : Shielded p base n fs.tail := by
  cases fs with
  | nil => exact shielded.elim
  | cons f fs => exact shielded

variable [Host H]

def Tandem.shielding (limit : Nat) (p : String) (base : List (Frame H)) : Tandem H :=
  { Tandem.limiting H limit limit with
    World := Nat
    inner := (· + 1)
    guard := Shielded p base
    rebound := shieldedRebind
    bound := shieldedBind
    pushed := fun _ shielded => shielded
    popped := shieldedTail }

namespace Frame

variable {f : Frame H} {names : List String} {vs : List (Value H)}

omit [Host H]

theorem bindAllKeeps (bound : f.binds p = true) : (f.bindAll names vs).binds p = true := by
  induction names generalizing f vs with
  | nil => simpa only [bindAll] using bound
  | cons name names ih =>
    cases vs with
    | nil => simpa only [bindAll] using bound
    | cons v vs => exact ih (by rw [bindsBind, bound, Bool.or_true])

theorem bindAllBinds (given : vs.length = names.length) (member : p ∈ names) :
    (f.bindAll names vs).binds p = true := by
  induction names generalizing f vs with
  | nil => contradiction
  | cons name names ih =>
    cases vs with
    | nil => contradiction
    | cons v vs =>
      rcases List.mem_cons.mp member with rfl | later
      · exact bindAllKeeps (f := f.bind p v) (by rw [bindsBind, beq_self_eq_true, Bool.true_or])
      · exact ih (Nat.succ.inj given) later

end Frame

omit [Host H] in
theorem Outcome.leavingAfter {α : Type} (change : Evaluator H → Evaluator H)
    (o : Outcome EvalError (Evaluator H) α) : (o.leaving change).after? = o.after?.map change := by
  cases o <;> rfl

theorem Tandem.keepsGuard {T : Tandem H} {fuel : Nat} {V : Value H → Value H → Prop} {x : Eval H (Value H)}
    {y : Nat → Eval H (Value H)} (keeps : T.Keeps fuel V x y) (unlost : ∀ e, ¬ T.lost e)
    (unmissed : ∀ e, ¬ T.missed e) {w : T.World} {s t after : Evaluator H} (start : T.States w s t)
    (ended : (x s).after? = some after) : T.guard w after.frames := by
  obtain lost | ⟨_, q, -, -, met⟩ := keeps w s t start
  · revert lost ended
    cases x s with
    | value v s => exact fun _ => False.elim
    | error e s => exact fun _ lost => absurd lost (unlost e)
    | outOfFuel => exact nofun
  · revert met ended
    cases x s <;> cases q <;> rintro ended met <;> try exact met.elim
    · cases ended
      exact met.2.guard
    · exact absurd met (unmissed _)
    · cases ended
      obtain missed | ⟨-, states⟩ := met
      · exact absurd missed (unmissed _)
      · exact states.guard

namespace Evaluator

/-- However it ends, every frame binds the name as it did, or as before not at all. -/
def Isolates (p : String) (x : Eval H (Value H)) : Prop :=
  ∀ s after, (x s).after? = some after → Answering (· = p) s.frames after.frames

variable {x : Eval H (Value H)}

theorem inFrameIsolates {fuel : Nat} {y : Nat → Eval H (Value H)}
    (keeps : ∀ limit base, (Tandem.shielding limit p base).Keeps fuel (Value.Matched Eq) x y)
    {f : Frame H} (binds : f.binds p = true) : Isolates p (inFrame f x) := by
  intro s after ended
  have start : (Tandem.shielding s.maxDepth p s.frames).States (0 : Nat) (s.push f) (s.push f) :=
    ⟨framesSelf (fun _ => rfl) _, rfl, rfl, ⟨rfl, rfl⟩, binds, answeringMaps (sameMapsRefl _)⟩
  rw [inFrameRun, Outcome.leavingAfter] at ended
  obtain ⟨t, reached, rfl⟩ := Option.map_eq_some_iff.mp ended
  have shielded : Shielded p s.frames 0 t.frames := Tandem.keepsGuard (keeps _ _)
    (fun e lost => Nat.lt_irrefl _ lost.1) (fun e missed => Nat.lt_irrefl _ missed.1) start reached
  unfold pop
  revert shielded
  cases t.frames with
  | nil => exact False.elim
  | cons f fs => exact fun shielded => shielded.2

omit [Host H] in
theorem failIsolates (e : EvalError) : Isolates p (Eval.fail e : Eval H (Value H)) := by
  rintro s _ ⟨⟩
  exact answeringMaps (sameMapsRefl _)

omit [Host H] in
theorem countedIsolates (inside : Isolates p x) : Isolates p (counted x) := by
  intro s after ended
  by_cases full : s.depth ≥ s.maxDepth
  · simp only [counted, if_pos full] at ended
    exact failIsolates (.callDepthExceeded s.maxDepth) s after ended
  · rw [countedRun x full, Outcome.leavingAfter] at ended
    obtain ⟨t, reached, rfl⟩ := Option.map_eq_some_iff.mp ended
    exact inside s.enter t reached

theorem invokeIsolates (fuel : Nat) (label : String) (byName : Bool) {f : Function H}
    (param : p ∈ f.params) (args : List (Value H)) :
    Isolates p (invoke (runWith (evalInstruction fuel)) (callValue fuel) label byName f args) := by
  have evaluation := fun limit base => (Tandem.shielding (H := H) limit p base).evaluation fuel
  unfold invoke
  split
  · exact failIsolates _
  · rename_i arity
    have given : args.length = f.params.length := by simpa [Function.arity] using arity
    have binds : (Frame.bindAll f.params args []).binds p = true := Frame.bindAllBinds given param
    cases f with
    | user params body =>
      have framed := inFrameIsolates (x := runWith (evalInstruction fuel) body)
        (fun limit base => Tandem.runWith (evaluation limit base).1 (List.forall₂_same.mpr fun _ _ => rfl))
        binds
      cases byName with
      | false => exact framed
      | true => exact countedIsolates framed
    | native n =>
      exact inFrameIsolates (fun limit base => Tandem.runNative (evaluation limit base).2 n given
        (List.forall₂_same.mpr fun v _ => matchedSelf (fun _ => rfl) v)) binds

/-- A call of a function value, by name, directly or back from a native, changes the binding of a parameter in
no frame there was before it, whatever the body does, assigns and calls, in a value as in any error. -/
theorem parametersIsolate {f : Function H} (param : p ∈ f.params) (id : Nat) (args : List (Value H)) :
    (∀ fuel label byName, Isolates p (invokeValue (runWith (evalInstruction fuel)) (callValue fuel) label
      byName (.function id f) args)) ∧
    Isolates p (call (.function id f) args) := by
  refine ⟨fun fuel label byName => invokeIsolates fuel label byName param args, fun s after ended => ?_⟩
  unfold call at ended
  cases fueled : s.fuelFor with
  | zero =>
    rw [fueled] at ended
    contradiction
  | succ fuel =>
    rw [fueled] at ended
    exact invokeIsolates fuel anonymous false param args s after ended

theorem assignedFromOutside :
    ∃ (f g : Function Empty) (s after : Evaluator Empty), "p" ∈ f.params ∧
      s.frames = [[("g", .function 0 g)], [("p", .nil)]] ∧
      invokeValue (runWith (evalInstruction 3)) (callValue 3) "f" true (.function 1 f) [.nil] s =
        .error (.unboundName "q") after ∧
      Answering (· = "p") s.frames after.frames := by
  have ended : invokeValue (runWith (evalInstruction 3)) (callValue 3) "f" true
      (.function 1 (.user ["p"] [.call "g" [], .lookup "q"])) [.nil]
      (⟨[[("g", .function 0 (.user [] [.assign "p" (.literal (.integer 1))]))], [("p", .nil)]], 0, 9, 2⟩ :
        Evaluator Empty) =
      .error (.unboundName "q") ⟨[[("g", .function 0 (.user [] [.assign "p" (.literal (.integer 1))]))],
        [("p", .nil)]], 0, 9, 2⟩ := rfl
  obtain ⟨called, -⟩ := parametersIsolate (H := Empty) (p := "p")
    (f := .user ["p"] [.call "g" [], .lookup "q"]) (by simp [Function.params]) 1 [.nil]
  exact ⟨_, _, _, _, by simp [Function.params], rfl, ended, called 3 "f" true _ _ (by rw [ended]; rfl)⟩

end Evaluator
end Parlance
