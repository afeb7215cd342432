import Parlance.Proofs.Evaluator.Extensional
import Parlance.Proofs.Evaluator.Halting

/-! Programs and hidden names do not meet. Bindings of names that no source can hold, put into any frames of
an evaluator between programs, change nothing of what a program does, and a program changes none of them. -/
namespace Parlance

variable {H : Type}

def Answering (asked : String → Prop) : List (Frame H) → List (Frame H) → Prop :=
  List.Forall₂ fun f g => ∀ name, asked name → g.lookup name = f.lookup name

section Answering

variable {asked : String → Prop} {fs gs hs : List (Frame H)}

theorem answeringSymm (h : Answering asked fs gs) : Answering asked gs fs := by
  induction h with
  | nil => exact .nil
  | cons first _ ih => exact .cons (fun name inside => (first name inside).symm) ih

theorem answeringTrans (first : Answering asked fs gs) (second : Answering asked gs hs) :
    Answering asked fs hs := by
  induction first generalizing hs with
  | nil => exact second
  | cons here _ ih =>
    cases second with
    | cons here' later =>
      exact .cons (fun name inside => (here' name inside).trans (here name inside)) (ih later)

theorem answeringMaps (h : Evaluator.SameMaps fs gs) : Answering asked fs gs :=
  h.imp fun _ _ here name _ => here name

theorem answeringAll (inside : Answering asked fs gs) (outside : Answering (¬ asked ·) fs gs) :
    Evaluator.SameMaps fs gs := by
  induction inside with
  | nil => exact .nil
  | cons here _ ih =>
    cases outside with
    | cons there later =>
      refine .cons (fun name => ?_) (ih later)
      by_cases within : asked name
      · exact here name within
      · exact there name within

end Answering

namespace Frame

def hiddenPart (f : Frame H) : Frame H := f.filter fun entry => decide (Hidden entry.1)

theorem hiddenPartSecret (f : Frame H) : Layer.Secret (hiddenPart f) := fun entry member => by
  simpa using (List.mem_filter.mp member).2

theorem lookupHiddenPart {name : String} (hidden : Hidden name) (f : Frame H) :
    (hiddenPart f).lookup name = f.lookup name := by
  induction f with
  | nil => rfl
  | cons entry f ih =>
    obtain ⟨first, w⟩ := entry
    unfold hiddenPart at ih ⊢
    by_cases here : Hidden first
    · rw [List.filter_cons_of_pos (by simpa using here), lookupEntries, lookupEntries, ih]
    · have other : name ≠ first := fun same => here (same ▸ hidden)
      rw [List.filter_cons_of_neg (by simpa using here), lookupEntries, if_neg other, ih]

theorem lookupPlain {f : Frame H} (plain : f.Plain) {name : String} (hidden : Hidden name) :
    f.lookup name = none := by
  rw [List.lookup_eq_none_iff]
  intro entry member
  have other : name ≠ entry.1 := fun same => (plain entry member).1 (same ▸ hidden)
  simpa using other

end Frame

def Layer.masks (fs : List (Frame H)) : List (Layer H) := fs.map fun f => .mask f.hiddenPart

theorem Layer.masksVeil (fs : List (Frame H)) : Layer.Veil (Layer.masks fs) := by
  constructor
  · intro layer member
    obtain ⟨f, -, rfl⟩ := List.mem_map.mp member
    exact f.hiddenPartSecret
  · intro hidden rest same
    cases fs <;> cases same

theorem Layer.masksAnswer {fs gs : List (Frame H)} (length : fs.length = gs.length)
    (program : ∀ f ∈ fs, Frame.Plain f) :
    Answering (¬ Hidden ·) fs (Layer.cover (Layer.masks gs) fs) ∧
      Answering Hidden gs (Layer.cover (Layer.masks gs) fs) := by
  induction gs generalizing fs with
  | nil =>
    cases List.length_eq_zero_iff.mp length
    exact ⟨.nil, .nil⟩
  | cons g gs ih =>
    cases fs with
    | nil => contradiction
    | cons f fs =>
      have plain := program f List.mem_cons_self
      obtain ⟨visible, hidden⟩ := ih (Nat.succ.inj length) fun h member =>
        program h (List.mem_cons_of_mem _ member)
      refine ⟨.cons (fun name inside => ?_) visible, .cons (fun name inside => ?_) hidden⟩
      · exact Layer.lookupOver inside g.hiddenPartSecret f
      · rw [List.lookup_append, Frame.lookupHiddenPart inside, Frame.lookupPlain plain inside,
          Option.or_none]

namespace Evaluator

/-- States that differ only in bindings of hidden names, in any of their frames. -/
structure HiddenApart (s t : Evaluator H) : Prop where
  frames : Answering (¬ Hidden ·) s.frames t.frames
  depth : t.depth = s.depth
  limit : t.maxDepth = s.maxDepth
  ids : t.nextId = s.nextId

/-- Every binding of a hidden name, and the absence of one, is what it was in each frame. -/
def HiddenKept (s after : Evaluator H) : Prop := Answering Hidden s.frames after.frames

theorem masksMatch {s t : Evaluator H} (plain : s.Plain) (apart : HiddenApart s t) :
    t.Matches (s.cover (Layer.masks t.frames)) := by
  obtain ⟨visible, hidden⟩ := Layer.masksAnswer apart.frames.length_eq plain.program
  exact ⟨answeringAll hidden (answeringTrans (answeringSymm apart.frames) visible), apart.depth.symm,
    apart.limit.symm, apart.ids.symm⟩

theorem masksKept {s t below after : Evaluator H} (apart : HiddenApart s t) (keeps : s.Keeps below)
    (reached : after.Matches (below.cover (Layer.masks t.frames))) :
    HiddenApart below after ∧ HiddenKept t after := by
  have length : below.frames.length = t.frames.length := keeps.frames.trans apart.frames.length_eq
  obtain ⟨visible, hidden⟩ := Layer.masksAnswer length keeps.plain.program
  have back : SameMaps _ _ := reached.frames
  exact ⟨⟨answeringTrans visible (answeringSymm (answeringMaps back)), reached.depth.symm,
    reached.limit.symm, reached.ids.symm⟩,
    answeringTrans hidden (answeringSymm (answeringMaps back))⟩

theorem hiddenApartJoin {s t t' : Evaluator H} (left : HiddenApart s t) (right : HiddenApart s t') :
    HiddenApart t t' :=
  ⟨answeringTrans (answeringSymm left.frames) right.frames, right.depth.trans left.depth.symm,
    right.limit.trans left.limit.symm, right.ids.trans left.ids.symm⟩

theorem hiddenAdded {hidden : Frame H} (secret : Layer.Secret hidden) (s : Evaluator H) :
    ∃ t, HiddenApart s t ∧ t.frames = s.frames.map (hidden ++ ·) := by
  refine ⟨{ s with frames := s.frames.map (hidden ++ ·) }, ⟨?_, rfl, rfl, rfl⟩, rfl⟩
  rw [Answering, List.forall₂_map_right_iff]
  exact List.forall₂_same.mpr fun f _ name visible => Layer.lookupOver visible secret f

theorem hiddenApartSelf (s : Evaluator H) : HiddenApart s s :=
  ⟨answeringMaps (sameMapsRefl _), rfl, rfl, rfl⟩

variable [Host H]

theorem evalMasked {program : List (Instruction H)} (codes : ∀ i ∈ program, Code false i)
    {s t : Evaluator H} (plain : s.Plain) (apart : HiddenApart s t) :
    (eval program s).Paired True
      (fun below after => HiddenApart below after ∧ HiddenKept t after) (eval program t) := by
  have alike := Conditional.bodyAlike Layer.veilNil (Layer.masksVeil t.frames)
    (Conditional.evalAlike s.fuelFor) codes
  obtain ⟨o, bare, masked, settled⟩ := alike s plain
  have same := Extensional.eval program t _ (masksMatch plain apart)
  have uncovered : eval program s = o := by
    have none : o.cover [] = o := by cases o <;> rfl
    exact bare.trans none
  have covered : eval program (s.cover (Layer.masks t.frames)) = o.cover (Layer.masks t.frames) := masked
  rw [covered] at same
  rw [uncovered]
  revert same
  cases o <;> cases eval program t <;> intro same <;> try contradiction
  · exact ⟨same.1.symm, masksKept apart settled.2 same.2⟩
  · exact ⟨same.1.symm, masksKept apart settled same.2⟩
  · trivial

end Evaluator

variable [Host H]

theorem sessionProgrammed {l : Language} {s : Evaluator H} (session : Session l s) :
    s.Programmed := by
  have kept : ∀ {source : String} {s after : Evaluator H}, s.Programmed →
      (l.runIn source s).after? = some after → after.Programmed := by
    intro source s after programmed reached
    unfold Language.runIn at reached
    split at reached
    · cases reached
      exact programmed
    · rename_i program compiled
      have ends := Evaluator.evalEnds compiled programmed
      revert reached ends
      cases Evaluator.eval program s <;> intro reached ends <;> cases reached
      · exact ends.2
      · exact ends
  induction session with
  | start => exact Evaluator.standardProgrammed
  | limited _ maxDepth before => exact Evaluator.limitedProgrammed before maxDepth
  | value _ run before => exact kept before (by rw [run]; rfl)
  | error _ run before => exact kept before (by rw [run]; rfl)

/-- Two states of a session that differ only in bindings of hidden names, put into any frames: a program ends
in both with the same value or the same error, the states after it differ only in such bindings, and none of
these has changed. -/
theorem loweringHygienic {l : Language} (standard : Language.standard = .ok l) {source : String}
    {program : List (Instruction H)} (compiled : l.compile source = .ok program) {s t t' : Evaluator H}
    (session : Session l s) (left : Evaluator.HiddenApart s t) (right : Evaluator.HiddenApart s t') :
    (Evaluator.eval program t).Paired False
      (fun after after' => Evaluator.HiddenApart after after' ∧ Evaluator.HiddenKept t after ∧
        Evaluator.HiddenKept t' after')
      (Evaluator.eval program t') := by
  have codes := compileCode standard compiled
  have plain := sessionPlain standard session
  have first := Evaluator.evalMasked codes plain left
  have second := Evaluator.evalMasked codes plain right
  have ends := Evaluator.evalEnds compiled (sessionProgrammed session)
  revert first second ends
  cases Evaluator.eval program s <;> cases Evaluator.eval program t <;>
    cases Evaluator.eval program t' <;> intro first second ends <;> try contradiction
  · obtain ⟨rfl, apart, kept⟩ := first
    obtain ⟨rfl, apart', kept'⟩ := second
    exact ⟨rfl, Evaluator.hiddenApartJoin apart apart', kept, kept'⟩
  · obtain ⟨rfl, apart, kept⟩ := first
    obtain ⟨rfl, apart', kept'⟩ := second
    exact ⟨rfl, Evaluator.hiddenApartJoin apart apart', kept, kept'⟩

def answersWith (source : String) (n : Int64) (l : Language) : Bool :=
  match l.compile source with
  | .error _ => false
  | .ok program =>
    match Evaluator.eval program (Evaluator.standard : Evaluator Empty) with
    | .value v _ => v.asInt? == some n
    | _ => false

theorem answersRun {l : Language} {source : String} {n : Int64} (h : answersWith source n l = true) :
    ∃ (program : List (Instruction Empty)) (after : Evaluator Empty), l.compile source = .ok program ∧
      Evaluator.eval program Evaluator.standard = .value (.integer n) after := by
  unfold answersWith at h
  split at h
  · contradiction
  rename_i program compiled
  split at h
  · rename_i v after run
    cases v with
    | integer m =>
      have same : m = n := by simpa [Value.asInt?] using h
      exact ⟨program, after, compiled, same ▸ run⟩
    | nil => contradiction
    | float x => contradiction
    | function id f => contradiction
  · contradiction

def strayNames : Frame Empty := [("?it", .integer 9), ("?callee", .nil)]

theorem ownCalleeAndScrutinee :
    ∃ (l : Language) (program : List (Instruction Empty)) (t after : Evaluator Empty),
      l.compile "([x]\x7b ? x | < 2 => \x7b x + 1 \x7d \x7d)(1)" = .ok program ∧
      Session l (Evaluator.standard : Evaluator Empty) ∧ Evaluator.HiddenApart Evaluator.standard t ∧
      t.frames = Evaluator.standard.frames.map (strayNames ++ ·) ∧
      Evaluator.eval program t = .value (.integer 2) after ∧ Evaluator.HiddenKept t after := by
  have run : standardTest (answersWith "([x]\x7b ? x | < 2 => \x7b x + 1 \x7d \x7d)(1)" 2) = true := by
    decide +kernel
  obtain ⟨l, standard, tested⟩ := standardTested run
  obtain ⟨program, after, compiled, value⟩ := answersRun tested
  have secret : Layer.Secret strayNames := by simp [strayNames, Layer.Secret, Hidden]
  obtain ⟨t, apart, frames⟩ := Evaluator.hiddenAdded secret Evaluator.standard
  have paired := loweringHygienic standard compiled .start (Evaluator.hiddenApartSelf _) apart
  rw [value] at paired
  cases ended : Evaluator.eval program t with
  | value w last =>
    rw [ended] at paired
    obtain ⟨rfl, -, -, kept⟩ := paired
    exact ⟨l, program, t, last, compiled, .start, apart, frames, ended, kept⟩
  | error e last =>
    rw [ended] at paired
    exact paired.elim
  | outOfFuel =>
    rw [ended] at paired
    exact paired.elim

end Parlance
