import Parlance.Proofs.Evaluator.Entries
import Parlance.Proofs.Evaluator.Layers

/-! Computations that are alike. Over two veils of hidden bindings they end alike, for one state of a program
below, and leave it the frames it had. Every piece of an evaluation keeps computations alike, so what a
piece does with names of the program can be told without the veil it runs under. -/
namespace Parlance

variable {H α β : Type}

def Frame.Plain (f : Frame H) : Prop := ∀ entry ∈ f, ¬ Hidden entry.1 ∧ entry.2.Tame

namespace Frame

theorem plainNil : Frame.Plain ([] : Frame H) := by simp [Frame.Plain]

theorem plainBindAll {names : List String} {vs : List (Value H)} {f : Frame H} (plain : f.Plain)
    (visible : ∀ name ∈ names, ¬ Hidden name) (tame : ∀ v ∈ vs, v.Tame) :
    (f.bindAll names vs).Plain := by
  intro entry member
  rcases bindAllEntry member with bound | earlier
  · exact ⟨visible _ bound.1, tame _ bound.2⟩
  · exact plain entry earlier

end Frame

namespace Evaluator

structure Plain (s : Evaluator H) : Prop where
  framed : s.frames ≠ []
  program : ∀ f ∈ s.frames, Frame.Plain f

theorem findTame {name : String} {v : Value H} {fs : List (Frame H)}
    (program : ∀ f ∈ fs, Frame.Plain f) (found : find? name fs = some v) : v.Tame := by
  obtain ⟨f, member, inside⟩ := findEntry found
  exact (program f member _ inside).2

theorem rebindPlain {name : String} {v : Value H} (visible : ¬ Hidden name) (tame : v.Tame)
    {fs gs : List (Frame H)} (program : ∀ f ∈ fs, Frame.Plain f) (h : rebind name v fs = some gs) :
    gs.length = fs.length ∧ ∀ g ∈ gs, Frame.Plain g := by
  refine ⟨rebindLength h, fun g member entry inside => ?_⟩
  rcases rebindEntry h ⟨g, member, inside⟩ with rfl | ⟨f, member', inside'⟩
  · exact ⟨visible, tame⟩
  · exact program f member' entry inside'

theorem bindInnermostPlain {name : String} {v : Value H} (visible : ¬ Hidden name) (tame : v.Tame)
    {fs : List (Frame H)} (framed : fs ≠ []) (program : ∀ f ∈ fs, Frame.Plain f) :
    (bindInnermost name v fs).length = fs.length ∧ ∀ g ∈ bindInnermost name v fs, Frame.Plain g := by
  constructor
  · cases fs with
    | nil => exact absurd rfl framed
    | cons f fs => simp [bindInnermost]
  · intro g member entry inside
    rcases bindInnermostEntry ⟨g, member, inside⟩ with rfl | ⟨f, member', inside'⟩
    · exact ⟨visible, tame⟩
    · exact program f member' entry inside'

structure Keeps (s after : Evaluator H) : Prop where
  plain : after.Plain
  frames : after.frames.length = s.frames.length
  depth : after.depth = s.depth

theorem keepsSelf {s : Evaluator H} (plain : s.Plain) : s.Keeps s := ⟨plain, rfl, rfl⟩

theorem keepsTrans {s middle after : Evaluator H} (first : s.Keeps middle)
    (second : middle.Keeps after) : s.Keeps after :=
  ⟨second.plain, second.frames.trans first.frames, second.depth.trans first.depth⟩

def cover (σ : List (Layer H)) (s : Evaluator H) : Evaluator H :=
  { s with frames := Layer.cover σ s.frames }

end Evaluator

def Outcome.after? {ε σ α : Type} : Outcome ε σ α → Option σ
  | .value _ s => some s
  | .error _ s => some s
  | .outOfFuel => none

def Outcome.cover (σ : List (Layer H)) :
    Outcome EvalError (Evaluator H) α → Outcome EvalError (Evaluator H) α
  | .value a s => .value a (s.cover σ)
  | .error e s => .error e (s.cover σ)
  | .outOfFuel => .outOfFuel

def Outcome.Settled (P : α → Prop) (s : Evaluator H) : Outcome EvalError (Evaluator H) α → Prop
  | .value a after => P a ∧ s.Keeps after
  | .error _ after => s.Keeps after
  | .outOfFuel => True

/-- Two computations that under their veils do the same to every state of a program, with values in `P`. -/
def Alike (σ τ : List (Layer H)) (P : α → Prop) (x y : Eval H α) : Prop :=
  ∀ s : Evaluator H, s.Plain →
    ∃ o : Outcome EvalError (Evaluator H) α,
      x (s.cover σ) = o.cover σ ∧ y (s.cover τ) = o.cover τ ∧ o.Settled P s

namespace Alike

variable {σ τ : List (Layer H)} {P Q : α → Prop} {R : β → Prop} {x y : Eval H α}

theorem symm (h : Alike σ τ P x y) : Alike τ σ P y x := by
  intro s plain
  obtain ⟨o, left, right, settled⟩ := h s plain
  exact ⟨o, right, left, settled⟩

theorem trans {z : Eval H α} (first : Alike σ [] P x y) (second : Alike [] τ P y z) :
    Alike σ τ P x z := by
  intro s plain
  obtain ⟨o, left, middle, settled⟩ := first s plain
  obtain ⟨o', middle', right, -⟩ := second s plain
  have bare : ∀ o : Outcome EvalError (Evaluator H) α, o.cover [] = o := by
    intro o
    cases o <;> rfl
  have same : o = o' := by
    rw [← bare o, ← bare o', ← middle, ← middle']
  exact ⟨o, left, same ▸ right, settled⟩

theorem value {a : α} (left : ∀ s : Evaluator H, s.Plain → x (s.cover σ) = .value a (s.cover σ))
    (right : ∀ s : Evaluator H, s.Plain → y (s.cover τ) = .value a (s.cover τ)) (h : P a) :
    Alike σ τ P x y := fun s plain =>
  ⟨.value a s, left s plain, right s plain, h, Evaluator.keepsSelf plain⟩

theorem pure {a : α} (h : P a) : Alike σ τ P (Eval.pure a) (Eval.pure a) :=
  value (fun _ _ => rfl) (fun _ _ => rfl) h

theorem fail (e : EvalError) : Alike σ τ P (Eval.fail e) (Eval.fail e) := fun s plain =>
  ⟨.error e s, rfl, rfl, Evaluator.keepsSelf plain⟩

theorem outOfFuel : Alike σ τ P Eval.outOfFuel Eval.outOfFuel := fun _ _ =>
  ⟨.outOfFuel, rfl, rfl, trivial⟩

theorem bind {f g : α → Eval H β} (first : Alike σ τ P x y)
    (next : ∀ a, P a → Alike σ τ R (f a) (g a)) : Alike σ τ R (x >>= f) (y >>= g) := by
  intro s plain
  obtain ⟨o, left, right, settled⟩ := first s plain
  cases o with
  | value a middle =>
    obtain ⟨o', left', right', settled'⟩ := next a settled.1 middle settled.2.plain
    refine ⟨o', ?_, ?_, ?_⟩
    · simpa only [Bind.bind, Eval.bind, left, Outcome.cover] using left'
    · simpa only [Bind.bind, Eval.bind, right, Outcome.cover] using right'
    · cases o' with
      | value b after => exact ⟨settled'.1, Evaluator.keepsTrans settled.2 settled'.2⟩
      | error e after => exact Evaluator.keepsTrans settled.2 settled'
      | outOfFuel => trivial
  | error e after =>
    exact ⟨.error e after, by simp [Bind.bind, Eval.bind, left, Outcome.cover],
      by simp [Bind.bind, Eval.bind, right, Outcome.cover], settled⟩
  | outOfFuel =>
    exact ⟨.outOfFuel, by simp [Bind.bind, Eval.bind, left, Outcome.cover],
      by simp [Bind.bind, Eval.bind, right, Outcome.cover], trivial⟩

theorem lookup {name : String} (visible : ¬ Hidden name) (left : Layer.Veil σ) (right : Layer.Veil τ) :
    Alike σ τ Value.Tame (Evaluator.lookup name) (Evaluator.lookup name) := by
  intro s plain
  have covered := Layer.findCover visible left.secret s.frames
  have covered' := Layer.findCover visible right.secret s.frames
  cases found : Evaluator.find? name s.frames with
  | some v =>
    have tame := Evaluator.findTame plain.program found
    exact ⟨.value v s, by simp [Evaluator.lookup, Evaluator.cover, covered, found, Outcome.cover],
      by simp [Evaluator.lookup, Evaluator.cover, covered', found, Outcome.cover], tame,
      Evaluator.keepsSelf plain⟩
  | none =>
    exact ⟨.error (.unboundName name) s,
      by simp [Evaluator.lookup, Evaluator.cover, covered, found, Outcome.cover],
      by simp [Evaluator.lookup, Evaluator.cover, covered', found, Outcome.cover],
      Evaluator.keepsSelf plain⟩

theorem assign {name : String} {v : Value H} (visible : ¬ Hidden name) (tame : v.Tame)
    (left : Layer.Veil σ) (right : Layer.Veil τ) :
    Alike σ τ Value.Tame (Evaluator.assign name v) (Evaluator.assign name v) := by
  intro s plain
  have covered := Layer.rebindCover visible v left.secret s.frames
  have covered' := Layer.rebindCover visible v right.secret s.frames
  have inner := Layer.bindInnermostCover visible v left s.frames
  have inner' := Layer.bindInnermostCover visible v right s.frames
  cases found : Evaluator.rebind name v s.frames with
  | some gs =>
    obtain ⟨same, program⟩ := Evaluator.rebindPlain visible tame plain.program found
    have framed : gs ≠ [] := fun empty => plain.framed (List.length_eq_zero_iff.mp (by simp [← same, empty]))
    exact ⟨.value v { s with frames := gs },
      by simp [Evaluator.assign, Evaluator.cover, covered, found, Outcome.cover],
      by simp [Evaluator.assign, Evaluator.cover, covered', found, Outcome.cover], tame,
      ⟨framed, program⟩, same, rfl⟩
  | none =>
    obtain ⟨same, program⟩ :=
      Evaluator.bindInnermostPlain visible tame plain.framed plain.program
    have framed : Evaluator.bindInnermost name v s.frames ≠ [] := fun empty =>
      plain.framed (List.length_eq_zero_iff.mp (by simp [← same, empty]))
    exact ⟨.value v { s with frames := Evaluator.bindInnermost name v s.frames },
      by simp [Evaluator.assign, Evaluator.cover, covered, inner, found, Outcome.cover],
      by simp [Evaluator.assign, Evaluator.cover, covered', inner', found, Outcome.cover], tame,
      ⟨framed, program⟩, same, rfl⟩

theorem make {f : Function H} (tame : f.Tame) :
    Alike σ τ Value.Tame (Evaluator.make f) (Evaluator.make f) := fun s plain =>
  ⟨.value (.function s.nextId f) { s with nextId := s.nextId + 1 }, rfl, rfl, tame,
    ⟨plain.framed, plain.program⟩, rfl, rfl⟩

end Alike

namespace Outcome

def leaving (change : Evaluator H → Evaluator H) :
    Outcome EvalError (Evaluator H) α → Outcome EvalError (Evaluator H) α
  | .value a s => .value a (change s)
  | .error e s => .error e (change s)
  | .outOfFuel => .outOfFuel

theorem leavingCover {change below : Evaluator H → Evaluator H} {σ σ' : List (Layer H)}
    (commutes : ∀ s : Evaluator H, change (s.cover σ') = (below s).cover σ)
    (o : Outcome EvalError (Evaluator H) α) :
    (o.cover σ').leaving change = (o.leaving below).cover σ := by
  cases o <;> simp [cover, leaving, commutes]

theorem settledLeaving {change : Evaluator H → Evaluator H} {P : α → Prop} {s inner : Evaluator H}
    (back : ∀ after, inner.Keeps after → s.Keeps (change after))
    {o : Outcome EvalError (Evaluator H) α} (settled : o.Settled P inner) :
    (o.leaving change).Settled P s := by
  cases o with
  | value a after => exact ⟨settled.1, back after settled.2⟩
  | error e after => exact back after settled
  | outOfFuel => trivial

end Outcome

namespace Evaluator

def push (f : Frame H) (s : Evaluator H) : Evaluator H := { s with frames := f :: s.frames }

def pop (s : Evaluator H) : Evaluator H := { s with frames := s.frames.tail }

def enter (s : Evaluator H) : Evaluator H := { s with depth := s.depth + 1 }

def leave (s : Evaluator H) : Evaluator H := { s with depth := s.depth - 1 }

theorem inFrameRun (f : Frame H) (x : Eval H α) (s : Evaluator H) :
    inFrame f x s = (x (s.push f)).leaving pop := by
  unfold inFrame push
  generalize x _ = o
  cases o <;> rfl

theorem countedRun (x : Eval H α) {s : Evaluator H} (room : ¬ s.depth ≥ s.maxDepth) :
    counted x s = (x s.enter).leaving leave := by
  unfold counted enter
  rw [if_neg room]
  generalize x _ = o
  cases o <;> rfl

theorem plainPush {f : Frame H} {s : Evaluator H} (plain : f.Plain) (below : s.Plain) :
    (s.push f).Plain := by
  refine ⟨by simp [push], fun g member => ?_⟩
  rcases List.mem_cons.mp member with rfl | member
  · exact plain
  · exact below.program g member

theorem keepsPop {f : Frame H} {s after : Evaluator H} (below : s.Plain)
    (keeps : (s.push f).Keeps after) : s.Keeps after.pop := by
  have length : after.frames.length = s.frames.length + 1 := by simpa [push] using keeps.frames
  have same : after.pop.frames.length = s.frames.length := by simp [pop, length]
  refine ⟨⟨fun empty => below.framed ?_, fun g member => ?_⟩, same, keeps.depth⟩
  · exact List.length_eq_zero_iff.mp (by simp [← same, empty])
  · exact keeps.plain.program g (List.mem_of_mem_tail member)

theorem popMask (hidden : Frame H) (σ : List (Layer H)) (s : Evaluator H) :
    (s.cover (.mask hidden :: σ)).pop = s.pop.cover σ := by
  simp [cover, pop, Layer.coverTail]

theorem popExtra (hidden : Frame H) (σ : List (Layer H)) (s : Evaluator H) :
    (s.cover (.extra hidden :: σ)).pop = s.cover σ := rfl

end Evaluator

namespace Alike

variable {σ τ : List (Layer H)} {P : α → Prop} {R : β → Prop} {x y : Eval H α}

theorem inFrame {hidden hidden' f : Frame H} (plain : f.Plain)
    (h : Alike (.mask hidden :: σ) (.mask hidden' :: τ) P x y) :
    Alike σ τ P (Evaluator.inFrame (hidden ++ f) x) (Evaluator.inFrame (hidden' ++ f) y) := by
  intro s below
  obtain ⟨o, left, right, settled⟩ := h (s.push f) (Evaluator.plainPush plain below)
  have run : Evaluator.inFrame (hidden ++ f) x (s.cover σ) =
      (x ((s.push f).cover (.mask hidden :: σ))).leaving Evaluator.pop := Evaluator.inFrameRun _ _ _
  have run' : Evaluator.inFrame (hidden' ++ f) y (s.cover τ) =
      (y ((s.push f).cover (.mask hidden' :: τ))).leaving Evaluator.pop := Evaluator.inFrameRun _ _ _
  refine ⟨o.leaving Evaluator.pop, ?_, ?_,
    Outcome.settledLeaving (fun _ => Evaluator.keepsPop below) settled⟩
  · rw [run, left, Outcome.leavingCover (Evaluator.popMask hidden σ)]
  · rw [run', right, Outcome.leavingCover (Evaluator.popMask hidden' τ)]

theorem inMask {hidden hidden' : Frame H}
    (h : Alike (.mask hidden :: σ) (.mask hidden' :: τ) P x y) :
    Alike σ τ P (Evaluator.inFrame hidden x) (Evaluator.inFrame hidden' y) := by
  simpa using inFrame Frame.plainNil h

theorem inExtra {hidden : Frame H} (h : Alike (.extra hidden :: σ) τ P x y) :
    Alike σ τ P (Evaluator.inFrame hidden x) y := by
  intro s below
  obtain ⟨o, left, right, settled⟩ := h s below
  have run : Evaluator.inFrame hidden x (s.cover σ) =
      (x (s.cover (.extra hidden :: σ))).leaving Evaluator.pop := Evaluator.inFrameRun _ _ _
  have back : (o.cover (.extra hidden :: σ)).leaving Evaluator.pop = (o.leaving id).cover σ :=
    Outcome.leavingCover (Evaluator.popExtra hidden σ) o
  have unchanged : o.leaving id = o := by cases o <;> rfl
  refine ⟨o, ?_, right, settled⟩
  rw [run, left, back, unchanged]

theorem counted (h : Alike σ τ P x y) :
    Alike σ τ P (Evaluator.counted x) (Evaluator.counted y) := by
  intro s plain
  by_cases full : s.depth ≥ s.maxDepth
  · exact ⟨.error (.callDepthExceeded s.maxDepth) s,
      by simp [Evaluator.counted, Evaluator.cover, full, Outcome.cover],
      by simp [Evaluator.counted, Evaluator.cover, full, Outcome.cover], Evaluator.keepsSelf plain⟩
  · obtain ⟨o, left, right, settled⟩ := h s.enter ⟨plain.framed, plain.program⟩
    have leaveCover : ∀ (ρ : List (Layer H)) (t : Evaluator H),
        (t.cover ρ).leave = t.leave.cover ρ := fun _ _ => rfl
    have run : Evaluator.counted x (s.cover σ) = (x (s.enter.cover σ)).leaving Evaluator.leave :=
      Evaluator.countedRun x full
    have run' : Evaluator.counted y (s.cover τ) = (y (s.enter.cover τ)).leaving Evaluator.leave :=
      Evaluator.countedRun y full
    refine ⟨o.leaving Evaluator.leave, ?_, ?_, Outcome.settledLeaving (fun after keeps => ?_) settled⟩
    · rw [run, left, Outcome.leavingCover (leaveCover σ)]
    · rw [run', right, Outcome.leavingCover (leaveCover τ)]
    · have entered : after.depth = s.depth + 1 := keeps.depth
      exact ⟨⟨keeps.plain.framed, keeps.plain.program⟩, keeps.frames,
        by simp [Evaluator.leave, entered]⟩

end Alike
end Parlance
