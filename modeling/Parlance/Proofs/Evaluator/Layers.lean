import Parlance.Evaluator.Run
import Parlance.Proofs.Instruction.Code

/-! Hidden bindings over the frames of a program. Running lowered code puts them below the names of a
frame or into frames of their own; whatever only uses names of the program neither sees nor moves them.
Two computations are alike if over any layers of hidden bindings they do the same below. -/
namespace Parlance

variable {H : Type}

inductive Layer (H : Type) where
  | mask (bindings : Frame H)
  | extra (bindings : Frame H)

namespace Layer

def bindings : Layer H → Frame H
  | .mask bindings => bindings
  | .extra bindings => bindings

def cover : List (Layer H) → List (Frame H) → List (Frame H)
  | [], fs => fs
  | .extra hidden :: σ, fs => hidden :: cover σ fs
  | .mask hidden :: σ, [] => hidden :: cover σ []
  | .mask hidden :: σ, f :: fs => (hidden ++ f) :: cover σ fs

def Secret (hidden : Frame H) : Prop := ∀ entry ∈ hidden, Hidden entry.1

structure Veil (σ : List (Layer H)) : Prop where
  secret : ∀ layer ∈ σ, Secret layer.bindings
  based : ∀ hidden rest, σ ≠ .extra hidden :: rest

theorem veilNil : Veil ([] : List (Layer H)) := ⟨by simp, nofun⟩

theorem secretNil : Secret ([] : Frame H) := by simp [Secret]

theorem secretCons {layer : Layer H} {σ : List (Layer H)} (here : Secret layer.bindings)
    (secret : ∀ l ∈ σ, Secret l.bindings) : ∀ l ∈ layer :: σ, Secret l.bindings := by
  intro l member
  rcases List.mem_cons.mp member with rfl | later
  · exact here
  · exact secret l later

theorem veilMask {hidden : Frame H} {σ : List (Layer H)} (here : Secret hidden)
    (secret : ∀ layer ∈ σ, Secret layer.bindings) : Veil (.mask hidden :: σ) :=
  ⟨secretCons here secret, nofun⟩

section Visible

variable {name : String} (visible : ¬ Hidden name)

include visible

theorem lookupSecret {hidden : Frame H} (secret : Secret hidden) : hidden.lookup name = none := by
  rw [List.lookup_eq_none_iff]
  intro entry member
  have other : name ≠ entry.1 := fun same => visible (same ▸ secret entry member)
  simpa using other

theorem lookupOver {hidden : Frame H} (secret : Secret hidden) (f : Frame H) :
    (hidden ++ f).lookup name = f.lookup name := by
  rw [List.lookup_append, lookupSecret visible secret, Option.none_or]

theorem bindsSecret {hidden : Frame H} (secret : Secret hidden) : hidden.binds name = false := by
  unfold Frame.binds
  rw [List.any_eq_false]
  intro entry member
  have other : entry.1 ≠ name := fun same => visible (same ▸ secret entry member)
  simpa using other

theorem bindsOver {hidden : Frame H} (secret : Secret hidden) (f : Frame H) :
    Frame.binds (hidden ++ f) name = f.binds name := by
  have absent := bindsSecret visible secret
  unfold Frame.binds at absent ⊢
  rw [List.any_append, absent, Bool.false_or]

theorem bindOver {hidden : Frame H} (secret : Secret hidden) (f : Frame H) (v : Value H) :
    Frame.bind name v (hidden ++ f) = hidden ++ f.bind name v := by
  induction hidden with
  | nil => rfl
  | cons entry hidden ih =>
    have other : entry.1 ≠ name := fun same => visible (same ▸ secret entry List.mem_cons_self)
    have later := ih fun e member => secret e (List.mem_cons_of_mem _ member)
    simp only [List.cons_append, Frame.bind, beq_eq_false_iff_ne.mpr other, Bool.false_eq_true,
      if_false, later]

end Visible

theorem findCover {name : String} (visible : ¬ Hidden name) {σ : List (Layer H)}
    (secret : ∀ layer ∈ σ, Secret layer.bindings) (fs : List (Frame H)) :
    Evaluator.find? name (cover σ fs) = Evaluator.find? name fs := by
  induction σ generalizing fs with
  | nil => rfl
  | cons layer σ ih =>
    have later := ih fun l member => secret l (List.mem_cons_of_mem _ member)
    cases layer with
    | extra hidden =>
      have here : Secret hidden := secret _ List.mem_cons_self
      simp [cover, Evaluator.find?, lookupSecret visible here, later]
    | mask hidden =>
      have here : Secret hidden := secret _ List.mem_cons_self
      cases fs with
      | nil => simp [cover, Evaluator.find?, lookupSecret visible here, later]
      | cons f fs => simp [cover, Evaluator.find?, lookupOver visible here, later]

theorem findHidden {name : String} (hidden : Hidden name) {fs : List (Frame H)}
    (program : ∀ f ∈ fs, ∀ entry ∈ f, ¬ Hidden entry.1) (σ : List (Layer H)) :
    Evaluator.find? name (cover σ fs) = Evaluator.find? name (σ.map bindings) := by
  have unbound : ∀ f ∈ fs, f.lookup name = none := by
    intro f member
    rw [List.lookup_eq_none_iff]
    intro entry inside
    have other : name ≠ entry.1 := fun same => program f member entry inside (same ▸ hidden)
    simpa using other
  induction σ generalizing fs with
  | nil =>
    induction fs with
    | nil => rfl
    | cons f fs ih =>
      have here := unbound f List.mem_cons_self
      have later := ih (fun g member => program g (List.mem_cons_of_mem _ member))
        (fun g member => unbound g (List.mem_cons_of_mem _ member))
      simpa [cover, Evaluator.find?, here] using later
  | cons layer σ ih =>
    cases layer with
    | extra bound => simp [cover, Evaluator.find?, bindings, ih program unbound]
    | mask bound =>
      cases fs with
      | nil => simp [cover, Evaluator.find?, bindings, ih program unbound]
      | cons f fs =>
        have here := unbound f List.mem_cons_self
        have later := @ih fs (fun g member => program g (List.mem_cons_of_mem _ member))
          (fun g member => unbound g (List.mem_cons_of_mem _ member))
        simp [cover, Evaluator.find?, bindings, List.lookup_append, here, later]

theorem rebindCover {name : String} (visible : ¬ Hidden name) (v : Value H) {σ : List (Layer H)}
    (secret : ∀ layer ∈ σ, Secret layer.bindings) (fs : List (Frame H)) :
    Evaluator.rebind name v (cover σ fs) = (Evaluator.rebind name v fs).map (cover σ) := by
  induction σ generalizing fs with
  | nil => simp [cover]
  | cons layer σ ih =>
    have later := ih fun l member => secret l (List.mem_cons_of_mem _ member)
    cases layer with
    | extra hidden =>
      have here : Secret hidden := secret _ List.mem_cons_self
      simp [cover, Evaluator.rebind, bindsSecret visible here, later, Function.comp_def]
    | mask hidden =>
      have here : Secret hidden := secret _ List.mem_cons_self
      cases fs with
      | nil => simp [cover, Evaluator.rebind, bindsSecret visible here, later]
      | cons f fs =>
        simp only [cover, Evaluator.rebind, bindsOver visible here]
        split
        · simp [cover, bindOver visible here]
        · simp [later, cover, Function.comp_def]

theorem bindInnermostCover {name : String} (visible : ¬ Hidden name) (v : Value H)
    {σ : List (Layer H)} (veil : Veil σ) (fs : List (Frame H)) :
    Evaluator.bindInnermost name v (cover σ fs) = cover σ (Evaluator.bindInnermost name v fs) := by
  cases σ with
  | nil => rfl
  | cons layer σ =>
    cases layer with
    | extra hidden => exact absurd rfl (veil.based hidden σ)
    | mask hidden =>
      have secret : Secret hidden := veil.secret _ List.mem_cons_self
      have here := bindOver visible secret
      cases fs with
      | nil => simpa [cover, Evaluator.bindInnermost, Frame.bind] using here [] v
      | cons f fs => simpa [cover, Evaluator.bindInnermost] using here f v

theorem coverTail (hidden : Frame H) (σ : List (Layer H)) (fs : List (Frame H)) :
    (cover (.mask hidden :: σ) fs).tail = cover σ fs.tail := by
  cases fs <;> rfl

theorem coverLength (σ : List (Layer H)) {fs gs : List (Frame H)} (same : fs.length = gs.length) :
    (cover σ fs).length = (cover σ gs).length := by
  induction σ generalizing fs gs with
  | nil => exact same
  | cons layer σ ih =>
    cases layer with
    | extra hidden => simp [cover, ih same]
    | mask hidden =>
      match fs, gs with
      | [], [] => rfl
      | f :: fs, g :: gs => simp [cover, @ih fs gs (by simpa using same)]

end Layer
end Parlance
