import Mathlib.Data.List.Forall2
import Parlance.Sequence

/-! What a walk or a step that did not fail went through. -/
namespace Parlance

variable {α β ε : Type}

theorem bindOk {x : Except ε α} {f : α → Except ε β} {b : β} (h : (x >>= f) = .ok b) :
    ∃ a, x = .ok a ∧ f a = .ok b := by
  cases x with
  | error e => contradiction
  | ok a => exact ⟨a, rfl, h⟩

theorem bindCongr {x : Except ε α} {f g : α → Except ε β} (h : ∀ a, x = .ok a → f a = g a) :
    (x >>= f) = (x >>= g) := by
  cases x with
  | error e => rfl
  | ok a => exact h a rfl

theorem mapErrorOk {δ : Type} {x : Except ε α} {f : ε → δ} {a : α} (h : x.mapError f = .ok a) :
    x = .ok a := by
  cases x with
  | error e => contradiction
  | ok b =>
    cases h
    rfl

theorem bindError {x : Except ε α} {f : α → Except ε β} {e : ε} (h : (x >>= f) = .error e) :
    x = .error e ∨ ∃ a, x = .ok a ∧ f a = .error e := by
  cases x with
  | error wrong =>
    cases h
    exact .inl rfl
  | ok a => exact .inr ⟨a, rfl, h⟩

theorem mapErrorError {δ : Type} {x : Except ε α} {f : ε → δ} {e : δ} (h : x.mapError f = .error e) :
    ∃ wrong, x = .error wrong ∧ f wrong = e := by
  cases x with
  | error wrong => exact ⟨wrong, rfl, Except.error.inj h⟩
  | ok a => contradiction

theorem traverseConsOk {step : α → Except ε β} {a : α} {as : List α} {bs : List β}
    (h : traverse step (a :: as) = .ok bs) :
    ∃ b rest, step a = .ok b ∧ traverse step as = .ok rest ∧ bs = b :: rest := by
  simp only [traverse] at h
  split at h
  · contradiction
  · rename_i b here
    split at h
    · contradiction
    · rename_i rest found
      cases h
      exact ⟨b, rest, here, found, rfl⟩

theorem traverseMember {step : α → Except ε β} {as : List α} {bs : List β}
    (h : traverse step as = .ok bs) {b : β} (member : b ∈ bs) : ∃ a ∈ as, step a = .ok b := by
  induction as generalizing bs with
  | nil =>
    cases h
    simp at member
  | cons a as ih =>
    obtain ⟨c, rest, here, found, rfl⟩ := traverseConsOk h
    rcases List.mem_cons.mp member with rfl | later
    · exact ⟨a, List.mem_cons_self, here⟩
    · obtain ⟨d, inside, same⟩ := ih found later
      exact ⟨d, List.mem_cons_of_mem _ inside, same⟩

theorem traverseAt {step : α → Except ε β} {as : List α} {bs : List β} (h : traverse step as = .ok bs) {i : Nat}
    {a : α} (listed : as[i]? = some a) : ∃ b, bs[i]? = some b ∧ step a = .ok b := by
  induction as generalizing bs i with
  | nil => simp at listed
  | cons c as ih =>
    obtain ⟨b, rest, here, found, rfl⟩ := traverseConsOk h
    cases i with
    | zero =>
      cases listed
      exact ⟨b, rfl, here⟩
    | succ i => exact ih found listed

theorem traverseFound {step : α → Except ε β} {as : List α} (each : ∀ a ∈ as, ∃ b, step a = .ok b) :
    ∃ bs, traverse step as = .ok bs := by
  induction as with
  | nil => exact ⟨[], rfl⟩
  | cons a as ih =>
    obtain ⟨b, stepped⟩ := each a List.mem_cons_self
    obtain ⟨bs, walked⟩ := ih fun other member => each other (List.mem_cons_of_mem _ member)
    exact ⟨b :: bs, by simp only [traverse, stepped, walked]⟩

theorem traverseMap {γ : Type} {step : α → Except ε β} {f : γ → α} {g : γ → β} {cs : List γ}
    (each : ∀ c ∈ cs, step (f c) = .ok (g c)) : traverse step (cs.map f) = .ok (cs.map g) := by
  induction cs with
  | nil => rfl
  | cons c cs ih =>
    obtain ⟨here, later⟩ := List.forall_mem_cons.mp each
    simp only [List.map_cons, traverse, here, ih later]

theorem traverseAppend {step : α → Except ε β} {as others : List α} {bs more : List β}
    (first : traverse step as = .ok bs) (second : traverse step others = .ok more) :
    traverse step (as ++ others) = .ok (bs ++ more) := by
  induction as generalizing bs with
  | nil =>
    cases first
    exact second
  | cons a as ih =>
    obtain ⟨b, rest, here, found, rfl⟩ := traverseConsOk first
    simp only [List.cons_append, traverse, here, ih found]

theorem traverseCongr {f g : α → Except ε β} {as : List α} (h : ∀ a ∈ as, f a = g a) :
    traverse f as = traverse g as := by
  induction as with
  | nil => rfl
  | cons a as ih =>
    have later := ih fun b member => h b (List.mem_cons_of_mem _ member)
    simp only [traverse, h a List.mem_cons_self, later]

theorem traverseMapped {γ : Type} {step : α → Except ε β} {f : β → γ} {g : α → γ}
    (each : ∀ a b, step a = .ok b → f b = g a) {as : List α} {bs : List β}
    (h : traverse step as = .ok bs) : bs.map f = as.map g := by
  induction as generalizing bs with
  | nil =>
    cases h
    rfl
  | cons a as ih =>
    obtain ⟨b, rest, here, found, rfl⟩ := traverseConsOk h
    simp [each a b here, ih found]

theorem foldError {step : β → α → Except ε β} {as : List α} {b : β} {e : ε}
    (h : as.foldlM step b = .error e) : ∃ before, ∃ a ∈ as, step before a = .error e := by
  induction as generalizing b with
  | nil => contradiction
  | cons a as ih =>
    rcases bindError h with here | ⟨next, -, later⟩
    · exact ⟨b, a, List.mem_cons_self, here⟩
    · obtain ⟨before, other, member, failed⟩ := ih later
      exact ⟨before, other, List.mem_cons_of_mem _ member, failed⟩

/-- Whatever comes out is good, and whatever goes wrong is fair. -/
def Gives (good : α → Prop) (fair : ε → Prop) : Except ε α → Prop
  | .ok a => good a
  | .error e => fair e

section Gives

variable {good mid : α → Prop} {fair : ε → Prop}

theorem givesBind {result : β → Prop} {x : Except ε α} {f : α → Except ε β} (first : Gives mid fair x)
    (next : ∀ a, mid a → Gives result fair (f a)) : Gives result fair (x >>= f) := by
  cases x with
  | error e => exact first
  | ok a => exact next a first

theorem givesFound {result : β → Prop} {x : Except ε α} {f : α → Except ε β} {a : α} (found : x = .ok a)
    (next : Gives result fair (f a)) : Gives result fair (x >>= f) := by
  rw [found]
  exact next

theorem givesMono {x : Except ε α} (h : Gives mid fair x) (weaker : ∀ a, mid a → good a) :
    Gives good fair x := by
  cases x with
  | error e => exact h
  | ok a => exact weaker a h

theorem givesTraverse {γ : Type} {result : β → Prop} {step : α → Except ε β} {before : α → List γ}
    {after : β → List γ} {as : List α}
    (each : ∀ a ∈ as, Gives (fun b => result b ∧ after b = before a) fair (step a)) :
    Gives (fun bs => (∀ b ∈ bs, result b) ∧ bs.flatMap after = as.flatMap before) fair
      (traverse step as) := by
  induction as with
  | nil => exact ⟨by simp, rfl⟩
  | cons a as ih =>
    have first := each a List.mem_cons_self
    have later := ih fun b member => each b (List.mem_cons_of_mem _ member)
    simp only [traverse]
    cases here : step a with
    | error e =>
      rw [here] at first
      exact first
    | ok b =>
      rw [here] at first
      cases rest : traverse step as with
      | error e =>
        rw [rest] at later
        exact later
      | ok bs =>
        rw [rest] at later
        refine ⟨List.forall_mem_cons.mpr ⟨first.1, later.1⟩, ?_⟩
        rw [List.flatMap_cons, List.flatMap_cons, first.2, later.2]

theorem fairTraverse {step : α → Except ε β} {as : List α}
    (each : ∀ a ∈ as, Gives (fun _ => True) fair (step a)) :
    Gives (fun _ => True) fair (traverse step as) := by
  have bare := @givesTraverse _ _ _ fair Unit (fun _ => True) step (fun _ => []) (fun _ => []) as
    fun a member => givesMono (each a member) fun _ _ => ⟨trivial, rfl⟩
  exact givesMono bare fun _ _ => trivial

end Gives

def Blames {γ : Type} (bad : γ → Bool) (error : γ → ε) (references : List γ) : Except ε α → Prop
  | .ok _ => references.find? bad = none
  | .error e => (references.find? bad).map error = some e

section Blames

variable {γ : Type} {bad : γ → Bool} {error : γ → ε}

theorem blamesBind {references others : List γ} {x : Except ε α} {f : α → Except ε β}
    (first : Blames bad error references x) (next : ∀ a, x = .ok a → Blames bad error others (f a)) :
    Blames bad error (references ++ others) (x >>= f) := by
  cases x with
  | error e =>
    obtain ⟨reference, found, same⟩ := Option.map_eq_some_iff.mp first
    change ((references ++ others).find? bad).map error = some e
    rw [List.find?_append, found, Option.some_or, Option.map_some, same]
  | ok a =>
    have none : references.find? bad = none := first
    have later := next a rfl
    change Blames bad error (references ++ others) (f a)
    cases result : f a with
    | ok b =>
      rw [result] at later
      change (references ++ others).find? bad = _
      rw [List.find?_append, none, Option.none_or]
      exact later
    | error e =>
      rw [result] at later
      change ((references ++ others).find? bad).map error = _
      rw [List.find?_append, none, Option.none_or]
      exact later

theorem blamesOk {references : List γ} {x : Except ε α} (first : Blames bad error references x) (f : α → β) :
    Blames bad error references (x >>= fun a => .ok (f a)) := by
  have whole := @blamesBind α β ε γ bad error references [] x (fun a => .ok (f a)) first fun a _ => rfl
  rwa [List.append_nil] at whole

theorem blamesTraverse {step : α → Except ε β} {references : α → List γ} {as : List α}
    (each : ∀ a ∈ as, Blames bad error (references a) (step a)) :
    Blames bad error (as.flatMap references) (traverse step as) := by
  induction as with
  | nil => rfl
  | cons a as ih =>
    obtain ⟨here, later⟩ := List.forall_mem_cons.mp each
    have steps : traverse step (a :: as) = step a >>= fun b => traverse step as >>= fun bs => .ok (b :: bs) := by
      simp only [traverse]
      cases step a with
      | error e => rfl
      | ok b => cases traverse step as <;> rfl
    rw [steps, List.flatMap_cons]
    exact blamesBind here fun b _ => blamesOk (ih later) _

end Blames

def BothOk (R : α → β → Prop) (x : Except ε α) (y : Except ε β) : Prop :=
  ∀ ⦃a b⦄, x = .ok a → y = .ok b → R a b

namespace BothOk

variable {γ δ : Type} {R : α → β → Prop} {S : γ → δ → Prop}

theorem ok {a : α} {b : β} (related : R a b) : BothOk R (.ok a : Except ε α) (.ok b) := by
  rintro _ _ ⟨⟩ ⟨⟩
  exact related

theorem error (e : ε) (y : Except ε β) : BothOk R (.error e) y := nofun

theorem bind {x : Except ε α} {y : Except ε β} {f : α → Except ε γ} {g : β → Except ε δ}
    (first : BothOk R x y) (next : ∀ a b, R a b → BothOk S (f a) (g b)) :
    BothOk S (x >>= f) (y >>= g) := by
  intro c d left right
  obtain ⟨a, stepped, left⟩ := bindOk left
  obtain ⟨b, stepped', right⟩ := bindOk right
  exact next a b (first stepped stepped') left right

theorem traverse {f : α → Except ε γ} {g : β → Except ε δ} {as : List α} {bs : List β}
    (related : List.Forall₂ R as bs) (step : ∀ a b, R a b → BothOk S (f a) (g b)) :
    BothOk (List.Forall₂ S) (Parlance.traverse f as) (Parlance.traverse g bs) := by
  induction related with
  | nil => exact ok .nil
  | cons first _ ih =>
    intro cs ds left right
    obtain ⟨c, cs, stepped, walked, rfl⟩ := traverseConsOk left
    obtain ⟨d, ds, stepped', walked', rfl⟩ := traverseConsOk right
    exact .cons (step _ _ first stepped stepped') (ih walked walked')

end BothOk

theorem repeatedFromNone {seen names : List String} (h : repeatedFrom seen names = none) :
    names.Nodup ∧ ∀ name ∈ names, name ∉ seen := by
  induction names generalizing seen with
  | nil => simp
  | cons name names ih =>
    simp only [repeatedFrom] at h
    split at h
    · contradiction
    · rename_i fresh
      obtain ⟨once, apart⟩ := ih h
      have later : name ∉ names := fun member => apart name member List.mem_cons_self
      refine ⟨List.nodup_cons.mpr ⟨later, once⟩, fun other member => ?_⟩
      rcases List.mem_cons.mp member with rfl | member
      · simpa using fresh
      · exact fun inside => apart other member (List.mem_cons_of_mem _ inside)

theorem firstRepeatedNone {names : List String} (h : firstRepeated names = none) : names.Nodup :=
  (repeatedFromNone h).1

theorem repeatedFromOnce {seen names : List String} (once : names.Nodup)
    (apart : ∀ name ∈ names, name ∉ seen) : repeatedFrom seen names = none := by
  induction names generalizing seen with
  | nil => rfl
  | cons name names ih =>
    obtain ⟨fresh, once⟩ := List.nodup_cons.mp once
    have unseen : name ∉ seen := apart name List.mem_cons_self
    simp only [repeatedFrom, List.contains_eq_mem, unseen, decide_false, Bool.false_eq_true, if_false]
    refine ih once fun other member inside => ?_
    rcases List.mem_cons.mp inside with rfl | before
    · exact fresh member
    · exact apart other (List.mem_cons_of_mem _ member) before

theorem firstRepeatedOnce {names : List String} (once : names.Nodup) : firstRepeated names = none :=
  repeatedFromOnce once (by simp)

def FirstRepeat (names : List String) (name : String) : Prop :=
  ∃ before after, names = before ++ name :: after ∧ before.Nodup ∧ name ∈ before

theorem repeatedFromSome {seen names : List String} {name : String} : repeatedFrom seen names = some name ↔
    ∃ before after, names = before ++ name :: after ∧ before.Nodup ∧ (∀ other ∈ before, other ∉ seen) ∧
      (name ∈ seen ∨ name ∈ before) := by
  induction names generalizing seen with
  | nil => simp [repeatedFrom]
  | cons n names ih =>
    simp only [repeatedFrom, List.contains_eq_mem, decide_eq_true_eq]
    split
    · rename_i known
      constructor
      · rintro ⟨⟩
        exact ⟨[], names, rfl, .nil, by simp, .inl known⟩
      · rintro ⟨before, after, split, -, fresh, -⟩
        cases before with
        | nil => rw [(List.cons.inj split).1]
        | cons b before =>
          obtain ⟨rfl, -⟩ := List.cons.inj split
          exact absurd known (fresh n List.mem_cons_self)
    · rename_i unknown
      rw [ih]
      constructor
      · rintro ⟨before, after, rfl, once, fresh, again⟩
        have apart : n ∉ before := fun inside => fresh n inside List.mem_cons_self
        have unseen : ∀ other ∈ n :: before, other ∉ seen := List.forall_mem_cons.mpr
          ⟨unknown, fun other member inside => fresh other member (List.mem_cons_of_mem _ inside)⟩
        refine ⟨n :: before, after, rfl, List.nodup_cons.mpr ⟨apart, once⟩, unseen, ?_⟩
        simpa [or_assoc, or_left_comm] using again
      · rintro ⟨before, after, split, once, fresh, again⟩
        cases before with
        | nil =>
          obtain ⟨rfl, -⟩ := List.cons.inj split
          exact absurd (again.resolve_right (by simp)) unknown
        | cons b before =>
          obtain ⟨rfl, rfl⟩ := List.cons.inj split
          obtain ⟨apart, once⟩ := List.nodup_cons.mp once
          have known : name ∈ n :: seen ∨ name ∈ before := by simpa [or_assoc, or_left_comm] using again
          refine ⟨before, after, rfl, once, fun other member inside => ?_, known⟩
          rcases List.mem_cons.mp inside with rfl | inside
          · exact apart member
          · exact fresh other (List.mem_cons_of_mem _ member) inside

theorem firstRepeatedSome {names : List String} {name : String} :
    firstRepeated names = some name ↔ FirstRepeat names name := by
  simp [firstRepeated, repeatedFromSome, FirstRepeat]

theorem repeatUnique {names : List String} {name other : String} (first : FirstRepeat names name)
    (second : FirstRepeat names other) : name = other :=
  Option.some.inj ((firstRepeatedSome.mpr first).symm.trans (firstRepeatedSome.mpr second))

theorem repeatedTwice {names : List String} {name : String} (again : FirstRepeat names name) : ¬ names.Nodup := by
  intro once
  cases (firstRepeatedOnce once).symm.trans (firstRepeatedSome.mpr again)

theorem mappedOnce {f : α → β} {as : List α} (once : (as.map f).Nodup) {a b : α} (first : a ∈ as)
    (second : b ∈ as) (same : f a = f b) : a = b := by
  induction as with
  | nil => simp at first
  | cons c as ih =>
    obtain ⟨apart, once⟩ := List.nodup_cons.mp once
    rcases List.mem_cons.mp first with rfl | later
    · rcases List.mem_cons.mp second with rfl | other
      · rfl
      · exact absurd (same ▸ List.mem_map_of_mem other) apart
    · rcases List.mem_cons.mp second with rfl | other
      · exact absurd (same ▸ List.mem_map_of_mem later) apart
      · exact ih once later other

end Parlance
