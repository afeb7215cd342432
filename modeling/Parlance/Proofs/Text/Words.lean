import Parlance.Text.Blank

/-! Laws of words. The words of a text are runs of it, words that are joined by single spaces are found
again, and what holds no blank cannot reach over a space. -/
namespace Parlance.Text

def Unblank (cs : List Char) : Prop := ∀ c ∈ cs, isBlank c = false

def IsWord (w : List Char) : Prop := w ≠ [] ∧ Unblank w

theorem unblankTail {c : Char} {cs : List Char} (h : Unblank (c :: cs)) : Unblank cs :=
  fun d member => h d (List.mem_cons_of_mem _ member)

theorem spaceNotIn {cs : List Char} (h : Unblank cs) : ' ' ∉ cs := fun member =>
  absurd (h ' ' member) (by decide)

section Words

theorem addWordMember {w v : List Char} {rest : List (List Char)} (member : v ∈ addWord w rest) :
    v = w ∧ w ≠ [] ∨ v ∈ rest := by
  unfold addWord at member
  split at member
  · exact .inr member
  · rename_i filled
    rcases List.mem_cons.mp member with rfl | later
    · exact .inl ⟨rfl, by simpa using filled⟩
    · exact .inr later

theorem headWordRuns (cs : List Char) :
    ((headWord cs).1 <+: cs ∧ Unblank (headWord cs).1) ∧
      ∀ w ∈ (headWord cs).2, w <:+: cs ∧ IsWord w := by
  induction cs with
  | nil => simp [headWord, Unblank]
  | cons c cs ih =>
    obtain ⟨⟨begins, unblank⟩, later⟩ := ih
    have wider : ∀ w ∈ (headWord cs).2, w <:+: c :: cs ∧ IsWord w := fun w member =>
      ⟨List.infix_cons (later w member).1, (later w member).2⟩
    simp only [headWord]
    split
    · refine ⟨⟨List.nil_prefix, by simp [Unblank]⟩, fun w member => ?_⟩
      rcases addWordMember member with ⟨rfl, filled⟩ | member
      · exact ⟨List.infix_cons begins.isInfix, filled, unblank⟩
      · exact wider w member
    · rename_i visible
      exact ⟨⟨List.cons_prefix_cons.mpr ⟨rfl, begins⟩,
        List.forall_mem_cons.mpr ⟨by simpa using visible, unblank⟩⟩, wider⟩

theorem wordsRun {cs w : List Char} (member : w ∈ words cs) : w <:+: cs ∧ IsWord w := by
  obtain ⟨⟨begins, unblank⟩, later⟩ := headWordRuns cs
  rcases addWordMember member with ⟨rfl, filled⟩ | member
  · exact ⟨begins.isInfix, filled, unblank⟩
  · exact later w member

end Words

section Joined

theorem headWordAppend {w : List Char} (unblank : Unblank w) (cs : List Char) :
    headWord (w ++ cs) = (w ++ (headWord cs).1, (headWord cs).2) := by
  induction w with
  | nil => rfl
  | cons c w ih =>
    have visible : isBlank c = false := unblank c List.mem_cons_self
    simp [headWord, ih (unblankTail unblank), visible]

theorem addWordAppend (word : List Char) (rest more : List (List Char)) :
    addWord word (rest ++ more) = addWord word rest ++ more := by
  unfold addWord
  split <;> rfl

theorem wordsBlank {c : Char} (blank : isBlank c = true) (cs ds : List Char) :
    words (cs ++ c :: ds) = words cs ++ words ds := by
  have parted : headWord (cs ++ c :: ds) = ((headWord cs).1, (headWord cs).2 ++ words ds) := by
    induction cs with
    | nil => simp [headWord, blank, words]
    | cons d cs ih =>
      simp only [List.cons_append, headWord, ih, addWordAppend]
      split <;> rfl
  simp only [words, parted, addWordAppend]

theorem wordsSpace (cs : List Char) : words (' ' :: cs) = words cs := rfl

theorem wordsWord {w : List Char} (word : IsWord w) : words w = [w] := by
  have alone := headWordAppend word.2 []
  simp only [List.append_nil, headWord] at alone
  simp [words, alone, addWord, word.1]

theorem wordsFirst {w : List Char} (word : IsWord w) (cs : List Char) :
    words (w ++ ' ' :: cs) = w :: words cs := by
  rw [wordsBlank (by decide), wordsWord word]
  rfl

theorem wordsSpaces (n : Nat) : words (List.replicate n ' ') = [] := by
  induction n with
  | zero => rfl
  | succ n ih => exact (wordsSpace _).trans ih

theorem wordsJoined {ws : List (List Char)} (each : ∀ w ∈ ws, IsWord w) (n : Nat) :
    words (unwords ws ++ List.replicate n ' ') = ws := by
  induction ws with
  | nil => exact wordsSpaces n
  | cons w ws ih =>
    obtain ⟨word, others⟩ := List.forall_mem_cons.mp each
    cases ws with
    | nil =>
      cases n with
      | zero => simpa [unwords] using wordsWord word
      | succ n => exact (wordsFirst word _).trans (by rw [wordsSpaces])
    | cons v vs =>
      have joined : unwords (w :: v :: vs) ++ List.replicate n ' ' =
          w ++ ' ' :: (unwords (v :: vs) ++ List.replicate n ' ') := by
        simp [unwords]
      rw [joined, wordsFirst word, ih others]

theorem unwordsAppend {vs ws : List (List Char)} (before : vs ≠ []) (after : ws ≠ []) :
    unwords (vs ++ ws) = unwords vs ++ ' ' :: unwords ws := by
  induction vs with
  | nil => contradiction
  | cons v vs ih =>
    cases vs with
    | nil =>
      obtain ⟨w, others, rfl⟩ := List.exists_cons_of_ne_nil after
      rfl
    | cons u us =>
      have others : unwords ((u :: us) ++ ws) = unwords (u :: us) ++ ' ' :: unwords ws :=
        ih (List.cons_ne_nil u us)
      simp only [List.cons_append, unwords, List.append_assoc] at others ⊢
      rw [others]

theorem unwordsIntercalate (ws : List (List Char)) : unwords ws = [' '].intercalate ws := by
  induction ws with
  | nil => rfl
  | cons w ws ih =>
    cases ws with
    | nil => simp [unwords]
    | cons v vs => simp [unwords, ih]

end Joined

section Spaces

variable {g : List Char} (unblank : Unblank g)

include unblank

theorem prefixBeforeSpace {u v : List Char} (h : g <+: u ++ ' ' :: v) : g <+: u := by
  induction g generalizing u with
  | nil => exact List.nil_prefix
  | cons c g ih =>
    cases u with
    | nil =>
      obtain ⟨rfl, -⟩ := List.cons_prefix_cons.mp h
      exact absurd List.mem_cons_self (spaceNotIn unblank)
    | cons d u =>
      obtain ⟨same, further⟩ := List.cons_prefix_cons.mp h
      exact List.cons_prefix_cons.mpr ⟨same, ih (unblankTail unblank) further⟩

theorem infixBesideSpace {u v : List Char} (h : g <:+: u ++ ' ' :: v) : g <:+: u ∨ g <:+: v := by
  induction u with
  | nil =>
    rcases List.infix_cons_iff.mp h with here | later
    · exact .inl (prefixBeforeSpace (u := []) unblank here).isInfix
    · exact .inr later
  | cons c u ih =>
    rcases List.infix_cons_iff.mp h with here | later
    · exact .inl (prefixBeforeSpace (u := c :: u) unblank here).isInfix
    · exact (ih later).imp_left List.infix_cons

theorem infixInWord (filled : g ≠ []) {ws : List (List Char)} (h : g <:+: unwords ws) :
    ∃ w ∈ ws, g <:+: w := by
  induction ws with
  | nil => exact absurd (List.infix_nil.mp h) filled
  | cons w ws ih =>
    cases ws with
    | nil => exact ⟨w, List.mem_cons_self, h⟩
    | cons v vs =>
      rcases infixBesideSpace unblank h with here | later
      · exact ⟨w, List.mem_cons_self, here⟩
      · obtain ⟨u, member, inside⟩ := ih later
        exact ⟨u, List.mem_cons_of_mem _ member, inside⟩

end Spaces

end Parlance.Text
