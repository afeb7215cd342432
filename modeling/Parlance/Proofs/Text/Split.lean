import Mathlib.Data.List.DropRight
import Parlance.Proofs.Sequence
import Parlance.Proofs.Text.Words
import Parlance.Text.Split

/-! Laws of cutting and trimming. A separator is found where it stands first, no piece between two separators
holds one, and pieces that are joined with spaces around the separators are found again. -/
namespace Parlance.Text

section Trimmed

def Trimmed (cs : List Char) : Prop := trimLeft cs = cs ∧ trimRight cs = cs

theorem trimInfix (cs : List Char) : trim cs <:+: cs :=
  (List.rdropWhile_prefix isBlank (trimLeft cs)).isInfix.trans (List.dropWhile_suffix isBlank).isInfix

theorem trimLeftKept {c : Char} {cs : List Char} : trimLeft (c :: cs) = c :: cs ↔ isBlank c = false := by
  unfold trimLeft
  refine ⟨fun kept => ?_, fun visible => by simp [visible]⟩
  by_contra blank
  have shorter := (List.dropWhile_suffix isBlank (l := cs)).length_le
  rw [Bool.not_eq_false] at blank
  rw [List.dropWhile_cons_of_pos blank] at kept
  rw [kept, List.length_cons] at shorter
  omega

theorem trimmedTrim (cs : List Char) : Trimmed (trim cs) := by
  refine ⟨?_, List.rdropWhile_idempotent isBlank (trimLeft cs)⟩
  obtain ⟨tail, whole⟩ := List.rdropWhile_prefix isBlank (trimLeft cs)
  have kept : trimLeft (trimLeft cs) = trimLeft cs := List.dropWhile_idempotent isBlank cs
  unfold trim trimRight
  rw [← List.rdropWhile]
  generalize List.rdropWhile isBlank (trimLeft cs) = word at whole ⊢
  cases word with
  | nil => rfl
  | cons c word =>
    rw [← whole, List.cons_append] at kept
    exact trimLeftKept.mpr (trimLeftKept.mp kept)

theorem wordTrimmed {w : List Char} (unblank : Unblank w) : Trimmed w := by
  have kept : ∀ u : List Char, (∀ c ∈ u, isBlank c = false) → u.dropWhile isBlank = u := by
    intro u visible
    cases u with
    | nil => rfl
    | cons c u => exact trimLeftKept.mpr (visible c List.mem_cons_self)
  refine ⟨kept w unblank, ?_⟩
  unfold trimRight
  rw [kept w.reverse fun c member => unblank c (List.mem_reverse.mp member), List.reverse_reverse]

theorem trimPadded {word : List Char} (trimmed : Trimmed word) (m n : Nat) :
    trim (List.replicate m ' ' ++ word ++ List.replicate n ' ') = word := by
  have blank : ∀ k, ∀ c ∈ List.replicate k ' ', isBlank c = true := by
    intro k c member
    rw [List.eq_of_mem_replicate member]
    decide
  have left : trimLeft (List.replicate m ' ' ++ word ++ List.replicate n ' ') =
      trimLeft (word ++ List.replicate n ' ') := by
    rw [List.append_assoc]
    exact List.dropWhile_append_of_pos (blank m)
  have right : trimRight (word ++ List.replicate n ' ') = trimRight word := by
    unfold trimRight
    rw [List.reverse_append, List.dropWhile_append_of_pos (by simpa using blank n)]
  unfold trim
  rw [left]
  cases word with
  | nil =>
    have nothing : trimLeft (List.replicate n ' ') = [] := List.dropWhile_eq_nil_iff.mpr (blank n)
    rw [List.nil_append, nothing]
    rfl
  | cons c word =>
    have visible := trimLeftKept.mp trimmed.1
    rw [List.cons_append, trimLeftKept.mpr visible, ← List.cons_append, right, trimmed.2]

end Trimmed

section Once

variable {sep : List Char}

theorem splitOnceFree {cs before after : List Char} (filled : sep ≠ [])
    (h : splitOnce sep cs = some (before, after)) : ¬ sep <:+: before := by
  induction cs generalizing before with
  | nil => contradiction
  | cons c cs ih =>
    simp only [splitOnce] at h
    split at h
    · cases h
      exact fun inside => filled (List.infix_nil.mp inside)
    · rename_i unbegun
      obtain ⟨parts, found, same⟩ := Option.map_eq_some_iff.mp h
      cases same
      intro inside
      rcases List.infix_cons_iff.mp inside with here | later
      · have join := splitOnceJoin found
        refine unbegun (List.isPrefixOf_iff_prefix.mpr (here.trans ?_))
        exact List.cons_prefix_cons.mpr ⟨rfl, by rw [join, List.append_assoc]; exact List.prefix_append _ _⟩
      · exact ih found later

theorem splitOnceNone {cs : List Char} (filled : sep ≠ []) : splitOnce sep cs = none ↔ ¬ sep <:+: cs := by
  induction cs with
  | nil => simpa [splitOnce] using filled
  | cons c cs ih =>
    simp only [splitOnce, List.infix_cons_iff, not_or, ← ih]
    split
    · rename_i begins
      simp [List.isPrefixOf_iff_prefix.mp begins]
    · rename_i unbegun
      simp [mt List.isPrefixOf_iff_prefix.mpr unbegun]

theorem splitOnceSpace {before : List Char} (visible : Unblank sep) (filled : sep ≠ [])
    (free : ¬ sep <:+: before) (after : List Char) :
    splitOnce sep (before ++ ' ' :: (sep ++ after)) = some (before ++ [' '], after) := by
  induction before with
  | nil =>
    have unbegun : ¬ sep.isPrefixOf (' ' :: (sep ++ after)) = true := fun begins =>
      filled (List.prefix_nil.mp (prefixBeforeSpace (u := []) visible (List.isPrefixOf_iff_prefix.mp begins)))
    have here : splitOnce sep (sep ++ after) = some ([], after) := by
      obtain ⟨c, more, rfl⟩ := List.exists_cons_of_ne_nil filled
      have begins := List.isPrefixOf_iff_prefix.mpr (List.prefix_append (c :: more) after)
      rw [List.cons_append] at begins ⊢
      rw [splitOnce, if_pos begins]
      simp
    rw [List.nil_append, splitOnce, if_neg unbegun, here]
    rfl
  | cons c before ih =>
    have unbegun : ¬ sep.isPrefixOf (c :: (before ++ ' ' :: (sep ++ after))) = true := fun begins =>
      free (prefixBeforeSpace (u := c :: before) visible (List.isPrefixOf_iff_prefix.mp begins)).isInfix
    rw [List.cons_append, splitOnce, if_neg unbegun, ih fun inside => free (List.infix_cons inside)]
    rfl

end Once

section Pieces

variable {sep : List Char} (filled : sep ≠ [])

theorem splitFromSkip (skip : Nat) (cs : List Char) : splitFrom sep skip cs = split sep (cs.drop skip) := by
  induction cs generalizing skip with
  | nil => simp [split, splitFrom]
  | cons c cs ih =>
    cases skip with
    | zero => rfl
    | succ skip => exact ih skip

include filled

theorem splitStep (cs : List Char) : split sep cs =
    match splitOnce sep cs with
    | none => [cs]
    | some (before, after) => before :: split sep after := by
  induction cs with
  | nil => rfl
  | cons c cs ih =>
    simp only [split, splitFrom, splitOnce]
    split
    · obtain ⟨d, more, rfl⟩ := List.exists_cons_of_ne_nil filled
      exact congrArg _ (splitFromSkip _ cs)
    · rw [← split, ih]
      cases splitOnce sep cs with
      | none => rfl
      | some parts => rfl

theorem splitSome (cs : List Char) : split sep cs ≠ [] := by
  rw [splitStep filled]
  split <;> exact List.cons_ne_nil _ _

theorem pieceFree {cs piece : List Char} (member : piece ∈ split sep cs) : ¬ sep <:+: piece := by
  rw [splitStep filled] at member
  split at member
  · rename_i none
    cases List.mem_singleton.mp member
    exact (splitOnceNone filled).mp none
  · rename_i before after found
    rcases List.mem_cons.mp member with rfl | later
    · exact splitOnceFree filled found
    · exact pieceFree later
termination_by cs.length
decreasing_by
  rename_i found _
  have := List.length_pos_iff.mpr filled
  simp only [splitOnceJoin found, List.length_append]
  omega

theorem splitJoined {β ε : Type} (visible : Unblank sep) {step : List Char → Except ε β} {write : β → List Char}
    {bs : List β} (some : bs ≠ []) (free : ∀ b ∈ bs, ¬ sep <:+: write b)
    (reads : ∀ b ∈ bs, ∀ n, step (' ' :: (write b ++ List.replicate n ' ')) = .ok b) :
    traverse step (split sep (' ' :: (' ' :: (sep ++ [' '])).intercalate (bs.map write))) = .ok bs := by
  induction bs with
  | nil => contradiction
  | cons b bs ih =>
    obtain ⟨here, others⟩ := List.forall_mem_cons.mp free
    obtain ⟨read, later⟩ := List.forall_mem_cons.mp reads
    have spaced : ¬ sep <:+: ' ' :: write b := fun inside =>
      (infixBesideSpace (u := []) visible inside).elim (fun none => filled (List.infix_nil.mp none)) here
    cases bs with
    | nil =>
      have alone := read 0
      simp only [List.replicate_zero, List.append_nil] at alone
      rw [List.map_singleton, List.intercalate_singleton, splitStep filled, (splitOnceNone filled).mpr spaced]
      simp [traverse, alone]
    | cons c cs =>
      have joined := ih (List.cons_ne_nil c cs) others later
      have once := splitOnceSpace visible filled spaced
        (' ' :: (' ' :: (sep ++ [' '])).intercalate ((c :: cs).map write))
      have whole : ' ' :: (' ' :: (sep ++ [' '])).intercalate ((b :: c :: cs).map write) =
          ' ' :: write b ++ ' ' :: (sep ++ ' ' :: (' ' :: (sep ++ [' '])).intercalate ((c :: cs).map write)) := by
        simp
      have first := read 1
      rw [List.replicate_one, ← List.cons_append] at first
      rw [whole, splitStep filled, once]
      simp only [traverse, first, joined]

end Pieces

end Parlance.Text
