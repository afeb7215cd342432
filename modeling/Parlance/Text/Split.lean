/-! Cutting a text at a separator. Occurrences are found from the left and do not overlap. -/
namespace Parlance.Text

def splitOnce (sep : List Char) : List Char → Option (List Char × List Char)
  | [] => none
  | c :: cs =>
    if sep.isPrefixOf (c :: cs) then some ([], (c :: cs).drop sep.length)
    else (splitOnce sep cs).map fun parts => (c :: parts.1, parts.2)

def extendHead (c : Char) : List (List Char) → List (List Char)
  | [] => [[c]]
  | piece :: pieces => (c :: piece) :: pieces

def splitFrom (sep : List Char) : Nat → List Char → List (List Char)
  | _, [] => [[]]
  | skip + 1, _ :: cs => splitFrom sep skip cs
  | 0, c :: cs =>
    if sep.isPrefixOf (c :: cs) then [] :: splitFrom sep (sep.length - 1) cs
    else extendHead c (splitFrom sep 0 cs)

def split (sep : List Char) (cs : List Char) : List (List Char) := splitFrom sep 0 cs

theorem splitOnceJoin {sep cs before after : List Char}
    (h : splitOnce sep cs = some (before, after)) : cs = before ++ sep ++ after := by
  induction cs generalizing before after with
  | nil => simp [splitOnce] at h
  | cons c cs ih =>
    simp only [splitOnce] at h
    split at h
    · rename_i found
      obtain ⟨tail, ht⟩ := List.isPrefixOf_iff_prefix.mp found
      simp only [Option.some.injEq, Prod.mk.injEq] at h
      rw [← h.1, ← h.2, ← ht]
      simp
    · obtain ⟨parts, hp, hq⟩ := Option.map_eq_some_iff.mp h
      simp only [Prod.mk.injEq] at hq
      rw [ih hp, ← hq.1, ← hq.2]
      simp

end Parlance.Text
