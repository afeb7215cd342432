/-! Walking lists: a step that may fail, and names that must not repeat. -/
namespace Parlance

def traverse {α β ε : Type} (step : α → Except ε β) : List α → Except ε (List β)
  | [] => .ok []
  | a :: as =>
    match step a with
    | .error e => .error e
    | .ok b =>
      match traverse step as with
      | .error e => .error e
      | .ok bs => .ok (b :: bs)

def repeatedFrom (seen : List String) : List String → Option String
  | [] => none
  | name :: names =>
    if seen.contains name then some name else repeatedFrom (name :: seen) names

def firstRepeated (names : List String) : Option String := repeatedFrom [] names

theorem traverseLength {α β ε : Type} {step : α → Except ε β} {as : List α} {bs : List β}
    (h : traverse step as = .ok bs) : bs.length = as.length := by
  induction as generalizing bs with
  | nil => cases h; rfl
  | cons a as ih =>
    simp only [traverse] at h
    split at h
    · contradiction
    · split at h
      · contradiction
      · rename_i rest same
        cases h
        simp [ih same]

end Parlance
