import Parlance.Tree.Matching

/-! Matching loses no token. A rule that does not match leaves the stream as it was, a match covers exactly
the tokens that are gone, and an attempt that is cut off has only read on. What a cursor holds in its
buffer and what it has still in its source makes no difference. -/
namespace Parlance

namespace Tree

mutual
theorem remainingUnwind (t : Tree) (c : Cursor) :
    (t.unwind c).remaining = t.tokens ++ c.remaining := by
  match t with
  | .terminal _ _ token => rfl
  | .composite _ _ fields => exact remainingUnwindFields fields c

theorem remainingUnwindFields (fields : List (String × Tree)) (c : Cursor) :
    (unwindFields fields c).remaining = fieldTokens fields ++ c.remaining := by
  match fields with
  | [] => rfl
  | (_, t) :: rest =>
    simp only [unwindFields, fieldTokens, List.append_assoc]
    rw [remainingUnwind t, remainingUnwindFields rest]
end

mutual
theorem emptyTokens (t : Tree) : t.isEmpty = true ↔ t.tokens = [] := by
  match t with
  | .terminal _ _ _ => simp [isEmpty, tokens]
  | .composite _ _ fields => exact allEmptyTokens fields

theorem allEmptyTokens (fields : List (String × Tree)) :
    allEmpty fields = true ↔ fieldTokens fields = [] := by
  match fields with
  | [] => simp [allEmpty, fieldTokens]
  | (_, t) :: rest =>
    simp only [allEmpty, fieldTokens, Bool.and_eq_true, List.append_eq_nil_iff]
    rw [emptyTokens t, allEmptyTokens rest]
end

theorem fieldTokensAppend (xs ys : List (String × Tree)) :
    fieldTokens (xs ++ ys) = fieldTokens xs ++ fieldTokens ys := by
  induction xs with
  | nil => rfl
  | cons entry rest ih => simp [fieldTokens, ih]

end Tree

namespace Matching

/-- What an attempt leaves of the tokens `before`, when `covered` tells what a result covers. -/
def Conserves {α : Type} (covered : α → List Token) (before : List Token) : Outcome α → Prop
  | (.matched a, c) => before = covered a ++ c.remaining
  | (.failed, c) => c.remaining = before
  | (.tooDeep, c) => c.remaining <:+ before

theorem suffixAfter {read rest before after : List Token} (h : before = read ++ rest)
    (later : after <:+ rest) : after <:+ before := by
  obtain ⟨more, hm⟩ := later
  exact ⟨read ++ more, by rw [h, ← hm, List.append_assoc]⟩

theorem terminalConserves (rule : String) (d : Detector) (c : Cursor) :
    Conserves Tree.tokens c.remaining (matchTerminal rule d c) := by
  have head := Cursor.nextHead c
  have tail := Cursor.nextTail c
  unfold matchTerminal
  generalize c.next = read at head tail
  obtain ⟨_ | t, after⟩ := read
  · have empty : c.remaining = [] := List.head?_eq_none_iff.mp head.symm
    simpa [Conserves, empty] using tail
  · have split : c.remaining = t :: after.remaining := by
      obtain ⟨rest, hr⟩ := List.head?_eq_some_iff.mp head.symm
      rw [hr] at tail
      rw [hr, tail, List.tail_cons]
    dsimp only
    cases d.accepts t <;> simp [Conserves, Tree.tokens, split]

theorem manyNeverFails (step : Cursor → Outcome Tree) (field : String) (rounds : Nat) (c : Cursor) :
    (matchMany step field rounds c).1 ≠ .failed := by
  induction rounds generalizing c with
  | zero => simp [matchMany]
  | succ rounds ih =>
    unfold matchMany
    rcases step c with ⟨t | _ | _, after⟩
    · have more := ih after
      dsimp only
      split
      · simp
      · rcases h : matchMany step field rounds after with ⟨rest | _ | _, last⟩
        · simp
        · simp [h] at more
        · simp
    · simp
    · simp

theorem manyConserves {step : Cursor → Outcome Tree}
    (stepOk : ∀ c, Conserves Tree.tokens c.remaining (step c)) (field : String) (rounds : Nat)
    (c : Cursor) :
    Conserves Tree.fieldTokens c.remaining (matchMany step field rounds c) := by
  induction rounds generalizing c with
  | zero => rfl
  | succ rounds ih =>
    have once := stepOk c
    unfold matchMany
    generalize step c = out at once
    obtain ⟨t | _ | _, after⟩ := out
    · have read : c.remaining = t.tokens ++ after.remaining := once
      dsimp only
      cases empty : t.isEmpty with
      | true =>
        have none := (Tree.emptyTokens t).mp empty
        simpa [Conserves, Tree.fieldTokens, none] using read
      | false =>
        have more := ih after
        have going := manyNeverFails step field rounds after
        generalize matchMany step field rounds after = later at more going
        obtain ⟨rest | _ | _, last⟩ := later
        · have readMore : after.remaining = Tree.fieldTokens rest ++ last.remaining := more
          simp [Conserves, Tree.fieldTokens, read, readMore]
        · exact absurd rfl going
        · exact suffixAfter read more
    · exact once.symm
    · exact once

section

variable {n : Nat} {step : Fin n → Cursor → Outcome Tree}
  (stepOk : ∀ id c, Conserves Tree.tokens c.remaining (step id c))

include stepOk

theorem armConserves (arm : Arm n) (c : Cursor) :
    Conserves Tree.fieldTokens c.remaining (matchArm step arm c) := by
  have once := stepOk arm.rule c
  unfold matchArm
  cases arm.times with
  | once =>
    generalize step arm.rule c = out at once
    obtain ⟨t | _ | _, after⟩ := out
    · simpa [Conserves, Tree.fieldTokens] using once
    · exact once
    · exact once
  | optional =>
    generalize step arm.rule c = out at once
    obtain ⟨t | _ | _, after⟩ := out
    · simpa [Conserves, Tree.fieldTokens] using once
    · exact once.symm
    · exact once
  | many => exact manyConserves (stepOk arm.rule) arm.field _ c

theorem armsConserve (arms : List (Arm n)) (c : Cursor) :
    Conserves Tree.fieldTokens c.remaining (matchArms step arms c) := by
  -- The arms after a matched one start where it left the stream; if they fail, putting its fields back gives the
  -- stream from before.
  induction arms generalizing c with
  | nil => rfl
  | cons arm arms ih =>
    have first := armConserves stepOk arm c
    unfold matchArms
    generalize matchArm step arm c = out at first
    obtain ⟨fields | _ | _, after⟩ := out
    · have read : c.remaining = Tree.fieldTokens fields ++ after.remaining := first
      have others := ih after
      dsimp only
      generalize matchArms step arms after = later at others
      obtain ⟨rest | _ | _, last⟩ := later
      · have readMore : after.remaining = Tree.fieldTokens rest ++ last.remaining := others
        simp [Conserves, Tree.fieldTokensAppend, read, readMore]
      · have back : last.remaining = after.remaining := others
        simp [Conserves, Tree.remainingUnwindFields, read, back]
      · exact suffixAfter read others
    · exact first
    · exact first

theorem branchesConserve (rule : String) (branches : List (Branch n)) (c : Cursor) :
    Conserves Tree.tokens c.remaining (matchBranches step rule branches c) := by
  induction branches generalizing c with
  | nil => rfl
  | cons branch branches ih =>
    have first := armsConserve stepOk branch.arms c
    unfold matchBranches
    generalize matchArms step branch.arms c = out at first
    obtain ⟨fields | _ | _, after⟩ := out
    · exact first
    · have back : after.remaining = c.remaining := first
      have others := ih after
      rwa [back] at others
    · exact first

end

theorem ruleConserves (g : Grammar) (levels : Nat) (id : Fin g.size) (c : Cursor) :
    Conserves Tree.tokens c.remaining (matchAt g levels id c) := by
  induction levels generalizing id c with
  | zero => exact List.suffix_refl _
  | succ levels ih =>
    unfold matchAt
    cases (g.rule id).body with
    | terminal d => exact terminalConserves _ d c
    | composite branches => exact branchesConserve ih _ branches c

end Matching

theorem Grammar.parseMatches {g : Grammar} {start : String} {tokens : List Token} {m : Tree}
    (parsed : g.parse start tokens = .ok m) : ∃ id after, g.id? start = some id ∧
      Matching.matchAt g defaultDepth id (Cursor.ofTokens tokens) = (.matched m, after) ∧
      after.remaining = [] := by
  unfold parse at parsed
  split at parsed
  · contradiction
  · rename_i id named
    unfold matchRule at parsed
    rcases out : Matching.matchAt g defaultDepth id (Cursor.ofTokens tokens) with ⟨t | _ | _, after⟩
    · have head := Cursor.nextHead after
      simp only [out] at parsed
      split at parsed
      · contradiction
      · rename_i last
        rw [last] at head
        cases Except.ok.inj parsed
        exact ⟨id, after, named, out, List.head?_eq_none_iff.mp head.symm⟩
    · simp [out] at parsed
    · simp [out] at parsed

theorem Grammar.parseTokens {g : Grammar} {start : String} {tokens : List Token} {m : Tree}
    (parsed : g.parse start tokens = .ok m) : m.tokens = tokens := by
  obtain ⟨id, after, _, out, empty⟩ := parseMatches parsed
  have rule := Matching.ruleConserves g defaultDepth id (Cursor.ofTokens tokens)
  rw [out] at rule
  have read : tokens = m.tokens ++ after.remaining := rule
  rw [read, empty, List.append_nil]

/-- A match at a cursor gives every token a place: no match leaves the stream as it was, a match and what
is left make up the stream and unwinding restores it, and an attempt that is cut off leaves a suffix.
A parse covers its whole input. -/
theorem Grammar.matchConservesTokens (g : Grammar) (limit : Nat) (id : Fin g.size) (c : Cursor) :
    (match g.matchRule limit id c with
      | (.ok none, after) => after.remaining = c.remaining
      | (.ok (some m), after) =>
        c.remaining = m.tokens ++ after.remaining ∧ (m.unwind after).remaining = c.remaining
      | (.error e, after) => e = .tooDeep limit ∧ after.remaining <:+ c.remaining) ∧
    ∀ start tokens m, g.parse start tokens = .ok m → m.tokens = tokens := by
  constructor
  · have rule := Matching.ruleConserves g limit id c
    unfold matchRule
    generalize Matching.matchAt g limit id c = out at rule
    obtain ⟨m | _ | _, after⟩ := out
    · have read : c.remaining = m.tokens ++ after.remaining := rule
      exact ⟨read, by rw [Tree.remainingUnwind, read]⟩
    · exact rule
    · exact ⟨rfl, rule⟩
  · intro start tokens m parsed
    exact parseTokens parsed

end Parlance
