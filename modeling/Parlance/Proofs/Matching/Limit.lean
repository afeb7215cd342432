import Parlance.Tree.Matching

/-! The limit on nesting only cuts off. An attempt that stays within its limit is the same under every larger
one, down to what the cursor holds in its buffer: no arm and no branch takes a part that was cut off for one
that failed. -/
namespace Parlance

namespace Matching

def Deepens {α : Type} (small large : Outcome α) : Prop :=
  (∃ after, small = (.tooDeep, after)) ∨ large = small

theorem manyDeepen {step step' : Cursor → Outcome Tree} (each : ∀ c, Deepens (step c) (step' c))
    (field : String) (rounds : Nat) (c : Cursor) :
    Deepens (matchMany step field rounds c) (matchMany step' field rounds c) := by
  induction rounds generalizing c with
  | zero => exact .inr rfl
  | succ rounds ih =>
    have first := each c
    unfold matchMany
    generalize step c = small at first
    generalize step' c = large at first
    obtain ⟨after, rfl⟩ | rfl := first
    · exact .inl ⟨after, rfl⟩
    obtain ⟨t | _ | _, after⟩ := large
    · have others := ih after
      dsimp only
      split
      · exact .inr rfl
      generalize matchMany step field rounds after = small at others
      generalize matchMany step' field rounds after = large at others
      obtain ⟨last, rfl⟩ | rfl := others
      · exact .inl ⟨last, rfl⟩
      · exact .inr rfl
    · exact .inr rfl
    · exact .inr rfl

section

variable {n : Nat} {step step' : Fin n → Cursor → Outcome Tree}
  (each : ∀ id c, Deepens (step id c) (step' id c))

include each

theorem armDeepens (arm : Arm n) (c : Cursor) : Deepens (matchArm step arm c) (matchArm step' arm c) := by
  have once := each arm.rule c
  unfold matchArm
  cases arm.times with
  | once | optional =>
    generalize step arm.rule c = small at once
    generalize step' arm.rule c = large at once
    obtain ⟨after, rfl⟩ | rfl := once
    · exact .inl ⟨after, rfl⟩
    · exact .inr rfl
  | many => exact manyDeepen (each arm.rule) arm.field _ c

theorem armsDeepen (arms : List (Arm n)) (c : Cursor) :
    Deepens (matchArms step arms c) (matchArms step' arms c) := by
  induction arms generalizing c with
  | nil => exact .inr rfl
  | cons arm arms ih =>
    have first := armDeepens each arm c
    unfold matchArms
    generalize matchArm step arm c = small at first
    generalize matchArm step' arm c = large at first
    obtain ⟨after, rfl⟩ | rfl := first
    · exact .inl ⟨after, rfl⟩
    obtain ⟨fields | _ | _, after⟩ := large
    · have others := ih after
      dsimp only
      generalize matchArms step arms after = small at others
      generalize matchArms step' arms after = large at others
      obtain ⟨last, rfl⟩ | rfl := others
      · exact .inl ⟨last, rfl⟩
      · exact .inr rfl
    · exact .inr rfl
    · exact .inr rfl

theorem branchesDeepen (rule : String) (branches : List (Branch n)) (c : Cursor) :
    Deepens (matchBranches step rule branches c) (matchBranches step' rule branches c) := by
  induction branches generalizing c with
  | nil => exact .inr rfl
  | cons branch branches ih =>
    have first := armsDeepen each branch.arms c
    unfold matchBranches
    generalize matchArms step branch.arms c = small at first
    generalize matchArms step' branch.arms c = large at first
    obtain ⟨after, rfl⟩ | rfl := first
    · exact .inl ⟨after, rfl⟩
    obtain ⟨fields | _ | _, after⟩ := large
    · exact .inr rfl
    · exact ih after
    · exact .inr rfl

end

theorem ruleDeepens (g : Grammar) {small large : Nat} (le : small ≤ large) (id : Fin g.size)
    (c : Cursor) : Deepens (matchAt g small id c) (matchAt g large id c) := by
  induction small generalizing large id c with
  | zero => exact .inl ⟨c, rfl⟩
  | succ small ih =>
    obtain ⟨large, rfl⟩ := Nat.exists_eq_add_of_le' (Nat.le_of_add_left_le le)
    unfold matchAt
    cases (g.rule id).body with
    | terminal d => exact .inr rfl
    | composite branches =>
      exact branchesDeepen (fun id c => ih (Nat.le_of_succ_le_succ le) id c) _ branches c

end Matching

namespace Grammar

/-- A match or a failure under one limit is the answer under every larger one, and leaves the same cursor: the
same tokens, as many of them in its buffer. So what is too deep under the larger limit is too deep under the
smaller. -/
theorem limitOnlyCuts (g : Grammar) (id : Fin g.size) (c : Cursor) {small large : Nat}
    (le : small ≤ large) :
    ((g.matchRule small id c).1 ≠ .error (.tooDeep small) →
      (g.matchRule large id c).1 = (g.matchRule small id c).1 ∧
      (g.matchRule large id c).2.remaining = (g.matchRule small id c).2.remaining ∧
      (g.matchRule large id c).2.buffered = (g.matchRule small id c).2.buffered) ∧
    ((g.matchRule large id c).1 = .error (.tooDeep large) →
      (g.matchRule small id c).1 = .error (.tooDeep small)) := by
  have deepens := Matching.ruleDeepens g le id c
  unfold matchRule
  generalize Matching.matchAt g small id c = first at deepens
  generalize Matching.matchAt g large id c = second at deepens
  obtain ⟨after, rfl⟩ | rfl := deepens
  · exact ⟨fun uncut => absurd rfl uncut, fun _ => rfl⟩
  · obtain ⟨m | _ | _, after⟩ := second
    · exact ⟨fun _ => ⟨rfl, rfl, rfl⟩, nofun⟩
    · exact ⟨fun _ => ⟨rfl, rfl, rfl⟩, nofun⟩
    · exact ⟨fun uncut => absurd rfl uncut, fun _ => rfl⟩

theorem fourLevelsSuffice : ∃ (g : Grammar) (id : Fin g.size) (c : Cursor),
    (g.matchRule 3 id c).1 = .error (.tooDeep 3) ∧ (∃ m, (g.matchRule 4 id c).1 = .ok (some m)) ∧
      (g.matchRule 9 id c).1 = (g.matchRule 4 id c).1 := by
  let g : Grammar := ⟨2, #v[⟨"signs", .composite [⟨"more", [⟨"sign", 1, .once⟩, ⟨"rest", 0, .optional⟩]⟩]⟩,
    ⟨"sign", .terminal ⟨"text", Token.isGlyph "<"⟩⟩]⟩
  let c : Cursor := .ofTokens [.glyph "<", .glyph "<"]
  have matched : ∃ m, (g.matchRule 4 (0 : Fin 2) c).1 = .ok (some m) := ⟨_, rfl⟩
  have uncut : (g.matchRule 4 (0 : Fin 2) c).1 ≠ .error (.tooDeep 4) := by
    obtain ⟨m, same⟩ := matched
    simp [same]
  exact ⟨g, (0 : Fin 2), c, rfl, matched, ((limitOnlyCuts g (0 : Fin 2) c (by decide : 4 ≤ 9)).1 uncut).1⟩

end Grammar
end Parlance
