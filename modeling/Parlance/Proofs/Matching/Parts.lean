import Parlance.Proofs.Expr.Written
import Parlance.Proofs.Matching.OrderedChoice

/-! The matches within a match. Each was read by the rule that its arm refers to, and its tokens are among
those of the whole. -/
namespace Parlance

namespace Tree

theorem fieldTokensMember {fields : List (String × Tree)} {name : String} {t : Tree}
    (member : (name, t) ∈ fields) {tok : Token} (inside : tok ∈ t.tokens) :
    tok ∈ fieldTokens fields := by
  induction fields with
  | nil => simp at member
  | cons entry fields ih =>
    obtain ⟨field, u⟩ := entry
    simp only [fieldTokens, List.mem_append]
    rcases List.mem_cons.mp member with same | later
    · cases same
      exact .inl inside
    · exact .inr (ih later)

theorem fieldHeight {fields : List (String × Tree)} {name : String} {t : Tree}
    (member : (name, t) ∈ fields) : t.height ≤ fieldsHeight fields := by
  induction fields with
  | nil => simp at member
  | cons entry fields ih =>
    obtain ⟨field, u⟩ := entry
    simp only [fieldsHeight]
    rcases List.mem_cons.mp member with same | later
    · cases same
      exact Nat.le_max_left _ _
    · exact Nat.le_trans (ih later) (Nat.le_max_right _ _)

theorem partTokens {t sub : Tree} (part : Part t sub) {tok : Token} (inside : tok ∈ sub.tokens) :
    tok ∈ t.tokens := by
  induction part with
  | self => exact inside
  | field member _ ih => exact fieldTokensMember member (ih inside)

end Tree

namespace Matching

variable {g : Grammar}

theorem manyField {id : Fin g.size} {field name : String} {tokens rest : List Token}
    {fields : List (String × Tree)} {t : Tree} (h : ManyRead g id field tokens fields rest)
    (member : (name, t) ∈ fields) :
    name = field ∧ ∃ before after, RuleReads g id before (some (t, after)) := by
  match h with
  | .stop _ => simp at member
  | .idle _ => simp at member
  | .more matched _ others =>
    rcases List.mem_cons.mp member with same | later
    · cases same
      exact ⟨rfl, _, _, matched⟩
    · exact manyField others later

theorem armField {arm : Arm g.size} {tokens rest : List Token} {fields : List (String × Tree)}
    {name : String} {t : Tree} (h : ArmReads g arm tokens (some (fields, rest)))
    (member : (name, t) ∈ fields) :
    name = arm.field ∧ ∃ before after, RuleReads g arm.rule before (some (t, after)) := by
  cases h with
  | once _ matched =>
    cases List.mem_singleton.mp member
    exact ⟨rfl, _, _, matched⟩
  | present _ matched =>
    cases List.mem_singleton.mp member
    exact ⟨rfl, _, _, matched⟩
  | absent => simp at member
  | many _ repeated => exact manyField repeated member

theorem armsField {arms : List (Arm g.size)} {tokens rest : List Token}
    {fields : List (String × Tree)} {name : String} {t : Tree}
    (h : ArmsRead g arms tokens (some (fields, rest))) (member : (name, t) ∈ fields) :
    ∃ arm ∈ arms, name = arm.field ∧
      ∃ before after, RuleReads g arm.rule before (some (t, after)) := by
  match h with
  | .nil => simp at member
  | .cons first others =>
    rcases List.mem_append.mp member with here | later
    · exact ⟨_, List.mem_cons_self, armField first here⟩
    · obtain ⟨arm, inside, found⟩ := armsField others later
      exact ⟨arm, List.mem_cons_of_mem _ inside, found⟩

theorem branchesMatch {rule : String} {branches : List (Branch g.size)} {tokens rest : List Token}
    {t : Tree} (h : BranchesRead g rule branches tokens (some (t, rest))) :
    ∃ branch ∈ branches, ∃ fields, t = .composite rule branch.name fields ∧
      ArmsRead g branch.arms tokens (some (fields, rest)) := by
  match h with
  | .here matched => exact ⟨_, List.mem_cons_self, _, rfl, matched⟩
  | .later _ others =>
    obtain ⟨branch, inside, found⟩ := branchesMatch others
    exact ⟨branch, List.mem_cons_of_mem _ inside, found⟩

theorem readRule {id : Fin g.size} {tokens rest : List Token} {t : Tree}
    (h : RuleReads g id tokens (some (t, rest))) : t.rule = (g.rule id).name := by
  cases h with
  | token => rfl
  | choice body chosen =>
    obtain ⟨branch, -, fields, rfl, -⟩ := branchesMatch chosen
    rfl

theorem compositeMatch {id : Fin g.size} {tokens rest : List Token} {rule branch : String}
    {fields : List (String × Tree)}
    (h : RuleReads g id tokens (some (.composite rule branch fields, rest))) :
    ∃ branches, (g.rule id).body = .composite branches ∧ (g.rule id).name = rule ∧
      ∃ b ∈ branches, b.name = branch ∧ ArmsRead g b.arms tokens (some (fields, rest)) := by
  cases h with
  | choice body chosen =>
    obtain ⟨b, inside, fields, same, arms⟩ := branchesMatch chosen
    cases same
    exact ⟨_, body, rfl, b, inside, rfl, arms⟩

theorem terminalMatch {id : Fin g.size} {tokens rest : List Token} {t : Tree} {d : Detector}
    (body : (g.rule id).body = .terminal d) (h : RuleReads g id tokens (some (t, rest))) :
    ∃ tok, t = .terminal (g.rule id).name d.field tok ∧ d.accepts tok = true := by
  cases h with
  | token found accepted =>
    cases body.symm.trans found
    exact ⟨_, rfl, accepted⟩
  | choice found _ => cases body.symm.trans found

theorem partRead {id : Fin g.size} {tokens rest : List Token} {t sub : Tree}
    (h : RuleReads g id tokens (some (t, rest))) (part : Tree.Part t sub) :
    ∃ id before after, RuleReads g id before (some (sub, after)) := by
  induction part generalizing id tokens rest with
  | self => exact ⟨_, _, _, h⟩
  | field member _ ih =>
    obtain ⟨_, _, _, b, _, _, arms⟩ := compositeMatch h
    obtain ⟨arm, _, _, before, after, read⟩ := armsField arms member
    exact ih read

end Matching
end Parlance
