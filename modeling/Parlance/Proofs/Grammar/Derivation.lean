import Parlance.Proofs.Grammar.Linked
import Parlance.Proofs.Matching.OrderedChoice

/-! Declared rules as a context-free grammar. A derivation tree takes any branch of a rule, not the first that
matches; an optional arm stands for at most one tree and a repeated one for any number, however greedily the
matcher would take them. What the matcher reads is a derivation tree, and in a grammar that links the tree of
a declared name is made of what was declared under it. -/
namespace Parlance

namespace Grammar

mutual
inductive Derives (rules : List RuleSpec) (terminals : List TerminalSpec) : String → Tree → Prop where
  | token {spec t} (listed : spec ∈ terminals) (accepted : spec.detector.accepts t = true) :
      Derives rules terminals spec.name (.terminal spec.name spec.detector.field t)
  | branch {rule b fields} (listed : rule ∈ rules) (chosen : b ∈ rule.branches)
      (arms : ArmsDerive rules terminals b.arms fields) :
      Derives rules terminals rule.name (.composite rule.name b.name fields)

inductive ArmsDerive (rules : List RuleSpec) (terminals : List TerminalSpec) :
    List ArmSpec → List (String × Tree) → Prop where
  | nil : ArmsDerive rules terminals [] []
  | once {field rule arms t fields} (first : Derives rules terminals rule t)
      (others : ArmsDerive rules terminals arms fields) :
      ArmsDerive rules terminals (⟨field, rule, .once⟩ :: arms) ((field, t) :: fields)
  | absent {field rule arms fields} (others : ArmsDerive rules terminals arms fields) :
      ArmsDerive rules terminals (⟨field, rule, .optional⟩ :: arms) fields
  | present {field rule arms t fields} (first : Derives rules terminals rule t)
      (others : ArmsDerive rules terminals arms fields) :
      ArmsDerive rules terminals (⟨field, rule, .optional⟩ :: arms) ((field, t) :: fields)
  | stop {field rule arms fields} (others : ArmsDerive rules terminals arms fields) :
      ArmsDerive rules terminals (⟨field, rule, .many⟩ :: arms) fields
  | more {field rule arms t fields} (first : Derives rules terminals rule t)
      (others : ArmsDerive rules terminals (⟨field, rule, .many⟩ :: arms) fields) :
      ArmsDerive rules terminals (⟨field, rule, .many⟩ :: arms) ((field, t) :: fields)
end

variable {rules : List RuleSpec} {terminals : List TerminalSpec}

section Arms

variable {field rule : String} {arms : List ArmSpec} {fields : List (String × Tree)}

theorem noneDerived (h : ArmsDerive rules terminals [] fields) : fields = [] := by
  cases h
  rfl

theorem onceDerived (h : ArmsDerive rules terminals (⟨field, rule, .once⟩ :: arms) fields) :
    ∃ t others, fields = (field, t) :: others ∧ Derives rules terminals rule t ∧
      ArmsDerive rules terminals arms others := by
  cases h with
  | once first others => exact ⟨_, _, rfl, first, others⟩

theorem optionalDerived (h : ArmsDerive rules terminals (⟨field, rule, .optional⟩ :: arms) fields) :
    ArmsDerive rules terminals arms fields ∨
      ∃ t others, fields = (field, t) :: others ∧ Derives rules terminals rule t ∧
        ArmsDerive rules terminals arms others := by
  cases h with
  | absent others => exact .inl others
  | present first others => exact .inr ⟨_, _, rfl, first, others⟩

theorem manyDerived {fields : List (String × Tree)}
    (h : ArmsDerive rules terminals [⟨field, rule, .many⟩] fields) :
    ∃ trees : List Tree, fields = trees.map (fun t => (field, t)) ∧
      ∀ t ∈ trees, Derives rules terminals rule t := by
  match h with
  | .stop .nil => exact ⟨[], rfl, by simp⟩
  | .more first others =>
    obtain ⟨trees, rfl, each⟩ := manyDerived others
    exact ⟨_ :: trees, rfl, List.forall_mem_cons.mpr ⟨first, each⟩⟩

end Arms

section Once

variable (once : (declared rules terminals).Nodup)

include once

theorem branchDerived {spec : RuleSpec} (listed : spec ∈ rules) {m : Tree}
    (h : Derives rules terminals spec.name m) :
    ∃ b ∈ spec.branches, ∃ fields, m = .composite spec.name b.name fields ∧
      ArmsDerive rules terminals b.arms fields := by
  obtain ⟨composite, terminal, apart⟩ := List.nodup_append.mp once
  generalize named : spec.name = name at h
  cases h with
  | @token other t inside accepted =>
    exact absurd named (apart _ (List.mem_map_of_mem listed) _ (List.mem_map_of_mem inside))
  | @branch other b fields inside chosen arms =>
    cases mappedOnce composite listed inside named
    exact ⟨b, chosen, fields, rfl, arms⟩

theorem tokenDerived {spec : TerminalSpec} (listed : spec ∈ terminals) {m : Tree}
    (h : Derives rules terminals spec.name m) :
    ∃ t, m = .terminal spec.name spec.detector.field t ∧ spec.detector.accepts t = true := by
  obtain ⟨composite, terminal, apart⟩ := List.nodup_append.mp once
  generalize named : spec.name = name at h
  cases h with
  | @token other t inside accepted =>
    cases mappedOnce terminal listed inside named
    exact ⟨t, rfl, accepted⟩
  | @branch other b fields inside chosen arms =>
    exact absurd named.symm (apart _ (List.mem_map_of_mem inside) _ (List.mem_map_of_mem listed))

end Once

section Reads

variable {g : Grammar}

mutual

theorem readDerives (linked : link rules terminals = .ok g) {id : Fin g.size} {tokens : List Token}
    {o : Reading Tree} (h : RuleReads g id tokens o) :
    ∀ m rest, o = some (m, rest) → Derives rules terminals (g.rule id).name m := by
  match h with
  | .token body accepted =>
    rintro m rest ⟨⟩
    rcases linkedRule linked id with ⟨spec, -, -, branches, composite, -⟩ | ⟨spec, listed, same⟩
    · cases body.symm.trans composite
    · have found : g.rule id = ⟨spec.name, .terminal spec.detector⟩ := same
      rw [found] at body ⊢
      cases body
      exact .token listed accepted
  | .refused _ _ => exact fun _ _ same => nomatch same
  | .noToken _ => exact fun _ _ same => nomatch same
  | .choice body chosen =>
    intro m rest same
    rcases linkedRule linked id with ⟨spec, listed, named, branches, composite, read⟩ | ⟨spec, -, found⟩
    · cases body.symm.trans composite
      obtain ⟨b, inside, fields, rfl, arms⟩ := branchesReadDerive linked chosen m rest same
      rw [named]
      exact .branch listed (read ▸ List.mem_map_of_mem inside : g.branchSpec b ∈ spec.branches) arms
    · rw [found] at body
      contradiction

theorem branchesReadDerive (linked : link rules terminals = .ok g) {rule : String}
    {branches : List (Branch g.size)} {tokens : List Token} {o : Reading Tree}
    (h : BranchesRead g rule branches tokens o) :
    ∀ m rest, o = some (m, rest) → ∃ b ∈ branches, ∃ fields, m = .composite rule b.name fields ∧
      ArmsDerive rules terminals (g.branchSpec b).arms fields := by
  match h with
  | .none => exact fun _ _ same => nomatch same
  | .here matched =>
    rintro m rest ⟨⟩
    exact ⟨_, List.mem_cons_self, _, rfl, armsReadDerive linked matched _ _ rfl⟩
  | .later failed others =>
    intro m rest same
    obtain ⟨b, inside, found⟩ := branchesReadDerive linked others m rest same
    exact ⟨b, List.mem_cons_of_mem _ inside, found⟩

theorem armsReadDerive (linked : link rules terminals = .ok g) {arms : List (Arm g.size)}
    {tokens : List Token} {o : Reading (List (String × Tree))} (h : ArmsRead g arms tokens o) :
    ∀ fields rest, o = some (fields, rest) →
      ArmsDerive rules terminals (arms.map g.armSpec) fields := by
  match h with
  | .nil =>
    rintro fields rest ⟨⟩
    exact .nil
  | .cons first others =>
    rintro fields rest ⟨⟩
    exact armReadDerive linked first _ _ rfl (armsReadDerive linked others _ _ rfl)
  | .firstFails _ => exact fun _ _ same => nomatch same
  | .laterFails _ _ => exact fun _ _ same => nomatch same

theorem armReadDerive (linked : link rules terminals = .ok g) {arm : Arm g.size}
    {tokens : List Token} {o : Reading (List (String × Tree))} (h : ArmReads g arm tokens o) :
    ∀ fields rest, o = some (fields, rest) → ∀ {specs more}, ArmsDerive rules terminals specs more →
      ArmsDerive rules terminals (g.armSpec arm :: specs) (fields ++ more) := by
  unfold armSpec
  match h with
  | .once times matched =>
    rintro fields rest ⟨⟩ specs more others
    rw [times]
    exact .once (readDerives linked matched _ _ rfl) others
  | .missing _ _ => exact fun _ _ same => nomatch same
  | .present times matched =>
    rintro fields rest ⟨⟩ specs more others
    rw [times]
    exact .present (readDerives linked matched _ _ rfl) others
  | .absent times fails =>
    rintro fields rest ⟨⟩ specs more others
    rw [times]
    exact .absent others
  | .many times repeated =>
    rintro fields rest ⟨⟩ specs more others
    rw [times]
    exact manyReadDerive linked repeated others

theorem manyReadDerive (linked : link rules terminals = .ok g) {id : Fin g.size} {field : String}
    {tokens rest : List Token} {fields : List (String × Tree)}
    (h : ManyRead g id field tokens fields rest) :
    ∀ {specs more}, ArmsDerive rules terminals specs more →
      ArmsDerive rules terminals (⟨field, (g.rule id).name, .many⟩ :: specs) (fields ++ more) := by
  intro specs more others
  match h with
  | .stop _ => exact .stop others
  | .idle _ => exact .stop others
  | .more matched _ later =>
    exact .more (readDerives linked matched _ _ rfl) (manyReadDerive linked later others)

end

theorem parseDerives (linked : link rules terminals = .ok g) {start : String} {tokens : List Token}
    {m : Tree} (parsed : g.parse start tokens = .ok m) : Derives rules terminals start m := by
  obtain ⟨id, found, read⟩ := parseReads parsed
  rw [← idNamed found]
  exact readDerives linked read m [] rfl

end Reads

end Grammar
end Parlance
