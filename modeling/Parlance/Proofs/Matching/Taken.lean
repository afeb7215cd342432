import Parlance.Proofs.Matching.Following
import Parlance.Proofs.Matching.Named

/-! What a reading was put together from. A match of a declared rule was read by one of its branches, and that
by its arms in order; every arm read its own rule, and the branches before failed. -/
namespace Parlance.Grammar

section

variable (g : Grammar)

def ArmTaken (spec : ArmSpec) (tokens : List Token) (out : Reading (List (String × Tree))) : Prop :=
  ∃ arm, g.armSpec arm = spec ∧ ArmReads g arm tokens out

def ArmsTaken (specs : List ArmSpec) (tokens : List Token) (out : Reading (List (String × Tree))) :
    Prop :=
  ∃ arms, arms.map g.armSpec = specs ∧ ArmsRead g arms tokens out

def BranchesTaken (rule : String) (specs : List BranchSpec) (tokens : List Token)
    (out : Reading Tree) : Prop :=
  ∃ branches, branches.map g.branchSpec = specs ∧ BranchesRead g rule branches tokens out

inductive Series (name : String) : List Token → List Tree → List Token → Prop where
  | nil {tokens} : Series name tokens [] tokens
  | cons {tokens t middle trees rest} (first : g.Reads name tokens (some (t, middle)))
      (progress : middle ≠ tokens) (others : Series name middle trees rest) :
      Series name tokens (t :: trees) rest

end

section Series

variable {g : Grammar} {name : String} {tokens middle rest : List Token} {trees more : List Tree}

theorem seriesAppend (first : Series g name tokens trees middle) (second : Series g name middle more rest) :
    Series g name tokens (trees ++ more) rest := by
  induction first with
  | nil => exact second
  | cons read progress _ ih => exact .cons read progress (ih second)

theorem armSeries {field : String} (series : Series g name tokens trees rest) (ends : g.Reads name rest none) :
    g.ReadsArm ⟨field, name, .many⟩ tokens (some (trees.map fun t => (field, t), rest)) := by
  induction series with
  | nil => exact armNever rfl ends
  | cons read progress _ ih => exact armMore rfl read progress (ih ends)

end Series

section Branches

variable {g : Grammar} {rule : String} {b : BranchSpec} {bs : List BranchSpec} {tokens rest : List Token}
  {m : Tree}

theorem branchTaken (h : g.BranchesTaken rule (b :: bs) tokens (some (m, rest))) :
    (∃ fields, m = .composite rule b.name fields ∧ g.ArmsTaken b.arms tokens (some (fields, rest))) ∨
      g.ArmsTaken b.arms tokens none ∧ g.BranchesTaken rule bs tokens (some (m, rest)) := by
  obtain ⟨branches, same, read⟩ := h
  obtain ⟨branch, others, rfl, rfl, specified⟩ := List.map_eq_cons_iff.mp same
  cases read with
  | here matched => exact .inl ⟨_, rfl, _, rfl, matched⟩
  | later failed later => exact .inr ⟨⟨_, rfl, failed⟩, others, specified, later⟩

theorem noBranchTaken (h : g.BranchesTaken rule [] tokens (some (m, rest))) : False := by
  obtain ⟨branches, same, read⟩ := h
  cases List.map_eq_nil_iff.mp same
  cases read

theorem branchFound (h : g.BranchesTaken rule bs tokens (some (m, rest))) :
    ∃ b ∈ bs, ∃ fields, m = .composite rule b.name fields ∧
      g.ArmsTaken b.arms tokens (some (fields, rest)) := by
  induction bs with
  | nil => exact (noBranchTaken h).elim
  | cons b bs ih =>
    rcases branchTaken h with here | ⟨-, later⟩
    · exact ⟨b, List.mem_cons_self, here⟩
    · obtain ⟨other, member, found⟩ := ih later
      exact ⟨other, List.mem_cons_of_mem _ member, found⟩

theorem soleBranchTaken (h : g.BranchesTaken rule [b] tokens (some (m, rest))) :
    ∃ fields, m = .composite rule b.name fields ∧ g.ArmsTaken b.arms tokens (some (fields, rest)) := by
  rcases branchTaken h with here | ⟨-, later⟩
  · exact here
  · exact (noBranchTaken later).elim

theorem branchRefused (h : g.BranchesTaken rule (b :: bs) tokens none) :
    g.ArmsTaken b.arms tokens none := by
  obtain ⟨branches, same, read⟩ := h
  obtain ⟨branch, others, rfl, rfl, specified⟩ := List.map_eq_cons_iff.mp same
  cases read with
  | later failed later => exact ⟨_, rfl, failed⟩

end Branches

section Arms

variable {g : Grammar} {spec : ArmSpec} {specs : List ArmSpec} {tokens rest : List Token}
  {fields : List (String × Tree)}

theorem armsTaken (h : g.ArmsTaken (spec :: specs) tokens (some (fields, rest))) :
    ∃ first middle more, fields = first ++ more ∧ g.ArmTaken spec tokens (some (first, middle)) ∧
      g.ArmsTaken specs middle (some (more, rest)) := by
  obtain ⟨arms, same, read⟩ := h
  obtain ⟨arm, others, rfl, rfl, specified⟩ := List.map_eq_cons_iff.mp same
  cases read with
  | cons first later => exact ⟨_, _, _, rfl, ⟨arm, rfl, first⟩, others, specified, later⟩

theorem noArmsTaken (h : g.ArmsTaken [] tokens (some (fields, rest))) : fields = [] ∧ rest = tokens := by
  obtain ⟨arms, same, read⟩ := h
  cases List.map_eq_nil_iff.mp same
  cases read
  exact ⟨rfl, rfl⟩

theorem lastArmTaken (h : g.ArmsTaken [spec] tokens (some (fields, rest))) :
    g.ArmTaken spec tokens (some (fields, rest)) := by
  obtain ⟨first, middle, more, rfl, taken, ends⟩ := armsTaken h
  obtain ⟨rfl, rfl⟩ := noArmsTaken ends
  rwa [List.append_nil]

theorem armsRefused (h : g.ArmsTaken (spec :: specs) tokens none) :
    g.ArmTaken spec tokens none ∨ ∃ first middle, g.ArmTaken spec tokens (some (first, middle)) ∧
      g.ArmsTaken specs middle none := by
  obtain ⟨arms, same, read⟩ := h
  obtain ⟨arm, others, rfl, rfl, specified⟩ := List.map_eq_cons_iff.mp same
  cases read with
  | firstFails first => exact .inl ⟨arm, rfl, first⟩
  | laterFails first later => exact .inr ⟨_, _, ⟨arm, rfl, first⟩, others, specified, later⟩

theorem noArmsRefused (h : g.ArmsTaken [] tokens none) : False := by
  obtain ⟨arms, same, read⟩ := h
  cases List.map_eq_nil_iff.mp same
  cases read

theorem armRefusedOnce (h : g.ArmTaken spec tokens none) : spec.times = .once := by
  obtain ⟨arm, rfl, read⟩ := h
  cases read with
  | missing times fails => exact times

end Arms

section Linked

variable {composites : List RuleSpec} {terminals : List TerminalSpec} {g : Grammar}
  (linked : link composites terminals = .ok g) {spec : ArmSpec} {tokens rest : List Token}
  {fields : List (String × Tree)}

include linked

theorem ruleReadsNamed {id : Fin g.size} {out : Reading Tree} (read : RuleReads g id tokens out) :
    g.Reads (g.rule id).name tokens out := fun _ named => linkedOnce linked named ▸ read

theorem namedRule {name : String} (listed : name ∈ declared composites terminals) :
    ∃ id, (g.rule id).name = name := by
  obtain ⟨id, found⟩ := linkedId linked listed
  exact ⟨id, idNamed found⟩

theorem namedOnce {name : String} (listed : name ∈ declared composites terminals) {o p : Reading Tree}
    (left : g.Reads name tokens o) (right : g.Reads name tokens p) : p = o := by
  obtain ⟨id, named⟩ := namedRule linked listed
  exact Matching.readsOnce (left id named) (right id named)

theorem namedSuffix {name : String} (listed : name ∈ declared composites terminals) {t : Tree}
    (read : g.Reads name tokens (some (t, rest))) : tokens = t.tokens ++ rest := by
  obtain ⟨id, named⟩ := namedRule linked listed
  exact Matching.ruleSuffix (read id named)

theorem choiceTaken {spec : RuleSpec} (declares : g.Declares spec)
    (listed : spec.name ∈ declared composites terminals) {out : Reading Tree}
    (read : g.Reads spec.name tokens out) : g.BranchesTaken spec.name spec.branches tokens out := by
  obtain ⟨id, named⟩ := namedRule linked listed
  obtain ⟨branches, body, same⟩ := declares id named
  have taken := read id named
  cases taken with
  | token other => cases other.symm.trans body
  | refused other => cases other.symm.trans body
  | noToken other => cases other.symm.trans body
  | choice other chosen =>
    cases body.symm.trans other
    exact ⟨branches, same, named ▸ chosen⟩

theorem terminalTaken {spec : TerminalSpec} (listed : spec ∈ terminals) {m : Tree}
    (read : g.Reads spec.name tokens (some (m, rest))) :
    ∃ t, tokens = t :: rest ∧ spec.detector.accepts t = true ∧
      m = .terminal spec.name spec.detector.field t := by
  obtain ⟨id, named⟩ := namedRule linked (List.mem_append_right _ (List.mem_map_of_mem listed))
  have body := (linkedDeclares linked).2 spec listed id named
  have taken := read id named
  cases taken with
  | token found accepted =>
    cases body.symm.trans found
    exact ⟨_, rfl, accepted, named ▸ rfl⟩
  | choice found => cases body.symm.trans found

theorem armOnceTaken {field rule : String} (h : g.ArmTaken ⟨field, rule, .once⟩ tokens (some (fields, rest))) :
    ∃ t, fields = [(field, t)] ∧ g.Reads rule tokens (some (t, rest)) := by
  obtain ⟨arm, same, read⟩ := h
  obtain ⟨rfl, rfl, times⟩ := ArmSpec.mk.inj same
  cases read with
  | once _ matched => exact ⟨_, rfl, ruleReadsNamed linked matched⟩
  | present option => cases times.symm.trans option
  | absent option => cases times.symm.trans option
  | many several => cases times.symm.trans several

theorem armRefused (h : g.ArmTaken spec tokens none) : g.Reads spec.rule tokens none := by
  obtain ⟨arm, rfl, read⟩ := h
  cases read with
  | missing _ fails => exact ruleReadsNamed linked fails

theorem pairRefused {field one other name : String} (listed : one ∈ declared composites terminals) {t : Tree}
    (here : g.Reads one tokens (some (t, rest)))
    (h : g.ArmsTaken [⟨field, one, .once⟩, ⟨other, name, .once⟩] tokens none) : g.Reads name rest none := by
  rcases armsRefused h with refused | ⟨fields, middle, taken, refused⟩
  · cases namedOnce linked listed here (armRefused linked refused)
  · obtain ⟨t, -, read⟩ := armOnceTaken linked taken
    cases namedOnce linked listed here read
    rcases armsRefused refused with refused | ⟨_, _, -, refused⟩
    · exact armRefused linked refused
    · exact (noArmsRefused refused).elim

theorem armOptionalTaken (times : spec.times = .optional)
    (h : g.ArmTaken spec tokens (some (fields, rest))) :
    (∃ t, fields = [(spec.field, t)] ∧ g.Reads spec.rule tokens (some (t, rest))) ∨
      fields = [] ∧ rest = tokens ∧ g.Reads spec.rule tokens none := by
  obtain ⟨arm, rfl, read⟩ := h
  cases read with
  | once single => cases times.symm.trans single
  | present _ matched => exact .inl ⟨_, rfl, ruleReadsNamed linked matched⟩
  | absent _ fails => exact .inr ⟨rfl, rfl, ruleReadsNamed linked fails⟩
  | many several => cases times.symm.trans several

theorem repeatedTaken {id : Fin g.size} {field : String} {tokens rest : List Token}
    {fields : List (String × Tree)} (h : ManyRead g id field tokens fields rest) :
    ∃ trees, fields = trees.map (fun t => (field, t)) ∧ Series g (g.rule id).name tokens trees rest ∧
      (g.Reads (g.rule id).name rest none ∨ ∃ t, g.Reads (g.rule id).name rest (some (t, rest))) := by
  induction size : tokens.length using Nat.strongRecOn generalizing tokens fields with
  | ind size ih =>
    cases h with
    | stop fails => exact ⟨[], rfl, .nil, .inl (ruleReadsNamed linked fails)⟩
    | idle nothing => exact ⟨[], rfl, .nil, .inr ⟨_, ruleReadsNamed linked nothing⟩⟩
    | more matched progress others =>
      have split := Matching.ruleSuffix matched
      have shorter := Matching.takenShortens split fun empty =>
        progress ((Matching.emptyLeavesAll split).mp empty)
      obtain ⟨trees, rfl, series, ends⟩ := ih _ (size ▸ shorter) others rfl
      exact ⟨_ :: trees, rfl, .cons (ruleReadsNamed linked matched) progress series, ends⟩

theorem armManyTaken (times : spec.times = .many) (h : g.ArmTaken spec tokens (some (fields, rest))) :
    ∃ trees, fields = trees.map (fun t => (spec.field, t)) ∧ Series g spec.rule tokens trees rest ∧
      (g.Reads spec.rule rest none ∨ ∃ t, g.Reads spec.rule rest (some (t, rest))) := by
  obtain ⟨arm, rfl, read⟩ := h
  cases read with
  | once single => cases times.symm.trans single
  | present option => cases times.symm.trans option
  | absent option => cases times.symm.trans option
  | many _ repeated => exact repeatedTaken linked repeated

end Linked

end Parlance.Grammar
