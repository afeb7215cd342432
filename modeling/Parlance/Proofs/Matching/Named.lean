import Parlance.Proofs.Grammar.Linked
import Parlance.Proofs.Matching.OrderedChoice

/-! Readings by the names of rules. A grammar that declares a rule reads by that declaration: its branches in
order, and in a branch its arms in order, with other rules referred to by name. -/
namespace Parlance.Grammar

section

variable (g : Grammar)

def Reads (name : String) (tokens : List Token) (out : Reading Tree) : Prop :=
  ∀ id, (g.rule id).name = name → RuleReads g id tokens out

def ReadsArm (spec : ArmSpec) (tokens : List Token) (out : Reading (List (String × Tree))) : Prop :=
  ∀ arm, g.armSpec arm = spec → ArmReads g arm tokens out

def ReadsArms (specs : List ArmSpec) (tokens : List Token) (out : Reading (List (String × Tree))) :
    Prop :=
  ∀ arms, arms.map g.armSpec = specs → ArmsRead g arms tokens out

def ReadsBranches (rule : String) (specs : List BranchSpec) (tokens : List Token)
    (out : Reading Tree) : Prop :=
  ∀ branches, branches.map g.branchSpec = specs → BranchesRead g rule branches tokens out

end

variable {g : Grammar} {tokens rest : List Token}

section Terminals

variable {spec : TerminalSpec} (declared : g.DeclaresTerminal spec) {t : Token}

include declared

theorem readsToken (accepted : spec.detector.accepts t = true) :
    g.Reads spec.name (t :: rest) (some (.terminal spec.name spec.detector.field t, rest)) := by
  intro id named
  have read : RuleReads g id (t :: rest) _ := .token (declared id named) accepted
  rwa [named] at read

theorem readsRefused (refused : spec.detector.accepts t = false) :
    g.Reads spec.name (t :: rest) none := fun id named => .refused (declared id named) refused

theorem readsNoToken : g.Reads spec.name [] none := fun id named => .noToken (declared id named)

end Terminals

theorem readsChoice {spec : RuleSpec} (declared : g.Declares spec) {out : Reading Tree}
    (chosen : g.ReadsBranches spec.name spec.branches tokens out) :
    g.Reads spec.name tokens out := by
  intro id named
  obtain ⟨branches, body, read⟩ := declared id named
  exact .choice body (named ▸ chosen branches read)

section Branches

variable {rule : String} {b : BranchSpec} {bs : List BranchSpec}

theorem noBranch : g.ReadsBranches rule [] tokens none := by
  intro branches read
  cases List.map_eq_nil_iff.mp read
  exact .none

theorem branchHere {fields : List (String × Tree)}
    (matched : g.ReadsArms b.arms tokens (some (fields, rest))) :
    g.ReadsBranches rule (b :: bs) tokens (some (.composite rule b.name fields, rest)) := by
  intro branches read
  obtain ⟨branch, others, rfl, rfl, -⟩ := List.map_eq_cons_iff.mp read
  exact .here (matched branch.arms rfl)

theorem branchLater {out : Reading Tree} (failed : g.ReadsArms b.arms tokens none)
    (others : g.ReadsBranches rule bs tokens out) : g.ReadsBranches rule (b :: bs) tokens out := by
  intro branches read
  obtain ⟨branch, later, rfl, rfl, read'⟩ := List.map_eq_cons_iff.mp read
  exact .later (failed branch.arms rfl) (others later read')

end Branches

section Arm

variable {spec : ArmSpec} {t : Tree}

theorem armOnce (times : spec.times = .once) (matched : g.Reads spec.rule tokens (some (t, rest))) :
    g.ReadsArm spec tokens (some ([(spec.field, t)], rest)) := by
  rintro arm rfl
  exact .once times (matched arm.rule rfl)

theorem armMissing (times : spec.times = .once) (fails : g.Reads spec.rule tokens none) :
    g.ReadsArm spec tokens none := by
  rintro arm rfl
  exact .missing times (fails arm.rule rfl)

theorem armPresent (times : spec.times = .optional)
    (matched : g.Reads spec.rule tokens (some (t, rest))) :
    g.ReadsArm spec tokens (some ([(spec.field, t)], rest)) := by
  rintro arm rfl
  exact .present times (matched arm.rule rfl)

theorem armAbsent (times : spec.times = .optional) (fails : g.Reads spec.rule tokens none) :
    g.ReadsArm spec tokens (some ([], tokens)) := by
  rintro arm rfl
  exact .absent times (fails arm.rule rfl)

theorem armNever (times : spec.times = .many) (fails : g.Reads spec.rule tokens none) :
    g.ReadsArm spec tokens (some ([], tokens)) := by
  rintro arm rfl
  exact .many times (.stop (fails arm.rule rfl))

theorem armMore {middle : List Token} {fields : List (String × Tree)} (times : spec.times = .many)
    (matched : g.Reads spec.rule tokens (some (t, middle))) (progress : middle ≠ tokens)
    (others : g.ReadsArm spec middle (some (fields, rest))) :
    g.ReadsArm spec tokens (some ((spec.field, t) :: fields, rest)) := by
  rintro arm rfl
  cases others arm rfl with
  | once single => exact absurd (times.symm.trans single) nofun
  | present option => exact absurd (times.symm.trans option) nofun
  | absent option => exact absurd (times.symm.trans option) nofun
  | many _ repeated => exact .many times (.more (matched arm.rule rfl) progress repeated)

theorem armMany (times : spec.times = .many) {far : List Token → Prop} {trees : List Tree}
    {after : List Token}
    (begins : ∀ c ∈ trees, c.tokens ≠ [] ∧ ∀ more, far (c.tokens ++ more))
    (each : ∀ c ∈ trees, ∀ more, far more → g.Reads spec.rule (c.tokens ++ more) (some (c, more)))
    (ends : far after) (fails : g.Reads spec.rule after none) :
    far (trees.flatMap Tree.tokens ++ after) ∧
      g.ReadsArm spec (trees.flatMap Tree.tokens ++ after)
        (some (trees.map fun c => (spec.field, c), after)) := by
  induction trees with
  | nil => exact ⟨ends, armNever times fails⟩
  | cons c trees ih =>
    obtain ⟨⟨some, begin⟩, otherBegins⟩ := List.forall_mem_cons.mp begins
    obtain ⟨first, others⟩ := List.forall_mem_cons.mp each
    obtain ⟨beyond, repeated⟩ := ih otherBegins others
    rw [List.flatMap_cons, List.append_assoc]
    refine ⟨begin _, armMore times (first _ beyond) (fun same => some ?_) repeated⟩
    exact List.self_eq_append_left.mp same

end Arm

section Arms

variable {spec : ArmSpec} {specs : List ArmSpec} {middle : List Token} {fields more : List (String × Tree)}

theorem noArm : g.ReadsArms [] tokens (some ([], tokens)) := by
  intro arms read
  cases List.map_eq_nil_iff.mp read
  exact .nil

theorem consArm (first : g.ReadsArm spec tokens (some (fields, middle)))
    (others : g.ReadsArms specs middle (some (more, rest))) :
    g.ReadsArms (spec :: specs) tokens (some (fields ++ more, rest)) := by
  intro arms read
  obtain ⟨arm, later, rfl, same, read⟩ := List.map_eq_cons_iff.mp read
  exact .cons (first arm same) (others later read)

theorem lastArm (last : g.ReadsArm spec tokens (some (fields, rest))) :
    g.ReadsArms [spec] tokens (some (fields, rest)) := by
  have whole := consArm last noArm
  rwa [List.append_nil] at whole

theorem firstFails (first : g.ReadsArm spec tokens none) : g.ReadsArms (spec :: specs) tokens none := by
  intro arms read
  obtain ⟨arm, later, rfl, same, -⟩ := List.map_eq_cons_iff.mp read
  exact .firstFails (first arm same)

theorem laterFails (first : g.ReadsArm spec tokens (some (fields, middle)))
    (others : g.ReadsArms specs middle none) : g.ReadsArms (spec :: specs) tokens none := by
  intro arms read
  obtain ⟨arm, later, rfl, same, read⟩ := List.map_eq_cons_iff.mp read
  exact .laterFails (first arm same) (others later read)

theorem beginFails {field rule : String} (fails : g.Reads rule tokens none) :
    g.ReadsArms (⟨field, rule, .once⟩ :: specs) tokens none :=
  firstFails (armMissing rfl fails)

end Arms

theorem choiceFails {spec : RuleSpec} (declared : g.Declares spec)
    (each : ∀ b ∈ spec.branches, g.ReadsArms b.arms tokens none) : g.Reads spec.name tokens none := by
  refine readsChoice declared ?_
  generalize spec.branches = branches at each
  induction branches with
  | nil => exact noBranch
  | cons b branches ih =>
    exact branchLater (each b List.mem_cons_self)
      (ih fun other member => each other (List.mem_cons_of_mem _ member))

theorem soleFails {name branch field rule : String} {specs : List ArmSpec}
    (declared : g.Declares ⟨name, [⟨branch, ⟨field, rule, .once⟩ :: specs⟩]⟩)
    (fails : g.Reads rule tokens none) : g.Reads name tokens none :=
  choiceFails declared (List.forall_mem_singleton.mpr (beginFails fails))

end Parlance.Grammar
