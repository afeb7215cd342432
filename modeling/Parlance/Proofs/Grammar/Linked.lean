import Parlance.Grammar
import Parlance.Proofs.Sequence

/-! Linked grammars by the names of their rules. Linking replaces the name of every rule by its position, and
the names can be read off again: a rule of a declared name is what was declared under it. -/
namespace Parlance

namespace Grammar

def armSpec (g : Grammar) (arm : Arm g.size) : ArmSpec :=
  ⟨arm.field, (g.rule arm.rule).name, arm.times⟩

def branchSpec (g : Grammar) (b : Branch g.size) : BranchSpec := ⟨b.name, b.arms.map g.armSpec⟩

def Declares (g : Grammar) (spec : RuleSpec) : Prop :=
  ∀ id, (g.rule id).name = spec.name →
    ∃ branches, (g.rule id).body = .composite branches ∧ branches.map g.branchSpec = spec.branches

def DeclaresTerminal (g : Grammar) (spec : TerminalSpec) : Prop :=
  ∀ id, (g.rule id).name = spec.name → (g.rule id).body = .terminal spec.detector

def namedArm (names : List String) (arm : Arm names.length) : ArmSpec :=
  ⟨arm.field, names[arm.rule], arm.times⟩

theorem linkedArm {names : List String} {rule branch : String} {spec : ArmSpec}
    {arm : Arm names.length} (h : linkArm names rule branch spec = .ok arm) :
    namedArm names arm = spec := by
  unfold linkArm at h
  split at h
  · rename_i id found
    cases h
    have same := (List.finIdxOf?_eq_some_iff.mp found).1
    simp [namedArm, same]
  · contradiction

def namedBranch (names : List String) (b : Branch names.length) : BranchSpec :=
  ⟨b.name, b.arms.map (namedArm names)⟩

theorem linkedBranch {names : List String} {rule : String} {spec : BranchSpec}
    {b : Branch names.length} (h : linkBranch names rule spec = .ok b) :
    namedBranch names b = spec := by
  obtain ⟨arms, walked, last⟩ := bindOk h
  cases last
  have same := traverseMapped (fun _ _ => linkedArm) walked
  simp [namedBranch, same]

theorem linkedBranches {names : List String} {spec : RuleSpec} {r : Rule names.length}
    (h : linkRule names spec = .ok r) :
    r.name = spec.name ∧ ∃ branches, r.body = .composite branches ∧
      branches.map (namedBranch names) = spec.branches := by
  obtain ⟨branches, walked, last⟩ := bindOk h
  cases last
  exact ⟨rfl, branches, rfl, by simpa using traverseMapped (fun _ _ => linkedBranch) walked⟩

theorem linkedNames {names : List String} {composites : List RuleSpec} {linked : List (Rule names.length)}
    (walked : traverse (linkRule names) composites = .ok linked) (terminals : List TerminalSpec) :
    (linked ++ terminals.map linkTerminal).map Rule.name = declared composites terminals := by
  have first := traverseMapped (fun _ _ same => (linkedBranches same).1) walked
  simp [declared, first, linkTerminal, Function.comp_def]

def assembled (names : List String) (rules : List (Rule names.length))
    (size : rules.length = names.length) : Grammar :=
  ⟨names.length, ⟨rules.toArray, by simpa using size⟩⟩

theorem assembledName {names : List String} {rules : List (Rule names.length)}
    (same : rules.map Rule.name = names) (size : rules.length = names.length)
    (id : Fin names.length) : ((assembled names rules size).rule id).name = names[id] := by
  have inside : id.val < rules.length := size.symm ▸ id.isLt
  have here : rules[id.val]?.map Rule.name = names[id.val]? := by rw [← List.getElem?_map, same]
  rw [List.getElem?_eq_getElem inside, List.getElem?_eq_getElem id.isLt] at here
  exact Option.some.inj here

theorem assembledBranch {names : List String} {rules : List (Rule names.length)}
    (same : rules.map Rule.name = names) (size : rules.length = names.length) :
    (assembled names rules size).branchSpec = namedBranch names := by
  have arms : (assembled names rules size).armSpec = namedArm names := by
    funext arm
    exact congrArg (ArmSpec.mk arm.field · arm.times) (assembledName same size arm.rule)
  funext b
  exact congrArg (fun spec => BranchSpec.mk b.name (b.arms.map spec)) arms

variable {composites : List RuleSpec} {terminals : List TerminalSpec} {g : Grammar}

theorem linkAssembled (h : link composites terminals = .ok g) :
    (declared composites terminals).Nodup ∧
      ∃ linked size, traverse (linkRule (declared composites terminals)) composites = .ok linked ∧
        g = assembled (declared composites terminals) (linked ++ terminals.map linkTerminal) size := by
  unfold link at h
  split at h
  · contradiction
  rename_i once
  split at h
  · contradiction
  rename_i linked walked
  cases h
  have size : (linked ++ terminals.map linkTerminal).length =
      (declared composites terminals).length := by
    simpa using congrArg List.length (linkedNames walked terminals)
  exact ⟨firstRepeatedNone once, linked, size, walked, rfl⟩

theorem linkedRule (h : link composites terminals = .ok g) (id : Fin g.size) :
    (∃ spec ∈ composites, (g.rule id).name = spec.name ∧
      ∃ branches, (g.rule id).body = .composite branches ∧
        branches.map g.branchSpec = spec.branches) ∨
      ∃ spec ∈ terminals, g.rule id = linkTerminal spec := by
  obtain ⟨-, linked, size, walked, rfl⟩ := linkAssembled h
  have written := assembledBranch (linkedNames walked terminals) size
  have member : rule _ id ∈ linked ++ terminals.map linkTerminal := List.getElem_mem _
  generalize rule _ id = r at member ⊢
  rcases List.mem_append.mp member with composite | terminal
  · obtain ⟨spec, inside, same⟩ := traverseMember walked composite
    obtain ⟨name, branches, body, read⟩ := linkedBranches same
    exact .inl ⟨spec, inside, name, branches, body, by rw [written]; exact read⟩
  · obtain ⟨spec, inside, same⟩ := List.mem_map.mp terminal
    exact .inr ⟨spec, inside, same.symm⟩

theorem linkedDeclares (h : link composites terminals = .ok g) :
    (∀ spec ∈ composites, g.Declares spec) ∧ ∀ spec ∈ terminals, g.DeclaresTerminal spec := by
  obtain ⟨once, -⟩ := linkAssembled h
  obtain ⟨composite, terminal, apart⟩ := List.nodup_append.mp once
  constructor
  · intro spec declared id named
    rcases linkedRule h id with ⟨other, inside, name, branches, body, read⟩ | ⟨other, inside, same⟩
    · have same := mappedOnce composite inside declared (name.symm.trans named)
      exact ⟨branches, body, same ▸ read⟩
    · have name : spec.name = other.name := by rw [← named, same]; rfl
      exact absurd name (apart _ (List.mem_map_of_mem declared) _ (List.mem_map_of_mem inside))
  · intro spec declared id named
    rcases linkedRule h id with ⟨other, inside, name, -⟩ | ⟨other, inside, same⟩
    · exact absurd (name.symm.trans named)
        (apart _ (List.mem_map_of_mem inside) _ (List.mem_map_of_mem declared))
    · rw [same] at named ⊢
      rw [mappedOnce terminal inside declared named]
      rfl

theorem idNamed {name : String} {id : Fin g.size} (h : g.id? name = some id) :
    (g.rule id).name = name := by
  have found : g.rules.find? (fun r => r.name == name) = some (g.rule id) := by
    rw [Vector.find?_eq_map_findFinIdx?_getElem, show g.rules.findFinIdx? _ = some id from h]
    rfl
  have accepted := Vector.find?_some found
  simpa using accepted

theorem idFound (g : Grammar) (id : Fin g.size) : ∃ first, g.id? (g.rule id).name = some first := by
  rw [← Option.ne_none_iff_exists']
  intro none
  have absent := Vector.findFinIdx?_eq_none_iff.mp none (g.rule id) (Vector.getElem_mem _)
  simp at absent

theorem linkedId (h : link composites terminals = .ok g) {name : String}
    (listed : name ∈ declared composites terminals) : ∃ id, g.id? name = some id := by
  obtain ⟨-, linked, size, walked, rfl⟩ := linkAssembled h
  obtain ⟨i, inside, same⟩ := List.getElem_of_mem listed
  have named := assembledName (linkedNames walked terminals) size ⟨i, inside⟩
  obtain ⟨id, found⟩ := idFound (assembled _ _ size) ⟨i, inside⟩
  exact ⟨id, by rw [← same, ← found]; exact congrArg (id? _) named.symm⟩

theorem linkedOnce (h : link composites terminals = .ok g) {i j : Fin g.size}
    (same : (g.rule i).name = (g.rule j).name) : i = j := by
  obtain ⟨once, linked, size, walked, rfl⟩ := linkAssembled h
  have name := assembledName (linkedNames walked terminals) size
  have equal := (name i).symm.trans (same.trans (name j))
  exact Fin.ext ((List.getElem_inj once).mp equal)

theorem idSole (h : link composites terminals = .ok g) (id : Fin g.size) :
    g.id? (g.rule id).name = some id := by
  obtain ⟨first, found⟩ := idFound g id
  rw [found, linkedOnce h (idNamed found)]

theorem idListed (h : link composites terminals = .ok g) {name : String} {id : Fin g.size}
    (found : g.id? name = some id) : name ∈ declared composites terminals := by
  obtain ⟨-, linked, size, walked, rfl⟩ := linkAssembled h
  have named := assembledName (linkedNames walked terminals) size id
  rw [← idNamed found, named]
  exact List.getElem_mem _

theorem armSpecInjective (h : link composites terminals = .ok g) :
    Function.Injective g.armSpec := by
  rintro ⟨field, rule, times⟩ ⟨field', rule', times'⟩ same
  obtain ⟨fields, names, repetitions⟩ := ArmSpec.mk.inj same
  cases fields
  cases repetitions
  cases linkedOnce h names
  rfl

theorem branchSpecInjective (h : link composites terminals = .ok g) :
    Function.Injective g.branchSpec := by
  rintro ⟨name, arms⟩ ⟨name', arms'⟩ same
  obtain ⟨names, specs⟩ := BranchSpec.mk.inj same
  cases names
  have arms := List.map_inj_right (fun _ _ equal => armSpecInjective h equal) |>.mp specs
  exact congrArg (Branch.mk name) arms

def TargetsListed (composites : List RuleSpec) (names : List String) : Prop :=
  ∀ spec ∈ composites, ∀ b ∈ spec.branches, ∀ arm ∈ b.arms, arm.rule ∈ names

def namedBranches (names : List String) (r : Rule names.length) : List BranchSpec :=
  match r.body with
  | .composite branches => branches.map (namedBranch names)
  | .terminal _ => []

theorem linkedTargets (h : link composites terminals = .ok g) :
    TargetsListed composites (declared composites terminals) := by
  obtain ⟨-, linked, size, walked, -⟩ := linkAssembled h
  have written := traverseMapped (f := namedBranches _) (g := RuleSpec.branches) (fun spec r same => by
    obtain ⟨-, branches, body, read⟩ := linkedBranches same
    simp only [namedBranches, body, read]) walked
  intro spec member b branch arm inside
  have reached : spec.branches ∈ composites.map RuleSpec.branches := List.mem_map_of_mem member
  obtain ⟨r, -, same⟩ := List.mem_map.mp (written ▸ reached)
  rw [← same, namedBranches] at branch
  split at branch
  · obtain ⟨linkedBranch, -, rfl⟩ := List.mem_map.mp branch
    obtain ⟨linkedArm, -, rfl⟩ := List.mem_map.mp inside
    exact List.getElem_mem _
  · contradiction

theorem linkFound (once : (declared composites terminals).Nodup)
    (listed : TargetsListed composites (declared composites terminals)) :
    ∃ g, link composites terminals = .ok g := by
  have linked : ∀ spec ∈ composites, ∃ r, linkRule (declared composites terminals) spec = .ok r := by
    intro spec member
    have branches : ∀ b ∈ spec.branches, ∃ linked,
        linkBranch (declared composites terminals) spec.name b = .ok linked := by
      intro b branch
      have arms : ∀ arm ∈ b.arms, ∃ linked,
          linkArm (declared composites terminals) spec.name b.name arm = .ok linked := by
        intro arm inside
        cases found : (declared composites terminals).finIdxOf? arm.rule with
        | some id => exact ⟨⟨arm.field, id, arm.times⟩, by simp only [linkArm, found]⟩
        | none =>
          exact absurd (listed spec member b branch arm inside) (List.finIdxOf?_eq_none_iff.mp found)
      obtain ⟨linked, walked⟩ := traverseFound arms
      exact ⟨_, by simp only [linkBranch, walked]; rfl⟩
    obtain ⟨linked, walked⟩ := traverseFound branches
    exact ⟨_, by simp only [linkRule, walked]; rfl⟩
  obtain ⟨rules, walked⟩ := traverseFound linked
  unfold link
  rw [firstRepeatedOnce once]
  dsimp only
  split
  · rename_i failed
    rw [walked] at failed
    contradiction
  · exact ⟨_, rfl⟩

end Grammar
end Parlance
