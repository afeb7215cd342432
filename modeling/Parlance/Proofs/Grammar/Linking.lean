import Parlance.Proofs.Grammar.Linked

/-! What linking makes of every list of declarations. Names that are declared once and targets that are declared
are linked, each rule to the id that is its position. Anything else is an error that names the first name that is
declared again, or if there is none the first arm whose target is not declared. -/
namespace Parlance

namespace Grammar

/-- Rules in the order of their declaration, composite ones first, each with what was declared of it. -/
structure LinkedAs (composites : List RuleSpec) (terminals : List TerminalSpec) (g : Grammar) : Prop where
  size : g.size = composites.length + terminals.length
  composite : ∀ i spec, composites[i]? = some spec → ∃ id : Fin g.size, id.val = i ∧
    (g.rule id).name = spec.name ∧
    ∃ branches, (g.rule id).body = .composite branches ∧ branches.map g.branchSpec = spec.branches
  terminal : ∀ i spec, terminals[i]? = some spec → ∃ id : Fin g.size, id.val = composites.length + i ∧
    (g.rule id).name = spec.name ∧ (g.rule id).body = .terminal spec.detector
  named : ∀ i name, (declared composites terminals)[i]? = some name →
    ∃ id : Fin g.size, g.id? name = some id ∧ id.val = i
  unnamed : ∀ name, name ∉ declared composites terminals → g.id? name = none

structure Reference where
  rule : String
  branch : String
  target : String
  deriving DecidableEq, Repr

def Reference.undefined (r : Reference) : GrammarError := .undefinedRule r.rule r.branch r.target

def references (composites : List RuleSpec) : List Reference :=
  composites.flatMap fun spec => spec.branches.flatMap fun b =>
    b.arms.map fun arm => ⟨spec.name, b.name, arm.rule⟩

def FirstMissing (composites : List RuleSpec) (names : List String) (r : Reference) : Prop :=
  ∃ before after, references composites = before ++ r :: after ∧ r.target ∉ names ∧
    ∀ other ∈ before, other.target ∈ names

section Positions

variable {composites : List RuleSpec} {terminals : List TerminalSpec} {g : Grammar}

theorem declaredLength (composites : List RuleSpec) (terminals : List TerminalSpec) :
    (declared composites terminals).length = composites.length + terminals.length := by
  simp [declared]

theorem assembledAt {names : List String} {rules : List (Rule names.length)} (size : rules.length = names.length)
    {i : Nat} {r : Rule names.length} (listed : rules[i]? = some r) :
    ∃ id : Fin (assembled names rules size).size, id.val = i ∧ (assembled names rules size).rule id = r := by
  obtain ⟨inside, same⟩ := List.getElem?_eq_some_iff.mp listed
  exact ⟨⟨i, (size ▸ inside : i < names.length)⟩, rfl, same⟩

theorem linkedPositions (h : link composites terminals = .ok g) : LinkedAs composites terminals g := by
  have sole := @idSole composites terminals g h
  have listed := @idListed composites terminals g h
  obtain ⟨-, linked, size, walked, rfl⟩ := linkAssembled h
  have names := assembledName (linkedNames walked terminals) size
  have written := assembledBranch (linkedNames walked terminals) size
  have length := traverseLength walked
  refine ⟨declaredLength composites terminals, fun i spec found => ?_, fun i spec found => ?_,
    fun i name found => ?_, fun name absent => ?_⟩
  · obtain ⟨r, position, step⟩ := traverseAt walked found
    obtain ⟨name, branches, body, read⟩ := linkedBranches step
    have inside : (linked ++ terminals.map linkTerminal)[i]? = some r := by
      rw [List.getElem?_append_left (List.getElem?_eq_some_iff.mp position).1]
      exact position
    obtain ⟨id, same, here⟩ := assembledAt size inside
    exact ⟨id, same, by rw [here, name], branches, by rw [here, body]; rfl, by rw [written]; exact read⟩
  · have inside : (linked ++ terminals.map linkTerminal)[composites.length + i]? = some (linkTerminal spec) := by
      rw [← length, List.getElem?_append_right (Nat.le_add_right _ _)]
      simp [found]
    obtain ⟨id, same, here⟩ := assembledAt size inside
    exact ⟨id, same, by rw [here]; rfl, by rw [here]; rfl⟩
  · obtain ⟨inside, same⟩ := List.getElem?_eq_some_iff.mp found
    have named := (names ⟨i, inside⟩).trans same
    exact ⟨⟨i, inside⟩, (congrArg (id? _) named).symm.trans (sole ⟨i, inside⟩), rfl⟩
  · exact Option.eq_none_iff_forall_ne_some.mpr fun id found => absent (listed found)

end Positions

section Errors

variable {names : List String}

theorem armBlames (rule branch : String) (arm : ArmSpec) :
    Blames (fun r : Reference => decide (r.target ∉ names)) Reference.undefined [⟨rule, branch, arm.rule⟩]
      (linkArm names rule branch arm) := by
  unfold linkArm
  split
  · rename_i id found
    have listed : arm.rule ∈ names := by
      rw [← (List.finIdxOf?_eq_some_iff.mp found).1]
      exact List.getElem_mem _
    simp [Blames, listed]
  · rename_i none
    have absent := List.finIdxOf?_eq_none_iff.mp none
    simp [Blames, absent, Reference.undefined]

theorem rulesBlame (composites : List RuleSpec) :
    Blames (fun r : Reference => decide (r.target ∉ names)) Reference.undefined (references composites)
      (traverse (linkRule names) composites) := by
  refine blamesTraverse fun spec _ => blamesOk (blamesTraverse fun b _ => blamesOk ?_ _) _
  rw [List.map_eq_flatMap]
  exact blamesTraverse fun arm _ => armBlames spec.name b.name arm

variable {composites : List RuleSpec} {terminals : List TerminalSpec}

theorem missingFound {r : Reference} :
    (references composites).find? (fun r => decide (r.target ∉ names)) = some r ↔
      FirstMissing composites names r := by
  simp only [List.find?_eq_some_iff_append, FirstMissing, decide_eq_true_eq]
  constructor
  · rintro ⟨absent, before, after, split, passed⟩
    exact ⟨before, after, split, absent, fun other member => by simpa using passed other member⟩
  · rintro ⟨before, after, split, absent, passed⟩
    exact ⟨absent, before, after, split, fun other member => by simpa using passed other member⟩

theorem linkError (e : GrammarError) : link composites terminals = .error e ↔
    (∃ name, e = .duplicateRule name ∧ FirstRepeat (declared composites terminals) name) ∨
      (declared composites terminals).Nodup ∧
        ∃ r, e = r.undefined ∧ FirstMissing composites (declared composites terminals) r := by
  have blamed := @rulesBlame (declared composites terminals) composites
  unfold link
  split
  · rename_i name repeated
    constructor
    · rintro ⟨⟩
      exact .inl ⟨name, rfl, firstRepeatedSome.mp repeated⟩
    · rintro (⟨other, rfl, again⟩ | ⟨once, -⟩)
      · cases repeated.symm.trans (firstRepeatedSome.mpr again)
        rfl
      · cases repeated.symm.trans (firstRepeatedOnce once)
  · rename_i unrepeated
    have never : ∀ name, ¬ FirstRepeat (declared composites terminals) name := fun name again => by
      cases unrepeated.symm.trans (firstRepeatedSome.mpr again)
    split
    · rename_i wrong failed
      rw [failed] at blamed
      obtain ⟨r, found, rfl⟩ := Option.map_eq_some_iff.mp blamed
      constructor
      · rintro ⟨⟩
        exact .inr ⟨firstRepeatedNone unrepeated, r, rfl, missingFound.mp found⟩
      · rintro (⟨name, -, again⟩ | ⟨-, other, rfl, missing⟩)
        · exact absurd again (never name)
        · cases found.symm.trans (missingFound.mpr missing)
          rfl
    · rename_i rules walked
      rw [walked] at blamed
      refine ⟨nofun, ?_⟩
      rintro (⟨name, -, again⟩ | ⟨-, r, -, missing⟩)
      · exact absurd again (never name)
      · cases blamed.symm.trans (missingFound.mpr missing)

end Errors

/-- Declarations link exactly if no name is declared twice and every target is declared. What they link to keeps
their order and content; an error tells of the first name that is declared again, or else of the first arm whose
target is not declared. -/
theorem linkExact (composites : List RuleSpec) (terminals : List TerminalSpec) :
    ((∃ g, link composites terminals = .ok g) ↔
      (declared composites terminals).Nodup ∧ TargetsListed composites (declared composites terminals)) ∧
    (∀ g, link composites terminals = .ok g → LinkedAs composites terminals g) ∧
    ∀ e, link composites terminals = .error e ↔
      (∃ name, e = .duplicateRule name ∧ FirstRepeat (declared composites terminals) name) ∨
        (declared composites terminals).Nodup ∧
          ∃ r, e = r.undefined ∧ FirstMissing composites (declared composites terminals) r := by
  refine ⟨⟨fun ⟨g, linked⟩ => ⟨(linkAssembled linked).1, linkedTargets linked⟩, fun ⟨once, listed⟩ =>
    linkFound once listed⟩, fun g => linkedPositions, linkError⟩

end Grammar
end Parlance
