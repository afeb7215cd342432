import Parlance.Proofs.Grammar.Linked
import Parlance.Tree.Matching

/-! The ids of rules carry no meaning. Two grammars whose rules correspond under a renaming of ids match alike,
step for step, and linking the same declarations in another order gives such a grammar. -/
namespace Parlance

section

variable {n m : Nat} (rename : Fin n → Fin m)

def Arm.renamed (arm : Arm n) : Arm m := ⟨arm.field, rename arm.rule, arm.times⟩

def Branch.renamed (b : Branch n) : Branch m := ⟨b.name, b.arms.map (Arm.renamed rename)⟩

def RuleBody.renamed : RuleBody n → RuleBody m
  | .composite branches => .composite (branches.map (Branch.renamed rename))
  | .terminal d => .terminal d

end

/-- Every rule of the first grammar stands under its new id in the second. -/
structure Renaming (g g' : Grammar) (rename : Fin g.size → Fin g'.size) : Prop where
  name : ∀ id, (g'.rule (rename id)).name = (g.rule id).name
  body : ∀ id, (g'.rule (rename id)).body = (g.rule id).body.renamed rename

namespace Matching

section

variable {n m : Nat} {rename : Fin n → Fin m} {step : Fin n → Cursor → Outcome Tree}
  {step' : Fin m → Cursor → Outcome Tree} (same : ∀ id c, step' (rename id) c = step id c)

include same

theorem armRenamed (arm : Arm n) (c : Cursor) :
    matchArm step' (arm.renamed rename) c = matchArm step arm c := by
  have target : step' (rename arm.rule) = step arm.rule := funext (same arm.rule)
  simp only [matchArm, Arm.renamed, target]

theorem armsRenamed (arms : List (Arm n)) (c : Cursor) :
    matchArms step' (arms.map (Arm.renamed rename)) c = matchArms step arms c := by
  induction arms generalizing c with
  | nil => rfl
  | cons arm arms ih => simp only [List.map_cons, matchArms, armRenamed same, ih]

theorem branchesRenamed (rule : String) (branches : List (Branch n)) (c : Cursor) :
    matchBranches step' rule (branches.map (Branch.renamed rename)) c =
      matchBranches step rule branches c := by
  induction branches generalizing c with
  | nil => rfl
  | cons b branches ih =>
    simp only [List.map_cons, matchBranches, Branch.renamed, armsRenamed same, ih]

end

variable {g g' : Grammar} {rename : Fin g.size → Fin g'.size} (corresponds : Renaming g g' rename)

include corresponds

theorem ruleRenamed (levels : Nat) (id : Fin g.size) (c : Cursor) :
    matchAt g' levels (rename id) c = matchAt g levels id c := by
  -- By induction on the levels that may still nest.
  induction levels generalizing id c with
  | zero => rfl
  | succ levels ih =>
    simp only [matchAt, corresponds.name, corresponds.body]
    cases (g.rule id).body with
    | composite branches => exact branchesRenamed ih _ branches c
    | terminal d => rfl

end Matching

namespace Grammar

theorem matchRenamed {g g' : Grammar} {rename : Fin g.size → Fin g'.size}
    (corresponds : Renaming g g' rename) (limit : Nat) (id : Fin g.size) (c : Cursor) :
    g'.matchRule limit (rename id) c = g.matchRule limit id c := by
  simp only [matchRule, Matching.ruleRenamed corresponds]

theorem parseRenamed {g g' : Grammar} {rename : Fin g.size → Fin g'.size}
    (corresponds : Renaming g g' rename) {start : String}
    (named : g'.id? start = (g.id? start).map rename) (tokens : List Token) :
    g'.parse start tokens = g.parse start tokens := by
  unfold parse
  rw [named]
  cases g.id? start with
  | none => rfl
  | some id => simp only [Option.map_some, matchRenamed corresponds]

section

variable {composites composites' : List RuleSpec} {terminals terminals' : List TerminalSpec}
  (compositesMoved : composites'.Perm composites) (terminalsMoved : terminals'.Perm terminals)

include compositesMoved terminalsMoved

theorem declaredMoved :
    (declared composites' terminals').Perm (declared composites terminals) :=
  (compositesMoved.map _).append (terminalsMoved.map _)

theorem linkMoved {g : Grammar} (h : link composites terminals = .ok g) :
    ∃ g', link composites' terminals' = .ok g' := by
  have moved := declaredMoved compositesMoved terminalsMoved
  refine linkFound (moved.nodup_iff.mpr (linkAssembled h).1) ?_
  intro spec member b branch arm inside
  exact moved.mem_iff.mpr (linkedTargets h spec (compositesMoved.mem_iff.mp member) b branch arm inside)

theorem idsMoved {g g' : Grammar} (h : link composites terminals = .ok g)
    (h' : link composites' terminals' = .ok g') {rename : Fin g.size → Fin g'.size}
    (named : ∀ id, g'.id? (g.rule id).name = some (rename id)) (name : String) :
    g'.id? name = (g.id? name).map rename := by
  have moved := declaredMoved compositesMoved terminalsMoved
  cases first : g.id? name with
  | some id =>
    have same := named id
    rwa [idNamed first] at same
  | none =>
    cases second : g'.id? name with
    | none => rfl
    | some id' =>
      obtain ⟨id, found⟩ := linkedId h (moved.mem_iff.mp (idListed h' second))
      rw [found] at first
      contradiction

theorem linkedRenaming {g g' : Grammar} (h : link composites terminals = .ok g)
    (h' : link composites' terminals' = .ok g') :
    ∃ rename : Fin g.size → Fin g'.size, Renaming g g' rename ∧
      ∀ name, g'.id? name = (g.id? name).map rename := by
  have moved := declaredMoved compositesMoved terminalsMoved
  have found : ∀ id : Fin g.size, ∃ id', g'.id? (g.rule id).name = some id' := fun id =>
    linkedId h' (moved.mem_iff.mpr (idListed h (idSole h id)))
  obtain ⟨rename, named⟩ := Classical.axiomOfChoice found
  have names : ∀ id, (g'.rule (rename id)).name = (g.rule id).name := fun id => idNamed (named id)
  have specs : ∀ b : Branch g.size, g'.branchSpec (b.renamed rename) = g.branchSpec b := by
    intro b
    simp [branchSpec, armSpec, Branch.renamed, Arm.renamed, names, Function.comp_def]
  refine ⟨rename, ⟨names, fun id => ?_⟩, fun name => ?_⟩
  · rcases linkedRule h id with ⟨spec, member, name, branches, body, read⟩ | ⟨spec, member, same⟩
    · obtain ⟨branches', body', read'⟩ := (linkedDeclares h').1 spec
        (compositesMoved.mem_iff.mpr member) (rename id) ((names id).trans name)
      have alike : branches' = branches.map (Branch.renamed rename) := by
        refine List.map_inj_right (fun _ _ equal => branchSpecInjective h' equal) |>.mp ?_
        rw [read', ← read, List.map_map]
        exact List.map_congr_left fun b _ => (specs b).symm
      rw [body', body, alike]
      rfl
    · have name : (g.rule id).name = spec.name := by rw [same]; rfl
      rw [(linkedDeclares h').2 spec (terminalsMoved.mem_iff.mpr member) (rename id)
        ((names id).trans name), same]
      rfl
  · exact idsMoved compositesMoved terminalsMoved h h' named name

end

/-- The order in which rules are declared makes no difference: declared in any order the rules link again, and
from every rule, below every limit and on every stream the two grammars give the same answer and leave the
same tokens. -/
theorem orderMakesNoDifference {composites composites' : List RuleSpec}
    {terminals terminals' : List TerminalSpec} {g : Grammar}
    (linked : link composites terminals = .ok g) (compositesMoved : composites'.Perm composites)
    (terminalsMoved : terminals'.Perm terminals) :
    ∃ g', link composites' terminals' = .ok g' ∧
      (∀ name, (g'.id? name).isSome = (g.id? name).isSome) ∧
      (∀ name id id', g.id? name = some id → g'.id? name = some id' →
        ∀ limit c, g'.matchRule limit id' c = g.matchRule limit id c) ∧
      ∀ start tokens, g'.parse start tokens = g.parse start tokens := by
  obtain ⟨g', linked'⟩ := linkMoved compositesMoved terminalsMoved linked
  obtain ⟨rename, corresponds, named⟩ := linkedRenaming compositesMoved terminalsMoved linked linked'
  refine ⟨g', linked', fun name => by simp [named], fun name id id' first second limit c => ?_,
    fun start tokens => parseRenamed corresponds (named start) tokens⟩
  rw [named, first, Option.map_some, Option.some.injEq] at second
  rw [← second]
  exact matchRenamed corresponds limit id c

def nestedPairs : List RuleSpec :=
  [⟨"pair", [⟨"both", [⟨"left", "item", .once⟩, ⟨"right", "item", .optional⟩]⟩]⟩,
   ⟨"item", [⟨"nested", [⟨"open", "opener", .once⟩, ⟨"inside", "pair", .many⟩]⟩,
     ⟨"plain", [⟨"word", "word", .once⟩]⟩]⟩]

def pairTerminals : List TerminalSpec :=
  [⟨"word", "text", Token.isText⟩, ⟨"opener", "sign", Token.isGlyph "<"⟩]

theorem turnedAround : ∃ g g', link nestedPairs pairTerminals = .ok g ∧
    link nestedPairs.reverse pairTerminals.reverse = .ok g' ∧
    ∀ start tokens, g'.parse start tokens = g.parse start tokens := by
  have run : (link nestedPairs pairTerminals).toBool = true := by decide
  cases linked : link nestedPairs pairTerminals with
  | error e =>
    rw [linked] at run
    contradiction
  | ok g =>
    obtain ⟨g', linked', -, -, same⟩ :=
      orderMakesNoDifference linked (List.reverse_perm _) (List.reverse_perm _)
    exact ⟨g, g', rfl, linked', same⟩

end Grammar
end Parlance
