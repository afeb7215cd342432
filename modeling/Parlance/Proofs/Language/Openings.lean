import Parlance.Proofs.Language.Unambiguous
import Parlance.Proofs.Matching.Taken

/-! What the rules of the standard grammar begin with. Every branch begins with an arm that has to match, so the
terminals at the front of a rule tell by one token where it cannot match. -/
namespace Parlance.Language.StandardParts

open Grammar

def ruleNames : List String := standardRules.map RuleSpec.name

def declaredNames : List String := declared standardRules (terminals standardOperators)

def leads (name : String) : List String :=
  (branchesOf name).filterMap fun b => b.arms.head?.map ArmSpec.rule

def front : Nat → String → List String
  | 0, name => [name]
  | depth + 1, name => if name ∈ ruleNames then (leads name).flatMap (front depth) else [name]

def openings (name : String) : List String := front 5 name

theorem openingsTerminal : ∀ name ∈ declaredNames, ∀ o ∈ openings name, o ∈ terminalNames := by
  decide +kernel

def Shut (terminal name : String) : Prop := name ∈ declaredNames ∧ ∀ o ∈ openings name, Apart terminal o

instance (terminal name : String) : Decidable (Shut terminal name) := inferInstanceAs (Decidable (_ ∧ _))

def toldApart : List (String × String) :=
  [("endstmt", ["expr", "link", "group", "arm"]), ("next-stmt", ["expr", "link", "group", "arm"]),
   ("link", ["group", "arm"]), ("binop", ["primary", "group", "arm", "ellipsis"]), ("expr", ["ellipsis"]),
   ("primary", ["unop"]), ("cond", ["params"]), ("group", ["params", "cond", "arm"]),
   ("ident", ["params", "cond", "group"]), ("lparen-close", ["expr", "link", "group", "arm"]),
   ("fnargdef-close", ["expr", "link", "group", "arm"]),
   ("fnbody-close", ["stmts", "next-stmt", "expr", "link", "group", "arm"]),
   ("arm", ["expr", "link", "group"]), ("arrow", ["binop", "expr'", "link", "group", "arm"])].flatMap
    fun entry => entry.2.map fun other => (entry.1, other)

theorem toldApartShut : ∀ pair ∈ toldApart,
    pair.1 ∈ declaredNames ∧ ∀ o ∈ openings pair.1, Shut o pair.2 := by decide +kernel

variable {l : Language} (standard : StandardParts l) {tokens rest : List Token} {m : Tree} {name : String}

include standard

theorem leadsFail (listed : name ∈ ruleNames)
    (fails : ∀ lead ∈ leads name, l.grammar.Reads lead tokens none) : l.grammar.Reads name tokens none := by
  have headed : ∀ spec ∈ standardRules, ∀ b ∈ spec.branches, b.arms ≠ [] ∧
      ∀ arm ∈ b.arms.head?, arm.times = .once ∧ arm.rule ∈ leads spec.name := by decide
  obtain ⟨spec, member, rfl⟩ := List.mem_map.mp listed
  refine choiceFails (standard.declares member) fun b branch => ?_
  obtain ⟨filled, begins⟩ := headed spec member b branch
  obtain ⟨arm, arms, same⟩ := List.exists_cons_of_ne_nil filled
  rw [same] at begins ⊢
  obtain ⟨times, lead⟩ := begins arm rfl
  exact firstFails (armMissing times (fails _ lead))

theorem leadTaken (listed : name ∈ ruleNames) (read : l.grammar.Reads name tokens (some (m, rest))) :
    ∃ lead ∈ leads name, ∃ first middle more, l.grammar.Reads lead tokens (some (first, middle)) ∧
      m.tokens = first.tokens ++ more := by
  have headed : ∀ spec ∈ standardRules, ∀ b ∈ spec.branches, b.arms ≠ [] ∧
      ∀ arm ∈ b.arms.head?, arm.times = .once ∧ arm.rule ∈ leads spec.name := by decide
  obtain ⟨spec, member, rfl⟩ := List.mem_map.mp listed
  obtain ⟨b, branch, fields, rfl, taken⟩ := branchFound
    (choiceTaken standard.grammar (standard.declares member) (List.mem_append_left _ listed) read)
  obtain ⟨filled, begins⟩ := headed spec member b branch
  obtain ⟨arm, arms, same⟩ := List.exists_cons_of_ne_nil filled
  rw [same] at begins taken
  obtain ⟨field, rule, times⟩ := arm
  obtain ⟨rfl, lead⟩ := begins _ rfl
  obtain ⟨_, middle, others, rfl, opening, -⟩ := armsTaken taken
  obtain ⟨first, rfl, matched⟩ := armOnceTaken standard.grammar opening
  exact ⟨_, lead, first, middle, Tree.fieldTokens others, matched, rfl⟩

theorem frontFails {depth : Nat} (fails : ∀ o ∈ front depth name, l.grammar.Reads o tokens none) :
    l.grammar.Reads name tokens none := by
  induction depth generalizing name with
  | zero => exact fails name List.mem_cons_self
  | succ depth ih =>
    unfold front at fails
    split at fails
    · rename_i listed
      refine standard.leadsFail listed fun lead member => ih fun o inside => ?_
      exact fails o (List.mem_flatMap.mpr ⟨lead, member, inside⟩)
    · exact fails name List.mem_cons_self

theorem frontTaken (depth : Nat) (read : l.grammar.Reads name tokens (some (m, rest))) :
    ∃ o ∈ front depth name, ∃ first middle more, l.grammar.Reads o tokens (some (first, middle)) ∧
      m.tokens = first.tokens ++ more := by
  induction depth generalizing name m rest with
  | zero => exact ⟨name, List.mem_cons_self, m, rest, [], read, (List.append_nil _).symm⟩
  | succ depth ih =>
    unfold front
    split
    · rename_i listed
      obtain ⟨lead, member, first, middle, more, matched, covers⟩ := standard.leadTaken listed read
      obtain ⟨o, inside, opening, _, further, taken, begins⟩ := ih matched
      refine ⟨o, List.mem_flatMap.mpr ⟨lead, member, inside⟩, opening, _, further ++ more, taken, ?_⟩
      rw [covers, begins, List.append_assoc]
    · exact ⟨name, List.mem_cons_self, m, rest, [], read, (List.append_nil _).symm⟩

theorem shutFails {t : Token} {terminal : String} (accepted : Accepted t terminal)
    (shut : Shut terminal name) : l.grammar.Reads name (t :: rest) none :=
  standard.frontFails fun o opening =>
    standard.refusedFails (apartRefused accepted (openingsTerminal name shut.1 o opening) (shut.2 o opening))

theorem openingTaken (listed : name ∈ declaredNames) (read : l.grammar.Reads name tokens (some (m, rest))) :
    m.tokens ≠ [] ∧ ∃ o ∈ openings name, ∃ t more, tokens = t :: more ∧ Accepted t o := by
  obtain ⟨o, opening, first, middle, more, matched, covers⟩ := standard.frontTaken 5 read
  obtain ⟨spec, member, rfl⟩ := List.mem_map.mp (openingsTerminal name listed o opening)
  obtain ⟨t, rfl, accepted, rfl⟩ := terminalTaken standard.grammar member matched
  exact ⟨by simp [covers, Tree.tokens], _, opening, t, middle, rfl, spec, member, rfl, accepted⟩

theorem apartFails {other : String} (read : l.grammar.Reads name tokens (some (m, rest)))
    (told : (name, other) ∈ toldApart) (after : List Token) : l.grammar.Reads other (tokens ++ after) none := by
  obtain ⟨known, shut⟩ := toldApartShut _ told
  obtain ⟨-, o, opening, t, more, rfl, accepted⟩ := standard.openingTaken known read
  exact standard.shutFails accepted (shut o opening)

end Parlance.Language.StandardParts
