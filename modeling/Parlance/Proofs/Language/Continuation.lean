import Parlance.Proofs.Language.Rules
import Parlance.Proofs.Language.Terminals
import Parlance.Proofs.Matching.Following

/-! What may follow an expression in the standard grammar. An expression without conditional chains is read
the same before an arrow, before the mark of an arm, and before an operator that an arrow follows: nothing
that an operand begins with stands there, and an operator without an operand is no link. -/
namespace Parlance.Language.StandardParts

open Grammar

theorem marksTerminal : ∀ name ∈ signs ++ marks, name ∈ terminalNames := by decide

theorem allRefused {names : List String} {t : Token} {terminal : String} (accepted : Accepted t terminal)
    (apart : ∀ name ∈ names, name ∈ signs ++ marks ∧ Apart terminal name) :
    ∀ name ∈ names, Refused t name := fun name listed =>
  apartRefused accepted (marksTerminal name (apart name listed).1) (apart name listed).2

theorem arrowRefused : ∀ name ∈ signs ++ marks, Refused (.glyph "=>") name :=
  allRefused (markAccepted (by decide : ("arrow", "=>") ∈ punctuation)) (by decide)

theorem barRefused : ∀ name ∈ signs ++ marks, Refused (.glyph "|") name :=
  allRefused (markAccepted (by decide : ("arm-sep", "|") ∈ punctuation)) (by decide)

theorem infixRefused : ∀ op ∈ standardOperators.operators, op.category = .infixOp →
    ∀ name ∈ marks, Refused (.glyph op.symbol) name := by
  intro op member binary
  exact allRefused (infixAccepted (binary ▸ OperatorTable.memberListed member)) (by decide)

variable {l : Language} (standard : StandardParts l) {tokens rest after : List Token} {t : Token}

include standard

theorem refusedFails {name : String} (refused : Refused t name) :
    l.grammar.Reads name (t :: rest) none := by
  obtain ⟨spec, listed, rfl, refused⟩ := refused
  exact readsRefused (standard.declaresTerminal listed) refused

theorem endFails : ∀ name ∈ signs ++ marks, l.grammar.Reads name [] none := by
  intro name listed
  obtain ⟨spec, terminal, rfl⟩ := List.mem_map.mp (marksTerminal name listed)
  exact readsNoToken (standard.declaresTerminal terminal)

theorem signFails {field sign other : String} (listed : sign ∈ signs)
    (alone : l.grammar.Reads "expr'" rest none) :
    l.grammar.ReadsArms [fieldArm field sign, fieldArm other "expr'"] (t :: rest) none := by
  obtain ⟨spec, terminal, rfl⟩ := List.mem_map.mp (marksTerminal sign (List.mem_append_left _ listed))
  have declared := standard.declaresTerminal terminal
  cases accepted : spec.detector.accepts t with
  | false => exact beginFails (readsRefused declared accepted)
  | true => exact laterFails (armOnce rfl (readsToken declared accepted)) (beginFails alone)

theorem condShut (plain : t ≠ .glyph "?") : l.grammar.Reads "cond" (t :: rest) none := by
  have listed : glyphTerminal "cond-open" ["?"] ∈ terminals standardOperators :=
    markListed (by decide)
  have refused : (glyphTerminal "cond-open" ["?"]).detector.accepts t = false := by
    cases t with
    | text s => rfl
    | glyph s =>
      have other : s ≠ "?" := fun same => plain (by rw [same])
      simpa [glyphTerminal] using other
  exact soleFails standard.declaresConditional
    (readsRefused (standard.declaresTerminal listed) refused)

structure Closed (l : Language) (tokens : List Token) : Prop where
  unmarked : ∀ name ∈ marks, l.grammar.Reads name tokens none
  unsigned : l.grammar.ReadsArms [bareArm "unop", fieldArm "operand" "expr'"] tokens none
  unlinked : l.grammar.ReadsArms [bareArm "binop", fieldArm "rhs" "expr'"] tokens none

def concerned : List String := marks ++ "link" :: operandRules

theorem closedFails (closed : Closed l tokens) :
    ∀ name ∈ concerned, l.grammar.Reads name tokens none := by
  intro name listed
  rcases List.mem_append.mp listed with mark | rule
  · exact closed.unmarked name mark
  rcases List.mem_cons.mp rule with rfl | rule
  · exact choiceFails standard.declaresLink (List.forall_mem_singleton.mpr closed.unlinked)
  · exact standard.operandsFail closed.unmarked closed.unsigned name rule

theorem closedEnd : Closed l [] where
  unmarked name listed := standard.endFails name (List.mem_append_right _ listed)
  unsigned := beginFails (standard.endFails "unop" (by decide))
  unlinked := beginFails (standard.endFails "binop" (by decide))

theorem closedMark (refused : ∀ name ∈ signs ++ marks, Refused t name) : Closed l (t :: rest) where
  unmarked name listed := standard.refusedFails (refused name (List.mem_append_right _ listed))
  unsigned := beginFails (standard.refusedFails (refused "unop" (by decide)))
  unlinked := beginFails (standard.refusedFails (refused "binop" (by decide)))

theorem closedSign (refused : ∀ name ∈ marks, Refused t name) (closed : Closed l rest) :
    Closed l (t :: rest) where
  unmarked name listed := standard.refusedFails (refused name listed)
  unsigned := standard.signFails (by decide) (standard.closedFails closed "expr'" (by decide))
  unlinked := standard.signFails (by decide) (standard.closedFails closed "expr'" (by decide))

theorem closedFollows (closed : Closed l after) :
    Matching.Follows l.grammar (fun id => (l.grammar.rule id).name ∈ signs ++ concerned)
      (fun id => (l.grammar.rule id).name ∈ signs) (· ≠ .glyph "?") after where
  fails id listed inner := by
    have name := (List.mem_append.mp listed).resolve_left inner
    exact ⟨standard.closedFails standard.closedEnd _ name id rfl,
      standard.closedFails closed _ name id rfl⟩
  opens id branches listed body := by
    have shape : ∀ spec ∈ standardRules, spec.name ∈ signs ++ concerned → spec.name = "cond" ∨
        ∀ b ∈ spec.branches, (∀ arm ∈ b.arms, arm.rule ∈ signs ++ concerned) ∧
          (∀ arm ∈ b.arms, arm.rule ∈ signs → arm.times = .once) ∧
          ∀ arm ∈ b.arms.tail, arm.rule ∉ signs := by decide
    rcases linkedRule standard.grammar id with ⟨spec, inside, named, found, body', read⟩ | ⟨spec, -, same⟩
    · cases body.symm.trans body'
      rcases shape spec inside (named ▸ listed) with conditional | opened
      · exact .inr fun t rest plain => standard.condShut plain id (named.trans conditional)
      · refine .inl fun b member => ?_
        have written : l.grammar.branchSpec b ∈ spec.branches := read ▸ List.mem_map_of_mem member
        obtain ⟨inner, once, later⟩ := opened _ written
        refine ⟨fun arm member => inner _ (List.mem_map_of_mem member),
          fun arm member => once _ (List.mem_map_of_mem member), fun arm member => ?_⟩
        have further : l.grammar.armSpec arm ∈ (l.grammar.branchSpec b).arms.tail := by
          simpa [branchSpec, ← List.map_tail] using List.mem_map_of_mem member
        exact later _ further
    · rw [same] at body
      contradiction

theorem chainFollowed {m : Tree} (read : l.grammar.Reads "expr" tokens (some (m, [])))
    (plain : ∀ t ∈ tokens, t ≠ .glyph "?") (closed : Closed l after) :
    l.grammar.Reads "expr" (tokens ++ after) (some (m, after)) := by
  intro id named
  have inner : "expr" ∈ signs ++ concerned ∧ "expr" ∉ signs := by decide
  exact Matching.ruleFollowed (standard.closedFollows closed) (read id named) (named ▸ inner.1) plain
    fun _ => named ▸ inner.2

end Parlance.Language.StandardParts
