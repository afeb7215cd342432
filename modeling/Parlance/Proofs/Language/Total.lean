import Parlance.Proofs.Instruction.Placed
import Parlance.Proofs.Language.Standard

/-! What a language can blame a source text for. The rules, the terminals of the table, resolution and
lowering agree only through names and signs; they do agree, so no text that parses meets a stage that does
not know what to make of it. In the standard language no text can meet a gap in the table either. -/
namespace Parlance.Language

variable {H : Type}

theorem standardSettled : Settled standardOperators (Sugar.standard.roles standardOperators) where
  related := by decide +kernel
  paired := by decide +kernel

theorem lowerFair {strict : Prop} {t : OperatorTable} (built : t.Built) {sugar : Sugar} {l : Language}
    (h : Definition.build { operators := t, sugar := sugar } = .ok l)
    (settled : strict → Settled t (sugar.roles t)) {tokens : List Token} {m : Tree}
    (parsed : l.grammar.parse l.start tokens = .ok m) :
    Gives (fun _ => True) (ResolveError.Fair strict) (l.lower (H := H) m) := by
  unfold Definition.build at h
  split at h
  · contradiction
  · rename_i grammar linked
    cases h
    have derived : Derived t "stmts" m := Grammar.parseDerives linked parsed
    have once := (Grammar.linkAssembled linked).1
    have resolved := Resolve.statementsFaithful (OperatorTable.builtFormed built) once settled derived
    exact givesBind resolved fun es faithful => Instruction.ofStatementsFair faithful.1

theorem compileFair {strict : Prop} {t : OperatorTable} (built : t.Built) {sugar : Sugar} {l : Language}
    (h : Definition.build { operators := t, sugar := sugar } = .ok l)
    (settled : strict → Settled t (sugar.roles t)) {source : String} {e : ResolveError}
    (failed : l.compile (H := H) source = .error (.resolve e)) : e.Fair strict := by
  unfold compile at failed
  split at failed
  · contradiction
  rcases bindError failed with unparsed | ⟨m, parsed, unlowered⟩
  · obtain ⟨wrong, -, same⟩ := mapErrorError unparsed
    contradiction
  · obtain ⟨wrong, lowered, same⟩ := mapErrorError unlowered
    cases same
    have fair := lowerFair (H := H) built h settled (mapErrorOk parsed)
    rw [lowered] at fair
    exact fair

theorem neverInternal {t : OperatorTable} (built : t.Built) {sugar : Sugar} {l : Language}
    (h : Definition.build { operators := t, sugar := sugar } = .ok l) {source : String} {e : ResolveError}
    (failed : l.compile (H := H) source = .error (.resolve e)) : ¬ e.Internal :=
  (compileFair built h (fun asked : False => asked.elim) failed).1

section Configured

variable [Json.Library] {operators : Option String} {sugar : Sugar} {d : Definition}

theorem textsBuilt (read : Definition.ofTexts operators none standardStart sugar = .ok d) :
    ∃ t : OperatorTable, t.Built ∧ d = { operators := t, sugar := sugar } := by
  have rules : (RuleSpec.ofGrammarText ((none : Option String).getD standardGrammar)).mapError Error.grammar =
      .ok standardRules := by
    rw [Option.getD_none, standardGrammarRead]
    rfl
  cases operators with
  | none =>
    simp only [Definition.ofTexts, rules] at read
    cases read
    exact ⟨standardOperators, OperatorTable.standardBuilt, rfl⟩
  | some text =>
    obtain ⟨t, table, read⟩ := bindOk read
    simp only [rules] at read
    cases read
    refine ⟨t, ?_, rfl⟩
    have declared := mapErrorOk table
    unfold OperatorTable.ofJson at declared
    split at declared
    · cases declared
    · exact OperatorConfig.configBuilt declared

theorem configuredBlames (read : Definition.ofTexts operators none standardStart sugar = .ok d) {l : Language}
    (linked : d.build = .ok l) {source : String} {e : ResolveError}
    (failed : l.compile (H := H) source = .error (.resolve e)) : ¬ e.Internal := by
  obtain ⟨t, built, rfl⟩ := textsBuilt read
  exact neverInternal built linked failed

end Configured

/-- A text that does not compile is itself to blame: it never meets a tree, a chain or a sign that a later
stage does not know, under any table; nor, in the standard language, operators that are not related or
enclosers that do not match or belong elsewhere. -/
theorem compileBlames {t : OperatorTable} (built : t.Built) {sugar : Sugar} {l : Language}
    (h : Definition.build { operators := t, sugar := sugar } = .ok l) {source : String} {e : ResolveError}
    (failed : l.compile (H := H) source = .error (.resolve e)) :
    ¬ e.Internal ∧ (t = standardOperators → sugar = .standard → ¬ e.Tabular) := by
  constructor
  · exact neverInternal built h failed
  · rintro rfl rfl
    exact (compileFair built h (fun _ : True => standardSettled) failed).2 trivial

def blames (source : String) (e : ResolveError) (l : Language) : Bool :=
  match l.compile (H := Empty) source with
  | .error (.resolve other) => other == e
  | _ => false

theorem chainedComparisonBlamed : ∃ l : Language, Language.standard = .ok l ∧
    l.compile (H := Empty) "f = [a]\x7b a == 1 == 2 \x7d" = .error (.resolve (.nonAssociative "==")) ∧
    ¬ (ResolveError.nonAssociative "==").Internal ∧ ¬ (ResolveError.nonAssociative "==").Tabular := by
  have run : standardTest (blames "f = [a]\x7b a == 1 == 2 \x7d" (.nonAssociative "==")) = true := by
    decide +kernel
  obtain ⟨l, standard, tested⟩ := standardTested run
  unfold blames at tested
  split at tested
  · rename_i wrong failed
    cases beq_iff_eq.mp tested
    have blamed := compileBlames OperatorTable.standardBuilt standard failed
    exact ⟨l, standard, failed, blamed.1, blamed.2 rfl rfl⟩
  · contradiction

end Parlance.Language
