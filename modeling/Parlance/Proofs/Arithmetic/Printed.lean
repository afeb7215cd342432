import Parlance.Proofs.Arithmetic.Evaluation

/-! Integers as they are printed. A text without a sign is a literal, and one with a sign is the negation of a
literal; so an integer that is printed and run comes back, as long as its digits are a literal. Those of the least
integer are none: there is no literal without a sign that it could be the negation of. -/
namespace Parlance

open Parlance.Arithmetic
open Parlance.Language (Derived branchDerives glyphTableMember)

namespace Lexer

theorem loneGlyph {glyphs : List (List Char)} {c : Char} (member : [c] ∈ glyphs)
    (lone : ∀ more, c :: more ∈ glyphs → more = []) (unmarked : c ≠ '/') (cs : List Char) :
    lexemes glyphs .fresh (c :: cs) = .glyph [c] :: lexemes glyphs .fresh cs := by
  rcases freshCases glyphs c cs with ⟨opens, -⟩ | ⟨more, listed, -, -, -, read⟩ | ⟨none, -⟩
  · exact absurd (List.cons_prefix_cons.mp opens).1.symm unmarked
  · cases lone more listed
    rw [read, List.length_nil, glyphDone]
  · have here : [c] <+: c :: cs := List.cons_prefix_cons.mpr ⟨rfl, List.nil_prefix⟩
    exact absurd here (none _ (.inr ⟨member, List.cons_ne_nil _ _⟩))

end Lexer

theorem tokenizeLone {glyphs : List String} {c : Char} (member : String.singleton c ∈ glyphs)
    (lone : ∀ g ∈ glyphs, g.toList.head? = some c → g = String.singleton c) (unmarked : c ≠ '/')
    (source : String) :
    tokenize glyphs (String.singleton c ++ source) =
      .glyph (String.singleton c) :: tokenize glyphs source := by
  have listed : [c] ∈ glyphs.map String.toList := List.mem_map.mpr ⟨_, member, by simp⟩
  have alone : ∀ more, c :: more ∈ glyphs.map String.toList → more = [] := by
    intro more inside
    obtain ⟨g, known, spelled⟩ := List.mem_map.mp inside
    have same := lone g known (by rw [spelled]; rfl)
    rw [same] at spelled
    simpa using spelled.symm
  rw [tokenize, String.toList_append, String.toList_singleton, List.singleton_append, Lexer.tokens,
    Lexer.loneGlyph listed alone unmarked, Lexer.gatherGlyph]
  rfl

namespace Arithmetic

def negative : Operator := ⟨4, "neg", "-", .prefixOp, .right, none⟩

def negatedTree (n : Nat) : Tree :=
  .composite "expr'" "unop"
    [("unop", .terminal "unop" "op" (.glyph negative.symbol)), ("operand", numberTree n)]

def negated (n : Nat) : Expr := .unary negative (numeral n)

theorem negatedDerived (n : Nat) : Derived standardOperators "expr'" (negatedTree n) := by
  have sign : Derived standardOperators "unop" (.terminal "unop" "op" (.glyph negative.symbol)) :=
    @Grammar.Derives.token _ _ (glyphTerminal "unop" (standardOperators.symbols .prefixOp)) _
      (by simp [terminals]) rfl
  exact branchDerives ⟨"unop", [bareArm "unop", fieldArm "operand" "expr'"]⟩ (by decide)
    (.once sign (.once (numberDerived n) .nil))

theorem negatedResolved (n : Nat) : Expr.ofTree standardOperators (negatedTree n) = .ok (negated n) := by
  have found : Resolve.operator standardOperators (negatedTree n) "unop" .prefixOp = .ok negative :=
    Resolve.operatorFound rfl rfl
  rw [Expr.ofTreeParts]
  change (do
    let op ← Resolve.operator standardOperators (negatedTree n) "unop" .prefixOp
    let operand ← Expr.ofTree standardOperators (numberTree n)
    Except.ok (Expr.unary op operand)) = _
  rw [found, numberResolved]
  rfl

end Arithmetic

namespace Language

variable {H : Type}

theorem StandardParts.tokenizeNegated {l : Language} (standard : StandardParts l) (source : String) :
    l.tokenize ("-" ++ source) = .glyph "-" :: l.tokenize source := by
  have listed : ∀ g ∈ standardOperators.operators.map Operator.symbol ++ punctuation.map Prod.snd,
      g.toList.head? = some '-' → g = "-" := by decide
  rw [tokenize, tokenize, standard.glyphs]
  exact tokenizeLone (glyphTableMember.mpr (by decide))
    (fun g member => listed g (glyphTableMember.mp member)) (by decide) source

theorem StandardParts.tokenizeNumeral {l : Language} (standard : StandardParts l) (n : Nat) :
    l.tokenize (toString n) = [.text (toString n)] := by
  have canonical : Token.CanonicalList (glyphTable standardOperators) [.text (toString n)] :=
    Token.canonicalCons (numeralCanonical signsSpelled n) Token.canonicalNone (by simp)
  have line : Token.line [.text (toString n)] = toString n := by simp [Token.line, Token.content]
  have cut := standard.tokenizeCanonical canonical
  rwa [line] at cut

theorem StandardParts.operandCompiled {l : Language} (standard : StandardParts l) {source : String}
    {operand : Tree} {e : Expr} (cut : l.tokenize source = operand.tokens)
    (flat : StandardParts.Flat operand.tokens) (some : operand.tokens ≠ [])
    (derived : Derived standardOperators "expr'" operand)
    (resolved : Expr.ofTree standardOperators operand = .ok e) :
    l.compile (H := H) source =
      ((Lower.lowerAt roles maxNesting false e).map ([·])).mapError .resolve := by
  let m : Tree := .composite "stmts" "seq" [("stmt", .composite "expr" "chain" [("head", operand)])]
  have whole : m.tokens = operand.tokens := by simp [m, Tree.tokens, Tree.fieldTokens]
  have chain : Derived standardOperators "expr" (.composite "expr" "chain" [("head", operand)]) :=
    branchDerives ⟨"chain", [fieldArm "head" "expr'", manyArm "link" "link"]⟩ (by decide)
      (.once derived (.stop .nil))
  have program : Derived standardOperators standardStart m :=
    branchDerives ⟨"seq", [fieldArm "stmt" "expr", manyArm "rest" "next-stmt"]⟩ (by decide)
      (.once chain (.stop .nil))
  have parsed : l.grammar.parse l.start (l.tokenize source) = .ok m := by
    rw [cut, standard.start, ← whole]
    exact standard.flatParsed program (whole ▸ flat)
  have statements : Expr.statements l.operators m = .ok [e] := by
    rw [standard.operators, Expr.statementsSole, Expr.ofTreeSole, resolved]
    rfl
  rw [compileSome (cut ▸ some), parsed]
  change (l.lower m).mapError Error.resolve = _
  rw [lower, statements, standard.sugar, standard.operators]
  change (traverse (Lower.lowerAt roles maxNesting false) [e]).mapError Error.resolve = _
  cases lowered : Lower.lowerAt (H := H) roles maxNesting false e <;> simp only [traverse, lowered] <;> rfl

theorem StandardParts.negatedCompiled {l : Language} (standard : StandardParts l) (n : Nat) :
    l.compile (H := H) ("-" ++ toString n) =
      ((Lower.lowerAt roles maxNesting false (negated n)).map ([·])).mapError .resolve := by
  have cut : l.tokenize ("-" ++ toString n) = (negatedTree n).tokens := by
    rw [standard.tokenizeNegated, standard.tokenizeNumeral]
    rfl
  have sign : Accepted (.glyph "-") "binop" := infixAccepted (by decide)
  have text : Accepted (.text (toString n)) "ident" := textAccepted _
  have flat : StandardParts.Flat (negatedTree n).tokens :=
    ⟨List.forall_mem_cons.mpr ⟨.inr sign, List.forall_mem_singleton.mpr (.inl text)⟩,
      .cons_cons (.inr text) (.singleton _)⟩
  exact standard.operandCompiled cut flat (List.cons_ne_nil _ _) (negatedDerived n) (negatedResolved n)

section Runs

variable [Host H]

theorem instructionRun {l : Language} {source : String} {i : Instruction H} {r : Except EvalError (Value H)}
    (compiled : l.compile source = .ok [i])
    (computed : ∀ fuel > 1, Evaluator.evalInstruction fuel i .standard = Eval.ofExcept r .standard) :
    l.run source = (Eval.ofExcept r Evaluator.standard).mapError .eval := by
  have most : 1 < twoTo 62 := by decide
  have fuel : twoTo 62 ≤ (Evaluator.standard : Evaluator H).fuelFor :=
    Nat.le_mul_of_pos_right _ (Nat.succ_pos _)
  have evaluated := Evaluator.runSole (computed (Evaluator.standard : Evaluator H).fuelFor (by omega))
  rw [Language.run, runIn, compiled]
  exact congrArg (Outcome.mapError Error.eval) evaluated

variable {l : Language} (standard : StandardParts l)

include standard

theorem StandardParts.numeralRun {n : Nat} (small : n < twoTo 63) :
    l.run (H := H) (toString n) = .value (.integer (Int64.ofInt n)) .standard := by
  obtain ⟨i, lowered, computed⟩ := (numberComputes (H := H) small).runs
  have flat : StandardParts.Flat (numberTree n).tokens := tokensFlat n []
  have compiled := standard.operandCompiled (H := H) (standard.tokenizeNumeral n) flat (List.cons_ne_nil _ _)
    (numberDerived n) (numberResolved n)
  have deep : Lower.lowerAt roles maxNesting false (numeral n) = .ok i := lowered maxNesting (Nat.zero_lt_succ _)
  rw [deep] at compiled
  exact instructionRun compiled fun fuel enough =>
    computed fuel (Nat.lt_of_succ_lt enough) _ Evaluator.standardEquipped

theorem StandardParts.negatedRun {n : Nat} (small : n < twoTo 63) :
    l.run (H := H) ("-" ++ toString n) = .value (.integer (Int64.ofInt (-n))) .standard := by
  obtain ⟨i, lowered, computed⟩ := (numberComputes (H := H) small).runs
  have compiled := standard.negatedCompiled (H := H) n
  have below : Lower.lowerAt roles 255 false (numeral n) = .ok i := lowered 255 (Nat.zero_lt_succ _)
  have deep : Lower.lowerAt roles maxNesting false (negated n) = .ok (.call "neg" [i]) := by
    change (Lower.lowerAt roles 255 false (numeral n) >>= fun operand => _) = _
    rw [below]
    rfl
  rw [deep] at compiled
  have fits : Fits n := (numberComputes (H := H) small).fits n rfl
  have opposite : Fits (-n) := ⟨by have := fits.2; omega, by have := fits.1; omega⟩
  have value : Operation.negate (.integer (Int64.ofInt n) : Value H) = valued (.ok (-n)) := by
    rw [Operation.negate, fitsBack fits, integerValued, if_pos opposite]
  obtain ⟨id, named⟩ := Evaluator.standardEquipped (H := H) "neg" .negate (by simp [standardLibrary])
  refine instructionRun (r := valued (.ok (-n))) compiled fun fuel enough => ?_
  obtain ⟨fuel, rfl⟩ := Nat.exists_eq_succ_of_ne_zero (Nat.ne_zero_of_lt enough)
  have operand := computed fuel (Nat.lt_of_succ_lt_succ enough) _ Evaluator.standardEquipped
  rw [Evaluator.callNegate named operand, value]

theorem StandardParts.negatedBeyond {n : Nat} (large : ¬ n < twoTo 63) :
    l.run (H := H) ("-" ++ toString n) = .error (.resolve (.invalidLiteral (toString n))) .standard := by
  have word := numeralWord n
  rw [if_neg large] at word
  have deep : Lower.lowerAt (H := H) roles maxNesting false (negated n) =
      .error (.invalidLiteral (toString n)) := by
    change (Lower.lowerAt (H := H) roles 255 false (numeral n) >>= fun operand => _) = _
    have below : Lower.lowerAt (H := H) roles 255 false (numeral n) =
        .error (.invalidLiteral (toString n)) := by
      simp only [Lower.lowerAt, Lower.lowerWith, numeral, word]
    rw [below]
    rfl
  rw [Language.run, runIn, standard.negatedCompiled, deep]
  rfl

end Runs

/-- Every integer that is printed and run as a program gives that integer, but for the least one: its digits are
no literal, so its text does not compile. -/
theorem printedIntegersRead [Host H] {l : Language} (h : Language.standard = .ok l) (n : Int64) :
    (n ≠ Int64.minValue →
      l.run (H := H) (Value.integer n : Value H).render = .value (.integer n) .standard) ∧
    (n = Int64.minValue → l.run (H := H) (Value.integer n : Value H).render =
      .error (.resolve (.invalidLiteral "9223372036854775808")) .standard) := by
  have standard := standardParts h
  have limit : (twoTo 63 : Int) = 2 ^ 63 := rfl
  have above : n.toInt < twoTo 63 := n.toInt_lt
  have below : -(twoTo 63 : Int) ≤ n.toInt := n.le_toInt
  have least : n = Int64.minValue ↔ n.toInt = -(twoTo 63 : Int) := by
    rw [← Int64.toInt_inj, Int64.toInt_minValue, limit]
  rw [ne_eq, least]
  cases whole : n.toInt with
  | ofNat m =>
    have same : Int64.ofInt m = n := (congrArg Int64.ofInt whole).symm.trans (Int64.ofInt_toInt n)
    have text : (Value.integer n : Value H).render = toString m := by
      rw [Value.render, whole]
      rfl
    have small : m < twoTo 63 := by
      rw [whole] at above
      exact Int.ofNat_lt.mp above
    have read := standard.numeralRun (H := H) small
    rw [same, ← text] at read
    refine ⟨fun _ => read, fun negative => ?_⟩
    have natural : (0 : Int) ≤ Int.ofNat m := Int.natCast_nonneg m
    omega
  | negSucc m =>
    have opposite : Int.negSucc m = -((m + 1 : Nat) : Int) := Int.negSucc_eq m
    have same : Int64.ofInt (-((m + 1 : Nat) : Int)) = n :=
      (congrArg Int64.ofInt (whole.trans opposite)).symm.trans (Int64.ofInt_toInt n)
    have text : (Value.integer n : Value H).render = "-" ++ toString (m + 1) := by
      rw [Value.render, whole]
      rfl
    rw [whole, opposite] at below
    rw [text, opposite]
    constructor
    · intro inner
      have small : m + 1 < twoTo 63 := by omega
      have read := standard.negatedRun (H := H) small
      rw [same] at read
      exact read
    · intro same
      have digits : m + 1 = twoTo 63 := by omega
      have refused := standard.negatedBeyond (H := H) (Nat.not_lt_of_le digits.ge)
      rw [digits] at refused ⊢
      exact refused

theorem nextToLeastReads : ∃ l : Language, Language.standard = .ok l ∧
    (-9223372036854775807 : Int64) ≠ Int64.minValue ∧
    (Value.integer (-9223372036854775807) : Value Empty).render = "-9223372036854775807" ∧
    l.run (H := Empty) "-9223372036854775807" = .value (.integer (-9223372036854775807)) .standard := by
  have built : standardTest (fun _ => true) = true := by decide +kernel
  obtain ⟨l, standard, -⟩ := standardTested built
  have inner : (-9223372036854775807 : Int64) ≠ Int64.minValue := by decide
  have text : (Value.integer (-9223372036854775807) : Value Empty).render = "-9223372036854775807" := rfl
  obtain ⟨read, -⟩ := printedIntegersRead (H := Empty) standard (-9223372036854775807)
  exact ⟨l, standard, inner, text, text ▸ read inner⟩

theorem leastDoesNotRead : ∃ l : Language, Language.standard = .ok l ∧
    (Value.integer Int64.minValue : Value Empty).render = "-9223372036854775808" ∧
    l.run (H := Empty) "-9223372036854775808" =
      .error (.resolve (.invalidLiteral "9223372036854775808")) .standard ∧
    ¬ ∀ n : Int64, ∃ after, l.run (H := Empty) (Value.integer n : Value Empty).render =
      .value (.integer n) after := by
  have built : standardTest (fun _ => true) = true := by decide +kernel
  obtain ⟨l, standard, -⟩ := standardTested built
  have text : (Value.integer Int64.minValue : Value Empty).render = "-9223372036854775808" := rfl
  have digits : toString (twoTo 63) = "9223372036854775808" := by decide
  have signed : "-" ++ "9223372036854775808" = "-9223372036854775808" := by decide
  have refused := (standardParts standard).negatedBeyond (H := Empty) (Nat.lt_irrefl (twoTo 63))
  rw [digits, signed] at refused
  refine ⟨l, standard, text, refused, fun reads => ?_⟩
  obtain ⟨after, read⟩ := reads Int64.minValue
  rw [text, refused] at read
  contradiction

end Language
end Parlance
