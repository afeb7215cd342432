import Parlance.Proofs.Expr.Resolution
import Parlance.Proofs.Language.Lasting
import Parlance.Proofs.Token.Lines

/-! Programs one after the other. What a program was read as is read again before a mark that ends a statement,
and another program after the mark goes on with the statements of the first. -/
namespace Parlance

open Grammar
open Parlance.Tree (under)

def programTree (first : Tree) (rest : List Tree) : Tree :=
  .composite "stmts" "seq" (("stmt", first) :: under "rest" rest)

def nextTree (statement : Tree) : Tree :=
  .composite "next-stmt" "more" [("endstmt", .terminal "endstmt" "op" (.glyph ";")), ("stmt", statement)]

namespace Language.StandardParts

variable {l : Language} (standard : StandardParts l) {tokens others : List Token} {m n : Tree}

include standard

theorem programTaken (read : l.grammar.Reads "stmts" tokens (some (m, []))) :
    ∃ first rest middle, m = programTree first rest ∧ l.grammar.Reads "expr" tokens (some (first, middle)) ∧
      Series l.grammar "next-stmt" middle rest [] := by
  obtain ⟨fields, rfl, taken⟩ := soleBranchTaken
    (choiceTaken standard.grammar standard.declaresStatements (by decide) read)
  obtain ⟨front, middle, back, rfl, opening, closing⟩ := armsTaken taken
  obtain ⟨first, rfl, here⟩ := armOnceTaken standard.grammar opening
  obtain ⟨rest, rfl, series, -⟩ := standard.repetitionEnds (by decide) (lastArmTaken closing)
  exact ⟨first, rest, middle, rfl, here, series⟩

theorem nextReads {middle : List Token} (read : l.grammar.Reads "expr" tokens (some (m, middle))) :
    l.grammar.Reads "next-stmt" (.glyph ";" :: tokens) (some (nextTree m, middle)) := by
  have mark : l.grammar.Reads "endstmt" (.glyph ";" :: tokens) _ := standard.markReads (by decide)
  exact readsChoice standard.declaresNext (branchHere (consArm (armOnce rfl mark) (lastArm (armOnce rfl read))))

theorem programsRead (left : l.grammar.Reads "stmts" tokens (some (m, [])))
    (right : l.grammar.Reads "stmts" others (some (n, []))) :
    ∃ first rest other more, m = programTree first rest ∧ n = programTree other more ∧
      l.grammar.Reads "stmts" (tokens ++ .glyph ";" :: others)
        (some (programTree first (rest ++ nextTree other :: more), [])) := by
  obtain ⟨first, rest, middle, rfl, here, series⟩ := standard.programTaken left
  obtain ⟨other, more, further, rfl, there, later⟩ := standard.programTaken right
  have mark : l.grammar.Reads "endstmt" (.glyph ";" :: others) _ := standard.markReads (by decide)
  have told : ∀ n ∈ watched "next-stmt", ("endstmt", n) ∈ toldApart := by decide
  have still : ∀ n ∈ watched "next-stmt", Still l (.glyph ";" :: others) n [] := fun n member _ => by
    simpa using standard.apartFails mark (told n member) []
  have each : ∀ c ∈ rest, Lasts l (.glyph ";" :: others) "next-stmt" c := fun c _ =>
    standard.readingLasts (Nat.le_refl _) (by decide)
  obtain ⟨between, lasting⟩ := standard.seriesLasts (by decide) (by decide) each series still
  have opening := standard.readingLasts (Nat.le_refl _) (by decide) _ _ here fun n member =>
    between n (List.mem_cons_of_mem _ member)
  have progress : further ≠ .glyph ";" :: others := by
    rintro rfl
    have shorter := congrArg List.length (namedSuffix standard.grammar (by decide) there)
    simp only [List.length_append, List.length_cons] at shorter
    omega
  have joined := seriesAppend lasting (.cons (standard.nextReads there) progress later)
  have ends := standard.endFails "endstmt" (by decide)
  refine ⟨first, rest, other, more, rfl, rfl, readsChoice standard.declaresStatements (branchHere ?_)⟩
  exact consArm (armOnce rfl opening) (lastArm (armSeries joined (standard.nextUnended ends)))

end Language.StandardParts

namespace Expr

variable {t : OperatorTable} {first other : Tree} {rest more : List Tree}

theorem statementsProgram : statements t (programTree first rest) = (do
    let e ← ofTree t first
    let others ← traverse (Resolve.nextStatement (ofTree t)) rest
    .ok (e :: others.flatten)) := by
  have children : (programTree first rest).children "rest" = rest := Tree.restChildren rest (by decide)
  rw [statementsParts]
  change (do
    let e ← ofTree t first
    let others ← traverse (Resolve.nextStatement (ofTree t)) ((programTree first rest).children "rest")
    Except.ok (e :: others.flatten)) = _
  rw [children]

theorem statementsJoined {es fs : List Expr} (left : statements t (programTree first rest) = .ok es)
    (right : statements t (programTree other more) = .ok fs) :
    statements t (programTree first (rest ++ nextTree other :: more)) = .ok (es ++ fs) := by
  rw [statementsProgram] at left right ⊢
  obtain ⟨e, resolved, left⟩ := bindOk left
  obtain ⟨es, walked, left⟩ := bindOk left
  obtain ⟨f, further, right⟩ := bindOk right
  obtain ⟨fs, later, right⟩ := bindOk right
  cases left
  cases right
  have next : Resolve.nextStatement (ofTree t) (nextTree other) = .ok [f] := by
    change (ofTree t other >>= fun e => Except.ok [e]) = _
    rw [further]
    rfl
  have tail : traverse (Resolve.nextStatement (ofTree t)) (nextTree other :: more) = .ok ([f] :: fs) := by
    simp only [traverse, next, later]
  rw [resolved, traverseAppend walked tail]
  simp [bind, Except.bind]

end Expr

namespace Language

variable {H : Type}

theorem compileSome {l : Language} {source : String} (some : l.tokenize source ≠ []) :
    l.compile (H := H) source = (do
      let m ← (l.grammar.parse l.start (l.tokenize source)).mapError .parse
      (l.lower m).mapError .resolve) := by
  obtain ⟨t, tokens, cut⟩ := List.exists_cons_of_ne_nil some
  rw [compile, cut]

theorem compileParts {l : Language} {source : String} {program : List (Instruction H)}
    (some : l.tokenize source ≠ []) (compiled : l.compile source = .ok program) :
    ∃ m es, l.grammar.parse l.start (l.tokenize source) = .ok m ∧ Expr.statements l.operators m = .ok es ∧
      Instruction.ofStatements l.operators l.sugar es = .ok program := by
  rw [compileSome some] at compiled
  obtain ⟨m, parsed, lowered⟩ := bindOk compiled
  obtain ⟨es, resolved, lowered⟩ := bindOk (mapErrorOk lowered)
  exact ⟨m, es, mapErrorOk parsed, resolved, lowered⟩

theorem compileFound {l : Language} {source : String} {program : List (Instruction H)} {m : Tree}
    {es : List Expr} (some : l.tokenize source ≠ [])
    (parsed : l.grammar.parse l.start (l.tokenize source) = .ok m)
    (resolved : Expr.statements l.operators m = .ok es)
    (lowered : Instruction.ofStatements l.operators l.sugar es = .ok program) :
    l.compile source = .ok program := by
  have whole : l.lower m = .ok program := by
    rw [lower, resolved]
    exact lowered
  rw [compileSome some, parsed]
  change (l.lower m).mapError Error.resolve = _
  rw [whole]
  rfl

theorem compileCut {l : Language} {source : String} {e : ParseError} (some : l.tokenize source ≠ [])
    (failed : l.grammar.parse l.start (l.tokenize source) = .error e) :
    l.compile (H := H) source = .error (.parse e) := by
  rw [compileSome some, failed]
  rfl

theorem StandardParts.tokenizeJoined {l : Language} (standard : StandardParts l) (p q : String) :
    l.tokenize (p ++ "\n;\n" ++ q) = l.tokenize p ++ .glyph ";" :: l.tokenize q := by
  have unbroken : ∀ g ∈ glyphTable standardOperators, '\n' ∉ g.toList := by decide +kernel
  have listed : ";" ∈ glyphTable standardOperators := by decide +kernel
  simp only [tokenize, standard.glyphs]
  exact tokenizeAroundMark unbroken listed p q

/-- Two programs that compile, one after the other with a mark between them, compile to the instructions of the
one and then those of the other, unless they nest too deep. -/
theorem programsConcatenate {l : Language} (h : Language.standard = .ok l) {p q : String}
    (left : l.tokenize p ≠ []) (right : l.tokenize q ≠ []) {first second : List (Instruction H)}
    (compiled : l.compile p = .ok first) (other : l.compile q = .ok second) :
    l.compile (H := H) (p ++ "\n;\n" ++ q) = .error (.parse (.tooDeep Grammar.defaultDepth)) ∨
      l.compile (p ++ "\n;\n" ++ q) = .ok (first ++ second) := by
  have standard := standardParts h
  obtain ⟨m, es, parsed, resolved, lowered⟩ := compileParts left compiled
  obtain ⟨n, fs, parsed', resolved', lowered'⟩ := compileParts right other
  have joined := standard.tokenizeJoined p q
  have some : l.tokenize (p ++ "\n;\n" ++ q) ≠ [] := by
    rw [joined]
    exact List.append_ne_nil_of_right_ne_nil _ (List.cons_ne_nil _ _)
  rw [standard.start] at parsed parsed'
  obtain ⟨statement, rest, next, more, rfl, rfl, read⟩ :=
    standard.programsRead (standard.parsedReads parsed) (standard.parsedReads parsed')
  by_cases cut : l.grammar.parse standardStart (l.tokenize (p ++ "\n;\n" ++ q)) =
      .error (.tooDeep Grammar.defaultDepth)
  · exact .inl (compileCut some (by rw [standard.start, cut]))
  · have whole := standard.readsParsed (by decide) (joined ▸ read) cut
    exact .inr (compileFound some (by rw [standard.start, whole]) (Expr.statementsJoined resolved resolved')
      (traverseAppend lowered lowered'))

def compiles (source : String) (l : Language) : Bool :=
  match l.compile (H := Empty) source with
  | .ok (_ :: _) => true
  | _ => false

theorem compilesSome {l : Language} {source : String} (h : compiles source l = true) :
    l.tokenize source ≠ [] ∧ ∃ program : List (Instruction Empty), l.compile source = .ok program := by
  unfold compiles at h
  split at h
  · rename_i first program compiled
    refine ⟨fun none => ?_, _, compiled⟩
    simp [compile, none] at compiled
  · contradiction

def unmarkedArms : String := "a = ? | 1 < 2 => \x7b 3; \x7d // up"

def leadingMinus : String := "-a;"

theorem armsBeforeMinus : ∃ (l : Language) (first second : List (Instruction Empty)),
    Language.standard = .ok l ∧ l.tokenize unmarkedArms ≠ [] ∧ l.tokenize leadingMinus ≠ [] ∧
      l.compile unmarkedArms = .ok first ∧ l.compile leadingMinus = .ok second ∧
      l.compile (unmarkedArms ++ "\n;\n" ++ leadingMinus) = .ok (first ++ second) := by
  have run : standardTest (fun l => compiles unmarkedArms l && compiles leadingMinus l &&
      compiles (unmarkedArms ++ "\n;\n" ++ leadingMinus) l) = true := by decide +kernel
  obtain ⟨l, standard, tested⟩ := standardTested run
  simp only [Bool.and_eq_true] at tested
  obtain ⟨⟨testP, testQ⟩, testWhole⟩ := tested
  obtain ⟨left, first, compiled⟩ := compilesSome testP
  obtain ⟨right, second, other⟩ := compilesSome testQ
  obtain ⟨-, whole, joined⟩ := compilesSome testWhole
  refine ⟨l, first, second, standard, left, right, compiled, other, ?_⟩
  refine (programsConcatenate standard left right compiled other).resolve_left fun cut => ?_
  cases cut.symm.trans joined

end Language
end Parlance
