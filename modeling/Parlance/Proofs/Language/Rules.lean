import Parlance.Proofs.Language.Shapes
import Parlance.Proofs.Language.Standard
import Parlance.Proofs.Matching.Named

/-! The standard grammar as readings: what it declares, how its parses are readings, and where the rules that
begin with an operand fail. -/
namespace Parlance.Language.StandardParts

open Grammar

variable {l : Language} (standard : StandardParts l) {tokens rest : List Token} {m : Tree}

theorem parsedRule {name : String} (parsed : l.grammar.parse name tokens = .ok m) : m.rule = name := by
  obtain ⟨id, found, read⟩ := parseReads parsed
  rw [Matching.readRule read, idNamed found]

include standard

theorem declares {spec : RuleSpec} (listed : spec ∈ standardRules) : l.grammar.Declares spec :=
  (linkedDeclares standard.grammar).1 spec listed

theorem declaresTerminal {spec : TerminalSpec} (listed : spec ∈ terminals standardOperators) :
    l.grammar.DeclaresTerminal spec :=
  (linkedDeclares standard.grammar).2 spec listed

theorem declaresEnclosure {name opener content closer : String}
    (listed : (name, opener, content, closer) ∈ enclosures) :
    l.grammar.Declares (enclosedRule name opener content closer) :=
  standard.declares ((by decide : ∀ e ∈ enclosures, enclosedRule e.1 e.2.1 e.2.2.1 e.2.2.2 ∈ standardRules)
    _ listed)

theorem declaresStatements : l.grammar.Declares
    ⟨"stmts", [⟨"seq", [fieldArm "stmt" "expr", manyArm "rest" "next-stmt"]⟩]⟩ :=
  standard.declares (by decide)

theorem declaresNext : l.grammar.Declares
    ⟨"next-stmt", [⟨"more", [bareArm "endstmt", fieldArm "stmt" "expr"]⟩,
      ⟨"last", [bareArm "endstmt"]⟩]⟩ :=
  standard.declares (by decide)

theorem declaresChain : l.grammar.Declares
    ⟨"expr", [⟨"chain", [fieldArm "head" "expr'", manyArm "link" "link"]⟩]⟩ :=
  standard.declares (by decide)

theorem declaresLink : l.grammar.Declares
    ⟨"link", [⟨"infix", [bareArm "binop", fieldArm "rhs" "expr'"]⟩]⟩ :=
  standard.declares (by decide)

theorem declaresOperand : l.grammar.Declares
    ⟨"expr'", [⟨"unop", [bareArm "unop", fieldArm "operand" "expr'"]⟩,
      ⟨"apply", [fieldArm "callee" "primary", manyArm "args" "group"]⟩]⟩ :=
  standard.declares (by decide)

theorem declaresPrimary : l.grammar.Declares
    ⟨"primary", [⟨"function", [bareArm "params", fieldArm "body" "block"]⟩,
      ⟨"cond", [bareArm "cond"]⟩, ⟨"group", [bareArm "group"]⟩, ⟨"ident", [bareArm "ident"]⟩]⟩ :=
  standard.declares (by decide)

theorem declaresConditional : l.grammar.Declares
    ⟨"cond", [⟨"chain", [fieldArm "open" "cond-open", optionalArm "scrutinee" "expr", bareArm "arm",
      manyArm "arm" "arm"]⟩]⟩ :=
  standard.declares (by decide)

theorem declaresArm : l.grammar.Declares
    ⟨"arm", [⟨"arm", [fieldArm "sep" "arm-sep", fieldArm "guard" "arm-guard", bareArm "arrow",
      fieldArm "body" "block"]⟩]⟩ :=
  standard.declares (by decide)

theorem declaresGuard : l.grammar.Declares
    ⟨"arm-guard", [⟨"catch-all", [bareArm "ellipsis"]⟩, ⟨"left", [bareArm "binop", fieldArm "rhs" "expr"]⟩,
      ⟨"test", [bareArm "expr", optionalArm "op" "binop"]⟩]⟩ :=
  standard.declares (by decide)

theorem namedReads {name : String} {id : Fin l.grammar.size} {out : Reading Tree}
    (found : l.grammar.id? name = some id) (read : RuleReads l.grammar id tokens out) :
    l.grammar.Reads name tokens out := by
  intro other named
  rw [linkedOnce standard.grammar (named.trans (idNamed found).symm)]
  exact read

theorem parsedReads {name : String} (parsed : l.grammar.parse name tokens = .ok m) :
    l.grammar.Reads name tokens (some (m, [])) := by
  obtain ⟨id, found, read⟩ := parseReads parsed
  exact standard.namedReads found read

theorem readsParsed {name : String} (listed : name ∈ declared standardRules (terminals standardOperators))
    (read : l.grammar.Reads name tokens (some (m, [])))
    (notCut : l.grammar.parse name tokens ≠ .error (.tooDeep defaultDepth)) :
    l.grammar.parse name tokens = .ok m := by
  obtain ⟨id, found⟩ := linkedId standard.grammar listed
  exact parseOfReads found (read id (idNamed found)) notCut

theorem markReads {name symbol : String} (listed : (name, symbol) ∈ punctuation) :
    l.grammar.Reads name (.glyph symbol :: rest)
      (some (.terminal name "op" (.glyph symbol), rest)) :=
  readsToken (standard.declaresTerminal (markListed listed)) (by simp [glyphTerminal])

theorem signReads {symbol : String} (listed : symbol ∈ standardOperators.symbols .infixOp) :
    l.grammar.Reads "binop" (.glyph symbol :: rest)
      (some (.terminal "binop" "op" (.glyph symbol), rest)) :=
  readsToken (standard.declaresTerminal
    (by simp [terminals] : glyphTerminal "binop" (standardOperators.symbols .infixOp) ∈ _))
    (by simpa [glyphTerminal] using listed)

def begins : List String := ["ident", "cond-open", "lparen-open", "fnargdef-open"]

def marks : List String :=
  ["ident", "endstmt", "cond-open", "lparen-open", "lparen-close", "fnbody-open", "fnbody-close",
    "fnargdef-open", "fnargdef-close"]

def expressionRules : List String := ["expr", "expr'", "primary", "cond", "group", "params"]

def operandRules : List String :=
  ["stmts", "next-stmt", "expr", "expr'", "primary", "cond", "group", "params", "block"]

theorem expressionsFail (unmarked : ∀ name ∈ begins, l.grammar.Reads name tokens none)
    (unsigned : l.grammar.ReadsArms [bareArm "unop", fieldArm "operand" "expr'"] tokens none) :
    ∀ name ∈ expressionRules, l.grammar.Reads name tokens none := by
  have group : l.grammar.Reads "group" tokens none :=
    soleFails (standard.declaresEnclosure groupEncloses) (unmarked "lparen-open" (by decide))
  have params : l.grammar.Reads "params" tokens none :=
    soleFails (standard.declaresEnclosure paramsEnclose) (unmarked "fnargdef-open" (by decide))
  have cond : l.grammar.Reads "cond" tokens none :=
    soleFails standard.declaresConditional (unmarked "cond-open" (by decide))
  have primary : l.grammar.Reads "primary" tokens none := by
    refine choiceFails standard.declaresPrimary ?_
    simp only [List.forall_mem_cons, List.not_mem_nil, false_imp_iff, implies_true, and_true]
    exact ⟨beginFails params, beginFails cond, beginFails group,
      beginFails (unmarked "ident" (by decide))⟩
  have operand : l.grammar.Reads "expr'" tokens none := by
    refine choiceFails standard.declaresOperand ?_
    simp only [List.forall_mem_cons, List.not_mem_nil, false_imp_iff, implies_true, and_true]
    exact ⟨unsigned, beginFails primary⟩
  have chain : l.grammar.Reads "expr" tokens none :=
    soleFails standard.declaresChain operand
  simp only [expressionRules, List.forall_mem_cons, List.not_mem_nil, false_imp_iff, implies_true,
    and_true]
  exact ⟨chain, operand, primary, cond, group, params⟩

theorem nextUnended (ended : l.grammar.Reads "endstmt" tokens none) :
    l.grammar.Reads "next-stmt" tokens none := by
  refine choiceFails standard.declaresNext ?_
  simp only [List.forall_mem_cons, List.not_mem_nil, false_imp_iff, implies_true, and_true]
  exact ⟨beginFails ended, beginFails ended⟩

theorem operandsFail (unmarked : ∀ name ∈ marks, l.grammar.Reads name tokens none)
    (unsigned : l.grammar.ReadsArms [bareArm "unop", fieldArm "operand" "expr'"] tokens none) :
    ∀ name ∈ operandRules, l.grammar.Reads name tokens none := by
  have marked : ∀ name ∈ begins, name ∈ marks := by decide
  have expressions := standard.expressionsFail (fun name listed => unmarked name (marked name listed)) unsigned
  have block : l.grammar.Reads "block" tokens none :=
    soleFails (standard.declaresEnclosure blockEncloses) (unmarked "fnbody-open" (by decide))
  have statements : l.grammar.Reads "stmts" tokens none :=
    soleFails standard.declaresStatements (expressions "expr" (by decide))
  have next := standard.nextUnended (unmarked "endstmt" (by decide))
  have kinds : ∀ name ∈ operandRules, name ∈ expressionRules ∨ name ∈ ["stmts", "next-stmt", "block"] := by
    decide
  intro name listed
  rcases kinds name listed with expression | other
  · exact expressions name expression
  · simp only [List.mem_cons, List.not_mem_nil, or_false] at other
    rcases other with rfl | rfl | rfl
    · exact statements
    · exact next
    · exact block

end Parlance.Language.StandardParts
