import Parlance.Grammar.Spec
import Parlance.Operator.Table

/-! The rules of the standard language. An `expr'` is a single operand, and an `expr` is a flat chain of
operands, which precedence makes into a tree later on. -/
namespace Parlance

def bareArm (rule : String) : ArmSpec := ⟨rule, rule, .once⟩

def fieldArm (field rule : String) : ArmSpec := ⟨field, rule, .once⟩

def optionalArm (field rule : String) : ArmSpec := ⟨field, rule, .optional⟩

def manyArm (field rule : String) : ArmSpec := ⟨field, rule, .many⟩

def enclosedRule (name opener content closer : String) : RuleSpec :=
  ⟨name, [⟨"enclosed",
    [fieldArm "opener" opener, optionalArm content content, fieldArm "closer" closer]⟩]⟩

def standardRules : List RuleSpec :=
  [⟨"stmts", [⟨"seq", [fieldArm "stmt" "expr", manyArm "rest" "next-stmt"]⟩]⟩,
   ⟨"next-stmt", [⟨"more", [bareArm "endstmt", fieldArm "stmt" "expr"]⟩,
     ⟨"last", [bareArm "endstmt"]⟩]⟩,
   ⟨"expr", [⟨"chain", [fieldArm "head" "expr'", manyArm "link" "link"]⟩]⟩,
   ⟨"link", [⟨"infix", [bareArm "binop", fieldArm "rhs" "expr'"]⟩]⟩,
   ⟨"expr'", [⟨"unop", [bareArm "unop", fieldArm "operand" "expr'"]⟩,
     ⟨"apply", [fieldArm "callee" "primary", manyArm "args" "group"]⟩]⟩,
   ⟨"primary", [⟨"function", [bareArm "params", fieldArm "body" "block"]⟩,
     ⟨"cond", [bareArm "cond"]⟩, ⟨"group", [bareArm "group"]⟩, ⟨"ident", [bareArm "ident"]⟩]⟩,
   enclosedRule "group" "lparen-open" "expr" "lparen-close",
   enclosedRule "params" "fnargdef-open" "expr" "fnargdef-close",
   enclosedRule "block" "fnbody-open" "stmts" "fnbody-close",
   ⟨"cond", [⟨"chain", [fieldArm "open" "cond-open", optionalArm "scrutinee" "expr",
     bareArm "arm", manyArm "arm" "arm"]⟩]⟩,
   ⟨"arm", [⟨"arm", [fieldArm "sep" "arm-sep", fieldArm "guard" "arm-guard", bareArm "arrow",
     fieldArm "body" "block"]⟩]⟩,
   ⟨"arm-guard", [⟨"catch-all", [bareArm "ellipsis"]⟩,
     ⟨"left", [bareArm "binop", fieldArm "rhs" "expr"]⟩,
     ⟨"test", [bareArm "expr", optionalArm "op" "binop"]⟩]⟩]

def standardGrammar : String := "
# statements
stmts === seq ==> stmt:::expr rest:::next-stmt*
next-stmt === more ==> endstmt stmt:::expr ||| last ==> endstmt

# expressions
expr === chain ==> head:::expr' link*
link === infix ==> binop rhs:::expr'
expr' === unop ==> unop operand:::expr' ||| apply ==> callee:::primary args:::group*
primary === function ==> params body:::block ||| cond ||| group ||| ident

# enclosers
group === enclosed ==> opener:::lparen-open expr? closer:::lparen-close
params === enclosed ==> opener:::fnargdef-open expr? closer:::fnargdef-close
block === enclosed ==> opener:::fnbody-open stmts? closer:::fnbody-close

# conditional chains
cond === chain ==> open:::cond-open scrutinee:::expr? arm arm*
arm === arm ==> sep:::arm-sep guard:::arm-guard arrow body:::block
arm-guard === catch-all ==> ellipsis ||| left ==> binop rhs:::expr ||| test ==> expr op:::binop?
"

def standardStart : String := "stmts"

def punctuation : List (String × String) :=
  [("endstmt", ";"), ("cond-open", "?"), ("arm-sep", "|"), ("arrow", "=>"), ("ellipsis", "...")]

def glyphTerminal (name : String) (symbols : List String) : TerminalSpec :=
  ⟨name, "op", fun t =>
    match t with
    | .glyph s => symbols.contains s
    | .text _ => false⟩

def encloserTerminals (pair : Operator × Operator) : List TerminalSpec :=
  [glyphTerminal (pair.1.name ++ "-open") [pair.1.symbol],
   glyphTerminal (pair.1.name ++ "-close") [pair.2.symbol]]

def terminals (t : OperatorTable) : List TerminalSpec :=
  [⟨"ident", "ident", Token.isText⟩,
   glyphTerminal "unop" (t.symbols .prefixOp),
   glyphTerminal "binop" (t.symbols .infixOp)] ++
  punctuation.map (fun entry => glyphTerminal entry.1 [entry.2]) ++
  t.enclosers.flatMap encloserTerminals

def insertGlyph (g : String) : List String → List String
  | [] => [g]
  | h :: hs => if g < h then g :: h :: hs else if g == h then h :: hs else h :: insertGlyph g hs

def glyphTable (t : OperatorTable) : List String :=
  (t.operators.map Operator.symbol ++ punctuation.map Prod.snd).foldr insertGlyph []

end Parlance
