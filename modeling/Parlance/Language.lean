import Parlance.Error
import Parlance.Evaluator.Run
import Parlance.Evaluator.StandardLibrary
import Parlance.Expr.OfTree
import Parlance.Grammar.Text
import Parlance.Instruction.OfExpr
import Parlance.Language.Standard
import Parlance.Operator.ConfigJson
import Parlance.Operator.Standard
import Parlance.Token.Lexer

/-! Languages. A language is a grammar, a table of operators, and the glyphs that both give rise to; it
takes a source text through tokens, syntax tree, expressions and instructions to a value. -/
namespace Parlance

structure Definition where
  rules : List RuleSpec := standardRules
  operators : OperatorTable := standardOperators
  start : String := standardStart
  sugar : Sugar := .standard

structure Language where
  grammar : Grammar
  operators : OperatorTable
  glyphs : List String
  start : String
  sugar : Sugar

/-- Replaces parts of the standard language by texts. The operators are read before the grammar. -/
def Definition.ofTexts [Json.Library] (operators grammar : Option String) (start : String := standardStart)
    (sugar : Sugar := .standard) : Except Error Definition := do
  let table ← match operators with
    | none => .ok standardOperators
    | some text => (OperatorTable.ofJson text).mapError .config
  let rules ← (RuleSpec.ofGrammarText (grammar.getD standardGrammar)).mapError .grammar
  .ok ⟨rules, table, start, sugar⟩

def Definition.build (d : Definition) : Except Error Language :=
  match Grammar.link d.rules (terminals d.operators) with
  | .error e => .error (.grammar e)
  | .ok grammar => .ok ⟨grammar, d.operators, glyphTable d.operators, d.start, d.sugar⟩

namespace Language

def standard : Except Error Language := Definition.build {}

def tokenize (l : Language) (source : String) : List Token := Parlance.tokenize l.glyphs source

def parse (l : Language) (source : String) : Except Error Tree :=
  (l.grammar.parse l.start (l.tokenize source)).mapError .parse

def lower {H : Type} (l : Language) (m : Tree) : Except ResolveError (List (Instruction H)) := do
  let statements ← Expr.statements l.operators m
  Instruction.ofStatements l.operators l.sugar statements

def compile {H : Type} (l : Language) (source : String) : Except Error (List (Instruction H)) :=
  match l.tokenize source with
  | [] => .ok []
  | t :: tokens => do
    let m ← (l.grammar.parse l.start (t :: tokens)).mapError .parse
    (l.lower m).mapError .resolve

def runIn {H : Type} [Host H] (l : Language) (source : String) (s : Evaluator H) :
    Outcome Error (Evaluator H) (Value H) :=
  match l.compile source with
  | .error e => .error e s
  | .ok program => (Evaluator.eval program s).mapError .eval

def run {H : Type} [Host H] (l : Language) (source : String) :
    Outcome Error (Evaluator H) (Value H) :=
  l.runIn source Evaluator.standard

end Language
end Parlance
