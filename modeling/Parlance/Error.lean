import Parlance.Expr
import Parlance.Operator.Config
import Parlance.Tree.Matching
import Parlance.Value

/-! Errors on the way from a source text to a value. The text of an error names the stage, except for a
configuration, whose errors speak for themselves. -/
namespace Parlance

inductive Error where
  | grammar (e : GrammarError)
  | parse (e : ParseError)
  | resolve (e : ResolveError)
  | eval (e : EvalError)
  | config (e : ConfigError)
  deriving DecidableEq, Repr

def Error.message : Error → String
  | .grammar e => "grammar error: " ++ e.message
  | .parse e => "parse error: " ++ e.message
  | .resolve e => "resolve error: " ++ e.message
  | .eval e => "runtime error: " ++ e.message
  | .config e => e.message

end Parlance
