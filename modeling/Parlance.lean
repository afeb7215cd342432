import Parlance.Main
import Parlance.Proofs.Sequence
import Parlance.Proofs.Text.Words
import Parlance.Proofs.Text.Split
import Parlance.Proofs.Token.Hidden
import Parlance.Proofs.Token.Canonical
import Parlance.Proofs.Token.Lines
import Parlance.Proofs.Token.Longest
import Parlance.Proofs.Token.Counted
import Parlance.Proofs.Grammar.Lines
import Parlance.Proofs.Grammar.Linked
import Parlance.Proofs.Grammar.Linking
import Parlance.Proofs.Grammar.Derivation
import Parlance.Proofs.Grammar.Renaming
import Parlance.Proofs.Operator.Built
import Parlance.Proofs.Operator.Declared
import Parlance.Proofs.Operator.Configured
import Parlance.Proofs.Operator.Antisymmetric
import Parlance.Proofs.Json.Lawful
import Parlance.Proofs.Json.Written
import Parlance.Proofs.Json.Strict
import Parlance.Proofs.Operator.ConfigJson
import Parlance.Proofs.Matching.Conservation
import Parlance.Proofs.Matching.OrderedChoice
import Parlance.Proofs.Matching.Parts
import Parlance.Proofs.Matching.Named
import Parlance.Proofs.Matching.Following
import Parlance.Proofs.Matching.Taken
import Parlance.Proofs.Matching.Within
import Parlance.Proofs.Matching.Limit
import Parlance.Proofs.Matching.Halting
import Parlance.Proofs.Chain.Admissible
import Parlance.Proofs.Chain.Related
import Parlance.Proofs.Chain.Levels
import Parlance.Proofs.Chain.Separated
import Parlance.Proofs.Expr.Written
import Parlance.Proofs.Expr.Resolution
import Parlance.Proofs.Expr.Tokens
import Parlance.Proofs.Language.Shapes
import Parlance.Proofs.Expr.Faithful
import Parlance.Proofs.Instruction.Code
import Parlance.Proofs.Instruction.Lowering
import Parlance.Proofs.Instruction.Nesting
import Parlance.Proofs.Instruction.Placed
import Parlance.Proofs.Instruction.Parameters
import Parlance.Proofs.Language.Standard
import Parlance.Proofs.Language.Rules
import Parlance.Proofs.Language.Terminals
import Parlance.Proofs.Language.Continuation
import Parlance.Proofs.Language.Unambiguous
import Parlance.Proofs.Language.Openings
import Parlance.Proofs.Language.Flat
import Parlance.Proofs.Language.Numerals
import Parlance.Proofs.Language.Lasting
import Parlance.Proofs.Language.Concatenation
import Parlance.Proofs.Language.Session
import Parlance.Proofs.Language.Configured
import Parlance.Proofs.Language.Total
import Parlance.Proofs.Evaluator.Entries
import Parlance.Proofs.Evaluator.Layers
import Parlance.Proofs.Evaluator.Alike
import Parlance.Proofs.Evaluator.Calls
import Parlance.Proofs.Evaluator.Agree
import Parlance.Proofs.Evaluator.Frames
import Parlance.Proofs.Evaluator.Library
import Parlance.Proofs.Evaluator.Extensional
import Parlance.Proofs.Evaluator.Halting
import Parlance.Proofs.Evaluator.Arguments
import Parlance.Proofs.Conditional.Reading
import Parlance.Proofs.Conditional.Hygiene
import Parlance.Proofs.Language.Hygiene
import Parlance.Proofs.Conditional.Meaning
import Parlance.Proofs.Conditional.Guards
import Parlance.Proofs.Arithmetic.TwoLevels
import Parlance.Proofs.Arithmetic.Programs
import Parlance.Proofs.Arithmetic.Evaluation
import Parlance.Proofs.Arithmetic.Printed
import Parlance.Proofs.Evaluator.Matched
import Parlance.Proofs.Evaluator.Tandem
import Parlance.Proofs.Evaluator.Limit
import Parlance.Proofs.Evaluator.Isolation
import Parlance.Proofs.Evaluator.Positional
import Parlance.Proofs.Instruction.Ungrouped
import Parlance.Proofs.Expr.Grouped
import Parlance.Proofs.Language.Groups
