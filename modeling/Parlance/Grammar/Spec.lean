import Parlance.Text.Split
import Parlance.Text.Blank
import Parlance.Token

/-! Rules as they are declared. A composite rule has ordered branches of arms that name their targets;
a terminal rule takes one token that its test accepts. -/
namespace Parlance

inductive Repetition where
  | once
  | optional
  | many
  deriving DecidableEq, Repr, Inhabited

structure ArmSpec where
  field : String
  rule : String
  times : Repetition
  deriving DecidableEq, Repr, Inhabited

structure BranchSpec where
  name : String
  arms : List ArmSpec
  deriving DecidableEq, Repr, Inhabited

structure RuleSpec where
  name : String
  branches : List BranchSpec
  deriving DecidableEq, Repr, Inhabited

structure Detector where
  field : String
  accepts : Token → Bool

structure TerminalSpec where
  name : String
  detector : Detector

inductive LineFault where
  | noRuleMark
  | ruleName (name : String)
  | unnamedBranch (rule : String)
  | malformedArm (arm : String)
  deriving DecidableEq, Repr

def LineFault.message : LineFault → String
  | .noRuleMark => "expected '===' after the rule name"
  | .ruleName name => "invalid rule name '" ++ name ++ "'"
  | .unnamedBranch rule => "rule '" ++ rule ++ "' has an unnamed branch"
  | .malformedArm arm => "malformed arm '" ++ arm ++ "'"

inductive GrammarError where
  | syntaxFault (line : Nat) (fault : LineFault)
  | duplicateRule (name : String)
  | undefinedRule (rule branch target : String)
  deriving DecidableEq, Repr

def GrammarError.message : GrammarError → String
  | .syntaxFault line fault => "grammar line " ++ toString line ++ ": " ++ fault.message
  | .duplicateRule name => "rule '" ++ name ++ "' is defined more than once"
  | .undefinedRule rule branch target =>
    "rule '" ++ rule ++ "' (branch '" ++ branch ++ "') references undefined rule '" ++ target ++ "'"

end Parlance
