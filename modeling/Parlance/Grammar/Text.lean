import Parlance.Grammar.Spec
import Parlance.Sequence

/-! Grammar text, one composite rule a line:

    name === branch ==> arm arm ... ||| branch ==> field:::rule ...

A branch without `==>` is its own arm list. An arm that names no field is recorded under the name of
its rule. Blank lines and lines that begin with `#` are skipped. -/
namespace Parlance

def ruleMark : List Char := ['=', '=', '=']

def branchMark : List Char := ['|', '|', '|']

def armsMark : List Char := ['=', '=', '>']

def fieldMark : List Char := [':', ':', ':']

def Repetition.ofArm (arm : List Char) : List Char × Repetition :=
  match arm.getLast? with
  | some '*' => (arm.dropLast, .many)
  | some '?' => (arm.dropLast, .optional)
  | _ => (arm, .once)

def ArmSpec.ofText (arm : List Char) : Except LineFault ArmSpec :=
  let (target, times) := Repetition.ofArm arm
  let (field, rule) := (Text.splitOnce fieldMark target).getD (target, target)
  if field.isEmpty || rule.isEmpty then .error (.malformedArm (String.ofList arm))
  else .ok ⟨String.ofList field, String.ofList rule, times⟩

def BranchSpec.ofText (rule : String) (branch : List Char) : Except LineFault BranchSpec := do
  let (name, arms) := (Text.splitOnce armsMark branch).getD (branch, branch)
  let name := Text.trim name
  if name.isEmpty then .error (.unnamedBranch rule)
  let arms ← traverse ArmSpec.ofText (Text.words arms)
  .ok ⟨String.ofList name, arms⟩

def RuleSpec.ofLine (line : List Char) : Except LineFault RuleSpec :=
  match Text.splitOnce ruleMark line with
  | none => .error .noRuleMark
  | some (name, body) => do
    let name := Text.trim name
    if name.isEmpty || name.any Text.isBlank then .error (.ruleName (String.ofList name))
    let branches ← traverse (BranchSpec.ofText (String.ofList name)) (Text.split branchMark body)
    .ok ⟨String.ofList name, branches⟩

def RuleSpec.ofNumberedLine (number : Nat) (line : List Char) : Except GrammarError RuleSpec :=
  (RuleSpec.ofLine line).mapError (.syntaxFault number)

def RuleSpec.ofLines : Nat → List (List Char) → Except GrammarError (List RuleSpec)
  | _, [] => .ok []
  | number, line :: lines =>
    match Text.trim line with
    | [] | '#' :: _ => ofLines (number + 1) lines
    | content => do
      let spec ← ofNumberedLine number content
      let specs ← ofLines (number + 1) lines
      .ok (spec :: specs)

def RuleSpec.ofGrammarText (text : String) : Except GrammarError (List RuleSpec) :=
  ofLines 1 (Text.split ['\n'] text.toList)

end Parlance
