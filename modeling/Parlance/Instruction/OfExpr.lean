import Parlance.Expr
import Parlance.Instruction
import Parlance.Number.Binary64
import Parlance.Operator.Table
import Parlance.Sequence

/-! Lowering expressions to instructions. An operator becomes a call of the function of its name, except
for the two that assign and separate. A group becomes a call of the native that hands its value on. A
callee that is no plain name is bound to a name first, and so is the scrutinee of a conditional chain;
a chain becomes nested calls of the branching native. -/
namespace Parlance

structure Sugar where
  assign : String
  separator : String
  group : String
  params : String
  block : String
  deriving DecidableEq, Repr

def Sugar.standard : Sugar := ⟨"ass", "comma", "lparen", "fnargdef", "fnbody"⟩

structure Roles where
  assign : Option Operator
  separator : Option Operator
  group : Option Operator
  params : Option Operator
  block : Option Operator
  deriving DecidableEq, Repr

def Sugar.roles (s : Sugar) (t : OperatorTable) : Roles where
  assign := t.byName? s.assign
  separator := t.byName? s.separator
  group := t.byName? s.group
  params := t.byName? s.params
  block := t.byName? s.block

namespace Lower

/-- The name of the scrutinee. No source text can hold it as a name, since `?` is a glyph. -/
def scrutineeName : String := "?it"

def calleeName : String := "?callee"

def digitsValue (digits : List Char) : Nat :=
  digits.foldl (fun n c => 10 * n + (c.toNat - '0'.toNat)) 0

inductive Word where
  | literal (value : Literal)
  | name
  | outOfRange
  deriving DecidableEq, Repr

def classify (text : String) : Word :=
  if text == "nil" then .literal .nil
  else
    let digits := text.toList.takeWhile Char.isDigit
    match text.toList.dropWhile Char.isDigit with
    | [] =>
      if digits.isEmpty then .name
      else if digitsValue digits < twoTo 63 then .literal (.integer (Int64.ofNat (digitsValue digits)))
      else .outOfRange
    | '.' :: fraction =>
      if !fraction.isEmpty && fraction.all Char.isDigit then
        .literal (.float (Binary64.ofRatio (digitsValue (digits ++ fraction)) (tenTo fraction.length)))
      else .name
    | _ => .name

def isName (text : String) : Bool := classify text == .name

def separated (separator : Option Operator) : Expr → List Expr
  | .binary op lhs rhs =>
    if separator == some op then separated separator lhs ++ separated separator rhs
    else [.binary op lhs rhs]
  | e => [e]

def enclosedBy (role : Option Operator) : Expr → Except ResolveError (List Expr)
  | .enclosed op body => if role == some op then .ok body else .error (.misplacedEncloser op.symbol)
  | _ => .error (.unexpectedNode "enclosed")

def parameter : Expr → Except ResolveError String
  | .ident name => if isName name then .ok name else .error .invalidParameter
  | _ => .error .invalidParameter

def parameters (r : Roles) (params : Expr) : Except ResolveError (List String) := do
  let items ← enclosedBy r.params params
  traverse parameter (items.flatMap (separated r.separator))

section

variable {H : Type}

variable (step : Bool → Expr → Except ResolveError (Instruction H))

def arguments (r : Roles) (captured : Bool) (args : Expr) :
    Except ResolveError (List (Instruction H)) := do
  let items ← enclosedBy r.group args
  traverse (step captured) (items.flatMap (separated r.separator))

def block (r : Roles) (body : Expr) : Except ResolveError (List (Instruction H)) := do
  let items ← enclosedBy r.block body
  traverse (step false) items

/-- The arms of a chain as nested branches. Arms after one that is always taken are dropped. -/
def cascade (r : Roles) (captured : Bool) :
    List (CondArm Expr) → Except ResolveError (Instruction H)
  | [] => .ok (.literal .nil)
  | arm :: rest => do
    let body ← block step r arm.body
    match arm.guard with
    | .catchAll => .ok (.callFunction [] body [])
    | .test condition => do
      let otherwise ← cascade r captured rest
      let guard ← step captured condition
      .ok (.callNative .branch [guard, .function [] body, .function [] [otherwise]])

def conditional (r : Roles) (captured : Bool) (scrutinee : Option Expr)
    (arms : List (CondArm Expr)) : Except ResolveError (Instruction H) :=
  match scrutinee with
  | none => cascade step r false arms
  | some e => do
    let body ← cascade step r true arms
    let value ← step captured e
    .ok (.callFunction [scrutineeName] [body] [value])

def assignment (captured : Bool) (target value : Expr) : Except ResolveError (Instruction H) :=
  match target with
  | .ident name =>
    if isName name then do
      let value ← step captured value
      .ok (.assign name value)
    else .error .invalidAssignTarget
  | _ => .error .invalidAssignTarget

/-- A computed callee is the argument of a function that calls its parameter. -/
def computedCall (captured : Bool) (callee : Expr) (args : List (Instruction H)) :
    Except ResolveError (Instruction H) := do
  let callee ← step captured callee
  .ok (.callFunction [calleeName] [.call calleeName args] [callee])

def lowerWith (r : Roles) (captured : Bool) : Expr → Except ResolveError (Instruction H)
  | .ident text =>
    match classify text with
    | .literal value => .ok (.literal value)
    | .name => .ok (.lookup text)
    | .outOfRange => .error (.invalidLiteral text)
  | .capture => if captured then .ok (.lookup scrutineeName) else .error .missingScrutinee
  | .binary op lhs rhs =>
    if r.assign == some op then assignment step captured lhs rhs
    else if r.separator == some op then .error .straySeparator
    else do
      let lhs ← step captured lhs
      let rhs ← step captured rhs
      .ok (.call op.name [lhs, rhs])
  | .unary op operand => do
    let operand ← step captured operand
    .ok (.call op.name [operand])
  | .enclosed op _ => .error (.misplacedEncloser op.symbol)
  | .group args => do
    let args ← arguments step r captured args
    .ok (.callNative .group args)
  | .call callee args => do
    let args ← arguments step r captured args
    match callee with
    | .ident name =>
      if isName name then .ok (.call name args) else computedCall step captured callee args
    | _ => computedCall step captured callee args
  | .function params body => do
    let params ← parameters r params
    let body ← block step r body
    .ok (.function params body)
  | .conditional scrutinee arms =>
    if arms.length > maxNesting then .error (.tooDeep maxNesting)
    else conditional step r captured scrutinee arms

end

def lowerAt {H : Type} (r : Roles) : Nat → Bool → Expr → Except ResolveError (Instruction H)
  | 0, _, _ => .error (.tooDeep maxNesting)
  | levels + 1, captured, e => lowerWith (lowerAt r levels) r captured e

end Lower

def Instruction.ofStatements {H : Type} (t : OperatorTable) (sugar : Sugar) (statements : List Expr) :
    Except ResolveError (List (Instruction H)) :=
  traverse (Lower.lowerAt (sugar.roles t) maxNesting false) statements

end Parlance
