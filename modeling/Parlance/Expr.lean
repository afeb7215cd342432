import Parlance.Operator

/-! Expressions. Chains of operators are already trees, and every operator sign is bound to its entry in
the table; what a name or an encloser means is not decided yet. -/
namespace Parlance

inductive Guard (ε : Type) where
  | catchAll
  | test (condition : ε)
  deriving Repr

structure CondArm (ε : Type) where
  guard : Guard ε
  body : ε
  deriving Repr

inductive Expr where
  | ident (text : String)
  /-- The scrutinee of the conditional chain around, where a guard leaves an operand out. -/
  | capture
  | binary (op : Operator) (lhs rhs : Expr)
  | unary (op : Operator) (operand : Expr)
  | enclosed (op : Operator) (body : List Expr)
  | group (args : Expr)
  | call (callee args : Expr)
  | function (params body : Expr)
  | conditional (scrutinee : Option Expr) (arms : List (CondArm Expr))
  deriving Repr, Inhabited

inductive ResolveError where
  | precedenceConflict (left right : String)
  | nonAssociative (operator : String)
  | unknownOperator (symbol : String) (category : Category)
  | unexpectedNode (tag : String)
  | missingField (tag field : String)
  | malformedChain
  | mismatchedEncloser (opener found : String)
  | misplacedEncloser (operator : String)
  | invalidAssignTarget
  | invalidParameter
  | straySeparator
  | missingScrutinee
  | invalidLiteral (text : String)
  | tooDeep (limit : Nat)
  deriving DecidableEq, Repr

def ResolveError.message : ResolveError → String
  | .precedenceConflict left right =>
    "no precedence defined between '" ++ left ++ "' and '" ++ right ++ "'"
  | .nonAssociative operator =>
    "operator '" ++ operator ++ "' is non-associative and cannot be chained"
  | .unknownOperator symbol category =>
    "no " ++ category.name ++ " operator with symbol '" ++ symbol ++ "'"
  | .unexpectedNode tag => "unexpected syntax node '" ++ tag ++ "'"
  | .missingField tag field => "syntax node '" ++ tag ++ "' has no field '" ++ field ++ "'"
  | .malformedChain => "operator chain is malformed"
  | .mismatchedEncloser opener found =>
    "closing '" ++ found ++ "' does not match opening '" ++ opener ++ "'"
  | .misplacedEncloser operator => "'" ++ operator ++ "' cannot enclose this expression"
  | .invalidAssignTarget => "left side of an assignment must be a name"
  | .invalidParameter => "function parameters must be plain names"
  | .straySeparator => "argument separator outside of an argument or parameter list"
  | .missingScrutinee => "partial guard in a conditional chain that has no scrutinee"
  | .invalidLiteral text => "literal '" ++ text ++ "' is out of range"
  | .tooDeep limit => "expression nests deeper than " ++ toString limit ++ " levels"

def maxNesting : Nat := 256

end Parlance
