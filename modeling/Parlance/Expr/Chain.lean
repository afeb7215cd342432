import Parlance.Expr
import Parlance.Operator.Table

/-! Chains of operators and the trees they stand for. A chain is read from the left with a stack of
operators that still wait for their right operand; two neighbours that no precedence relates, or that
may not be chained, make the chain meaningless. Operands are left alone. -/
namespace Parlance

inductive OperatorTree (α : Type) where
  | operand (x : α)
  | node (op : Operator) (lhs rhs : OperatorTree α)
  deriving Repr

namespace OperatorTree

variable {α : Type}

def height : OperatorTree α → Nat
  | .operand _ => 0
  | .node _ lhs rhs => max lhs.height rhs.height + 1

def operands : OperatorTree α → List α
  | .operand x => [x]
  | .node _ lhs rhs => lhs.operands ++ rhs.operands

def operators : OperatorTree α → List Operator
  | .operand _ => []
  | .node op lhs rhs => lhs.operators ++ op :: rhs.operators

def toExpr : OperatorTree Expr → Expr
  | .operand x => x
  | .node op lhs rhs => .binary op lhs.toExpr rhs.toExpr

end OperatorTree

namespace Chain

variable {α : Type}

def closesBefore (t : OperatorTable) (left next : Operator) : Except ResolveError Bool :=
  match t.precedence left.id next.id with
  | .higher => .ok true
  | .lower => .ok false
  | .equal =>
    match next.assoc with
    | .left => .ok true
    | .right => .ok false
    | .nonAssoc => .error (.nonAssociative next.symbol)
  | .undefined => .error (.precedenceConflict left.symbol next.symbol)

abbrev Pending (α : Type) := List (OperatorTree α × Operator)

def settle (t : OperatorTable) (next : Operator) :
    Pending α → OperatorTree α → Except ResolveError (Pending α × OperatorTree α)
  | [], right => .ok ([], right)
  | (left, op) :: pending, right =>
    match closesBefore t op next with
    | .error e => .error e
    | .ok true => settle t next pending (.node op left right)
    | .ok false => .ok ((left, op) :: pending, right)

def close : Pending α → OperatorTree α → OperatorTree α
  | [], right => right
  | (left, op) :: pending, right => close pending (.node op left right)

def arrangeFrom (t : OperatorTable) :
    Pending α → OperatorTree α → List (Operator × α) → Except ResolveError (OperatorTree α)
  | pending, right, [] => .ok (close pending right)
  | pending, right, (op, x) :: links =>
    match settle t op pending right with
    | .error e => .error e
    | .ok (pending, left) => arrangeFrom t ((left, op) :: pending) (.operand x) links

def arrange (t : OperatorTable) (first : α) (links : List (Operator × α)) :
    Except ResolveError (OperatorTree α) :=
  arrangeFrom t [] (.operand first) links

end Chain

def reassociate (t : OperatorTable) (operands : List Expr) (ops : List Operator) :
    Except ResolveError Expr :=
  match operands with
  | [] => .error .malformedChain
  | first :: rest =>
    if rest.length == ops.length then do
      let tree ← Chain.arrange t first (ops.zip rest)
      if tree.height > maxNesting then .error (.tooDeep maxNesting) else .ok tree.toExpr
    else .error .malformedChain

end Parlance
