/-! Operators. An operator is told apart by its id, its position in the table; operators are passed
around as values that carry all that the stages after the parser need to know. -/
namespace Parlance

inductive Category where
  | prefixOp
  | infixOp
  | opener
  | closer
  deriving DecidableEq, Repr, Inhabited

def Category.name : Category → String
  | .prefixOp => "prefix"
  | .infixOp => "infix"
  | .opener => "opener"
  | .closer => "closer"

inductive Associativity where
  | left
  | right
  | nonAssoc
  deriving DecidableEq, Repr, Inhabited

def Associativity.name : Associativity → String
  | .left => "left"
  | .right => "right"
  | .nonAssoc => "non-assoc"

inductive Precedence where
  | equal
  | lower
  | higher
  | undefined
  deriving DecidableEq, Repr

structure Operator where
  id : Nat
  name : String
  symbol : String
  category : Category
  assoc : Associativity
  partner : Option Nat
  deriving DecidableEq, Repr, Inhabited

def Operator.isEncloser (op : Operator) : Bool :=
  match op.category with
  | .opener | .closer => true
  | .prefixOp | .infixOp => false

end Parlance
