import Parlance.Operator
import Parlance.Operator.Relation

/-! The table of operators and their precedence. Precedence is declared for groups: the members of a
group can be made equal to each other, and every member of one group higher than every member of
another. -/
namespace Parlance

structure OperatorTable where
  operators : List Operator
  equal : Relation
  higher : Relation
  deriving DecidableEq, Repr

namespace OperatorTable

def empty : OperatorTable := ⟨[], .empty, .empty⟩

def size (t : OperatorTable) : Nat := t.operators.length

def add (t : OperatorTable) (name symbol : String) (category : Category) (assoc : Associativity) :
    OperatorTable :=
  { t with operators := t.operators ++ [⟨t.size, name, symbol, category, assoc, none⟩] }

def addInfix (t : OperatorTable) (name symbol : String) (assoc : Associativity) : OperatorTable :=
  t.add name symbol .infixOp assoc

def addPrefix (t : OperatorTable) (name symbol : String) : OperatorTable :=
  t.add name symbol .prefixOp .right

def addEncloser (t : OperatorTable) (openName openSymbol closeName closeSymbol : String) :
    OperatorTable :=
  { t with operators := t.operators ++
      [⟨t.size, openName, openSymbol, .opener, .nonAssoc, some (t.size + 1)⟩,
       ⟨t.size + 1, closeName, closeSymbol, .closer, .nonAssoc, some t.size⟩] }

def makeEqual (t : OperatorTable) (group : List Nat) : OperatorTable :=
  { t with equal := t.equal.insertAll (Relation.product group group) }

def makeGreater (t : OperatorTable) (group than : List Nat) : OperatorTable :=
  { t with higher := t.higher.insertAll (Relation.product group than) }

def precedence (t : OperatorTable) (a b : Nat) : Precedence :=
  if a == b || t.equal.holds a b then .equal
  else if t.higher.holds a b then .higher
  else if t.higher.holds b a then .lower
  else .undefined

def get? (t : OperatorTable) (id : Nat) : Option Operator := t.operators[id]?

def find? (t : OperatorTable) (symbol : String) (category : Category) : Option Operator :=
  t.operators.find? fun op => op.symbol == symbol && op.category == category

def byName? (t : OperatorTable) (name : String) : Option Operator :=
  t.operators.find? fun op => op.name == name

def symbols (t : OperatorTable) (category : Category) : List String :=
  (t.operators.filter fun op => op.category == category).map Operator.symbol

def closing? (t : OperatorTable) (opener : Operator) : Option Operator :=
  match opener.category, opener.partner with
  | .opener, some id => t.get? id
  | _, _ => none

def enclosers (t : OperatorTable) : List (Operator × Operator) :=
  t.operators.filterMap fun op => (t.closing? op).map fun close => (op, close)

end OperatorTable
end Parlance
