import Parlance.Operator.Table
import Parlance.Sequence

/-! Operator tables as a host declares them. Operators come first, then enclosers; relations refer to
either by name, and the names have to be distinct. -/
namespace Parlance

inductive Fixity where
  | infixOp
  | prefixOp
  deriving DecidableEq, Repr, Inhabited

structure OperatorEntry where
  name : String
  symbol : String
  category : Fixity
  /-- An infix operator without one is left associative; a prefix operator ignores it. -/
  assoc : Option Associativity
  deriving DecidableEq, Repr

structure NamedSymbol where
  name : String
  symbol : String
  deriving DecidableEq, Repr

structure EncloserEntry where
  opening : NamedSymbol
  closing : NamedSymbol
  deriving DecidableEq, Repr

structure GreaterEntry where
  group : List String
  than : List String
  deriving DecidableEq, Repr

structure OperatorConfig where
  operators : List OperatorEntry
  enclosers : List EncloserEntry
  equal : List (List String)
  greater : List GreaterEntry
  deriving DecidableEq, Repr

inductive ConfigError where
  | json
  | duplicateOperator (name : String)
  | unknownOperator (name : String)
  deriving DecidableEq, Repr

def ConfigError.message : ConfigError → String
  | .json => "invalid operator configuration"
  | .duplicateOperator name => "operator '" ++ name ++ "' is defined more than once"
  | .unknownOperator name => "relation references unknown operator '" ++ name ++ "'"

namespace OperatorConfig

def names (c : OperatorConfig) : List String :=
  c.operators.map OperatorEntry.name ++
    c.enclosers.flatMap fun pair => [pair.opening.name, pair.closing.name]

def addEntry (t : OperatorTable) (entry : OperatorEntry) : OperatorTable :=
  match entry.category with
  | .infixOp => t.addInfix entry.name entry.symbol (entry.assoc.getD .left)
  | .prefixOp => t.addPrefix entry.name entry.symbol

def addPair (t : OperatorTable) (pair : EncloserEntry) : OperatorTable :=
  t.addEncloser pair.opening.name pair.opening.symbol pair.closing.name pair.closing.symbol

def unrelated (c : OperatorConfig) : OperatorTable :=
  c.enclosers.foldl addPair (c.operators.foldl addEntry .empty)

def resolveName (t : OperatorTable) (name : String) : Except ConfigError Nat :=
  match t.byName? name with
  | some op => .ok op.id
  | none => .error (.unknownOperator name)

def relateEqual : List (List String) → OperatorTable → Except ConfigError OperatorTable
  | [], t => .ok t
  | group :: groups, t => do
    let ids ← traverse (resolveName t) group
    relateEqual groups (t.makeEqual ids)

def relateGreater : List GreaterEntry → OperatorTable → Except ConfigError OperatorTable
  | [], t => .ok t
  | entry :: entries, t => do
    let group ← traverse (resolveName t) entry.group
    let than ← traverse (resolveName t) entry.than
    relateGreater entries (t.makeGreater group than)

def toTable (c : OperatorConfig) : Except ConfigError OperatorTable :=
  match firstRepeated c.names with
  | some name => .error (.duplicateOperator name)
  | none => do
    let t ← relateEqual c.equal c.unrelated
    relateGreater c.greater t

end OperatorConfig
end Parlance
