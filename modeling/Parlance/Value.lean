import Parlance.Instruction
import Parlance.Number.Shortest

/-! Values. A function carries an identity beside its definition, and is equal only to itself. -/
namespace Parlance

inductive Function (H : Type) where
  | user (params : List String) (body : List (Instruction H))
  | native (native : Native H)

inductive Value (H : Type) where
  | nil
  | integer (n : Int64)
  | float (x : Float)
  | function (id : Nat) (f : Function H)

instance {H : Type} : Inhabited (Value H) := ⟨.nil⟩

inductive Kind where
  | nil
  | integer
  | float
  | function
  deriving DecidableEq, Repr

def Kind.name : Kind → String
  | .nil => "nil"
  | .integer => "integer"
  | .float => "float"
  | .function => "function"

inductive TypeFault where
  | arithmetic (op : Arithmetic) (lhs rhs : Kind)
  | negation (operand : Kind)
  | order (lhs rhs : Kind)
  | host (complaint : String)
  deriving DecidableEq, Repr

def TypeFault.message : TypeFault → String
  | .arithmetic op lhs rhs => "Cannot " ++ op.verb ++ " " ++ lhs.name ++ " and " ++ rhs.name
  | .negation operand => "Cannot negate " ++ operand.name
  | .order lhs rhs => "Cannot order " ++ lhs.name ++ " and " ++ rhs.name
  | .host complaint => complaint

inductive EvalError where
  | unboundName (name : String)
  | arity (callee : String) (expected found : Nat)
  | notCallable (kind : Kind)
  | typeError (fault : TypeFault)
  | divisionByZero
  | integerOverflow
  | callDepthExceeded (limit : Nat)
  deriving DecidableEq, Repr

def EvalError.message : EvalError → String
  | .unboundName name => "unbound name '" ++ name ++ "'"
  | .arity callee expected found =>
    callee ++ " expects " ++ toString expected ++ " argument(s), got " ++ toString found
  | .notCallable kind => "cannot call a value of type " ++ kind.name
  | .typeError fault => "type error: " ++ fault.message
  | .divisionByZero => "division by zero"
  | .integerOverflow => "integer overflow"
  | .callDepthExceeded limit => "call depth limit of " ++ toString limit ++ " exceeded"

/-- What a native of a host does, one request to the evaluator after the other. A request that fails
ends the script. -/
inductive Script (H : Type) where
  | done (v : Value H)
  | fail (e : EvalError)
  | call (f : Value H) (args : List (Value H)) (next : Value H → Script H)
  | lookup (name : String) (next : Value H → Script H)
  | define (name : String) (v : Value H) (next : Script H)
  | assign (name : String) (v : Value H) (next : Script H)
  | frameCount (next : Nat → Script H)

class Host (H : Type) where
  params : H → List String
  run : H → List (Value H) → Script H

instance : Host Empty := ⟨nofun, nofun⟩

def Native.params {H : Type} [Host H] : Native H → List String
  | .arithmetic _ => ["lhs", "rhs"]
  | .negate => ["operand"]
  | .compare _ => ["lhs", "rhs"]
  | .identity => ["value"]
  | .group => ["?value"]
  | .branch => ["?guard", "?then", "?else"]
  | .host h => Host.params h

namespace Function

variable {H : Type} [Host H]

def params : Function H → List String
  | .user params _ => params
  | .native n => n.params

def arity (f : Function H) : Nat := f.params.length

def label : Function H → String
  | .user _ _ => "fn"
  | .native _ => "native"

end Function

namespace Value

variable {H : Type}

def ofLiteral : Literal → Value H
  | .nil => .nil
  | .integer n => .integer n
  | .float x => .float x

def ofBool (b : Bool) : Value H := .integer (if b then 1 else 0)

def kind : Value H → Kind
  | .nil => .nil
  | .integer _ => .integer
  | .float _ => .float
  | .function _ _ => .function

def isTruthy : Value H → Bool
  | .nil => false
  | .integer n => n != 0
  | .float x => x != 0
  | .function _ _ => true

def asInt? : Value H → Option Int64
  | .integer n => some n
  | _ => none

def asFloat? : Value H → Option Float
  | .integer n => some (Binary64.ofInt n.toInt)
  | .float x => some x
  | _ => none

def asFunction? : Value H → Option (Function H)
  | .function _ f => some f
  | _ => none

/-- Equality of values. Kinds do not mix, and floats compare as floats do. -/
def same : Value H → Value H → Bool
  | .nil, .nil => true
  | .integer a, .integer b => a == b
  | .float a, .float b => a == b
  | .function a _, .function b _ => a == b
  | _, _ => false

def render [Host H] : Value H → String
  | .nil => "nil"
  | .integer n => toString n.toInt
  | .float x => Shortest.ofFloat x
  | .function _ f => "<" ++ f.label ++ " [" ++ String.intercalate ", " f.params ++ "]>"

end Value
end Parlance
