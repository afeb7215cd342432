import Parlance.Number.Decimal
import Parlance.Value

/-! Arithmetic and comparison of values. Integers are exact and fail beyond 64 bits, floats follow
binary64, and a mixed operation is done in decimals so that whole results stay integers. -/
namespace Parlance.Operation

variable {H : Type}

def integer (n : Int) : Except EvalError (Value H) :=
  if -(twoTo 63 : Int) ≤ n ∧ n < twoTo 63 then .ok (.integer (Int64.ofInt n)) else .error .integerOverflow

def integers (op : Arithmetic) (a b : Int) : Except EvalError (Value H) :=
  match op with
  | .add => integer (a + b)
  | .sub => integer (a - b)
  | .mul => integer (a * b)
  | .div => if b == 0 then .error .divisionByZero else integer (a.tdiv b)

def floatResult (op : Arithmetic) (a b : Float) : Float :=
  match op with
  | .add => a + b
  | .sub => a - b
  | .mul => a * b
  | .div => a / b

def floats (op : Arithmetic) (a b : Float) : Except EvalError (Value H) :=
  if op == .div && b == 0 then .error .divisionByZero else .ok (.float (floatResult op a b))

def decimalResult (op : Arithmetic) (a b : Decimal) : Option Decimal :=
  match op with
  | .add => a.add b
  | .sub => a.sub b
  | .mul => a.mul b
  | .div => a.div b

def ofDecimal (d : Decimal) : Value H :=
  match d.toInt? with
  | some n =>
    if -(twoTo 63 : Int) ≤ n ∧ n < twoTo 63 then .integer (Int64.ofInt n) else .float d.toFloat
  | none => .float d.toFloat

def mixed (op : Arithmetic) (a b : Option Decimal) (x y : Float) : Except EvalError (Value H) :=
  match a, b with
  | some a, some b =>
    if op == .div && b.digits == 0 then .error .divisionByZero
    else
      match decimalResult op a b with
      | some d => .ok (ofDecimal d)
      | none => floats op x y
  | _, _ => floats op x y

def arithmetic (op : Arithmetic) (a b : Value H) : Except EvalError (Value H) :=
  match a, b with
  | .integer a, .integer b => integers op a.toInt b.toInt
  | .float a, .float b => floats op a b
  | .integer a, .float b =>
    mixed op (some (.ofInt a.toInt)) (Decimal.ofFloat b) (Binary64.ofInt a.toInt) b
  | .float a, .integer b =>
    mixed op (Decimal.ofFloat a) (some (.ofInt b.toInt)) a (Binary64.ofInt b.toInt)
  | a, b => .error (.typeError (.arithmetic op a.kind b.kind))

def negate : Value H → Except EvalError (Value H)
  | .integer n => integer (-n.toInt)
  | .float x => .ok (.float (-x))
  | v => .error (.typeError (.negation v.kind))

def floatOrder (a b : Float) : Option Ordering :=
  if a < b then some .lt else if a == b then some .eq else if b < a then some .gt else none

def order (a b : Value H) : Option Ordering :=
  match a, b with
  | .integer a, .integer b => some (compare a.toInt b.toInt)
  | a, b =>
    match a.asFloat?, b.asFloat? with
    | some x, some y => floatOrder x y
    | _, _ => none

def holds : Comparison → Ordering → Bool
  | .equal, o => o == .eq
  | .notEqual, o => o != .eq
  | .greater, o => o == .gt
  | .greaterOrEqual, o => o != .lt
  | .less, o => o == .lt
  | .lessOrEqual, o => o != .gt

def comparison (op : Comparison) (a b : Value H) : Except EvalError (Value H) :=
  match order a b with
  | some o => .ok (.ofBool (holds op o))
  | none =>
    match op with
    | .equal => .ok (.ofBool (a.same b))
    | .notEqual => .ok (.ofBool (!a.same b))
    | _ => .error (.typeError (.order a.kind b.kind))

end Parlance.Operation
