/-! Instructions, the small language that programs are lowered to. A call names its callee, or carries
the function it calls. Natives are named by what they do; `H` is the type of those that a host adds. -/
namespace Parlance

inductive Arithmetic where
  | add
  | sub
  | mul
  | div
  deriving DecidableEq, Repr

def Arithmetic.verb : Arithmetic → String
  | .add => "add"
  | .sub => "subtract"
  | .mul => "multiply"
  | .div => "divide"

inductive Comparison where
  | equal
  | notEqual
  | greater
  | greaterOrEqual
  | less
  | lessOrEqual
  deriving DecidableEq, Repr

inductive Native (H : Type) where
  | arithmetic (op : Arithmetic)
  | negate
  | compare (op : Comparison)
  | identity
  | group
  | branch
  | host (h : H)
  deriving DecidableEq, Repr

inductive Literal where
  | nil
  | integer (n : Int64)
  | float (x : Float)
  deriving DecidableEq, Repr, Inhabited

inductive Instruction (H : Type) where
  | literal (value : Literal)
  | lookup (name : String)
  | assign (name : String) (value : Instruction H)
  | function (params : List String) (body : List (Instruction H))
  | call (name : String) (args : List (Instruction H))
  | callFunction (params : List String) (body args : List (Instruction H))
  | callNative (native : Native H) (args : List (Instruction H))
  deriving Repr

instance {H : Type} : Inhabited (Instruction H) := ⟨.literal .nil⟩

end Parlance
