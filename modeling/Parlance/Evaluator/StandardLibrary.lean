import Parlance.Evaluator

/-! The standard functions. Each operator of the standard table calls the function of its name. -/
namespace Parlance

def standardLibrary {H : Type} : List (String × Native H) :=
  [("plus", .arithmetic .add), ("minus", .arithmetic .sub), ("mul", .arithmetic .mul),
   ("div", .arithmetic .div), ("neg", .negate), ("eq", .compare .equal), ("ne", .compare .notEqual),
   ("gt", .compare .greater), ("gte", .compare .greaterOrEqual), ("lt", .compare .less),
   ("lte", .compare .lessOrEqual), ("id", .identity)]

namespace Evaluator

variable {H : Type}

def defineAll : List (String × Native H) → Eval H Unit
  | [] => pure ()
  | (name, n) :: rest => do
    let f ← make (.native n)
    define name f
    defineAll rest

def install : Eval H Unit := defineAll standardLibrary

def standard : Evaluator H :=
  match install (H := H) Evaluator.empty with
  | .value _ s => s
  | .error _ s => s
  | .outOfFuel => .empty

end Evaluator
end Parlance
