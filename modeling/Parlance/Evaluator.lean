import Parlance.Value

/-! The state of an evaluation. Names are bound in a stack of frames, innermost first; a name is looked
up through all of them, so a function sees the names of its caller. -/
namespace Parlance

abbrev Frame (H : Type) := List (String × Value H)

namespace Frame

variable {H : Type}

def binds (f : Frame H) (name : String) : Bool := f.any fun entry => entry.1 == name

def bind (name : String) (v : Value H) : Frame H → Frame H
  | [] => [(name, v)]
  | (other, w) :: rest => if other == name then (name, v) :: rest else (other, w) :: bind name v rest

def bindAll : List String → List (Value H) → Frame H → Frame H
  | name :: names, v :: vs, f => bindAll names vs (bind name v f)
  | _, _, f => f

end Frame

structure Evaluator (H : Type) where
  frames : List (Frame H)
  depth : Nat
  maxDepth : Nat
  nextId : Nat

inductive Outcome (ε σ α : Type) where
  | value (a : α) (after : σ)
  | error (e : ε) (after : σ)
  /-- The bound on steps was reached, which says nothing about the computation. -/
  | outOfFuel

def Outcome.mapError {ε δ σ α : Type} (f : ε → δ) : Outcome ε σ α → Outcome δ σ α
  | .value a s => .value a s
  | .error e s => .error (f e) s
  | .outOfFuel => .outOfFuel

def Eval (H α : Type) : Type := Evaluator H → Outcome EvalError (Evaluator H) α

namespace Eval

variable {H α β : Type}

protected def pure (a : α) : Eval H α := fun s => .value a s

protected def bind (x : Eval H α) (f : α → Eval H β) : Eval H β := fun s =>
  match x s with
  | .value a s => f a s
  | .error e s => .error e s
  | .outOfFuel => .outOfFuel

instance : Monad (Eval H) where
  pure := Eval.pure
  bind := Eval.bind

def fail (e : EvalError) : Eval H α := fun s => .error e s

def outOfFuel : Eval H α := fun _ => .outOfFuel

def ofExcept : Except EvalError α → Eval H α
  | .ok a => Eval.pure a
  | .error e => fail e

end Eval

namespace Evaluator

variable {H α : Type}

def defaultDepth : Nat := 256

def withFrames (frames : List (Frame H)) : Evaluator H where
  frames := if frames.isEmpty then [[]] else frames.reverse
  depth := 0
  maxDepth := defaultDepth
  nextId := 0

def empty : Evaluator H := withFrames []

def find? (name : String) : List (Frame H) → Option (Value H)
  | [] => none
  | f :: fs =>
    match f.lookup name with
    | some v => some v
    | none => find? name fs

def lookup (name : String) : Eval H (Value H) := fun s =>
  match find? name s.frames with
  | some v => .value v s
  | none => .error (.unboundName name) s

def bindInnermost (name : String) (v : Value H) : List (Frame H) → List (Frame H)
  | [] => [[(name, v)]]
  | f :: fs => f.bind name v :: fs

def rebind (name : String) (v : Value H) : List (Frame H) → Option (List (Frame H))
  | [] => none
  | f :: fs =>
    if f.binds name then some (f.bind name v :: fs) else (rebind name v fs).map (f :: ·)

def define (name : String) (v : Value H) : Eval H Unit := fun s =>
  .value () { s with frames := bindInnermost name v s.frames }

def assign (name : String) (v : Value H) : Eval H (Value H) := fun s =>
  .value v { s with frames := (rebind name v s.frames).getD (bindInnermost name v s.frames) }

def make (f : Function H) : Eval H (Value H) := fun s =>
  .value (.function s.nextId f) { s with nextId := s.nextId + 1 }

def frameCount : Eval H Nat := fun s => .value s.frames.length s

def inFrame (f : Frame H) (body : Eval H α) : Eval H α := fun s =>
  match body { s with frames := f :: s.frames } with
  | .value a s => .value a { s with frames := s.frames.tail }
  | .error e s => .error e { s with frames := s.frames.tail }
  | .outOfFuel => .outOfFuel

def counted (body : Eval H α) : Eval H α := fun s =>
  if s.depth ≥ s.maxDepth then .error (.callDepthExceeded s.maxDepth) s
  else
    match body { s with depth := s.depth + 1 } with
    | .value a s => .value a { s with depth := s.depth - 1 }
    | .error e s => .error e { s with depth := s.depth - 1 }
    | .outOfFuel => .outOfFuel

end Evaluator
end Parlance
