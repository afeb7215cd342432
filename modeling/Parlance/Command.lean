import Parlance.Json.Strict
import Parlance.Language

/-! The commands: running a program, and checking it without running it. -/
namespace Parlance

structure Request where
  source : String
  grammar : Option String
  operators : Option String
  syntaxOnly : Bool
  deriving DecidableEq, Repr

inductive Report where
  | valid
  | printed (text : String)
  | failed (e : Error)
  | outOfFuel
  deriving DecidableEq, Repr

def Request.language (r : Request) : Except Error Language := do
  let d ← Definition.ofTexts r.operators r.grammar
  d.build

def Request.perform (r : Request) : Report :=
  match r.language with
  | .error e => .failed e
  | .ok l =>
    if r.syntaxOnly then
      match l.compile (H := Empty) r.source with
      | .error e => .failed e
      | .ok _ => .valid
    else
      match l.run (H := Empty) r.source with
      | .value v _ => .printed v.render
      | .error e _ => .failed e
      | .outOfFuel => .outOfFuel

end Parlance
