import Parlance.Grammar.Spec
import Parlance.Sequence

/-! Linked grammars. Every rule has an id, its position: composite rules in the order of their
declaration, then terminals. Arms refer to ids, so a rule is always found and the order of declaration
has no other meaning. -/
namespace Parlance

structure Arm (n : Nat) where
  field : String
  rule : Fin n
  times : Repetition
  deriving DecidableEq, Repr

structure Branch (n : Nat) where
  name : String
  arms : List (Arm n)
  deriving DecidableEq, Repr

inductive RuleBody (n : Nat) where
  | composite (branches : List (Branch n))
  | terminal (detector : Detector)

structure Rule (n : Nat) where
  name : String
  body : RuleBody n

structure Grammar where
  size : Nat
  rules : Vector (Rule size) size

namespace Grammar

def rule (g : Grammar) (id : Fin g.size) : Rule g.size := g.rules[id]

def id? (g : Grammar) (name : String) : Option (Fin g.size) :=
  g.rules.findFinIdx? fun r => r.name == name

def linkArm (names : List String) (rule branch : String) (arm : ArmSpec) :
    Except GrammarError (Arm names.length) :=
  match names.finIdxOf? arm.rule with
  | some id => .ok ⟨arm.field, id, arm.times⟩
  | none => .error (.undefinedRule rule branch arm.rule)

def linkBranch (names : List String) (rule : String) (branch : BranchSpec) :
    Except GrammarError (Branch names.length) := do
  let arms ← traverse (linkArm names rule branch.name) branch.arms
  .ok ⟨branch.name, arms⟩

def linkRule (names : List String) (spec : RuleSpec) : Except GrammarError (Rule names.length) := do
  let branches ← traverse (linkBranch names spec.name) spec.branches
  .ok ⟨spec.name, .composite branches⟩

def linkTerminal {n : Nat} (spec : TerminalSpec) : Rule n := ⟨spec.name, .terminal spec.detector⟩

def declared (composites : List RuleSpec) (terminals : List TerminalSpec) : List String :=
  composites.map (·.name) ++ terminals.map (·.name)

/-- Links declarations. A name that is declared twice is reported before any undefined target. -/
def link (composites : List RuleSpec) (terminals : List TerminalSpec) :
    Except GrammarError Grammar :=
  match firstRepeated (declared composites terminals) with
  | some name => .error (.duplicateRule name)
  | none =>
    match h : traverse (linkRule (declared composites terminals)) composites with
    | .error e => .error e
    | .ok linked => .ok {
        size := (declared composites terminals).length
        rules := ⟨(linked ++ terminals.map linkTerminal).toArray, by
          rw [List.size_toArray, List.length_append, traverseLength h, List.length_map]
          simp [declared]⟩ }

end Grammar
end Parlance
