import Parlance.Grammar
import Parlance.Tree

/-! Matching a rule at a cursor by ordered choice. The first branch all of whose arms match in sequence
wins, and a branch that fails puts back what its arms took. Rules nest at most as deep as the limit
says; what lies deeper ends the whole attempt. -/
namespace Parlance

inductive ParseError where
  | unknownRule (name : String)
  | noMatch (rule : String)
  | trailingTokens (rule : String) (next : Token)
  | tooDeep (limit : Nat)
  deriving DecidableEq, Repr

def ParseError.message : ParseError → String
  | .unknownRule name => "unknown start rule '" ++ name ++ "'"
  | .noMatch rule => "input does not match rule '" ++ rule ++ "'"
  | .trailingTokens rule next =>
    "rule '" ++ rule ++ "' matched, but input continues at " ++ next.render
  | .tooDeep limit => "input nests deeper than " ++ toString limit ++ " rules"

namespace Matching

inductive Attempt (α : Type) where
  | matched (result : α)
  | failed
  | tooDeep
  deriving Repr

abbrev Outcome (α : Type) := Attempt α × Cursor

def matchTerminal (rule : String) (d : Detector) (c : Cursor) : Outcome Tree :=
  match c.next with
  | (none, c) => (.failed, c)
  | (some t, c) =>
    if d.accepts t then (.matched (.terminal rule d.field t), c) else (.failed, c.pushFront t)

/-- Matches over and over until the first failure or the first match that covers nothing, which is not
recorded. Every recorded match takes a token, so more rounds than tokens are never needed. -/
def matchMany (step : Cursor → Outcome Tree) (field : String) :
    Nat → Cursor → Outcome (List (String × Tree))
  | 0, c => (.matched [], c)
  | rounds + 1, c =>
    match step c with
    | (.matched t, c) =>
      if t.isEmpty then (.matched [], c)
      else match matchMany step field rounds c with
        | (.matched rest, c) => (.matched ((field, t) :: rest), c)
        | (.failed, c) => (.failed, c)
        | (.tooDeep, c) => (.tooDeep, c)
    | (.failed, c) => (.matched [], c)
    | (.tooDeep, c) => (.tooDeep, c)

def matchArm {n : Nat} (step : Fin n → Cursor → Outcome Tree) (arm : Arm n) (c : Cursor) :
    Outcome (List (String × Tree)) :=
  match arm.times with
  | .once =>
    match step arm.rule c with
    | (.matched t, c) => (.matched [(arm.field, t)], c)
    | (.failed, c) => (.failed, c)
    | (.tooDeep, c) => (.tooDeep, c)
  | .optional =>
    match step arm.rule c with
    | (.matched t, c) => (.matched [(arm.field, t)], c)
    | (.failed, c) => (.matched [], c)
    | (.tooDeep, c) => (.tooDeep, c)
  | .many => matchMany (step arm.rule) arm.field (c.buffer.length + c.source.length + 1) c

def matchArms {n : Nat} (step : Fin n → Cursor → Outcome Tree) :
    List (Arm n) → Cursor → Outcome (List (String × Tree))
  | [], c => (.matched [], c)
  | arm :: arms, c =>
    match matchArm step arm c with
    | (.matched fields, c) =>
      match matchArms step arms c with
      | (.matched rest, c) => (.matched (fields ++ rest), c)
      | (.failed, c) => (.failed, Tree.unwindFields fields c)
      | (.tooDeep, c) => (.tooDeep, c)
    | (.failed, c) => (.failed, c)
    | (.tooDeep, c) => (.tooDeep, c)

def matchBranches {n : Nat} (step : Fin n → Cursor → Outcome Tree) (rule : String) :
    List (Branch n) → Cursor → Outcome Tree
  | [], c => (.failed, c)
  | branch :: branches, c =>
    match matchArms step branch.arms c with
    | (.matched fields, c) => (.matched (.composite rule branch.name fields), c)
    | (.failed, c) => matchBranches step rule branches c
    | (.tooDeep, c) => (.tooDeep, c)

def matchAt (g : Grammar) : Nat → Fin g.size → Cursor → Outcome Tree
  | 0, _, c => (.tooDeep, c)
  | levels + 1, id, c =>
    match (g.rule id).body with
    | .terminal d => matchTerminal (g.rule id).name d c
    | .composite branches => matchBranches (matchAt g levels) (g.rule id).name branches c

end Matching

/-- Matches a rule at the cursor; `none` means that it does not match there. -/
def Grammar.matchRule (g : Grammar) (limit : Nat) (id : Fin g.size) (c : Cursor) :
    Except ParseError (Option Tree) × Cursor :=
  match Matching.matchAt g limit id c with
  | (.matched t, c) => (.ok (some t), c)
  | (.failed, c) => (.ok none, c)
  | (.tooDeep, c) => (.error (.tooDeep limit), c)

def Grammar.defaultDepth : Nat := 256

def Grammar.parse (g : Grammar) (start : String) (tokens : List Token) : Except ParseError Tree :=
  match g.id? start with
  | none => .error (.unknownRule start)
  | some id =>
    match g.matchRule defaultDepth id (Cursor.ofTokens tokens) with
    | (.error e, _) => .error e
    | (.ok none, _) => .error (.noMatch start)
    | (.ok (some t), c) =>
      match c.next with
      | (some next, _) => .error (.trailingTokens start next)
      | (none, _) => .ok t

end Parlance
