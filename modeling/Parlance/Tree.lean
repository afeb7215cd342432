import Parlance.Token.Cursor

/-! Concrete syntax trees. A composite match is tagged with its rule and branch and keeps its fields in
the order in which they were read; a terminal match holds one token. -/
namespace Parlance

inductive Tree where
  | terminal (rule field : String) (token : Token)
  | composite (rule branch : String) (fields : List (String × Tree))
  deriving Repr, Inhabited

inductive Node where
  | token (token : Token)
  | tree (tree : Tree)
  deriving Repr, Inhabited

namespace Tree

def rule : Tree → String
  | .terminal rule _ _ => rule
  | .composite rule _ _ => rule

def branch : Tree → Option String
  | .terminal _ _ _ => none
  | .composite _ branch _ => some branch

def tag : Tree → String
  | .terminal rule _ _ => rule
  | .composite rule branch _ => rule ++ ":" ++ branch

def fields : Tree → List (String × Node)
  | .terminal _ field token => [(field, .token token)]
  | .composite _ _ fields => fields.map fun entry => (entry.1, .tree entry.2)

def lookup (name : String) : List (String × Tree) → Option Tree
  | [] => none
  | (field, t) :: rest => if field == name then some t else lookup name rest

def field? : Tree → String → Option Node
  | .terminal _ field token, name => if field == name then some (.token token) else none
  | .composite _ _ fields, name => (lookup name fields).map .tree

def child? : Tree → String → Option Tree
  | .terminal _ _ _, _ => none
  | .composite _ _ fields, name => lookup name fields

def children : Tree → String → List Tree
  | .terminal _ _ _, _ => []
  | .composite _ _ fields, name =>
    (fields.filter fun entry => entry.1 == name).map fun entry => entry.2

def token? : Tree → String → Option Token
  | .terminal _ field token, name => if field == name then some token else none
  | .composite _ _ fields, name =>
    match lookup name fields with
    | some (.terminal _ _ token) => some token
    | _ => none

def unwindOrder (t : Tree) : List String := (t.fields.map fun entry => entry.1).reverse

mutual
def tokens : Tree → List Token
  | .terminal _ _ token => [token]
  | .composite _ _ fields => fieldTokens fields

def fieldTokens : List (String × Tree) → List Token
  | [] => []
  | (_, t) :: rest => t.tokens ++ fieldTokens rest
end

mutual
def isEmpty : Tree → Bool
  | .terminal _ _ _ => false
  | .composite _ _ fields => allEmpty fields

def allEmpty : List (String × Tree) → Bool
  | [] => true
  | (_, t) :: rest => t.isEmpty && allEmpty rest
end

mutual
def height : Tree → Nat
  | .terminal _ _ _ => 1
  | .composite _ _ fields => fieldsHeight fields + 1

def fieldsHeight : List (String × Tree) → Nat
  | [] => 0
  | (_, t) :: rest => max t.height (fieldsHeight rest)
end

mutual
/-- Puts everything that the match covers back in front of the cursor, last read first. -/
def unwind : Tree → Cursor → Cursor
  | .terminal _ _ token, c => c.pushFront token
  | .composite _ _ fields, c => unwindFields fields c

def unwindFields : List (String × Tree) → Cursor → Cursor
  | [], c => c
  | (_, t) :: rest, c => t.unwind (unwindFields rest c)
end

end Tree
end Parlance
