import Parlance.Json

/-! Values as documents. Texts are read and printed by a library, which also derives from the declaration of a type
how its values are written and read. What a type declares is its own: the words of an enumeration, and the fields
of a structure with what may be left out. -/
namespace Parlance.Json

structure Codec (α : Type) where
  write : α → Json
  read : Json → Option α

/-- The fields of a structure in their order. One that need not be there has a value for when it is not, and is
left out in writing where it hides. -/
inductive Fields : Type → Type 1 where
  | done : Fields Unit
  | required {α β : Type} (name : String) (codec : Codec α) (others : Fields β) : Fields (α × β)
  | optional {α β : Type} (name : String) (codec : Codec α) (default : α) (hides : α → Bool)
    (others : Fields β) : Fields (α × β)

namespace Fields

def names {β : Type} : Fields β → List String
  | .done => []
  | .required name _ others => name :: others.names
  | .optional name _ _ _ others => name :: others.names

def written {β : Type} : Fields β → β → List (String × Json)
  | .done, _ => []
  | .required name codec others, (a, b) => (name, codec.write a) :: others.written b
  | .optional name codec _ hides others, (a, b) =>
    if hides a then others.written b else (name, codec.write a) :: others.written b

def read {β : Type} (found : String → Option Json) : Fields β → Option β
  | .done => some ()
  | .required name codec others => do
    let v ← found name
    let a ← codec.read v
    let b ← others.read found
    some (a, b)
  | .optional name codec default _ others => do
    let a ← match found name with
      | none => some default
      | some v => codec.read v
    let b ← others.read found
    some (a, b)

end Fields

class Library where
  parse : String → Option Json
  print : Json → String
  text : Codec String
  list {α : Type} : Codec α → Codec (List α)
  option {α : Type} : Codec α → Codec (Option α)
  words {α : Type} (word : α → String) (values : List α) : Codec α
  record {β : Type} : Fields β → Codec β

def Codec.along {α β : Type} (codec : Codec β) (parts : α → β) (whole : β → α) : Codec α where
  write a := codec.write (parts a)
  read v := (codec.read v).map whole

end Parlance.Json
