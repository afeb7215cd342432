import Parlance.Json.Codec
import Parlance.Json.Reader
import Parlance.Json.Writer

/-! The library that programs are run with. A structure is an object with its fields in any order and unknown ones
skipped, or a list of its fields in order; an enumeration is a word, or an object that maps the word to null. -/
namespace Parlance.Json

def text? : Json → Option String
  | .string text => text
  | _ => none

def word? : Json → Option String
  | .object [(key, .null)] => key
  | v => v.text?

def readEach {α : Type} (read : Json → Option α) : List Json → Option (List α)
  | [] => some []
  | v :: vs => do
    let a ← read v
    let as ← readEach read vs
    some (a :: as)

def knownFields (names : List String) : List (Option String × Json) → Option (List (String × Json))
  | [] => some []
  | (key, v) :: rest => do
    let name ← key
    let known ← knownFields names rest
    if names.contains name then
      if known.any fun entry => entry.1 == name then none else some ((name, v) :: known)
    else some known

def partsOf (names : List String) : Json → Option (List (String × Json))
  | .object fields => knownFields names fields
  | .list items => if items.length ≤ names.length then some (names.zip items) else none
  | _ => none

instance : Library where
  parse := read
  print := render
  text := ⟨ofString, text?⟩
  list codec :=
    { write := fun as => .list (as.map codec.write)
      read := fun
        | .list vs => readEach codec.read vs
        | _ => none }
  option codec :=
    { write := fun
        | none => .null
        | some a => codec.write a
      read := fun
        | .null => some none
        | v => (codec.read v).map some }
  words word values :=
    { write := fun a => ofString (word a)
      read := fun v => v.word?.bind fun w => values.find? fun a => word a == w }
  record fields :=
    { write := fun b => .named (fields.written b)
      read := fun v => (partsOf fields.names v).bind fun parts => fields.read fun name => parts.lookup name }

end Parlance.Json
