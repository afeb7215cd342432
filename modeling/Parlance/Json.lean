/-! JSON documents. A number is kept as it is written and a string as its text; a string that names half of a
surrogate pair alone has no text, and does no harm where nobody asks for it. -/
namespace Parlance

inductive Json where
  | null
  | boolean (value : Bool)
  | number (digits : List Char)
  | string (text : Option String)
  | list (items : List Json)
  | object (fields : List (Option String × Json))
  deriving Repr, Inhabited

namespace Json

def ofString (s : String) : Json := .string (some s)

def keyed (field : String × Json) : Option String × Json := (some field.1, field.2)

def named (fields : List (String × Json)) : Json := .object (fields.map keyed)

end Json
end Parlance
