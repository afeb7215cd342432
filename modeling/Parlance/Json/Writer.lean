import Parlance.Json

/-! Writing JSON without space. A string escapes quotes, backslashes and control characters, with the
short escape where there is one. -/
namespace Parlance.Json

def hexChar (n : Nat) : Char := if n < 10 then Char.ofNat (48 + n) else Char.ofNat (87 + n)

def writeUnit (unit : Nat) : List Char :=
  ['\\', 'u', hexChar (unit / 4096 % 16), hexChar (unit / 256 % 16), hexChar (unit / 16 % 16),
   hexChar (unit % 16)]

def writeChar (c : Char) : List Char :=
  if c == '"' then ['\\', '"']
  else if c == '\\' then ['\\', '\\']
  else if c == '\x08' then ['\\', 'b']
  else if c == '\t' then ['\\', 't']
  else if c == '\n' then ['\\', 'n']
  else if c == '\x0c' then ['\\', 'f']
  else if c == '\r' then ['\\', 'r']
  else if c.toNat < 0x20 then writeUnit c.toNat
  else [c]

def writeString : Option String → List Char
  | some s => '"' :: (s.toList.flatMap writeChar ++ ['"'])
  | none => '"' :: (writeUnit 0xD800 ++ ['"'])

mutual
def write : Json → List Char
  | .null => ['n', 'u', 'l', 'l']
  | .boolean true => ['t', 'r', 'u', 'e']
  | .boolean false => ['f', 'a', 'l', 's', 'e']
  | .number digits => digits
  | .string text => writeString text
  | .list [] => ['[', ']']
  | .list (v :: vs) => '[' :: (write v ++ writeItems vs)
  | .object [] => ['{', '}']
  | .object ((key, v) :: fields) =>
    '{' :: (writeString key ++ ':' :: (write v ++ writeFields fields))

def writeItems : List Json → List Char
  | [] => [']']
  | v :: vs => ',' :: (write v ++ writeItems vs)

def writeFields : List (Option String × Json) → List Char
  | [] => ['}']
  | (key, v) :: fields => ',' :: (writeString key ++ ':' :: (write v ++ writeFields fields))
end

def render (v : Json) : String := String.ofList (write v)

def quote (s : String) : String := (ofString s).render

end Parlance.Json
