import Parlance.Json

/-! Reading JSON: the strict grammar, without comments, trailing commas or bare control characters. -/
namespace Parlance.Json.Reader

/-- A piece of a string literal: a character as such, or a UTF-16 unit given by its number. -/
abbrev Piece := Char ⊕ Nat

def isHighSurrogate (unit : Nat) : Bool := 0xD800 ≤ unit && unit < 0xDC00

def isLowSurrogate (unit : Nat) : Bool := 0xDC00 ≤ unit && unit < 0xE000

def pairedChar (high low : Nat) : Char :=
  Char.ofNat (0x10000 + (high - 0xD800) * 0x400 + (low - 0xDC00))

def decode : List Piece → Option (List Char)
  | [] => some []
  | .inl c :: rest => (decode rest).map (c :: ·)
  | .inr unit :: .inr low :: rest =>
    if isHighSurrogate unit then
      if isLowSurrogate low then (decode rest).map (pairedChar unit low :: ·) else none
    else if isLowSurrogate unit then none
    else (decode (.inr low :: rest)).map (Char.ofNat unit :: ·)
  | .inr unit :: rest =>
    if isHighSurrogate unit || isLowSurrogate unit then none
    else (decode rest).map (Char.ofNat unit :: ·)

def isSpace (c : Char) : Bool := c == ' ' || c == '\n' || c == '\t' || c == '\r'

def skipSpace (cs : List Char) : List Char := cs.dropWhile isSpace

def hexDigit (c : Char) : Option Nat :=
  if '0' ≤ c ∧ c ≤ '9' then some (c.toNat - '0'.toNat)
  else if 'a' ≤ c ∧ c ≤ 'f' then some (c.toNat - 'a'.toNat + 10)
  else if 'A' ≤ c ∧ c ≤ 'F' then some (c.toNat - 'A'.toNat + 10)
  else none

def hexUnit (a b c d : Char) : Option Nat := do
  let a ← hexDigit a
  let b ← hexDigit b
  let c ← hexDigit c
  let d ← hexDigit d
  some (((a * 16 + b) * 16 + c) * 16 + d)

def shortEscape : Char → Option Char
  | '"' => some '"'
  | '\\' => some '\\'
  | '/' => some '/'
  | 'b' => some '\x08'
  | 'f' => some '\x0c'
  | 'n' => some '\n'
  | 'r' => some '\r'
  | 't' => some '\t'
  | _ => none

def readPieces : List Char → Option (List Piece × List Char)
  | [] => none
  | '"' :: cs => some ([], cs)
  | '\\' :: 'u' :: a :: b :: c :: d :: cs => do
    let unit ← hexUnit a b c d
    let (pieces, rest) ← readPieces cs
    some (.inr unit :: pieces, rest)
  | '\\' :: e :: cs => do
    let c ← shortEscape e
    let (pieces, rest) ← readPieces cs
    some (.inl c :: pieces, rest)
  | c :: cs =>
    if c == '\\' || decide (c.toNat < 0x20) then none
    else do
      let (pieces, rest) ← readPieces cs
      some (.inl c :: pieces, rest)

def readString (cs : List Char) : Option (Option String × List Char) :=
  (readPieces cs).map fun found => ((decode found.1).map String.ofList, found.2)

def digits (cs : List Char) : List Char × List Char :=
  (cs.takeWhile Char.isDigit, cs.dropWhile Char.isDigit)

def readWhole (cs : List Char) : Option (List Char × List Char) :=
  match cs with
  | '0' :: rest => some (['0'], rest)
  | _ =>
    match digits cs with
    | ([], _) => none
    | found => some found

def readFraction (cs : List Char) : Option (List Char × List Char) :=
  match cs with
  | '.' :: rest =>
    match digits rest with
    | ([], _) => none
    | (found, rest) => some ('.' :: found, rest)
  | _ => some ([], cs)

def readSign : List Char → List Char × List Char
  | '+' :: rest => (['+'], rest)
  | '-' :: rest => (['-'], rest)
  | rest => ([], rest)

def readExponent (cs : List Char) : Option (List Char × List Char) :=
  match cs with
  | [] => some ([], [])
  | e :: rest =>
    if e == 'e' || e == 'E' then
      let (sign, rest) := readSign rest
      match digits rest with
      | ([], _) => none
      | (found, rest) => some (e :: (sign ++ found), rest)
    else some ([], cs)

def readNumber (cs : List Char) : Option (List Char × List Char) := do
  let (sign, cs) := match cs with
    | '-' :: rest => (['-'], rest)
    | rest => ([], rest)
  let (whole, cs) ← readWhole cs
  let (fraction, cs) ← readFraction cs
  let (exponent, cs) ← readExponent cs
  some (sign ++ whole ++ fraction ++ exponent, cs)

def readItems (item : List Char → Option (Json × List Char)) :
    Nat → List Char → Option (List Json × List Char)
  | 0, _ => none
  | rounds + 1, cs => do
    let (v, cs) ← item cs
    match skipSpace cs with
    | ']' :: rest => some ([v], rest)
    | ',' :: rest =>
      let (vs, rest) ← readItems item rounds rest
      some (v :: vs, rest)
    | _ => none

def readFields (item : List Char → Option (Json × List Char)) :
    Nat → List Char → Option (List (Option String × Json) × List Char)
  | 0, _ => none
  | rounds + 1, cs =>
    match skipSpace cs with
    | '"' :: cs => do
      let (key, cs) ← readString cs
      match skipSpace cs with
      | ':' :: cs =>
        let (v, cs) ← item cs
        match skipSpace cs with
        | '}' :: rest => some ([(key, v)], rest)
        | ',' :: rest =>
          let (more, rest) ← readFields item rounds rest
          some ((key, v) :: more, rest)
        | _ => none
      | _ => none
    | _ => none

def readValue (rounds : Nat) : Nat → List Char → Option (Json × List Char)
  | 0, _ => none
  | depth + 1, cs =>
    match skipSpace cs with
    | '"' :: cs => (readString cs).map fun found => (.string found.1, found.2)
    | '[' :: cs =>
      match skipSpace cs with
      | ']' :: rest => some (.list [], rest)
      | _ => (readItems (readValue rounds depth) rounds cs).map fun found =>
        (.list found.1, found.2)
    | '{' :: cs =>
      match skipSpace cs with
      | '}' :: rest => some (.object [], rest)
      | _ => (readFields (readValue rounds depth) rounds cs).map fun found =>
        (.object found.1, found.2)
    | 'n' :: 'u' :: 'l' :: 'l' :: rest => some (.null, rest)
    | 't' :: 'r' :: 'u' :: 'e' :: rest => some (.boolean true, rest)
    | 'f' :: 'a' :: 'l' :: 's' :: 'e' :: rest => some (.boolean false, rest)
    | cs => (readNumber cs).map fun found => (.number found.1, found.2)

end Reader

def read (text : String) : Option Json :=
  let cs := text.toList
  match Reader.readValue cs.length (cs.length + 1) cs with
  | some (v, rest) => if (Reader.skipSpace rest).isEmpty then some v else none
  | none => none

end Parlance.Json
