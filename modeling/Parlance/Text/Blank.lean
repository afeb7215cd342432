/-! Blank characters and the words between them. A character is blank when Unicode gives it the
White_Space property; nothing else in the library decides what a space is. -/
namespace Parlance.Text

def blankRanges : List (Nat × Nat) :=
  [(0x09, 0x0D), (0x20, 0x20), (0x85, 0x85), (0xA0, 0xA0), (0x1680, 0x1680), (0x2000, 0x200A),
   (0x2028, 0x2029), (0x202F, 0x202F), (0x205F, 0x205F), (0x3000, 0x3000)]

def isBlank (c : Char) : Bool :=
  blankRanges.any fun range => range.1 ≤ c.toNat && c.toNat ≤ range.2

def trimLeft (cs : List Char) : List Char := cs.dropWhile isBlank

def trimRight (cs : List Char) : List Char := (cs.reverse.dropWhile isBlank).reverse

def trim (cs : List Char) : List Char := trimRight (trimLeft cs)

def trimmed (s : String) : String := String.ofList (trim s.toList)

def addWord (word : List Char) (rest : List (List Char)) : List (List Char) :=
  if word.isEmpty then rest else word :: rest

def headWord : List Char → List Char × List (List Char)
  | [] => ([], [])
  | c :: cs =>
    let (word, rest) := headWord cs
    if isBlank c then ([], addWord word rest) else (c :: word, rest)

def words (cs : List Char) : List (List Char) :=
  let (word, rest) := headWord cs
  addWord word rest

def unwords : List (List Char) → List Char
  | [] => []
  | [w] => w
  | w :: ws => w ++ ' ' :: unwords ws

end Parlance.Text
