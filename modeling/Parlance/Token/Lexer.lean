import Parlance.Token

/-! Cutting a source text into tokens. Where a comment opens, the rest of the line counts as one space.
Elsewhere the longest glyph that the text goes on with is taken, and what no glyph covers is gathered
into text tokens, one for each run between glyphs, with single spaces between the words of the run. -/
namespace Parlance.Lexer

def commentMark : List Char := ['/', '/']

def longestGlyph : List (List Char) → List Char → List Char
  | [], _ => []
  | g :: gs, rest =>
    let best := longestGlyph gs rest
    if g.isPrefixOf rest && decide (best.length < g.length) then g else best

inductive Lexeme where
  | glyph (symbol : List Char)
  | letter (c : Char)
  deriving DecidableEq, Repr

inductive Mode where
  | fresh
  | comment
  | glyph (left : Nat)
  deriving DecidableEq, Repr

def lexemes (glyphs : List (List Char)) : Mode → List Char → List Lexeme
  | _, [] => []
  | .comment, c :: cs => lexemes glyphs (if c = '\n' then .fresh else .comment) cs
  | .glyph (left + 1), _ :: cs => lexemes glyphs (.glyph left) cs
  | .glyph 0, c :: cs | .fresh, c :: cs =>
    if commentMark.isPrefixOf (c :: cs) then .letter ' ' :: lexemes glyphs .comment cs
    else match longestGlyph glyphs (c :: cs) with
      | [] => .letter c :: lexemes glyphs .fresh cs
      | _ :: more => .glyph (c :: more) :: lexemes glyphs (.glyph more.length) cs

def textToken (run : List Char) : List Token :=
  match Text.words run with
  | [] => []
  | w :: ws => [.text (String.ofList (Text.unwords (w :: ws)))]

def gather : List Lexeme → List Char × List Token
  | [] => ([], [])
  | .letter c :: rest =>
    let (run, tokens) := gather rest
    (c :: run, tokens)
  | .glyph g :: rest =>
    let (run, tokens) := gather rest
    ([], .glyph (String.ofList g) :: (textToken run ++ tokens))

def tokens (glyphs : List (List Char)) (source : List Char) : List Token :=
  let (run, tokens) := gather (lexemes glyphs .fresh source)
  textToken run ++ tokens

end Lexer

/-- The tokens of a source text over a glyph table. Order, repetition and empty members of the table
make no difference. -/
def tokenize (glyphs : List String) (source : String) : List Token :=
  Lexer.tokens (glyphs.map String.toList) source.toList

end Parlance
