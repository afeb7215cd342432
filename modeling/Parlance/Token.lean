import Parlance.Text.Blank

/-! Tokens. A token is a symbol of the glyph table or a piece of text; nothing after the lexer looks
at single characters. -/
namespace Parlance

inductive Token where
  | glyph (symbol : String)
  | text (content : String)
  deriving DecidableEq, Repr, Inhabited

namespace Token

def ofText (s : String) : Token := .text (Text.trimmed s)

def content : Token → String
  | .glyph s => s
  | .text s => s

def isGlyph (symbol : String) : Token → Bool
  | .glyph s => s == symbol
  | .text _ => false

def isText : Token → Bool
  | .glyph _ => false
  | .text _ => true

def render : Token → String
  | .glyph s => s
  | .text s => "\"" ++ s ++ "\""

end Token
end Parlance
