import Parlance.Token

/-! A reader over a token stream that takes tokens back. Tokens put back are read again before the
source is touched. -/
namespace Parlance

structure Cursor where
  buffer : List Token
  source : List Token
  deriving DecidableEq, Repr

namespace Cursor

def ofTokens (tokens : List Token) : Cursor := ⟨[], tokens⟩

def remaining (c : Cursor) : List Token := c.buffer ++ c.source

def buffered (c : Cursor) : Nat := c.buffer.length

def next : Cursor → Option Token × Cursor
  | ⟨t :: buffer, source⟩ => (some t, ⟨buffer, source⟩)
  | ⟨[], t :: source⟩ => (some t, ⟨[], source⟩)
  | ⟨[], []⟩ => (none, ⟨[], []⟩)

/-- The next token, left in place. A token that was in the source is in the buffer afterwards. -/
def peek : Cursor → Option Token × Cursor
  | ⟨t :: buffer, source⟩ => (some t, ⟨t :: buffer, source⟩)
  | ⟨[], t :: source⟩ => (some t, ⟨[t], source⟩)
  | ⟨[], []⟩ => (none, ⟨[], []⟩)

def pushFront (t : Token) (c : Cursor) : Cursor := ⟨t :: c.buffer, c.source⟩

def pushBack (tokens : List Token) (c : Cursor) : Cursor := ⟨tokens ++ c.buffer, c.source⟩

def isExhausted (c : Cursor) : Bool × Cursor :=
  let (t, c) := c.peek
  (t.isNone, c)

@[simp] theorem remainingPushFront (t : Token) (c : Cursor) :
    (c.pushFront t).remaining = t :: c.remaining := rfl

@[simp] theorem remainingPushBack (tokens : List Token) (c : Cursor) :
    (c.pushBack tokens).remaining = tokens ++ c.remaining := by
  simp [pushBack, remaining]

@[simp] theorem remainingPeek (c : Cursor) : c.peek.2.remaining = c.remaining := by
  rcases c with ⟨_ | ⟨t, b⟩, _ | ⟨s, ss⟩⟩ <;> rfl

theorem nextHead (c : Cursor) : c.next.1 = c.remaining.head? := by
  rcases c with ⟨_ | ⟨t, b⟩, _ | ⟨s, ss⟩⟩ <;> rfl

theorem nextTail (c : Cursor) : c.next.2.remaining = c.remaining.tail := by
  rcases c with ⟨_ | ⟨t, b⟩, _ | ⟨s, ss⟩⟩ <;> rfl

end Cursor
end Parlance
