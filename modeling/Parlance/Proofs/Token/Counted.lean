import Parlance.Token.Cursor

/-! Cursors as lists with a count. Whether a token waits in the buffer or still in the source shows only in the
number of tokens that are buffered: whatever is put back, and however often the end has been reached, a cursor
answers as one list of all the tokens that are left. -/
namespace Parlance.Cursor

inductive Call where
  | next
  | peek
  | pushFront (t : Token)
  | pushBack (tokens : List Token)
  | isExhausted
  deriving DecidableEq, Repr

inductive Answer where
  | token (t : Option Token)
  | ended (exhausted : Bool)
  | silent
  deriving DecidableEq, Repr

def perform (c : Cursor) : Call → Answer × Cursor
  | .next => (.token c.next.1, c.next.2)
  | .peek => (.token c.peek.1, c.peek.2)
  | .pushFront t => (.silent, c.pushFront t)
  | .pushBack tokens => (.silent, c.pushBack tokens)
  | .isExhausted => (.ended c.isExhausted.1, c.isExhausted.2)

/-- The tokens that are left, and how many of them count as buffered. -/
structure Counted where
  tokens : List Token
  count : Nat
  deriving DecidableEq, Repr

namespace Counted

def ofTokens (source : List Token) : Counted := ⟨source, 0⟩

def looked : Counted → Counted
  | ⟨t :: rest, 0⟩ => ⟨t :: rest, 1⟩
  | k => k

def perform (k : Counted) : Call → Answer × Counted
  | .next => (.token k.tokens.head?, ⟨k.tokens.tail, k.count - 1⟩)
  | .peek => (.token k.tokens.head?, k.looked)
  | .pushFront t => (.silent, ⟨t :: k.tokens, k.count + 1⟩)
  | .pushBack tokens => (.silent, ⟨tokens ++ k.tokens, k.count + tokens.length⟩)
  | .isExhausted => (.ended k.tokens.isEmpty, k.looked)

end Counted

section Runs

variable {σ τ : Type}

def runCalls (perform : σ → Call → Answer × σ) : σ → List Call → List Answer × σ
  | s, [] => ([], s)
  | s, call :: calls =>
    let (answer, s) := perform s call
    let (answers, s) := runCalls perform s calls
    (answer :: answers, s)

theorem runCallsViewed {perform : σ → Call → Answer × σ} {perform' : τ → Call → Answer × τ} {view : σ → τ}
    (step : ∀ s call, perform' (view s) call = ((perform s call).1, view (perform s call).2)) (s : σ)
    (calls : List Call) :
    runCalls perform' (view s) calls = ((runCalls perform s calls).1, view (runCalls perform s calls).2) := by
  induction calls generalizing s with
  | nil => rfl
  | cons call calls ih => simp only [runCalls, step, ih]

end Runs

def counted (c : Cursor) : Counted := ⟨c.remaining, c.buffered⟩

theorem pushBackEach (tokens : List Token) (c : Cursor) : c.pushBack tokens = tokens.foldr pushFront c := by
  induction tokens with
  | nil => rfl
  | cons t tokens ih =>
    rw [List.foldr_cons, ← ih]
    rfl

theorem countedPushBack (tokens : List Token) (c : Cursor) :
    (c.pushBack tokens).counted = ⟨tokens ++ c.remaining, c.buffered + tokens.length⟩ := by
  rw [pushBackEach]
  induction tokens with
  | nil => rfl
  | cons t tokens ih =>
    obtain ⟨left, count⟩ := Counted.mk.inj ih
    simp only [counted, List.foldr_cons, remainingPushFront, left, List.cons_append, List.length_cons,
      Counted.mk.injEq, true_and]
    rw [← Nat.add_assoc, ← count]
    rfl

theorem peekHead (c : Cursor) : c.peek.1 = c.remaining.head? := by
  rcases c with ⟨_ | ⟨t, buffer⟩, _ | ⟨s, source⟩⟩ <;> rfl

theorem countedPeek (c : Cursor) : c.peek.2.counted = c.counted.looked := by
  rcases c with ⟨_ | ⟨t, buffer⟩, _ | ⟨s, source⟩⟩ <;> rfl

theorem countedNext (c : Cursor) : c.next.2.counted = ⟨c.remaining.tail, c.buffered - 1⟩ := by
  rcases c with ⟨_ | ⟨t, buffer⟩, _ | ⟨s, source⟩⟩ <;> rfl

theorem performCounted (c : Cursor) (call : Call) :
    c.counted.perform call = ((c.perform call).1, (c.perform call).2.counted) := by
  cases call with
  | next =>
    simp only [perform, nextHead, countedNext]
    rfl
  | peek =>
    simp only [perform, peekHead, countedPeek]
    rfl
  | pushFront t => rfl
  | pushBack tokens =>
    simp only [perform, countedPushBack]
    rfl
  | isExhausted =>
    have ended : c.isExhausted = (c.remaining.isEmpty, c.peek.2) := by
      change (c.peek.1.isNone, c.peek.2) = _
      rw [peekHead]
      cases c.remaining <;> rfl
    simp only [perform, ended, countedPeek]
    rfl

/-- Whatever calls are made, a cursor over a source answers each of them as the list of the source with a count
that starts at zero does, and afterwards as many tokens are buffered as are counted. -/
theorem cursorCounts (source : List Token) (calls : List Call) :
    (runCalls perform (ofTokens source) calls).1 =
        (runCalls Counted.perform (Counted.ofTokens source) calls).1 ∧
      (runCalls perform (ofTokens source) calls).2.remaining =
        (runCalls Counted.perform (Counted.ofTokens source) calls).2.tokens ∧
      (runCalls perform (ofTokens source) calls).2.buffered =
        (runCalls Counted.perform (Counted.ofTokens source) calls).2.count := by
  have start : (ofTokens source).counted = Counted.ofTokens source := rfl
  have viewed := runCallsViewed performCounted (ofTokens source) calls
  rw [start] at viewed
  rw [viewed]
  exact ⟨rfl, rfl, rfl⟩

example : runCalls perform (ofTokens [.text "a"])
    [.next, .next, .isExhausted, .pushFront (.text "a"), .peek, .pushBack [.text "b", .glyph "+"], .next] =
      ([.token (some (.text "a")), .token none, .ended true, .silent, .token (some (.text "a")), .silent,
        .token (some (.text "b"))], ⟨[.glyph "+", .text "a"], []⟩) := rfl

end Parlance.Cursor
