import Parlance.Proofs.Token.Canonical

/-! Lines of a source text. Where no glyph holds a line break, a break ends whatever stands before it, a comment
too, and counts as a blank. So lines are cut into tokens one by one, and only a text at the end of a line goes on
with a text at the beginning of the next; a mark on a line of its own is one token between the others. -/
namespace Parlance

namespace Token

/-- The tokens of one line and then those of the next. A text at the end of the first and a text at the
beginning of the second are one. -/
def runOn : List Token → List Token → List Token
  | [], others => others
  | [.text s], .text s' :: others => .text (s ++ " " ++ s') :: others
  | t :: line, others => t :: runOn line others

theorem runOnNone (line : List Token) : runOn line [] = line := by
  induction line with
  | nil => rfl
  | cons t line ih => simp [runOn, ih]

theorem runOnGlyph (before : List Token) (g : String) (line others : List Token) :
    runOn (before ++ .glyph g :: line) others = before ++ .glyph g :: runOn line others := by
  induction before with
  | nil => simp [runOn]
  | cons t before ih =>
    have filled : before ++ .glyph g :: line ≠ [] := by simp
    simp [runOn, filled, ih]

end Token

namespace Lexer

def gathered (ls : List Lexeme) : List Token := textToken (gather ls).1 ++ (gather ls).2

theorem tokensGathered (glyphs : List (List Char)) (source : List Char) :
    tokens glyphs source = gathered (lexemes glyphs .fresh source) := rfl

section Gathered

theorem gatheredGlyph (before : List Lexeme) (g : List Char) (after : List Lexeme) :
    gathered (before ++ .glyph g :: after) =
      gathered before ++ .glyph (String.ofList g) :: gathered after := by
  have split : gather (before ++ .glyph g :: after) =
      ((gather before).1, (gather before).2 ++ .glyph (String.ofList g) :: gathered after) := by
    induction before with
    | nil => rfl
    | cons l before ih =>
      cases l with
      | letter d => rw [List.cons_append, gatherLetter, gatherLetter, ih]
      | glyph f => simp [gatherGlyph, ih]
  simp only [gathered, split, List.append_assoc]

theorem gatheredLetters (cs : List Char) : gathered (cs.map .letter) = textToken cs := by
  have letters := gatherLetters cs []
  simp only [List.append_nil, gather] at letters
  simp [gathered, letters]

variable {c : Char} (blank : Text.isBlank c = true)

include blank

theorem lettersBreak (cs : List Char) (ls : List Lexeme) :
    gathered (cs.map .letter ++ .letter c :: ls) = Token.runOn (textToken cs) (gathered ls) := by
  have words := Text.wordsBlank blank cs (gather ls).1
  simp only [gathered, gatherLetters, gatherLetter, textToken, words]
  cases before : Text.words cs with
  | nil => rfl
  | cons w ws =>
    cases after : Text.words (gather ls).1 with
    | nil =>
      have unbegun := gatherUnbegun ls
      simp only [List.append_nil, List.singleton_append, List.nil_append]
      generalize (gather ls).2 = others at unbegun
      cases others with
      | nil => rfl
      | cons t others =>
        cases t with
        | text s => exact absurd rfl (unbegun s others)
        | glyph g => rfl
    | cons v vs =>
      have joined := Text.unwordsAppend (List.cons_ne_nil w ws) (List.cons_ne_nil v vs)
      simp only [List.cons_append] at joined
      simp [Token.runOn, joined, String.append_assoc]

theorem gatheredBreak (before ls : List Lexeme) :
    gathered (before ++ .letter c :: ls) = Token.runOn (gathered before) (gathered ls) := by
  -- By induction on what stands before the break, with the letters passed since the last glyph.
  have after : ∀ cs : List Char, gathered (cs.map .letter ++ (before ++ .letter c :: ls)) =
      Token.runOn (gathered (cs.map .letter ++ before)) (gathered ls) := by
    induction before with
    | nil =>
      intro cs
      rw [List.append_nil, gatheredLetters]
      exact lettersBreak blank cs ls
    | cons l before ih =>
      intro cs
      cases l with
      | letter d => simpa using ih (cs ++ [d])
      | glyph g =>
        rw [List.cons_append, gatheredGlyph, gatheredGlyph, Token.runOnGlyph]
        exact congrArg _ (congrArg _ (ih []))
  exact after []

theorem gatheredBlank (ls : List Lexeme) : gathered (.letter c :: ls) = gathered ls :=
  gatheredBreak blank [] ls

theorem gatheredEnd (ls : List Lexeme) : gathered (ls ++ [.letter c]) = gathered ls :=
  (gatheredBreak blank ls []).trans (Token.runOnNone _)

end Gathered

section Breaks

variable {glyphs : List (List Char)} (unbroken : ∀ g ∈ glyphs, '\n' ∉ g)

theorem prefixBeforeBreak {g : List Char} (free : '\n' ∉ g) (u v : List Char) :
    g.isPrefixOf (u ++ '\n' :: v) = g.isPrefixOf u := by
  induction g generalizing u with
  | nil => simp [List.isPrefixOf]
  | cons c g ih =>
    obtain ⟨first, others⟩ := not_or.mp (mt List.mem_cons.mpr free)
    cases u with
    | nil => simp [List.isPrefixOf, Ne.symm first]
    | cons d u => simp [List.isPrefixOf, ih others]

include unbroken

theorem longestBeforeBreak (u v : List Char) :
    longestGlyph glyphs (u ++ '\n' :: v) = longestGlyph glyphs u := by
  induction glyphs with
  | nil => rfl
  | cons g gs ih =>
    obtain ⟨free, others⟩ := List.forall_mem_cons.mp unbroken
    simp only [longestGlyph, ih others, prefixBeforeBreak free]

theorem readBreak (v : List Char) :
    lexemes glyphs .fresh ('\n' :: v) = .letter '\n' :: lexemes glyphs .fresh v := by
  have none : longestGlyph glyphs ('\n' :: v) = [] := by
    rcases longestGlyphMember glyphs [] with nothing | ⟨-, begins⟩
    · exact (longestBeforeBreak unbroken [] v).trans nothing
    · exact (longestBeforeBreak unbroken [] v).trans (List.prefix_nil.mp begins)
  simp [lexemes, commentMark, List.isPrefixOf, none]

def Breaks (line whole rest : List Lexeme) : Prop :=
  ∃ before c, Text.isBlank c = true ∧ (line = before ∨ line = before ++ [.letter c]) ∧
    whole = before ++ .letter c :: rest

omit unbroken in
theorem breaksCons {l : Lexeme} {line whole rest : List Lexeme} (h : Breaks line whole rest) :
    Breaks (l :: line) (l :: whole) rest := by
  obtain ⟨before, c, blank, ends, rfl⟩ := h
  exact ⟨l :: before, c, blank, by simpa using ends, rfl⟩

def BreaksIn (glyphs : List (List Char)) (mode : Mode) (u v : List Char) : Prop :=
  (mode = .comment ∧ lexemes glyphs mode u = [] ∧
    lexemes glyphs mode (u ++ '\n' :: v) = lexemes glyphs .fresh v) ∨
  Breaks (lexemes glyphs mode u) (lexemes glyphs mode (u ++ '\n' :: v)) (lexemes glyphs .fresh v)

theorem freshBreak {c : Char} {u v : List Char}
    (behind : ∀ mode, (∀ left, mode = .glyph left → left ≤ u.length) → BreaksIn glyphs mode u v) :
    Breaks (lexemes glyphs .fresh (c :: u)) (lexemes glyphs .fresh (c :: (u ++ '\n' :: v)))
      (lexemes glyphs .fresh v) := by
  have mark : commentMark.isPrefixOf (c :: (u ++ '\n' :: v)) = commentMark.isPrefixOf (c :: u) :=
    prefixBeforeBreak (by decide) (c :: u) v
  have longest : longestGlyph glyphs (c :: (u ++ '\n' :: v)) = longestGlyph glyphs (c :: u) :=
    longestBeforeBreak unbroken (c :: u) v
  simp only [lexemes, mark, longest]
  split
  · rcases behind .comment (by simp) with ⟨-, line, whole⟩ | breaks
    · exact ⟨[], ' ', by decide, .inr (by rw [line]; rfl), by rw [whole]; rfl⟩
    · exact breaksCons breaks
  · have found := longestGlyphMember glyphs (c :: u)
    split
    · exact breaksCons ((behind .fresh (by simp)).resolve_left (by simp))
    · rename_i d more best
      rw [best] at found
      have begins := (found.resolve_left (List.cons_ne_nil d more)).2.length_le
      refine breaksCons ((behind (.glyph more.length) fun left same => ?_).resolve_left (by simp))
      cases same
      simpa using begins

theorem lexemesBreak (mode : Mode) (u v : List Char)
    (within : ∀ left, mode = .glyph left → left ≤ u.length) : BreaksIn glyphs mode u v := by
  induction u generalizing mode with
  | nil =>
    have fresh : Breaks (lexemes glyphs .fresh []) (lexemes glyphs .fresh ('\n' :: v))
        (lexemes glyphs .fresh v) := ⟨[], '\n', by decide, .inl rfl, readBreak unbroken v⟩
    cases mode with
    | fresh => exact .inr fresh
    | comment => exact .inl ⟨rfl, rfl, rfl⟩
    | glyph left =>
      cases left with
      | zero => exact .inr fresh
      | succ left => exact absurd (within _ rfl) (Nat.not_succ_le_zero left)
  | cons c u ih =>
    have fresh := freshBreak unbroken (c := c) ih
    cases mode with
    | fresh => exact .inr fresh
    | glyph left =>
      cases left with
      | zero => exact .inr fresh
      | succ left =>
        refine .inr ((ih (.glyph left) fun other same => ?_).resolve_left (by simp))
        cases same
        simpa using within _ rfl
    | comment =>
      simp only [BreaksIn, List.cons_append, lexemes]
      split
      · exact .inr ((ih .fresh (by simp)).resolve_left (by simp))
      · exact (ih .comment (by simp)).imp_left fun read => ⟨trivial, read.2⟩

theorem tokensLine (u v : List Char) : ∃ before c, Text.isBlank c = true ∧
    tokens glyphs u = gathered before ∧
    tokens glyphs (u ++ '\n' :: v) = gathered (before ++ .letter c :: lexemes glyphs .fresh v) := by
  obtain ⟨before, c, blank, line | line, whole⟩ :=
    (lexemesBreak unbroken .fresh u v (by simp)).resolve_left (by simp)
  · exact ⟨before, c, blank, by rw [tokensGathered, line], by rw [tokensGathered, whole]⟩
  · exact ⟨before, c, blank, by rw [tokensGathered, line, gatheredEnd blank], by rw [tokensGathered, whole]⟩

theorem readMark {c : Char} (listed : [c] ∈ glyphs) (v : List Char) :
    lexemes glyphs .fresh (c :: '\n' :: v) = .glyph [c] :: .letter '\n' :: lexemes glyphs .fresh v := by
  have covers : [c].length ≤ (longestGlyph glyphs [c]).length := longestGlyphCovers listed (by simp)
  have longest : longestGlyph glyphs (c :: '\n' :: v) = [c] := by
    have line : longestGlyph glyphs (c :: '\n' :: v) = longestGlyph glyphs [c] :=
      longestBeforeBreak unbroken [c] v
    rw [line]
    rcases longestGlyphMember glyphs [c] with nothing | ⟨-, begins⟩
    · rw [nothing] at covers
      contradiction
    · exact begins.eq_of_length_le covers
  have unmarked : commentMark.isPrefixOf (c :: '\n' :: v) = false := by
    simp [commentMark, List.isPrefixOf]
  simp only [lexemes, unmarked, longest, Bool.false_eq_true, if_false]
  exact congrArg _ (readBreak unbroken v)

theorem tokensAroundMark {c : Char} (listed : [c] ∈ glyphs) (u v : List Char) :
    tokens glyphs (u ++ '\n' :: c :: '\n' :: v) =
      tokens glyphs u ++ .glyph (String.ofList [c]) :: tokens glyphs v := by
  obtain ⟨before, b, blank, line, whole⟩ := tokensLine unbroken u (c :: '\n' :: v)
  have split : before ++ .letter b :: .glyph [c] :: .letter '\n' :: lexemes glyphs .fresh v =
      before ++ [.letter b] ++ .glyph [c] :: .letter '\n' :: lexemes glyphs .fresh v := by simp
  rw [whole, readMark unbroken listed, split, gatheredGlyph, gatheredEnd blank, gatheredBlank (by decide), line,
    tokensGathered]

end Breaks

end Lexer

theorem tokenizeAroundMark {glyphs : List String} (unbroken : ∀ g ∈ glyphs, '\n' ∉ g.toList) {c : Char}
    (listed : String.ofList [c] ∈ glyphs) (p q : String) :
    tokenize glyphs (p ++ String.ofList ['\n', c, '\n'] ++ q) =
      tokenize glyphs p ++ .glyph (String.ofList [c]) :: tokenize glyphs q := by
  have free : ∀ g ∈ glyphs.map String.toList, '\n' ∉ g := by simpa using unbroken
  have member : [c] ∈ glyphs.map String.toList :=
    List.mem_map.mpr ⟨_, listed, String.toList_ofList⟩
  have around := Lexer.tokensAroundMark free member p.toList q.toList
  simpa [tokenize] using around

/-- Lines are cut into tokens each on its own; the only token across a break is a text that goes on. -/
theorem tokenizeLines (glyphs : List String) (unbroken : ∀ g ∈ glyphs, '\n' ∉ g.toList) (p q : String) :
    tokenize glyphs (p ++ "\n" ++ q) = Token.runOn (tokenize glyphs p) (tokenize glyphs q) := by
  have free : ∀ g ∈ glyphs.map String.toList, '\n' ∉ g := by simpa using unbroken
  obtain ⟨before, c, blank, line, whole⟩ := Lexer.tokensLine free p.toList q.toList
  have broken := Lexer.gatheredBreak blank before (Lexer.lexemes (glyphs.map String.toList) .fresh q.toList)
  simp only [tokenize, String.toList_append]
  simpa [line, Lexer.tokensGathered] using whole.trans broken

theorem linesCutAlone :
    (∀ g ∈ ["=", "==", "/"], '\n' ∉ g.toList) ∧
      tokenize ["=", "==", "/"] ("a = b // c" ++ "\n" ++ " d == e /") =
        [.text "a", .glyph "=", .text "b d", .glyph "==", .text "e", .glyph "/"] ∧
      tokenize ["=", "==", "/"] ("a = b // c" ++ "\n" ++ " d == e /" ++ "\n" ++ "/ =") =
        [.text "a", .glyph "=", .text "b d", .glyph "==", .text "e", .glyph "/", .glyph "/", .glyph "="] := by
  have unbroken : ∀ g ∈ ["=", "==", "/"], '\n' ∉ g.toList := by decide
  have lines := tokenizeLines ["=", "==", "/"] unbroken
  refine ⟨unbroken, ?_, ?_⟩
  · rw [lines]
    decide +kernel
  · rw [lines, lines]
    decide +kernel

end Parlance
