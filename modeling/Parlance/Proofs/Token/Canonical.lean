import Parlance.Proofs.Text.Words
import Parlance.Proofs.Token.Hidden

/-! Tokens and the line that they are written on. Every source text is cut into tokens in canonical form, and
tokens in canonical form that are written on one line with spaces between them are read back. -/
namespace Parlance

namespace Lexer

def Barred (glyphs : List (List Char)) (g : List Char) : Prop :=
  g = commentMark ∨ g ∈ glyphs ∧ g ≠ []

theorem barredSome {glyphs : List (List Char)} {g : List Char} (barred : Barred glyphs g) : g ≠ [] := by
  rcases barred with rfl | ⟨-, filled⟩
  · decide
  · exact filled

theorem longestGlyphMember (glyphs : List (List Char)) (rest : List Char) :
    longestGlyph glyphs rest = [] ∨
      longestGlyph glyphs rest ∈ glyphs ∧ longestGlyph glyphs rest <+: rest := by
  induction glyphs with
  | nil => exact .inl rfl
  | cons g gs ih =>
    simp only [longestGlyph]
    split
    · rename_i longer
      simp only [Bool.and_eq_true] at longer
      exact .inr ⟨List.mem_cons_self, List.isPrefixOf_iff_prefix.mp longer.1⟩
    · exact ih.imp_right fun found => ⟨List.mem_cons_of_mem _ found.1, found.2⟩

section

variable {glyphs : List (List Char)}

variable (glyphs) in
theorem freshCases (c : Char) (cs : List Char) :
    (commentMark <+: c :: cs ∧
      lexemes glyphs .fresh (c :: cs) = .letter ' ' :: lexemes glyphs .comment cs) ∨
    (∃ more, c :: more ∈ glyphs ∧ c :: more <+: c :: cs ∧ ¬ commentMark <+: c :: cs ∧
      (∀ g ∈ glyphs, g <+: c :: cs → g.length ≤ more.length + 1) ∧
      lexemes glyphs .fresh (c :: cs) =
        .glyph (c :: more) :: lexemes glyphs (.glyph more.length) cs) ∨
    ((∀ g, Barred glyphs g → ¬ g <+: c :: cs) ∧
      lexemes glyphs .fresh (c :: cs) = .letter c :: lexemes glyphs .fresh cs) := by
  have covers : ∀ g ∈ glyphs, g <+: c :: cs → g.length ≤ (longestGlyph glyphs (c :: cs)).length :=
    fun g member begins => longestGlyphCovers member (List.isPrefixOf_iff_prefix.mpr begins)
  have found := longestGlyphMember glyphs (c :: cs)
  by_cases comment : commentMark <+: c :: cs
  · exact .inl ⟨comment, by simp only [lexemes, List.isPrefixOf_iff_prefix.mpr comment, if_true]⟩
  have unmarked : ¬ commentMark.isPrefixOf (c :: cs) = true := fun h =>
    comment (List.isPrefixOf_iff_prefix.mp h)
  cases best : longestGlyph glyphs (c :: cs) with
  | nil =>
    refine .inr (.inr ⟨fun g barred begins => ?_, by simp only [lexemes, if_neg unmarked, best]⟩)
    rcases barred with rfl | ⟨member, filled⟩
    · exact comment begins
    · have short := covers g member begins
      rw [best] at short
      exact filled (List.length_eq_zero_iff.mp (Nat.le_zero.mp short))
  | cons d more =>
    rw [best] at found covers
    obtain ⟨member, begins⟩ := found.resolve_left (List.cons_ne_nil d more)
    obtain ⟨rfl, -⟩ := List.cons_prefix_cons.mp begins
    exact .inr (.inl ⟨more, member, begins, comment, by simpa using covers,
      by simp only [lexemes, if_neg unmarked, best]⟩)

theorem glyphDone (cs : List Char) : lexemes glyphs (.glyph 0) cs = lexemes glyphs .fresh cs := by
  cases cs <;> rfl

theorem gatherLetter (c : Char) (ls : List Lexeme) :
    gather (.letter c :: ls) = (c :: (gather ls).1, (gather ls).2) := rfl

theorem gatherGlyph (g : List Char) (ls : List Lexeme) :
    gather (.glyph g :: ls) =
      ([], .glyph (String.ofList g) :: (textToken (gather ls).1 ++ (gather ls).2)) := rfl

theorem gatherUnbegun (ls : List Lexeme) (s : String) (rest : List Token) :
    (gather ls).2 ≠ .text s :: rest := by
  induction ls with
  | nil => simp [gather]
  | cons l ls ih =>
    cases l with
    | letter c => exact ih
    | glyph g => simp [gatherGlyph]

theorem textTokenWords {run : List Char} {t : Token} (member : t ∈ textToken run) :
    Text.words run ≠ [] ∧ t = .text (String.ofList (Text.unwords (Text.words run))) := by
  unfold textToken at member
  split at member
  · contradiction
  · rename_i w ws found
    rw [found]
    exact ⟨List.cons_ne_nil w ws, List.mem_singleton.mp member⟩

section Cut

variable (unblank : ∀ g, Barred glyphs g → Text.Unblank g)

theorem runSpelled {g : List Char} (visible : Text.Unblank g) {cs : List Char}
    (h : g <+: (gather (lexemes glyphs .fresh cs)).1) : g <+: cs := by
  induction cs generalizing g with
  | nil => exact h
  | cons c cs ih =>
    cases g with
    | nil => exact List.nil_prefix
    | cons d g =>
      rcases freshCases glyphs c cs with ⟨-, read⟩ | ⟨more, -, -, -, -, read⟩ | ⟨-, read⟩
      · rw [read, gatherLetter] at h
        obtain ⟨rfl, -⟩ := List.cons_prefix_cons.mp h
        exact absurd List.mem_cons_self (Text.spaceNotIn visible)
      · rw [read, gatherGlyph] at h
        exact absurd (List.prefix_nil.mp h) (List.cons_ne_nil d g)
      · rw [read, gatherLetter] at h
        obtain ⟨rfl, further⟩ := List.cons_prefix_cons.mp h
        exact List.cons_prefix_cons.mpr ⟨rfl, ih (Text.unblankTail visible) further⟩

include unblank

theorem runClean {g : List Char} (barred : Barred glyphs g) (mode : Mode) (cs : List Char) :
    ¬ g <:+: (gather (lexemes glyphs mode cs)).1 := by
  induction cs generalizing mode with
  | nil => exact fun h => barredSome barred (List.infix_nil.mp (by cases mode <;> exact h))
  | cons c cs ih =>
    have fresh : ¬ g <:+: (gather (lexemes glyphs .fresh (c :: cs))).1 := by
      intro h
      rcases freshCases glyphs c cs with ⟨-, read⟩ | ⟨more, -, -, -, -, read⟩ | ⟨none, read⟩
      · rw [read, gatherLetter] at h
        rcases Text.infixBesideSpace (u := []) (unblank g barred) h with nothing | later
        · exact barredSome barred (List.infix_nil.mp nothing)
        · exact ih .comment later
      · rw [read, gatherGlyph] at h
        exact barredSome barred (List.infix_nil.mp h)
      · have whole := read
        rw [read, gatherLetter] at h
        rcases List.infix_cons_iff.mp h with here | later
        · refine none g barred (@runSpelled glyphs _ (unblank g barred) _ ?_)
          rwa [read, gatherLetter]
        · exact ih .fresh later
    match mode with
    | .fresh => exact fresh
    | .glyph 0 => exact fresh
    | .comment => exact ih _
    | .glyph (left + 1) => exact ih (.glyph left)

end Cut

section Read

variable (unblank : ∀ g, Barred glyphs g → Text.Unblank g) {tail : List Char}

theorem glyphSkips (w tail : List Char) :
    lexemes glyphs (.glyph w.length) (w ++ tail) = lexemes glyphs .fresh tail := by
  induction w with
  | nil => exact glyphDone tail
  | cons c w ih => exact ih

theorem gatherLetters (cs : List Char) (ls : List Lexeme) :
    gather (cs.map .letter ++ ls) = (cs ++ (gather ls).1, (gather ls).2) := by
  induction cs with
  | nil => rfl
  | cons c cs ih =>
    rw [List.map_cons, List.cons_append, gatherLetter, ih]
    rfl

include unblank

theorem barredBefore {u g : List Char} (barred : Barred glyphs g)
    (ends : tail = [] ∨ ∃ v, tail = ' ' :: v) (h : g <+: u ++ tail) : g <+: u := by
  rcases ends with rfl | ⟨v, rfl⟩
  · simpa using h
  · exact Text.prefixBeforeSpace (unblank g barred) h

theorem readSpace (v : List Char) :
    lexemes glyphs .fresh (' ' :: v) = .letter ' ' :: lexemes glyphs .fresh v := by
  rcases freshCases glyphs ' ' v with ⟨opens, -⟩ | ⟨more, member, -⟩ | ⟨-, read⟩
  · have bare := barredBefore (u := []) unblank (.inl rfl) (.inr ⟨v, rfl⟩) opens
    exact absurd (List.prefix_nil.mp bare) (by decide)
  · have visible := unblank _ (.inr ⟨member, List.cons_ne_nil ' ' more⟩)
    exact absurd List.mem_cons_self (Text.spaceNotIn visible)
  · exact read

theorem readGlyph {c : Char} {more : List Char} (member : c :: more ∈ glyphs)
    (unmarked : ¬ commentMark <+: c :: more) (ends : tail = [] ∨ ∃ v, tail = ' ' :: v) :
    lexemes glyphs .fresh (c :: more ++ tail) = .glyph (c :: more) :: lexemes glyphs .fresh tail := by
  have barred : Barred glyphs (c :: more) := .inr ⟨member, List.cons_ne_nil c more⟩
  have here : c :: more <+: c :: (more ++ tail) := List.prefix_append (c :: more) tail
  rcases freshCases glyphs c (more ++ tail) with
    ⟨opens, -⟩ | ⟨other, listed, begins, -, longest, read⟩ | ⟨none, -⟩
  · exact absurd (barredBefore (u := c :: more) unblank (.inl rfl) ends opens) unmarked
  · have within := barredBefore (u := c :: more) unblank (.inr ⟨listed, List.cons_ne_nil c other⟩)
      ends begins
    have long := longest _ member here
    obtain ⟨-, rfl⟩ := List.cons.inj (within.eq_of_length_le long)
    rw [List.cons_append, read, glyphSkips]
  · exact absurd here (none _ barred)

theorem readText {cs : List Char} (clean : ∀ g, Barred glyphs g → ¬ g <:+: cs)
    (ends : tail = [] ∨ ∃ v, tail = ' ' :: v) :
    lexemes glyphs .fresh (cs ++ tail) = cs.map .letter ++ lexemes glyphs .fresh tail := by
  induction cs with
  | nil => rfl
  | cons c cs ih =>
    have unspelled : ∀ g, Barred glyphs g → ¬ g <+: c :: (cs ++ tail) := fun g barred begins =>
      clean g barred (barredBefore (u := c :: cs) unblank barred ends begins).isInfix
    rcases freshCases glyphs c (cs ++ tail) with
      ⟨opens, -⟩ | ⟨more, listed, begins, -⟩ | ⟨-, read⟩
    · exact absurd opens (unspelled _ (.inl rfl))
    · exact absurd begins (unspelled _ (.inr ⟨listed, List.cons_ne_nil c more⟩))
    · rw [List.cons_append, read, ih fun g barred inside => clean g barred (List.infix_cons inside)]
      rfl

end Read

end

end Lexer

namespace Token

def line (tokens : List Token) : String := " ".intercalate (tokens.map content)

/-- The form of a token over a glyph table, where `//` opens a comment. -/
def Canonical (glyphs : List String) : Token → Prop
  | .glyph s => s ∈ glyphs ∧ s ≠ "" ∧ ¬ "//".toList <+: s.toList
  | .text s =>
    (∃ ws : List String, ws ≠ [] ∧ (∀ w ∈ ws, w ≠ "" ∧ ∀ c ∈ w.toList, Text.isBlank c = false) ∧
      s = " ".intercalate ws) ∧
    ¬ "//".toList <:+: s.toList ∧ ∀ g ∈ glyphs, g ≠ "" → ¬ g.toList <:+: s.toList

structure CanonicalList (glyphs : List String) (tokens : List Token) : Prop where
  each : ∀ t ∈ tokens, t.Canonical glyphs
  apart : ∀ before s s' after, tokens ≠ before ++ .text s :: .text s' :: after

variable {glyphs : List String} {tokens : List Token} {t : Token}

theorem canonicalNone : CanonicalList glyphs [] where
  each := by simp
  apart before s s' after := by simp

theorem canonicalCons (first : t.Canonical glyphs) (others : CanonicalList glyphs tokens)
    (apart : t.isText = true → ∀ s rest, tokens ≠ .text s :: rest) :
    CanonicalList glyphs (t :: tokens) where
  each := List.forall_mem_cons.mpr ⟨first, others.each⟩
  apart before s s' after same := by
    cases before with
    | nil =>
      obtain ⟨rfl, rfl⟩ := List.cons.inj same
      exact apart rfl s' after rfl
    | cons b before => exact others.apart before s s' after (List.cons.inj same).2

theorem canonicalTail (h : CanonicalList glyphs (t :: tokens)) : CanonicalList glyphs tokens where
  each := (List.forall_mem_cons.mp h.each).2
  apart before s s' after same := h.apart (t :: before) s s' after (by rw [same]; rfl)

theorem joinedWords {s : String} :
    (∃ ws : List String, ws ≠ [] ∧ (∀ w ∈ ws, w ≠ "" ∧ ∀ c ∈ w.toList, Text.isBlank c = false) ∧
      s = " ".intercalate ws) ↔
    ∃ ws, ws ≠ [] ∧ (∀ w ∈ ws, Text.IsWord w) ∧ s.toList = Text.unwords ws := by
  constructor
  · rintro ⟨ws, filled, each, rfl⟩
    refine ⟨ws.map String.toList, by simpa using filled, fun w member => ?_, ?_⟩
    · obtain ⟨v, inside, rfl⟩ := List.mem_map.mp member
      exact ⟨by simpa using (each v inside).1, (each v inside).2⟩
    · rw [String.toList_intercalate, Text.unwordsIntercalate]
      rfl
  · rintro ⟨ws, filled, each, same⟩
    refine ⟨ws.map String.ofList, by simpa using filled, fun w member => ?_, ?_⟩
    · obtain ⟨v, inside, rfl⟩ := List.mem_map.mp member
      exact ⟨by simpa using (each v inside).1, by simpa [Text.Unblank] using (each v inside).2⟩
    · apply String.toList_injective
      rw [same, String.toList_intercalate, Text.unwordsIntercalate, List.map_map]
      simp [Function.comp_def]

section Produced

variable (unblank : ∀ g ∈ glyphs, ∀ c ∈ g.toList, Text.isBlank c = false)

include unblank

theorem barredUnblank {g : List Char} (barred : Lexer.Barred (glyphs.map String.toList) g) :
    Text.Unblank g := by
  rcases barred with rfl | ⟨member, -⟩
  · exact List.forall_mem_cons.mpr ⟨rfl, List.forall_mem_cons.mpr ⟨rfl, by simp⟩⟩
  · obtain ⟨s, inside, rfl⟩ := List.mem_map.mp member
    exact unblank s inside

theorem textCanonical {run : List Char}
    (clean : ∀ g, Lexer.Barred (glyphs.map String.toList) g → ¬ g <:+: run)
    (produced : t ∈ Lexer.textToken run) : t.Canonical glyphs ∧ t.isText = true := by
  obtain ⟨filled, rfl⟩ := Lexer.textTokenWords produced
  have unspelled : ∀ g, Lexer.Barred (glyphs.map String.toList) g →
      ¬ g <:+: Text.unwords (Text.words run) := by
    intro g barred spelled
    obtain ⟨w, member, inside⟩ :=
      Text.infixInWord (barredUnblank unblank barred) (Lexer.barredSome barred) spelled
    exact clean g barred (inside.trans (Text.wordsRun member).1)
  refine ⟨⟨joinedWords.mpr ⟨_, filled, fun w member => (Text.wordsRun member).2, by simp⟩, ?_, ?_⟩, rfl⟩
  · simpa [Lexer.commentMark] using unspelled _ (.inl rfl)
  · intro g member present
    simpa using unspelled g.toList (.inr ⟨List.mem_map_of_mem member, by simpa using present⟩)

theorem runCanonical {run : List Char}
    (clean : ∀ g, Lexer.Barred (glyphs.map String.toList) g → ¬ g <:+: run)
    (others : CanonicalList glyphs tokens) (begun : ∀ s rest, tokens ≠ .text s :: rest) :
    CanonicalList glyphs (Lexer.textToken run ++ tokens) := by
  have each : ∀ t ∈ Lexer.textToken run, t.Canonical glyphs ∧ t.isText = true := fun t produced =>
    textCanonical unblank clean produced
  unfold Lexer.textToken
  split
  · exact others
  · rename_i w ws found
    exact canonicalCons (each _ (by simp [Lexer.textToken, found])).1 others fun _ => begun

theorem gatherCanonical (mode : Lexer.Mode) (cs : List Char) :
    CanonicalList glyphs (Lexer.gather (Lexer.lexemes (glyphs.map String.toList) mode cs)).2 := by
  -- By induction on the source: a glyph is followed by the text that runs up to the next one.
  induction cs generalizing mode with
  | nil => cases mode <;> exact canonicalNone
  | cons c cs ih =>
    have fresh : CanonicalList glyphs
        (Lexer.gather (Lexer.lexemes (glyphs.map String.toList) .fresh (c :: cs))).2 := by
      rcases Lexer.freshCases (glyphs.map String.toList) c cs with
        ⟨-, read⟩ | ⟨more, member, begins, unmarked, -, read⟩ | ⟨-, read⟩
      · rw [read, Lexer.gatherLetter]
        exact ih .comment
      · rw [read, Lexer.gatherGlyph]
        obtain ⟨g, listed, same⟩ := List.mem_map.mp member
        have first : Canonical glyphs (.glyph (String.ofList (c :: more))) := by
          rw [← same] at begins ⊢
          rw [String.ofList_toList]
          refine ⟨listed, ?_, fun opens => unmarked (opens.trans begins)⟩
          rintro rfl
          contradiction
        have others := runCanonical unblank
          (fun _ barred => Lexer.runClean (fun _ => barredUnblank unblank) barred (.glyph more.length) cs)
          (ih (.glyph more.length)) (Lexer.gatherUnbegun _)
        exact canonicalCons first others (by simp [isText])
      · rw [read, Lexer.gatherLetter]
        exact ih .fresh
    cases mode with
    | fresh => exact fresh
    | comment => exact ih _
    | glyph left =>
      cases left with
      | zero => exact fresh
      | succ left => exact ih (.glyph left)

theorem tokenizeCanonical (source : String) : CanonicalList glyphs (tokenize glyphs source) :=
  runCanonical unblank (fun _ barred => Lexer.runClean (fun _ => barredUnblank unblank) barred _ _)
    (gatherCanonical unblank .fresh source.toList) (Lexer.gatherUnbegun _)

end Produced

section Written

variable (unblank : ∀ g ∈ glyphs, ∀ c ∈ g.toList, Text.isBlank c = false)

def lineChars (tokens : List Token) : List Char :=
  Text.unwords (tokens.map fun t => t.content.toList)

theorem lineToList (tokens : List Token) : (line tokens).toList = lineChars tokens := by
  simp only [line, lineChars, String.toList_intercalate, Text.unwordsIntercalate, List.map_map]
  rfl

def ReadsBack (glyphs : List String) (cs : List Char) (tokens : List Token) : Prop :=
  ∃ run others, Lexer.gather (Lexer.lexemes (glyphs.map String.toList) .fresh cs) = (run, others) ∧
    Lexer.textToken run ++ others = tokens ∧
    ((∀ s rest, tokens ≠ .text s :: rest) → ∃ n, run = List.replicate n ' ')

theorem barredClean {s : String} (canonical : Canonical glyphs (.text s)) (g : List Char)
    (barred : Lexer.Barred (glyphs.map String.toList) g) : ¬ g <:+: s.toList := by
  obtain ⟨-, uncommented, unsigned⟩ := canonical
  rcases barred with rfl | ⟨member, filled⟩
  · exact uncommented
  · obtain ⟨sign, listed, rfl⟩ := List.mem_map.mp member
    exact unsigned sign listed (by simpa using filled)

theorem joinedToken {s : String} (joined : Canonical glyphs (.text s)) (n : Nat) :
    Lexer.textToken (s.toList ++ List.replicate n ' ') = [.text s] := by
  obtain ⟨ws, filled, each, same⟩ := joinedWords.mp joined.1
  obtain ⟨w, others, rfl⟩ := List.exists_cons_of_ne_nil filled
  have words := Text.wordsJoined each n
  unfold Lexer.textToken
  rw [same, words]
  simp only [← same, String.ofList_toList]

theorem spacesToken (n : Nat) : Lexer.textToken (List.replicate n ' ') = [] := by
  simp [Lexer.textToken, Text.wordsSpaces]

include unblank

theorem spaceReadsBack {cs : List Char} (others : ReadsBack glyphs cs tokens) :
    ReadsBack glyphs (' ' :: cs) tokens := by
  obtain ⟨run, later, gathered, same, blank⟩ := others
  refine ⟨' ' :: run, later, ?_, same, fun begun => ?_⟩
  · rw [Lexer.readSpace fun g => barredUnblank unblank, Lexer.gatherLetter, gathered]
  · obtain ⟨n, rfl⟩ := blank begun
    exact ⟨n + 1, rfl⟩

theorem tokenReadsBack {tail : List Char} (first : t.Canonical glyphs)
    (ends : tail = [] ∨ ∃ v, tail = ' ' :: v) (others : ReadsBack glyphs tail tokens)
    (apart : t.isText = true → ∀ s rest, tokens ≠ .text s :: rest) :
    ReadsBack glyphs (t.content.toList ++ tail) (t :: tokens) := by
  have visible : ∀ g, Lexer.Barred (glyphs.map String.toList) g → Text.Unblank g := fun g =>
    barredUnblank unblank
  obtain ⟨run, later, gathered, same, blank⟩ := others
  cases t with
  | glyph s =>
    obtain ⟨listed, filled, unmarked⟩ := first
    obtain ⟨c, more, spelled⟩ := List.exists_cons_of_ne_nil (mt String.toList_eq_nil_iff.mp filled)
    have member : c :: more ∈ glyphs.map String.toList := spelled ▸ List.mem_map_of_mem listed
    have sign : String.ofList (c :: more) = s := by rw [← spelled, String.ofList_toList]
    refine ⟨[], .glyph s :: (Lexer.textToken run ++ later), ?_, ?_, fun _ => ⟨0, rfl⟩⟩
    · rw [content, spelled, Lexer.readGlyph visible member (spelled ▸ unmarked) ends,
        Lexer.gatherGlyph, gathered, sign]
    · rw [same]
      rfl
  | text s =>
    obtain ⟨n, rfl⟩ := blank (apart rfl)
    rw [spacesToken, List.nil_append] at same
    refine ⟨s.toList ++ List.replicate n ' ', later, ?_, ?_, fun begun => absurd rfl (begun s tokens)⟩
    · rw [content, Lexer.readText visible (barredClean first) ends, Lexer.gatherLetters, gathered]
    · rw [joinedToken first, same]
      rfl

theorem lineReadsBack (canonical : CanonicalList glyphs tokens) :
    ReadsBack glyphs (lineChars tokens) tokens := by
  induction tokens with
  | nil => exact ⟨[], [], rfl, rfl, fun _ => ⟨0, rfl⟩⟩
  | cons t tokens ih =>
    have others := canonicalTail canonical
    have first := canonical.each t List.mem_cons_self
    have apart : t.isText = true → ∀ s rest, tokens ≠ .text s :: rest := by
      rintro text s rest rfl
      cases t with
      | glyph => contradiction
      | text s' => exact canonical.apart [] s' s rest rfl
    cases tokens with
    | nil =>
      have alone := tokenReadsBack unblank first (.inl rfl) (ih others) apart
      simpa [lineChars, Text.unwords] using alone
    | cons u rest =>
      exact tokenReadsBack unblank first (.inr ⟨_, rfl⟩) (spaceReadsBack unblank (ih others)) apart

end Written

end Token

/-- Cutting a source into tokens and writing tokens on a line are inverse, over any glyphs without blanks. -/
theorem tokenizeLine (glyphs : List String)
    (unblank : ∀ g ∈ glyphs, ∀ c ∈ g.toList, Text.isBlank c = false) :
    (∀ source, Token.CanonicalList glyphs (tokenize glyphs source)) ∧
      ∀ tokens, Token.CanonicalList glyphs tokens → tokenize glyphs (Token.line tokens) = tokens := by
  refine ⟨Token.tokenizeCanonical unblank, fun tokens canonical => ?_⟩
  obtain ⟨run, others, gathered, same, -⟩ := Token.lineReadsBack unblank canonical
  rw [tokenize, Token.lineToList, Lexer.tokens, gathered]
  exact same

theorem slashesReadBack :
    (∀ g ∈ ["=", "==", "/", ""], ∀ c ∈ g.toList, Text.isBlank c = false) ∧
      tokenize ["=", "==", "/", ""] "a // b
 c===/ /=" =
        [.text "a c", .glyph "==", .glyph "=", .glyph "/", .glyph "/", .glyph "="] ∧
      Token.CanonicalList ["=", "==", "/", ""] (tokenize ["=", "==", "/", ""] "a // b
 c===/ /=") ∧
      tokenize ["=", "==", "/", ""]
          (Token.line (tokenize ["=", "==", "/", ""] "a // b
 c===/ /=")) =
        tokenize ["=", "==", "/", ""] "a // b
 c===/ /=" := by
  have checked : (["=", "==", "/", ""].all fun g => g.toList.all fun c => !Text.isBlank c) = true := by
    decide +kernel
  have unblank : ∀ g ∈ ["=", "==", "/", ""], ∀ c ∈ g.toList, Text.isBlank c = false := by
    intro g member c inside
    have visible := List.all_eq_true.mp (List.all_eq_true.mp checked g member) c inside
    simpa using visible
  obtain ⟨cut, read⟩ := tokenizeLine ["=", "==", "/", ""] unblank
  exact ⟨unblank, by decide +kernel, cut _, read _ (cut _)⟩

end Parlance
