import Parlance.Token.Lexer

/-! Names that no source text can hold. Where `?` is a glyph, no text token has it in it, so a name with it
is free for the names that programs are lowered with. -/
namespace Parlance

namespace Text

theorem headWordChars (cs : List Char) :
    (∀ c ∈ (headWord cs).1, c ∈ cs) ∧ ∀ w ∈ (headWord cs).2, ∀ c ∈ w, c ∈ cs := by
  induction cs with
  | nil => simp [headWord]
  | cons d cs ih =>
    obtain ⟨head, later⟩ := ih
    have wider : ∀ w ∈ addWord (headWord cs).1 (headWord cs).2, ∀ c ∈ w, c ∈ d :: cs := by
      intro w member c inside
      unfold addWord at member
      split at member
      · exact List.mem_cons_of_mem _ (later w member c inside)
      · rcases List.mem_cons.mp member with rfl | member
        · exact List.mem_cons_of_mem _ (head c inside)
        · exact List.mem_cons_of_mem _ (later w member c inside)
    simp only [headWord]
    split
    · exact ⟨by simp, wider⟩
    · refine ⟨fun c inside => ?_, fun w member c inside => List.mem_cons_of_mem _ (later w member c inside)⟩
      rcases List.mem_cons.mp inside with rfl | inside
      · exact List.mem_cons_self
      · exact List.mem_cons_of_mem _ (head c inside)

theorem wordsChars {cs w : List Char} (member : w ∈ words cs) : ∀ c ∈ w, c ∈ cs := by
  obtain ⟨head, later⟩ := headWordChars cs
  simp only [words, addWord] at member
  split at member
  · exact later w member
  · rcases List.mem_cons.mp member with rfl | member
    · exact head
    · exact later w member

theorem unwordsChars {ws : List (List Char)} {c : Char} (member : c ∈ unwords ws) :
    c = ' ' ∨ ∃ w ∈ ws, c ∈ w := by
  induction ws with
  | nil => simp [unwords] at member
  | cons w ws ih =>
    cases ws with
    | nil => exact .inr ⟨w, List.mem_cons_self, member⟩
    | cons v vs =>
      simp only [unwords, List.mem_append, List.mem_cons] at member
      rcases member with inside | rfl | later
      · exact .inr ⟨w, List.mem_cons_self, inside⟩
      · exact .inl rfl
      · rcases ih later with rfl | ⟨u, mem, inside⟩
        · exact .inl rfl
        · exact .inr ⟨u, List.mem_cons_of_mem _ mem, inside⟩

end Text

namespace Lexer

theorem longestGlyphCovers {gs : List (List Char)} {rest g : List Char} (member : g ∈ gs)
    (begins : g.isPrefixOf rest = true) : g.length ≤ (longestGlyph gs rest).length := by
  induction gs with
  | nil => simp at member
  | cons h gs ih =>
    simp only [longestGlyph]
    rcases List.mem_cons.mp member with rfl | inside
    · split
      · exact Nat.le_refl _
      · rename_i shorter
        simp only [begins, Bool.true_and, decide_eq_true_eq, Nat.not_lt] at shorter
        exact shorter
    · have covered := ih inside
      split
      · rename_i longer
        simp only [Bool.and_eq_true, decide_eq_true_eq] at longer
        omega
      · exact covered

theorem lettersNoGlyph {gs : List (List Char)} {g : Char} (glyph : [g] ∈ gs) (visible : g ≠ ' ')
    (mode : Mode) (cs : List Char) : Lexeme.letter g ∉ lexemes gs mode cs := by
  induction cs generalizing mode with
  | nil => simp [lexemes]
  | cons c cs ih =>
    have fresh : Lexeme.letter g ∉ lexemes gs .fresh (c :: cs) := by
      simp only [lexemes]
      split
      · simpa [visible] using ih .comment
      · split
        · rename_i none
          intro member
          rcases List.mem_cons.mp member with same | later
          · cases same
            have begins : [g].isPrefixOf (g :: cs) = true := by simp
            have covered := longestGlyphCovers glyph begins
            rw [none] at covered
            simp at covered
          · exact ih .fresh later
        · rename_i d more _
          simpa using ih (.glyph more.length)
    match mode with
    | .fresh => exact fresh
    | .glyph 0 => exact fresh
    | .comment => exact ih _
    | .glyph (left + 1) => exact ih (.glyph left)

theorem textTokenChars {run : List Char} {s : String} (member : Token.text s ∈ textToken run) :
    ∀ c ∈ s.toList, c = ' ' ∨ c ∈ run := by
  unfold textToken at member
  split at member
  · contradiction
  · rename_i w ws found
    intro c inside
    cases List.mem_singleton.mp member
    rw [String.toList_ofList] at inside
    rcases Text.unwordsChars inside with blank | ⟨v, mem, char⟩
    · exact .inl blank
    · exact .inr (Text.wordsChars (found ▸ mem) c char)

theorem gatherChars (ls : List Lexeme) :
    (∀ c ∈ (gather ls).1, Lexeme.letter c ∈ ls) ∧
    ∀ s, Token.text s ∈ (gather ls).2 → ∀ c ∈ s.toList, c = ' ' ∨ Lexeme.letter c ∈ ls := by
  induction ls with
  | nil => simp [gather]
  | cons l ls ih =>
    obtain ⟨run, texts⟩ := ih
    cases l with
    | letter d =>
      simp only [gather]
      constructor
      · intro c inside
        rcases List.mem_cons.mp inside with rfl | inside
        · exact List.mem_cons_self
        · exact List.mem_cons_of_mem _ (run c inside)
      · intro s member c inside
        exact (texts s member c inside).imp_right (List.mem_cons_of_mem _)
    | glyph g =>
      simp only [gather]
      refine ⟨by simp, fun s member c inside => ?_⟩
      rcases List.mem_cons.mp member with glyph | member
      · contradiction
      rcases List.mem_append.mp member with here | later
      · exact (textTokenChars here c inside).imp_right fun char =>
          List.mem_cons_of_mem _ (run c char)
      · exact (texts s later c inside).imp_right (List.mem_cons_of_mem _)

theorem textHasNoGlyph {gs : List (List Char)} {g : Char} (glyph : [g] ∈ gs) (visible : g ≠ ' ')
    {source : List Char} {s : String} (member : Token.text s ∈ tokens gs source) : g ∉ s.toList := by
  intro inside
  have letters := lettersNoGlyph glyph visible .fresh source
  obtain ⟨run, texts⟩ := gatherChars (lexemes gs .fresh source)
  rcases List.mem_append.mp member with here | later
  · rcases textTokenChars here g inside with blank | char
    · exact visible blank
    · exact letters (run g char)
  · rcases texts s later g inside with blank | char
    · exact visible blank
    · exact letters char

end Lexer

def Hidden (name : String) : Prop := '?' ∈ name.toList

instance (name : String) : Decidable (Hidden name) := by unfold Hidden; infer_instance

theorem textNotHidden {glyphs : List String} (mark : "?" ∈ glyphs) {source s : String}
    (member : Token.text s ∈ tokenize glyphs source) : ¬ Hidden s := by
  have glyph : ['?'] ∈ glyphs.map String.toList := List.mem_map.mpr ⟨"?", mark, rfl⟩
  exact Lexer.textHasNoGlyph glyph (by decide) member

end Parlance
