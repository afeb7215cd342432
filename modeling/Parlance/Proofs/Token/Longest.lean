import Mathlib.Data.List.Destutter
import Parlance.Proofs.Token.Lines

/-! A glyph table is a set. What counts of a table is which glyphs are in it, as the lexer takes the longest of
those that stand where it looks. A table that is put in order by length, so that the first glyph that stands there
is the longest, answers the same. -/
namespace Parlance

namespace Lexer

/-- The longest glyph of a table that a text starts with. -/
structure Longest (glyphs : List String) (rest : List Char) (g : String) : Prop where
  listed : g ∈ glyphs
  filled : g ≠ ""
  begins : g.toList <+: rest
  longest : ∀ h ∈ glyphs, h.toList <+: rest → h.length ≤ g.length

/-- The places at which the lexer looks for a comment, a glyph or a letter, as what it has passed and what is
left. -/
inductive Reaches (glyphs : List String) : List Char → List Char → Prop where
  | start (source : List Char) : Reaches glyphs [] source
  | comment {before line after} (reached : Reaches glyphs before (commentMark ++ line ++ '\n' :: after))
      (free : '\n' ∉ line) : Reaches glyphs (before ++ (commentMark ++ line ++ ['\n'])) after
  | lastComment {before line} (reached : Reaches glyphs before (commentMark ++ line)) (free : '\n' ∉ line) :
      Reaches glyphs (before ++ (commentMark ++ line)) []
  | glyph {before g after} (reached : Reaches glyphs before (g.toList ++ after))
      (unmarked : ¬ commentMark <+: g.toList ++ after) (longest : Longest glyphs (g.toList ++ after) g) :
      Reaches glyphs (before ++ g.toList) after
  | letter {before c after} (reached : Reaches glyphs before (c :: after))
      (unmarked : ¬ commentMark <+: c :: after)
      (none : ∀ g ∈ glyphs, g ≠ "" → ¬ g.toList <+: c :: after) : Reaches glyphs (before ++ [c]) after

def SameGlyphs (glyphs others : List String) : Prop := ∀ g, g ≠ "" → (g ∈ glyphs ↔ g ∈ others)

section Table

def comesFirst (g h : String) : Bool :=
  decide (h.utf8ByteSize < g.utf8ByteSize) || g.utf8ByteSize == h.utf8ByteSize && decide (g ≤ h)

def ordered (glyphs : List String) : List String :=
  ((glyphs.filter (· ≠ "")).mergeSort comesFirst).destutter (· ≠ ·)

variable {glyphs : List String}

theorem destutterMember {l : List String} {a b : String} (member : b ∈ a :: l) :
    b ∈ l.destutter' (· ≠ ·) a := by
  induction l generalizing a with
  | nil => exact member
  | cons c l ih =>
    by_cases same : a = c
    · subst same
      rw [List.destutter'_cons_neg _ (by simp)]
      exact ih (by simpa using member)
    · rw [List.destutter'_cons_pos _ same]
      rcases List.mem_cons.mp member with rfl | later
      · exact List.mem_cons_self
      · exact List.mem_cons_of_mem _ (ih later)

theorem orderedMember {g : String} : g ∈ ordered glyphs ↔ g ∈ glyphs ∧ g ≠ "" := by
  have sorted : g ∈ (glyphs.filter (· ≠ "")).mergeSort comesFirst ↔ g ∈ glyphs ∧ g ≠ "" := by
    simp
  rw [← sorted, ordered]
  refine ⟨fun member => (List.destutter_sublist _ _).subset member, fun member => ?_⟩
  generalize (glyphs.filter (· ≠ "")).mergeSort comesFirst = l at member ⊢
  cases l with
  | nil => contradiction
  | cons a l => exact destutterMember member

theorem orderedBySize (glyphs : List String) :
    (ordered glyphs).Pairwise fun g h => h.utf8ByteSize ≤ g.utf8ByteSize := by
  have sorted := @List.pairwise_mergeSort _ comesFirst
    (by
      intro a b c
      simp only [comesFirst, Bool.or_eq_true, Bool.and_eq_true, decide_eq_true_eq, beq_iff_eq]
      rintro (ab | ⟨ab, first⟩) (bc | ⟨bc, second⟩)
      · exact .inl (by omega)
      · exact .inl (by omega)
      · exact .inl (by omega)
      · exact .inr ⟨by omega, String.le_trans first second⟩)
    (by
      intro a b
      simp only [comesFirst, Bool.or_eq_true, Bool.and_eq_true, decide_eq_true_eq, beq_iff_eq]
      rcases Nat.lt_trichotomy a.utf8ByteSize b.utf8ByteSize with less | same | more
      · exact .inr (.inl less)
      · rcases String.le_total a b with before | after
        · exact .inl (.inr ⟨same, before⟩)
        · exact .inr (.inr ⟨same.symm, after⟩)
      · exact .inl (.inl more))
    (glyphs.filter (· ≠ ""))
  refine (sorted.sublist (List.destutter_sublist _ _)).imp fun first => ?_
  simp only [comesFirst, Bool.or_eq_true, Bool.and_eq_true, decide_eq_true_eq, beq_iff_eq] at first
  omega

theorem sizedLength {rest : List Char} {g h : String} (first : g.toList <+: rest) (second : h.toList <+: rest)
    (size : h.utf8ByteSize ≤ g.utf8ByteSize) : h.length ≤ g.length := by
  rcases List.prefix_or_prefix_of_prefix second first with within | ⟨more, further⟩
  · simpa only [String.length_toList] using within.length_le
  · have whole : h = g ++ String.ofList more := by
      apply String.toList_injective
      simp [← further]
    have nothing : (String.ofList more).utf8ByteSize = 0 := by
      rw [whole, String.utf8ByteSize_append] at size
      omega
    rw [whole, String.utf8ByteSize_eq_zero_iff.mp nothing, String.append_empty]

theorem longestOnce {rest : List Char} {g h : String} (first : Longest glyphs rest g)
    (second : Longest glyphs rest h) : g = h := by
  have shorter := second.longest g first.listed first.begins
  have longer := first.longest h second.listed second.begins
  have within : g.toList <+: h.toList :=
    List.prefix_of_prefix_length_le first.begins second.begins (by simpa only [String.length_toList])
  exact String.toList_injective (within.eq_of_length_le (by simpa only [String.length_toList]))

theorem searchedLongest {rest : List Char} {g : String} :
    (ordered glyphs).find? (fun h => h.toList.isPrefixOf rest) = some g ↔ Longest glyphs rest g := by
  have found : ∀ f, (ordered glyphs).find? (fun h => h.toList.isPrefixOf rest) = some f →
      Longest glyphs rest f := by
    intro f first
    obtain ⟨begins, before, after, split, passed⟩ := List.find?_eq_some_iff_append.mp first
    have member : f ∈ ordered glyphs := by simp [split]
    obtain ⟨listed, filled⟩ := orderedMember.mp member
    have starts : f.toList <+: rest := List.isPrefixOf_iff_prefix.mp begins
    refine ⟨listed, filled, starts, fun h other opens => ?_⟩
    rcases eq_or_ne h "" with rfl | present
    · exact Nat.zero_le _
    have inside := orderedMember.mpr ⟨other, present⟩
    have bySize := orderedBySize glyphs
    rw [split] at inside bySize
    rcases List.mem_append.mp inside with early | late
    · have unopened := passed h early
      simp [List.isPrefixOf_iff_prefix.mpr opens] at unopened
    · rcases List.mem_cons.mp late with rfl | late
      · exact Nat.le_refl _
      -- Behind the one that was found no glyph has more bytes, so none that stands here is longer.
      · have sizes := (List.pairwise_cons.mp (List.pairwise_append.mp bySize).2.1).1 h late
        exact sizedLength starts opens sizes
  refine ⟨found g, fun longest => ?_⟩
  have some : ((ordered glyphs).find? fun h => h.toList.isPrefixOf rest).isSome :=
    List.find?_isSome.mpr ⟨g, orderedMember.mpr ⟨longest.listed, longest.filled⟩,
      List.isPrefixOf_iff_prefix.mpr longest.begins⟩
  obtain ⟨f, first⟩ := Option.isSome_iff_exists.mp some
  rw [first, longestOnce (found f first) longest]

end Table

section Read

variable {glyphs : List String}

theorem readLongest {rest : List Char} {g : String} :
    g ≠ "" ∧ longestGlyph (glyphs.map String.toList) rest = g.toList ↔ Longest glyphs rest g := by
  have covers : ∀ h ∈ glyphs, h.toList <+: rest →
      h.length ≤ (longestGlyph (glyphs.map String.toList) rest).length := fun h listed begins => by
    simpa only [String.length_toList] using
      longestGlyphCovers (List.mem_map_of_mem listed) (List.isPrefixOf_iff_prefix.mpr begins)
  have found : ∀ h : String, h ≠ "" → longestGlyph (glyphs.map String.toList) rest = h.toList →
      Longest glyphs rest h := by
    intro h filled read
    rw [read] at covers
    rcases longestGlyphMember (glyphs.map String.toList) rest with nothing | ⟨member, begins⟩
    · exact absurd (String.toList_eq_nil_iff.mp (read.symm.trans nothing)) filled
    · rw [read] at member begins
      have listed := (List.mem_map_of_injective fun _ _ => String.toList_injective).mp member
      exact ⟨listed, filled, begins, by simpa only [String.length_toList] using covers⟩
  refine ⟨fun ⟨filled, read⟩ => found g filled read, fun longest => ⟨longest.filled, ?_⟩⟩
  have read : longestGlyph (glyphs.map String.toList) rest =
      (String.ofList (longestGlyph (glyphs.map String.toList) rest)).toList := by simp
  have filled : String.ofList (longestGlyph (glyphs.map String.toList) rest) ≠ "" := by
    intro nothing
    have short := covers g longest.listed longest.begins
    rw [read, nothing] at short
    exact longest.filled (String.length_eq_zero_iff.mp (Nat.le_zero.mp short))
  rw [longestOnce longest (found _ filled read)]
  exact read

theorem readNothing {rest : List Char} : longestGlyph (glyphs.map String.toList) rest = [] ↔
    ∀ g ∈ glyphs, g ≠ "" → ¬ g.toList <+: rest := by
  constructor
  · intro nothing g listed filled begins
    have covers := longestGlyphCovers (List.mem_map_of_mem listed) (List.isPrefixOf_iff_prefix.mpr begins)
    rw [nothing] at covers
    exact filled (String.toList_eq_nil_iff.mp (List.length_eq_zero_iff.mp (Nat.le_zero.mp covers)))
  · intro none
    rcases longestGlyphMember (glyphs.map String.toList) rest with nothing | ⟨member, begins⟩
    · exact nothing
    · obtain ⟨g, listed, same⟩ := List.mem_map.mp member
      rw [← same] at begins ⊢
      by_contra filled
      exact none g listed (mt String.toList_eq_nil_iff.mpr filled) begins

theorem longestSame {others : List String} (same : SameGlyphs glyphs others) {rest : List Char} {g : String}
    (longest : Longest glyphs rest g) : Longest others rest g where
  listed := (same g longest.filled).mp longest.listed
  filled := longest.filled
  begins := longest.begins
  longest h other opens := by
    rcases eq_or_ne h "" with rfl | present
    · exact Nat.zero_le _
    · exact longest.longest h ((same h present).mpr other) opens

theorem readSame {others : List String} (same : SameGlyphs glyphs others) (rest : List Char) :
    longestGlyph (glyphs.map String.toList) rest = longestGlyph (others.map String.toList) rest := by
  cases read : longestGlyph (glyphs.map String.toList) rest with
  | nil =>
    refine (readNothing.mpr fun g listed filled => ?_).symm
    exact readNothing.mp read g ((same g filled).mpr listed) filled
  | cons c more =>
    have longest : Longest glyphs rest (String.ofList (c :: more)) := readLongest.mp (by simp [read])
    simpa using (readLongest.mpr (longestSame same longest)).2.symm

theorem lexemesCongr {table others : List (List Char)}
    (same : ∀ rest, longestGlyph table rest = longestGlyph others rest) (mode : Mode) (cs : List Char) :
    lexemes table mode cs = lexemes others mode cs := by
  induction cs generalizing mode with
  | nil => cases mode <;> rfl
  | cons c cs ih =>
    have fresh : lexemes table .fresh (c :: cs) = lexemes others .fresh (c :: cs) := by
      simp only [lexemes, same, ih]
    cases mode with
    | fresh => exact fresh
    | comment => exact ih _
    | glyph left =>
      cases left with
      | zero => exact fresh
      | succ left => exact ih (.glyph left)

end Read

def lexed (glyphs : List String) (source : List Char) : List Lexeme :=
  lexemes (glyphs.map String.toList) .fresh source

section Places

variable {glyphs : List String}

theorem commentPassed (table : List (List Char)) {line : List Char} (free : '\n' ∉ line) (after : List Char) :
    lexemes table .comment (line ++ '\n' :: after) = lexemes table .fresh after ∧
      lexemes table .comment line = [] := by
  induction line with
  | nil => exact ⟨rfl, rfl⟩
  | cons c line ih =>
    obtain ⟨visible, others⟩ := not_or.mp (mt List.mem_cons.mpr free)
    simpa [lexemes, Ne.symm visible] using ih others

theorem readComment {line : List Char} (free : '\n' ∉ line) (after : List Char) :
    lexed glyphs (commentMark ++ line ++ '\n' :: after) = .letter ' ' :: lexed glyphs after ∧
      lexed glyphs (commentMark ++ line) = [.letter ' '] := by
  obtain ⟨passed, ended⟩ := commentPassed (glyphs.map String.toList) free after
  simp [lexed, commentMark, lexemes, passed, ended]

theorem readGlyphAlone {g : String} {after : List Char} (unmarked : ¬ commentMark <+: g.toList ++ after)
    (longest : Longest glyphs (g.toList ++ after) g) :
    lexed glyphs (g.toList ++ after) = .glyph g.toList :: lexed glyphs after := by
  obtain ⟨filled, read⟩ := readLongest.mpr longest
  obtain ⟨c, more, spelled⟩ := List.exists_cons_of_ne_nil (mt String.toList_eq_nil_iff.mp filled)
  rw [spelled, List.cons_append] at read unmarked ⊢
  have plain := Bool.eq_false_iff.mpr (mt List.isPrefixOf_iff_prefix.mp unmarked)
  simp only [lexed, lexemes, plain, read, Bool.false_eq_true, if_false, glyphSkips]

theorem readLetter {c : Char} {after : List Char} (unmarked : ¬ commentMark <+: c :: after)
    (none : ∀ g ∈ glyphs, g ≠ "" → ¬ g.toList <+: c :: after) :
    lexed glyphs (c :: after) = .letter c :: lexed glyphs after := by
  have plain := Bool.eq_false_iff.mpr (mt List.isPrefixOf_iff_prefix.mp unmarked)
  simp only [lexed, lexemes, plain, readNothing.mpr none, Bool.false_eq_true, if_false]

theorem placePassed {before rest : List Char} (reached : Reaches glyphs before rest) (some : rest ≠ []) :
    ∃ piece l after, rest = piece ++ after ∧ Reaches glyphs (before ++ piece) after ∧
      lexed glyphs rest = l :: lexed glyphs after ∧
      ∀ f, l = .glyph f → ∃ g : String, f = g.toList ∧ piece = g.toList ∧ Longest glyphs rest g ∧
        ¬ commentMark <+: rest := by
  by_cases mark : commentMark <+: rest
  · obtain ⟨body, rfl⟩ := mark
    by_cases broken : '\n' ∈ body
    · obtain ⟨line, after, rfl, free⟩ := List.eq_append_cons_of_mem broken
      rw [← List.append_assoc] at reached ⊢
      exact ⟨commentMark ++ line ++ ['\n'], .letter ' ', after, by simp, .comment reached free,
        (readComment free after).1, nofun⟩
    · exact ⟨commentMark ++ body, .letter ' ', [], by simp, .lastComment reached broken,
        (readComment broken []).2, nofun⟩
  cases read : longestGlyph (glyphs.map String.toList) rest with
  | nil =>
    obtain ⟨c, after, rfl⟩ := List.exists_cons_of_ne_nil some
    have none := readNothing.mp read
    exact ⟨[c], .letter c, after, rfl, .letter reached mark none, readLetter mark none, nofun⟩
  | cons c more =>
    obtain ⟨g, spelled⟩ : ∃ g : String, g.toList = c :: more := ⟨String.ofList (c :: more), by simp⟩
    have longest : Longest glyphs rest g := readLongest.mp
      ⟨fun nothing => by simp [nothing] at spelled, read.trans spelled.symm⟩
    obtain ⟨after, rfl⟩ := longest.begins
    refine ⟨g.toList, .glyph g.toList, after, rfl, .glyph reached mark longest,
      readGlyphAlone mark longest, fun f same => ⟨g, ?_, rfl, longest, mark⟩⟩
    exact (Lexeme.glyph.inj same).symm

theorem glyphPlace {ls ls' : List Lexeme} {f before rest : List Char} (reached : Reaches glyphs before rest)
    (read : lexed glyphs rest = ls ++ .glyph f :: ls') :
    ∃ mid, ∃ g : String, ∃ after, rest = mid ++ (g.toList ++ after) ∧ f = g.toList ∧
      Reaches glyphs (before ++ mid) (g.toList ++ after) ∧ Longest glyphs (g.toList ++ after) g ∧
      ¬ commentMark <+: g.toList ++ after ∧ lexed glyphs after = ls' := by
  -- By induction on what was read before the glyph.
  induction ls generalizing before rest with
  | nil =>
    have some : rest ≠ [] := by
      rintro rfl
      contradiction
    obtain ⟨piece, l, after, rfl, passed, here, glyph⟩ := placePassed reached some
    obtain ⟨rfl, later⟩ := List.cons.inj (here.symm.trans read)
    obtain ⟨g, rfl, rfl, longest, unmarked⟩ := glyph f rfl
    exact ⟨[], g, after, rfl, rfl, by simpa using reached, longest, unmarked, later⟩
  | cons l' ls ih =>
    have some : rest ≠ [] := by
      rintro rfl
      contradiction
    obtain ⟨piece, l, after, rfl, passed, here, glyph⟩ := placePassed reached some
    obtain ⟨-, later⟩ := List.cons.inj (here.symm.trans read)
    obtain ⟨mid, g, behind, rfl, same, further, found⟩ := ih passed later
    exact ⟨piece ++ mid, g, behind, by simp, same, by simpa using further, found⟩

def Parts (glyphs : List String) (before rest : List Char) : Prop :=
  ∀ left, left <+: rest → lexed glyphs (before ++ left) = lexed glyphs before ++ lexed glyphs left

theorem partsPassed {before piece after : List Char} (parts : Parts glyphs before (piece ++ after)) (l : Lexeme)
    (here : ∀ left, left <+: after → lexed glyphs (piece ++ left) = l :: lexed glyphs left) :
    Parts glyphs (before ++ piece) after := by
  intro left within
  have alone := here [] List.nil_prefix
  rw [List.append_nil] at alone
  rw [List.append_assoc, parts _ ((List.prefix_append_right_inj piece).mpr within), here left within,
    parts piece (List.prefix_append piece after), alone]
  simp [lexed, lexemes]

theorem placeParts {before rest : List Char} (reached : Reaches glyphs before rest) :
    Parts glyphs before rest := by
  induction reached with
  | start source => exact fun left _ => rfl
  | @comment before line after _ free ih =>
    refine partsPassed (by simpa using ih) (.letter ' ') fun left _ => ?_
    simpa using (readComment free left).1
  | @lastComment before line _ free ih =>
    refine partsPassed (by simpa using ih) (.letter ' ') fun left inside => ?_
    rw [List.prefix_nil.mp inside, List.append_nil]
    exact (readComment free []).2
  | @glyph before g after _ unmarked longest ih =>
    refine partsPassed ih (.glyph g.toList) fun left inside => ?_
    have shorter := (List.prefix_append_right_inj g.toList).mpr inside
    refine readGlyphAlone (fun mark => unmarked (mark.trans shorter)) ?_
    exact ⟨longest.listed, longest.filled, List.prefix_append _ _, fun h listed begins =>
      longest.longest h listed (begins.trans shorter)⟩
  | @letter before c after _ unmarked none ih =>
    refine partsPassed ih (.letter c) fun left inside => ?_
    have shorter : c :: left <+: c :: after := List.cons_prefix_cons.mpr ⟨rfl, inside⟩
    exact readLetter (fun mark => unmarked (mark.trans shorter)) fun g listed filled begins =>
      none g listed filled (begins.trans shorter)

theorem placeLexed {before after : List Char} {g : String} (reached : Reaches glyphs before (g.toList ++ after))
    (unmarked : ¬ commentMark <+: g.toList ++ after) (longest : Longest glyphs (g.toList ++ after) g) :
    lexed glyphs (before ++ (g.toList ++ after)) =
      lexed glyphs before ++ .glyph g.toList :: lexed glyphs after := by
  rw [placeParts reached _ (List.prefix_refl _), readGlyphAlone unmarked longest]

end Places

theorem glyphNotText (g : String) (run : List Char) : Token.glyph g ∉ textToken run := fun member =>
  Token.noConfusion (textTokenWords member).2

theorem gatheredSplit {g : String} {ls : List Lexeme} {tokens tokens' : List Token} (cs : List Char)
    (h : gathered (cs.map .letter ++ ls) = tokens ++ .glyph g :: tokens') :
    ∃ before f after, cs.map .letter ++ ls = before ++ .glyph f :: after ∧ String.ofList f = g ∧
      gathered before = tokens ∧ gathered after = tokens' := by
  -- A glyph between the tokens is one among the lexemes. By induction on the lexemes, with the letters passed since
  -- the last glyph.
  induction ls generalizing cs tokens with
  | nil =>
    rw [List.append_nil, gatheredLetters] at h
    exact absurd (h ▸ by simp) (glyphNotText g cs)
  | cons l ls ih =>
    cases l with
    | letter d => simpa using ih (cs ++ [d]) (by simpa using h)
    | glyph f =>
      rw [gatheredGlyph, gatheredLetters] at h
      -- The text of the letters so far holds no glyph, so the one looked for is this lexeme or a later one.
      rcases List.append_eq_append_iff.mp h with ⟨between, before, later⟩ | ⟨between, run, later⟩
      · cases between with
        | nil =>
          obtain ⟨same, rest⟩ := List.cons.inj later
          refine ⟨cs.map .letter, f, ls, rfl, Token.glyph.inj same, ?_, rest⟩
          simpa [gatheredLetters] using before.symm
        | cons t between =>
          obtain ⟨rfl, rest⟩ := List.cons.inj later
          obtain ⟨first, f', after, split, sign, passed, left⟩ := ih [] rest
          refine ⟨cs.map .letter ++ .glyph f :: first, f', after, ?_, sign, ?_, left⟩
          · rw [List.append_assoc, List.cons_append, ← split]
            rfl
          · rw [gatheredGlyph, gatheredLetters, passed, before]
      · cases between with
        | nil =>
          obtain ⟨same, rest⟩ := List.cons.inj later
          refine ⟨cs.map .letter, f, ls, rfl, Token.glyph.inj same.symm, ?_, rest.symm⟩
          rw [gatheredLetters, run, List.append_nil]
        | cons t between =>
          obtain ⟨rfl, -⟩ := List.cons.inj later
          exact absurd (run ▸ by simp) (glyphNotText g cs)

end Lexer

theorem tokenizeLexed (glyphs : List String) (source : String) :
    tokenize glyphs source = Lexer.gathered (Lexer.lexed glyphs source.toList) := rfl

/-- A table is a set of glyphs, and a glyph among the tokens is the longest one at its place. Tables with the same
glyphs in them cut every source alike, whatever their order, their repetitions and their empty members; in a table
that is put in order, the longest glyph is the first one that stands there. -/
theorem tokenizeLongest (glyphs : List String) :
    (∀ others, Lexer.SameGlyphs glyphs others → ∀ source, tokenize others source = tokenize glyphs source) ∧
    (∀ source g tokens tokens', tokenize glyphs source = tokens ++ .glyph g :: tokens' ↔
      ∃ before after, source = before ++ g ++ after ∧
        Lexer.Reaches glyphs before.toList (g ++ after).toList ∧
        ¬ "//".toList <+: (g ++ after).toList ∧ Lexer.Longest glyphs (g ++ after).toList g ∧
        tokenize glyphs before = tokens ∧ tokenize glyphs after = tokens') ∧
    ∀ rest g, (Lexer.ordered glyphs).find? (fun h => h.toList.isPrefixOf rest) = some g ↔
      Lexer.Longest glyphs rest g := by
  refine ⟨fun others same source => ?_, fun source g tokens tokens' => ⟨fun cut => ?_, ?_⟩, fun rest g =>
    Lexer.searchedLongest⟩
  · exact congrArg Lexer.gathered (Lexer.lexemesCongr (fun rest => (Lexer.readSame same rest).symm) _ _)
  · obtain ⟨ls, f, ls', split, rfl, first, last⟩ := Lexer.gatheredSplit [] cut
    obtain ⟨before, g, after, whole, rfl, reached, longest, unmarked, rfl⟩ :=
      Lexer.glyphPlace (.start source.toList) split
    rw [List.nil_append] at reached
    have parted := Lexer.placeLexed reached unmarked longest
    rw [← whole] at parted
    have early : ls = Lexer.lexed glyphs before := List.append_cancel_right (split.symm.trans parted)
    refine ⟨String.ofList before, String.ofList after, ?_, ?_, ?_, ?_, ?_, ?_⟩
    · apply String.toList_injective
      simp [whole]
    · simpa using reached
    · simpa [Lexer.commentMark] using unmarked
    · simpa using longest
    · simpa [tokenizeLexed, early] using first
    · simpa [tokenizeLexed] using last
  · rintro ⟨before, after, rfl, reached, unmarked, longest, rfl, rfl⟩
    rw [String.toList_append] at reached unmarked longest
    have parted := Lexer.placeLexed reached unmarked longest
    simp only [tokenizeLexed, String.toList_append, List.append_assoc, parted, Lexer.gatheredGlyph,
      String.ofList_toList]

example : tokenize ["", "=", "==", "/", "/=", "="] "a/==b //= c\n=== d" =
    [.text "a", .glyph "/=", .glyph "=", .text "b", .glyph "==", .glyph "=", .text "d"] := by decide +kernel

end Parlance
