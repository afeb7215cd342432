import Mathlib.Data.List.TakeWhile
import Parlance.Proofs.Language.Standard
import Parlance.Proofs.Token.Canonical

/-! Signs and numerals of a line. A number is written with digits only, so over signs that digits do not spell
its numeral is one token, and it is read as the literal of the number as long as that fits. The signs of the
standard language are such signs, and a line of tokens is cut into them again. -/
namespace Parlance

theorem numeralToList (n : Nat) : (toString n).toList = Nat.toDigits 10 n := by
  rw [Nat.toString_eq_ofList_toDigits, String.toList_ofList]

theorem numeralDigits (n : Nat) : ∀ c ∈ (toString n).toList, c.isDigit = true := by
  intro c member
  rw [numeralToList] at member
  exact Nat.isDigit_of_mem_toDigits (by decide) (by decide) member

theorem numeralFilled (n : Nat) : (toString n).toList ≠ [] := by
  rw [numeralToList]
  exact Nat.toDigits_ne_nil

theorem numeralValue (n : Nat) : Lower.digitsValue (toString n).toList = n := by
  rw [numeralToList]
  exact Nat.ofDigitChars_ten_toDigits

theorem numeralWord (n : Nat) : Lower.classify (toString n) =
    if n < twoTo 63 then .literal (.integer (Int64.ofNat n)) else .outOfRange := by
  have word : toString n ≠ "nil" := by
    intro same
    have digit := numeralDigits n 'n' (by rw [same]; decide)
    contradiction
  have whole := List.takeWhile_eq_self_iff.mpr (numeralDigits n)
  have nothing := List.dropWhile_eq_nil_iff.mpr (numeralDigits n)
  have some : (toString n).toList.isEmpty = false := List.isEmpty_eq_false_iff.mpr (numeralFilled n)
  simp only [Lower.classify, beq_iff_eq, word, if_false, whole, nothing, some, numeralValue, Bool.false_eq_true]

theorem numeralLiteral {n : Nat} (small : n < twoTo 63) :
    Lower.classify (toString n) = .literal (.integer (Int64.ofNat n)) := by
  rw [numeralWord, if_pos small]

theorem digitUnblank {c : Char} (digit : c.isDigit = true) : Text.isBlank c = false := by
  have bounds : 48 ≤ c.toNat ∧ c.toNat ≤ 57 := Char.isDigit_iff_toNat.mp digit
  have outside : ∀ range ∈ Text.blankRanges, range.2 < 48 ∨ 57 < range.1 := by decide
  refine List.any_eq_false.mpr fun range member => ?_
  have apart := outside range member
  simp only [Bool.and_eq_true, decide_eq_true_eq]
  omega

theorem numeralCanonical {glyphs : List String}
    (spelled : ∀ g ∈ glyphs, g ≠ "" → ∃ c ∈ g.toList, c.isDigit = false) (n : Nat) :
    Token.Canonical glyphs (.text (toString n)) := by
  have within : ∀ {g : List Char}, g <:+: (toString n).toList → ∀ c ∈ g, c.isDigit = true :=
    fun inside c member => numeralDigits n c (inside.subset member)
  refine ⟨⟨[toString n], List.cons_ne_nil _ _, ?_, by simp⟩, fun inside => ?_, fun g listed some inside => ?_⟩
  · intro w member
    cases List.mem_singleton.mp member
    exact ⟨mt String.toList_eq_nil_iff.mpr (numeralFilled n),
      fun c member => digitUnblank (numeralDigits n c member)⟩
  · have slash := within inside '/' (by decide)
    contradiction
  · obtain ⟨c, member, other⟩ := spelled g listed some
    cases other.symm.trans (within inside c member)

namespace Language

theorem insertGlyphMember {g h : String} {gs : List String} : h ∈ insertGlyph g gs ↔ h = g ∨ h ∈ gs := by
  induction gs with
  | nil => simp [insertGlyph]
  | cons first gs ih =>
    unfold insertGlyph
    split
    · simp
    · split
      · rename_i same
        simp [eq_of_beq same]
      · simp only [List.mem_cons, ih]
        exact or_left_comm

theorem glyphTableMember {t : OperatorTable} {g : String} :
    g ∈ glyphTable t ↔ g ∈ t.operators.map Operator.symbol ++ punctuation.map Prod.snd := by
  unfold glyphTable
  generalize t.operators.map Operator.symbol ++ punctuation.map Prod.snd = listed
  induction listed with
  | nil => simp
  | cons h listed ih => rw [List.foldr_cons, insertGlyphMember, ih, List.mem_cons]

theorem signsUnblank : ∀ g ∈ glyphTable standardOperators, ∀ c ∈ g.toList, Text.isBlank c = false := by
  have listed : ∀ g ∈ standardOperators.operators.map Operator.symbol ++ punctuation.map Prod.snd,
      g.toList.all (fun c => !Text.isBlank c) = true := by decide
  intro g member c inside
  simpa using List.all_eq_true.mp (listed g (glyphTableMember.mp member)) c inside

theorem signsSpelled : ∀ g ∈ glyphTable standardOperators, g ≠ "" → ∃ c ∈ g.toList, c.isDigit = false := by
  have listed : ∀ g ∈ standardOperators.operators.map Operator.symbol ++ punctuation.map Prod.snd,
      g.toList.any (fun c => !c.isDigit) = true := by decide
  intro g member _
  simpa using List.any_eq_true.mp (listed g (glyphTableMember.mp member))

theorem StandardParts.tokenizeCanonical {l : Language} (standard : StandardParts l) {tokens : List Token}
    (canonical : Token.CanonicalList (glyphTable standardOperators) tokens) :
    l.tokenize (Token.line tokens) = tokens := by
  obtain ⟨run, others, gathered, same, -⟩ :=
    Token.lineReadsBack signsUnblank canonical
  rw [tokenize, standard.glyphs, Parlance.tokenize, Token.lineToList, Lexer.tokens, gathered]
  exact same

end Language

end Parlance
