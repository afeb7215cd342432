import Mathlib.Data.List.Chain
import Parlance.Proofs.Language.Openings
import Parlance.Proofs.Matching.Within

/-! Flat programs. Where no encloser and no conditional chain begins and no two signs stand side by side,
nothing nests: every rule of the standard grammar is matched within a few levels, however many tokens there are. -/
namespace Parlance.Language.StandardParts

open Grammar

/-- Texts and signs of infix operators, of which no two are neighbours. -/
structure Flat (tokens : List Token) : Prop where
  plain : ∀ t ∈ tokens, Accepted t "ident" ∨ Accepted t "binop"
  apart : tokens.IsChain fun t t' => Accepted t "ident" ∨ Accepted t' "ident"

section

variable {tokens rest : List Token}

theorem flatSuffix (flat : Flat tokens) (later : rest <:+ tokens) : Flat rest :=
  ⟨fun t member => flat.plain t (later.subset member), flat.apart.suffix later⟩

def nesting : List String := ["cond-open", "lparen-open", "fnargdef-open"]

theorem flatBeyond (flat : Flat tokens) : Beyond nesting tokens := by
  intro t first
  have apart : ∀ kind ∈ ["ident", "binop"], ∀ name ∈ nesting,
      name ∈ signs ++ marks ∧ Apart kind name := by decide
  rcases flat.plain t (List.mem_of_head? first) with text | sign
  · exact allRefused text (apart "ident" (by decide))
  · exact allRefused sign (apart "binop" (by decide))

theorem flatUnsigned {t : Token} (flat : Flat (t :: rest)) (sign : Accepted t "unop") :
    Beyond ["unop"] rest := by
  intro t' first
  have other : Apart "unop" "ident" := by decide
  rcases (List.isChain_cons.mp flat.apart).1 t' first with text | text
  · exact absurd other (takenOnce sign text)
  · exact allRefused text (by decide)

end

variable {l : Language} (standard : StandardParts l) {tokens : List Token}

include standard

theorem terminalWithin {name : String} (terminal : name ∈ terminalNames) : l.grammar.Within 1 name tokens := by
  obtain ⟨spec, listed, rfl⟩ := List.mem_map.mp terminal
  exact withinTerminal (standard.declaresTerminal listed)

theorem suffixFlat {name : String} {m : Tree} {rest : List Token} (listed : name ∈ declaredNames)
    (flat : Flat tokens) (read : l.grammar.Reads name tokens (some (m, rest))) : Flat rest :=
  flatSuffix flat ⟨m.tokens, (namedSuffix standard.grammar listed read).symm⟩

theorem pairLow {levels : Nat} {field one other two : String} (listed : one ∈ declaredNames)
    (first : l.grammar.Within levels one tokens) (flat : Flat tokens)
    (second : ∀ {rest}, Flat rest → l.grammar.Within levels two rest) :
    l.grammar.ArmsWithin levels [⟨field, one, .once⟩, ⟨other, two, .once⟩] tokens :=
  consArmWithin standard.grammar first fun _ _ read =>
    lastArmWithin (armWithinOnce (second (standard.suffixFlat listed flat read)))

theorem repeatedLow {levels : Nat} {field one other many : String} (listed : one ∈ declaredNames)
    (first : l.grammar.Within levels one tokens) (flat : Flat tokens)
    (others : ∀ {rest}, Flat rest → l.grammar.Within levels many rest) :
    l.grammar.ArmsWithin levels [⟨field, one, .once⟩, ⟨other, many, .many⟩] tokens :=
  consArmWithin standard.grammar first fun _ _ read => lastArmWithin fun _ inside _ =>
    others (flatSuffix (standard.suffixFlat listed flat read) inside)

theorem enclosedLow {name opener content closer : String}
    (listed : (name, opener, content, closer) ∈ enclosures) (known : opener ∈ nesting)
    (flat : Flat tokens) : l.grammar.Within 2 name tokens := by
  have terminal : ∀ opener ∈ nesting, opener ∈ signs ++ marks ∧ opener ∈ declaredNames := by decide
  obtain ⟨mark, declared⟩ := terminal opener known
  refine withinChoice (standard.declaresEnclosure listed) (List.forall_mem_singleton.mpr ?_)
  exact beginWithin standard.grammar (standard.terminalWithin (marksTerminal opener mark)) declared
    (standard.beyondFails (flatBeyond flat) known mark)

theorem conditionalLow (flat : Flat tokens) : l.grammar.Within 2 "cond" tokens := by
  refine withinChoice standard.declaresConditional (List.forall_mem_singleton.mpr ?_)
  exact beginWithin standard.grammar (standard.terminalWithin (by decide)) (by decide)
    (standard.beyondFails (flatBeyond flat) (by decide) (by decide))

theorem groupLow (flat : Flat tokens) : l.grammar.Within 2 "group" tokens :=
  standard.enclosedLow groupEncloses (by decide) flat

theorem primaryLow (flat : Flat tokens) : l.grammar.Within 3 "primary" tokens := by
  have params := standard.enclosedLow paramsEnclose (by decide) flat
  have ident : l.grammar.Within 1 "ident" tokens := standard.terminalWithin (by decide)
  refine withinChoice standard.declaresPrimary ?_
  simp only [List.forall_mem_cons, List.not_mem_nil, false_imp_iff, implies_true, and_true]
  refine ⟨?_, lastArmWithin (armWithinOnce (standard.conditionalLow flat)),
    lastArmWithin (armWithinOnce (standard.groupLow flat)),
    lastArmWithin (armWithinOnce (withinMore ident (by decide)))⟩
  exact beginWithin standard.grammar params (by decide)
    (standard.paramsFail (beyondFewer (flatBeyond flat) (by decide)))

theorem applyLow (flat : Flat tokens) :
    l.grammar.ArmsWithin 3 [fieldArm "callee" "primary", manyArm "args" "group"] tokens :=
  standard.repeatedLow (by decide) (standard.primaryLow flat) flat fun later =>
    withinMore (standard.groupLow later) (by decide)

theorem unsignedLow (flat : Flat tokens) (unsigned : Beyond ["unop"] tokens) :
    l.grammar.Within 4 "expr'" tokens := by
  have sign : l.grammar.Within 1 "unop" tokens := standard.terminalWithin (by decide)
  refine withinChoice standard.declaresOperand ?_
  simp only [List.forall_mem_cons, List.not_mem_nil, false_imp_iff, implies_true, and_true]
  exact ⟨beginWithin standard.grammar (withinMore sign (by decide)) (by decide)
    (standard.beyondFails unsigned List.mem_cons_self (by decide)), standard.applyLow flat⟩

theorem tokenTaken {name : String} {m : Tree} {rest : List Token} (terminal : name ∈ terminalNames)
    (read : l.grammar.Reads name tokens (some (m, rest))) : ∃ t, tokens = t :: rest ∧ Accepted t name := by
  obtain ⟨spec, listed, rfl⟩ := List.mem_map.mp terminal
  obtain ⟨t, same, accepts, -⟩ := terminalTaken standard.grammar listed read
  exact ⟨t, same, spec, listed, rfl, accepts⟩

theorem operandLow (flat : Flat tokens) : l.grammar.Within 5 "expr'" tokens := by
  have sign : l.grammar.Within 1 "unop" tokens := standard.terminalWithin (by decide)
  refine withinChoice standard.declaresOperand ?_
  simp only [List.forall_mem_cons, List.not_mem_nil, false_imp_iff, implies_true, and_true]
  refine ⟨consArmWithin standard.grammar (withinMore sign (by decide)) fun m rest read => ?_,
    armsWithinMore (by decide) (standard.applyLow flat)⟩
  obtain ⟨t, rfl, signed⟩ := standard.tokenTaken (by decide) read
  exact lastArmWithin (armWithinOnce
    (standard.unsignedLow (flatSuffix flat (List.suffix_cons _ _)) (flatUnsigned flat signed)))

theorem linkLow (flat : Flat tokens) : l.grammar.Within 6 "link" tokens :=
  withinChoice standard.declaresLink (List.forall_mem_singleton.mpr
    (standard.pairLow (by decide) (withinMore (standard.terminalWithin (by decide)) (by decide)) flat
      standard.operandLow))

theorem chainLow (flat : Flat tokens) : l.grammar.Within 7 "expr" tokens :=
  withinChoice standard.declaresChain (List.forall_mem_singleton.mpr
    (standard.repeatedLow (by decide) (withinMore (standard.operandLow flat) (by decide)) flat
      standard.linkLow))

theorem nextLow (flat : Flat tokens) : l.grammar.Within 8 "next-stmt" tokens := by
  have mark : l.grammar.Within 7 "endstmt" tokens :=
    withinMore (standard.terminalWithin (by decide)) (by decide)
  refine withinChoice standard.declaresNext ?_
  simp only [List.forall_mem_cons, List.not_mem_nil, false_imp_iff, implies_true, and_true]
  exact ⟨standard.pairLow (by decide) mark flat standard.chainLow, lastArmWithin (armWithinOnce mark)⟩

theorem programLow (flat : Flat tokens) : l.grammar.Within 9 "stmts" tokens :=
  withinChoice standard.declaresStatements (List.forall_mem_singleton.mpr
    (standard.repeatedLow (by decide) (withinMore (standard.chainLow flat) (by decide)) flat
      standard.nextLow))

theorem flatShallow (flat : Flat tokens) :
    l.grammar.parse standardStart tokens ≠ .error (.tooDeep defaultDepth) :=
  parseWithin (standard.programLow flat) (by decide)

theorem flatParsed {m : Tree} (h : Derived standardOperators standardStart m) (flat : Flat m.tokens) :
    l.grammar.parse standardStart m.tokens = .ok m := by
  have chainless : m.Chainless := by
    rintro t member rfl
    have mark : Accepted (.glyph "?") "cond-open" := markAccepted (by decide)
    have apart : Apart "cond-open" "ident" ∧ Apart "cond-open" "binop" := by decide
    rcases flat.plain _ member with text | sign
    · exact takenOnce mark text apart.1
    · exact takenOnce mark sign apart.2
  exact standard.readsParsed (by decide) (standard.programRead h chainless) (standard.flatShallow flat)

end Parlance.Language.StandardParts
