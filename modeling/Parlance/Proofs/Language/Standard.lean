import Parlance.Language
import Parlance.Proofs.Grammar.Linked
import Parlance.Proofs.Matching.Parts

/-! The standard language. Its rules are those that its grammar text declares. Its programs hold no hidden name:
identifiers are text tokens, `?` is a glyph, and no standard operator has a hidden name. -/
namespace Parlance

set_option maxRecDepth 8000 in
theorem standardGrammarRead : RuleSpec.ofGrammarText standardGrammar = .ok standardRules := by
  have chars : standardGrammar.toList = _ := String.toList_ofList
  rw [RuleSpec.ofGrammarText, chars]
  decide +kernel

namespace Language

structure StandardParts (l : Language) : Prop where
  grammar : Grammar.link standardRules (terminals standardOperators) = .ok l.grammar
  operators : l.operators = standardOperators
  glyphs : l.glyphs = glyphTable standardOperators
  start : l.start = standardStart
  sugar : l.sugar = .standard

theorem standardParts {l : Language} (h : Language.standard = .ok l) : StandardParts l := by
  unfold Language.standard Definition.build at h
  split at h
  · contradiction
  · rename_i linked
    cases h
    exact ⟨linked, rfl, rfl, rfl, rfl⟩

theorem operatorsVisible : ∀ op ∈ standardOperators.operators, ¬ Hidden op.name := by decide

theorem markGlyph : "?" ∈ glyphTable standardOperators := by decide +kernel

theorem identArm {l : Language} (standard : StandardParts l) {id : Fin l.grammar.size}
    {branches : List (Branch l.grammar.size)} (body : (l.grammar.rule id).body = .composite branches)
    (rule : (l.grammar.rule id).name = "primary") {b : Branch l.grammar.size} (inside : b ∈ branches)
    (branch : b.name = "ident") {arm : Arm l.grammar.size} (member : arm ∈ b.arms) :
    (l.grammar.rule arm.rule).name = "ident" := by
  have declared : ∃ spec ∈ standardRules, spec.name = "primary" ∧
      ∀ b ∈ spec.branches, b.name = "ident" → ∀ arm ∈ b.arms, arm.rule = "ident" := by decide
  obtain ⟨spec, listed, named, arms⟩ := declared
  obtain ⟨found, body', read⟩ :=
    (Grammar.linkedDeclares standard.grammar).1 spec listed id (rule.trans named.symm)
  cases body.symm.trans body'
  have inside' : l.grammar.branchSpec b ∈ spec.branches := read ▸ List.mem_map_of_mem inside
  exact arms _ inside' branch _ (List.mem_map_of_mem member)

theorem identAccepts {l : Language} (standard : StandardParts l) {id : Fin l.grammar.size}
    (named : (l.grammar.rule id).name = "ident") :
    ∃ d, (l.grammar.rule id).body = .terminal d ∧ ∀ t, d.accepts t = true → t.isText = true :=
  ⟨_, (Grammar.linkedDeclares standard.grammar).2 _ List.mem_cons_self id named,
    fun _ accepted => accepted⟩

theorem parsePlain {l : Language} (h : Language.standard = .ok l) {source : String} {m : Tree}
    (parsed : l.grammar.parse l.start (l.tokenize source) = .ok m) : m.Plain := by
  intro sub part rule branch tok found
  have standard := standardParts h
  obtain ⟨id, -, whole⟩ := Grammar.parseReads parsed
  obtain ⟨id, before, after, read⟩ := Matching.partRead whole part
  cases sub with
  | terminal => contradiction
  | composite _ _ fields =>
    cases rule
    cases branch
    obtain ⟨branches, body, ruleNamed, b, inside, branchNamed, arms⟩ := Matching.compositeMatch read
    simp only [Tree.token?] at found
    split at found
    · rename_i kind field token at_
      cases found
      have member := Tree.lookupMember at_
      obtain ⟨arm, armInside, -, before, after, armRead⟩ := Matching.armsField arms member
      obtain ⟨d, terminal, texts⟩ :=
        identAccepts standard (identArm standard body ruleNamed inside branchNamed armInside)
      obtain ⟨tok, same, accepted⟩ := Matching.terminalMatch terminal armRead
      cases same
      have text := texts tok accepted
      have source : tok ∈ l.tokenize source := by
        rw [← Grammar.parseTokens parsed]
        exact Tree.partTokens part (Tree.fieldTokensMember member (by simp [Tree.tokens]))
      cases tok with
      | glyph s => contradiction
      | text s =>
        rw [Language.tokenize, standard.glyphs] at source
        exact textNotHidden markGlyph source
    · contradiction

theorem sourceWritten {l : Language} (h : Language.standard = .ok l) {source : String} {m : Tree}
    (parsed : l.grammar.parse l.start (l.tokenize source) = .ok m) {es : List Expr}
    (resolved : Expr.statements l.operators m = .ok es) : ∀ e ∈ es, e.Written := by
  have operators := (standardParts h).operators
  rw [operators] at resolved
  exact Expr.statementsWritten operatorsVisible (parsePlain h parsed) resolved

end Language

def standardTest (test : Language → Bool) : Bool :=
  match Language.standard with
  | .error _ => false
  | .ok l => test l

theorem standardTested {test : Language → Bool} (h : standardTest test = true) :
    ∃ l, Language.standard = .ok l ∧ test l = true := by
  unfold standardTest at h
  split at h
  · contradiction
  · exact ⟨_, by assumption, h⟩

def parsesTo (rule : String) (tokens : List Token) (test : Tree → Bool) (l : Language) : Bool :=
  match l.grammar.parse rule tokens with
  | .error _ => false
  | .ok m => test m

theorem parsesToMatch {l : Language} {rule : String} {tokens : List Token} {test : Tree → Bool}
    (h : parsesTo rule tokens test l = true) :
    ∃ m, l.grammar.parse rule tokens = .ok m ∧ test m = true := by
  unfold parsesTo at h
  split at h
  · contradiction
  · exact ⟨_, by assumption, h⟩

def parses (rule : String) (tokens : List Token) (l : Language) : Bool :=
  parsesTo rule tokens (fun _ => true) l

theorem parsesMatch {l : Language} {rule : String} {tokens : List Token}
    (h : parses rule tokens l = true) : ∃ m, l.grammar.parse rule tokens = .ok m := by
  obtain ⟨m, parsed, -⟩ := parsesToMatch h
  exact ⟨m, parsed⟩

def unmatched (rule : String) (tokens : List Token) (l : Language) : Bool :=
  match l.grammar.parse rule tokens with
  | .error (.noMatch other) => other == rule
  | _ => false

theorem unmatchedError {l : Language} {rule : String} {tokens : List Token}
    (h : unmatched rule tokens l = true) : l.grammar.parse rule tokens = .error (.noMatch rule) := by
  unfold unmatched at h
  split at h
  · rename_i other same
    rw [same, beq_iff_eq.mp h]
  · contradiction

end Parlance
