import Parlance.Language.Standard
import Parlance.Proofs.Grammar.Derivation
import Parlance.Proofs.Matching.Parts

/-! The shapes of derivation trees of the standard grammar, over any table with which it links. What a tree
of a rule is made of is said once for each rule; a terminal holds a sign of the kind that its rule stands
for. -/
namespace Parlance

namespace Tree

def under (field : String) (trees : List Tree) : List (String × Tree) := trees.map fun t => (field, t)

theorem fieldWithin {rule branch name : String} {fields : List (String × Tree)} {c : Tree}
    {height : Nat} (low : (Tree.composite rule branch fields).height ≤ height)
    (member : (name, c) ∈ fields) : c.height < height :=
  Nat.lt_of_lt_of_le (Nat.lt_succ_of_le (fieldHeight member)) low

theorem underTokens (field : String) (trees : List Tree) :
    fieldTokens (under field trees) = trees.flatMap tokens := by
  induction trees with
  | nil => rfl
  | cons c trees ih =>
    rw [List.flatMap_cons, ← ih]
    rfl

theorem headUnderTokens (rule branch first field : String) (head : Tree) (trees : List Tree)
    (after : List Token) : (composite rule branch ((first, head) :: under field trees)).tokens ++ after =
      head.tokens ++ (trees.flatMap tokens ++ after) := by
  simp [tokens, fieldTokens, underTokens]

theorem underMember {field : String} {trees : List Tree} {c : Tree} (member : c ∈ trees) :
    (field, c) ∈ under field trees := List.mem_map_of_mem member

theorem lookupUnder {field name : String} (other : field ≠ name) (trees : List Tree) :
    lookup name (under field trees) = none := by
  induction trees with
  | nil => rfl
  | cons c trees ih => simpa [under, lookup, other] using ih

theorem restWithin {rule branch first field : String} {head c : Tree} {trees : List Tree} {height : Nat}
    (low : (composite rule branch ((first, head) :: under field trees)).height ≤ height)
    (member : c ∈ trees) : c.height < height :=
  fieldWithin low (List.mem_cons_of_mem _ (underMember member))

theorem childrenUnder {rule branch field : String} (front : List (String × Tree)) (trees : List Tree)
    (other : ∀ entry ∈ front, entry.1 ≠ field) :
    children (.composite rule branch (front ++ under field trees)) field = trees := by
  have none : front.filter (fun entry => entry.1 == field) = [] :=
    List.filter_eq_nil_iff.mpr fun entry member => by simpa using other entry member
  simp [children, none, under, List.filter_map, Function.comp_def]

theorem restChildren {rule branch first field : String} {head : Tree} (trees : List Tree)
    (other : first ≠ field) :
    children (.composite rule branch ((first, head) :: under field trees)) field = trees :=
  childrenUnder [(first, head)] trees (by simpa using other)

end Tree

namespace Language

open Grammar
open Parlance.Tree (under)

def Derived (t : OperatorTable) : String → Tree → Prop := Derives standardRules (terminals t)

def branchesOf (name : String) : List BranchSpec :=
  (standardRules.filter fun rule => rule.name == name).flatMap RuleSpec.branches

section Terminals

variable {t : OperatorTable} {m : Tree}

theorem markListed {name symbol : String} (listed : (name, symbol) ∈ punctuation) :
    glyphTerminal name [symbol] ∈ terminals t := by
  refine List.mem_append_left _ (List.mem_append_right _ ?_)
  exact List.mem_map_of_mem (f := fun entry : String × String => glyphTerminal entry.1 [entry.2]) listed

theorem halvesApart (a b : String) : a ++ "-open" ≠ b ++ "-close" := by
  intro same
  have last := congrArg (fun s : String => s.toList.getLast?) same
  simp at last

theorem glyphAccepted {name : String} {symbols : List String} {tok : Token}
    (accepted : (glyphTerminal name symbols).detector.accepts tok = true) :
    ∃ s ∈ symbols, tok = .glyph s := by
  cases tok with
  | text s => contradiction
  | glyph s => exact ⟨s, by simpa [glyphTerminal] using accepted, rfl⟩

def openers : List String := ["lparen-open", "fnargdef-open", "fnbody-open"]

def closers : List String := ["lparen-close", "fnargdef-close", "fnbody-close"]

theorem halfShape {name : String} (half : name ∈ openers ++ closers) (h : Derived t name m) :
    ∃ pair ∈ t.enclosers,
      (pair.1.name ++ "-open" = name ∧ m = .terminal name "op" (.glyph pair.1.symbol)) ∨
        (pair.1.name ++ "-close" = name ∧ m = .terminal name "op" (.glyph pair.2.symbol)) := by
  have free : ∀ name ∈ openers ++ closers, name ∉ standardRules.map RuleSpec.name ∧
      name ∉ ["ident", "unop", "binop"] ∧ name ∉ punctuation.map Prod.fst := by decide
  obtain ⟨composite, unkind, unmarked⟩ := free name half
  cases h with
  | branch listed chosen arms => exact absurd (List.mem_map_of_mem listed) composite
  | @token spec tok listed accepted =>
    rcases List.mem_append.mp listed with fixed | half
    · rcases List.mem_append.mp fixed with kind | mark
      · simp only [List.mem_cons, List.not_mem_nil, or_false] at kind
        rcases kind with rfl | rfl | rfl <;> simp [glyphTerminal] at unkind
      · obtain ⟨entry, inside, rfl⟩ := List.mem_map.mp mark
        exact absurd (List.mem_map_of_mem inside) unmarked
    · obtain ⟨pair, inside, member⟩ := List.mem_flatMap.mp half
      simp only [encloserTerminals, List.mem_cons, List.not_mem_nil, or_false] at member
      rcases member with rfl | rfl
      · obtain ⟨s, only, rfl⟩ := glyphAccepted accepted
        cases List.mem_singleton.mp only
        exact ⟨pair, inside, .inl ⟨rfl, rfl⟩⟩
      · obtain ⟨s, only, rfl⟩ := glyphAccepted accepted
        cases List.mem_singleton.mp only
        exact ⟨pair, inside, .inr ⟨rfl, rfl⟩⟩

theorem openShape {name : String} (opener : name ∈ openers) (h : Derived t name m) :
    ∃ pair ∈ t.enclosers, pair.1.name ++ "-open" = name ∧
      m = .terminal name "op" (.glyph pair.1.symbol) := by
  obtain ⟨pair, inside, shape | ⟨named, -⟩⟩ := halfShape (List.mem_append_left _ opener) h
  · exact ⟨pair, inside, shape⟩
  · have ends : ∀ name ∈ openers, name ∈ ["lparen", "fnargdef", "fnbody"].map (· ++ "-open") := by decide
    obtain ⟨base, -, same⟩ := List.mem_map.mp (ends name opener)
    exact absurd (same.trans named.symm) (halvesApart base pair.1.name)

theorem closeShape {name : String} (closer : name ∈ closers) (h : Derived t name m) :
    ∃ pair ∈ t.enclosers, pair.1.name ++ "-close" = name ∧
      m = .terminal name "op" (.glyph pair.2.symbol) := by
  obtain ⟨pair, inside, ⟨named, -⟩ | shape⟩ := halfShape (List.mem_append_right _ closer) h
  · have ends : ∀ name ∈ closers, name ∈ ["lparen", "fnargdef", "fnbody"].map (· ++ "-close") := by decide
    obtain ⟨base, -, same⟩ := List.mem_map.mp (ends name closer)
    exact absurd (named.trans same.symm) (halvesApart pair.1.name base)
  · exact ⟨pair, inside, shape⟩

end Terminals

section Derives

variable {t : OperatorTable} {name : String} {fields : List (String × Tree)}

theorem branchDerives (b : BranchSpec) (chosen : b ∈ branchesOf name)
    (arms : ArmsDerive standardRules (terminals t) b.arms fields) :
    Derived t name (.composite name b.name fields) := by
  obtain ⟨spec, inside, own⟩ := List.mem_flatMap.mp chosen
  obtain ⟨listed, named⟩ := List.mem_filter.mp inside
  cases eq_of_beq named
  exact .branch listed own arms

theorem repeatedDerives {field : String} {trees : List Tree} (each : ∀ c ∈ trees, Derived t name c) :
    ArmsDerive standardRules (terminals t) [manyArm field name] (under field trees) := by
  induction trees with
  | nil => exact .stop .nil
  | cons c trees ih =>
    obtain ⟨first, others⟩ := List.forall_mem_cons.mp each
    exact .more first (ih others)

end Derives

def chainTree (scrutinee : Option Tree) (arms : List Tree) : Tree :=
  .composite "cond" "chain" (("open", .terminal "cond-open" "op" (.glyph "?")) ::
    under "scrutinee" scrutinee.toList ++ under "arm" arms)

section Rules

variable {t : OperatorTable} (once : (declared standardRules (terminals t)).Nodup) {m : Tree}

include once

theorem glyphShape {name : String} {symbols : List String}
    (listed : glyphTerminal name symbols ∈ terminals t) (h : Derived t name m) :
    ∃ s ∈ symbols, m = .terminal name "op" (.glyph s) := by
  obtain ⟨tok, rfl, accepted⟩ := tokenDerived once listed h
  obtain ⟨s, inside, rfl⟩ := glyphAccepted accepted
  exact ⟨s, inside, rfl⟩

theorem markShape {name symbol : String} (listed : (name, symbol) ∈ punctuation)
    (h : Derived t name m) : m = .terminal name "op" (.glyph symbol) := by
  obtain ⟨s, inside, rfl⟩ := glyphShape once (markListed listed) h
  rw [List.mem_singleton.mp inside]

theorem prefixShape (h : Derived t "unop" m) :
    ∃ s ∈ t.symbols .prefixOp, m = .terminal "unop" "op" (.glyph s) :=
  glyphShape once (by simp [terminals]) h

theorem infixShape (h : Derived t "binop" m) :
    ∃ s ∈ t.symbols .infixOp, m = .terminal "binop" "op" (.glyph s) :=
  glyphShape once (by simp [terminals]) h

theorem identShape (h : Derived t "ident" m) : ∃ s, m = .terminal "ident" "ident" (.text s) := by
  have listed : (⟨"ident", "ident", Token.isText⟩ : TerminalSpec) ∈ terminals t := List.mem_cons_self
  obtain ⟨tok, rfl, accepted⟩ := tokenDerived once listed h
  cases tok with
  | glyph s => contradiction
  | text s => exact ⟨s, rfl⟩

theorem derivedBranch {name : String} (composite : name ∈ standardRules.map RuleSpec.name)
    (h : Derived t name m) :
    ∃ b ∈ branchesOf name, ∃ fields, m = .composite name b.name fields ∧
      ArmsDerive standardRules (terminals t) b.arms fields := by
  obtain ⟨spec, listed, rfl⟩ := List.mem_map.mp composite
  obtain ⟨b, chosen, found⟩ := branchDerived once listed h
  have own : spec ∈ standardRules.filter fun rule => rule.name == spec.name :=
    List.mem_filter.mpr ⟨listed, beq_self_eq_true _⟩
  exact ⟨b, List.mem_flatMap.mpr ⟨spec, own, chosen⟩, found⟩

theorem statementsShape (h : Derived t "stmts" m) :
    ∃ first rest, m = .composite "stmts" "seq" (("stmt", first) :: under "rest" rest) ∧
      Derived t "expr" first ∧ ∀ n ∈ rest, Derived t "next-stmt" n := by
  obtain ⟨b, chosen, fields, rfl, arms⟩ := derivedBranch once (by decide) h
  cases List.mem_singleton.mp chosen
  cases arms with
  | once first others =>
    obtain ⟨rest, rfl, each⟩ := manyDerived others
    exact ⟨_, rest, rfl, first, each⟩

theorem nextShape (h : Derived t "next-stmt" m) :
    (∃ mark e, m = .composite "next-stmt" "more" [("endstmt", mark), ("stmt", e)] ∧
      Derived t "endstmt" mark ∧ Derived t "expr" e) ∨
    ∃ mark, m = .composite "next-stmt" "last" [("endstmt", mark)] ∧ Derived t "endstmt" mark := by
  obtain ⟨b, chosen, fields, rfl, arms⟩ := derivedBranch once (by decide) h
  rcases List.mem_cons.mp chosen with rfl | chosen
  · obtain ⟨_, _, rfl, mark, others⟩ := onceDerived arms
    obtain ⟨_, _, rfl, e, others⟩ := onceDerived others
    cases noneDerived others
    exact .inl ⟨_, _, rfl, mark, e⟩
  · cases List.mem_singleton.mp chosen
    obtain ⟨_, _, rfl, mark, others⟩ := onceDerived arms
    cases noneDerived others
    exact .inr ⟨_, rfl, mark⟩

theorem chainShape (h : Derived t "expr" m) :
    ∃ head links, m = .composite "expr" "chain" (("head", head) :: under "link" links) ∧
      Derived t "expr'" head ∧ ∀ l ∈ links, Derived t "link" l := by
  obtain ⟨b, chosen, fields, rfl, arms⟩ := derivedBranch once (by decide) h
  cases List.mem_singleton.mp chosen
  cases arms with
  | once head others =>
    obtain ⟨links, rfl, each⟩ := manyDerived others
    exact ⟨_, links, rfl, head, each⟩

theorem linkShape (h : Derived t "link" m) :
    ∃ sign rhs, m = .composite "link" "infix" [("binop", sign), ("rhs", rhs)] ∧
      Derived t "binop" sign ∧ Derived t "expr'" rhs := by
  obtain ⟨b, chosen, fields, rfl, arms⟩ := derivedBranch once (by decide) h
  cases List.mem_singleton.mp chosen
  obtain ⟨_, _, rfl, sign, others⟩ := onceDerived arms
  obtain ⟨_, _, rfl, rhs, others⟩ := onceDerived others
  cases noneDerived others
  exact ⟨_, _, rfl, sign, rhs⟩

theorem operandShape (h : Derived t "expr'" m) :
    (∃ sign operand, m = .composite "expr'" "unop" [("unop", sign), ("operand", operand)] ∧
      Derived t "unop" sign ∧ Derived t "expr'" operand) ∨
    ∃ callee args, m = .composite "expr'" "apply" (("callee", callee) :: under "args" args) ∧
      Derived t "primary" callee ∧ ∀ a ∈ args, Derived t "group" a := by
  obtain ⟨b, chosen, fields, rfl, arms⟩ := derivedBranch once (by decide) h
  rcases List.mem_cons.mp chosen with rfl | chosen
  · obtain ⟨_, _, rfl, sign, others⟩ := onceDerived arms
    obtain ⟨_, _, rfl, operand, others⟩ := onceDerived others
    cases noneDerived others
    exact .inl ⟨_, _, rfl, sign, operand⟩
  · cases List.mem_singleton.mp chosen
    cases arms with
    | once callee others =>
      obtain ⟨args, rfl, each⟩ := manyDerived others
      exact .inr ⟨_, args, rfl, callee, each⟩

inductive Primary (t : OperatorTable) : Tree → Prop where
  | function {params body} (left : Derived t "params" params) (right : Derived t "block" body) :
      Primary t (.composite "primary" "function" [("params", params), ("body", body)])
  | cond {chain} (inside : Derived t "cond" chain) :
      Primary t (.composite "primary" "cond" [("cond", chain)])
  | group {args} (inside : Derived t "group" args) :
      Primary t (.composite "primary" "group" [("group", args)])
  | ident {text} :
      Primary t (.composite "primary" "ident" [("ident", .terminal "ident" "ident" (.text text))])

theorem primaryShape (h : Derived t "primary" m) : Primary t m := by
  obtain ⟨b, chosen, fields, rfl, arms⟩ := derivedBranch once (by decide) h
  rcases List.mem_cons.mp chosen with rfl | chosen
  · obtain ⟨_, _, rfl, params, others⟩ := onceDerived arms
    obtain ⟨_, _, rfl, body, others⟩ := onceDerived others
    cases noneDerived others
    exact .function params body
  rcases List.mem_cons.mp chosen with rfl | chosen
  · obtain ⟨_, _, rfl, chain, others⟩ := onceDerived arms
    cases noneDerived others
    exact .cond chain
  rcases List.mem_cons.mp chosen with rfl | chosen
  · obtain ⟨_, _, rfl, args, others⟩ := onceDerived arms
    cases noneDerived others
    exact .group args
  · cases List.mem_singleton.mp chosen
    obtain ⟨_, _, rfl, name, others⟩ := onceDerived arms
    cases noneDerived others
    obtain ⟨s, rfl⟩ := identShape once name
    exact .ident

def enclosures : List (String × String × String × String) :=
  [("group", "lparen-open", "expr", "lparen-close"),
   ("params", "fnargdef-open", "expr", "fnargdef-close"),
   ("block", "fnbody-open", "stmts", "fnbody-close")]

omit once in
theorem groupEncloses : ("group", "lparen-open", "expr", "lparen-close") ∈ enclosures := by decide

omit once in
theorem paramsEnclose : ("params", "fnargdef-open", "expr", "fnargdef-close") ∈ enclosures := by decide

omit once in
theorem blockEncloses : ("block", "fnbody-open", "stmts", "fnbody-close") ∈ enclosures := by decide

theorem enclosedShape {name opener content closer : String}
    (listed : (name, opener, content, closer) ∈ enclosures) (h : Derived t name m) :
    ∃ o c : Tree, Derived t opener o ∧ Derived t closer c ∧
      (m = .composite name "enclosed" [("opener", o), ("closer", c)] ∨
        ∃ e, Derived t content e ∧
          m = .composite name "enclosed" [("opener", o), (content, e), ("closer", c)]) := by
  have shape : ∀ e ∈ enclosures, e.1 ∈ standardRules.map RuleSpec.name ∧
      branchesOf e.1 = [⟨"enclosed", [fieldArm "opener" e.2.1, optionalArm e.2.2.1 e.2.2.1,
        fieldArm "closer" e.2.2.2]⟩] := by
    decide
  obtain ⟨composite, branches⟩ := shape _ listed
  obtain ⟨b, chosen, fields, rfl, arms⟩ := derivedBranch once composite h
  rw [branches] at chosen
  cases List.mem_singleton.mp chosen
  obtain ⟨_, _, rfl, o, others⟩ := onceDerived arms
  rcases optionalDerived others with others | ⟨_, _, rfl, e, others⟩
  · obtain ⟨_, _, rfl, c, others⟩ := onceDerived others
    cases noneDerived others
    exact ⟨_, _, o, c, .inl rfl⟩
  · obtain ⟨_, _, rfl, c, others⟩ := onceDerived others
    cases noneDerived others
    exact ⟨_, _, o, c, .inr ⟨_, e, rfl⟩⟩

theorem condShape (h : Derived t "cond" m) :
    ∃ (scrutinee : Option Tree) (first : Tree) (arms : List Tree),
      m = chainTree scrutinee (first :: arms) ∧
      (∀ e ∈ scrutinee, Derived t "expr" e) ∧ ∀ a ∈ first :: arms, Derived t "arm" a := by
  obtain ⟨b, chosen, fields, rfl, arms⟩ := derivedBranch once (by decide) h
  cases List.mem_singleton.mp chosen
  obtain ⟨_, _, rfl, mark, others⟩ := onceDerived arms
  rw [markShape once (by decide : ("cond-open", "?") ∈ punctuation) mark]
  rcases optionalDerived others with others | ⟨_, _, rfl, scrutinee, others⟩
  · obtain ⟨_, _, rfl, first, others⟩ := onceDerived others
    obtain ⟨more, rfl, each⟩ := manyDerived others
    exact ⟨none, _, more, rfl, by simp, List.forall_mem_cons.mpr ⟨first, each⟩⟩
  · obtain ⟨_, _, rfl, first, others⟩ := onceDerived others
    obtain ⟨more, rfl, each⟩ := manyDerived others
    exact ⟨some _, _, more, rfl, by simpa [Derived] using scrutinee,
      List.forall_mem_cons.mpr ⟨first, each⟩⟩

theorem armShape (h : Derived t "arm" m) :
    ∃ guard body, m = .composite "arm" "arm" [("sep", .terminal "arm-sep" "op" (.glyph "|")),
        ("guard", guard), ("arrow", .terminal "arrow" "op" (.glyph "=>")), ("body", body)] ∧
      Derived t "arm-guard" guard ∧ Derived t "block" body := by
  obtain ⟨b, chosen, fields, rfl, arms⟩ := derivedBranch once (by decide) h
  cases List.mem_singleton.mp chosen
  obtain ⟨_, _, rfl, sep, others⟩ := onceDerived arms
  obtain ⟨_, _, rfl, guard, others⟩ := onceDerived others
  obtain ⟨_, _, rfl, arrow, others⟩ := onceDerived others
  obtain ⟨_, _, rfl, body, others⟩ := onceDerived others
  cases noneDerived others
  rw [markShape once (by decide : ("arm-sep", "|") ∈ punctuation) sep,
    markShape once (by decide : ("arrow", "=>") ∈ punctuation) arrow]
  exact ⟨_, _, rfl, guard, body⟩

inductive GuardTree (t : OperatorTable) : Tree → Prop where
  | catchAll : GuardTree t (.composite "arm-guard" "catch-all"
      [("ellipsis", .terminal "ellipsis" "op" (.glyph "..."))])
  | left {sign rhs} (first : Derived t "binop" sign) (inside : Derived t "expr" rhs) :
      GuardTree t (.composite "arm-guard" "left" [("binop", sign), ("rhs", rhs)])
  | right {e sign} (inside : Derived t "expr" e) (last : Derived t "binop" sign) :
      GuardTree t (.composite "arm-guard" "test" [("expr", e), ("op", sign)])
  | whole {e} (inside : Derived t "expr" e) :
      GuardTree t (.composite "arm-guard" "test" [("expr", e)])

theorem guardShape (h : Derived t "arm-guard" m) : GuardTree t m := by
  obtain ⟨b, chosen, fields, rfl, arms⟩ := derivedBranch once (by decide) h
  rcases List.mem_cons.mp chosen with rfl | chosen
  · obtain ⟨_, _, rfl, mark, others⟩ := onceDerived arms
    cases noneDerived others
    rw [markShape once (by decide : ("ellipsis", "...") ∈ punctuation) mark]
    exact .catchAll
  rcases List.mem_cons.mp chosen with rfl | chosen
  · obtain ⟨_, _, rfl, sign, others⟩ := onceDerived arms
    obtain ⟨_, _, rfl, rhs, others⟩ := onceDerived others
    cases noneDerived others
    exact .left sign rhs
  · cases List.mem_singleton.mp chosen
    obtain ⟨_, _, rfl, e, others⟩ := onceDerived arms
    rcases optionalDerived others with others | ⟨_, _, rfl, sign, others⟩
    · cases noneDerived others
      exact .whole e
    · cases noneDerived others
      exact .right e sign

end Rules

end Language
end Parlance
