import Parlance.Proofs.Arithmetic.TwoLevels
import Parlance.Proofs.Expr.Faithful
import Parlance.Proofs.Language.Concatenation
import Parlance.Proofs.Language.Flat
import Parlance.Proofs.Language.Numerals

/-! Programs that are chains of numbers. A chain that is written on a line with spaces is cut into its numerals
and signs, it is a program of one statement, and the expression of that is the tree of the two levels. -/
namespace Parlance.Arithmetic

open Parlance.Language (Derived branchDerives repeatedDerives glyphTableMember signsSpelled)
open Parlance.Tree (under)

def linkTokens (link : Link) : List Token := [.glyph link.1.operator.symbol, .text (toString link.2)]

def tokens (first : Nat) (links : List Link) : List Token :=
  .text (toString first) :: links.flatMap linkTokens

def text (first : Nat) (links : List Link) : String :=
  " ".intercalate (toString first :: links.flatMap fun link => [link.1.operator.symbol, toString link.2])

theorem textLine (first : Nat) (links : List Link) : text first links = Token.line (tokens first links) := by
  simp [text, Token.line, tokens, linkTokens, Token.content, List.map_flatMap]

theorem signListed (op : Arithmetic) : op.operator ∈ standardOperators.operators := by
  cases op <;> decide

theorem signCanonical (op : Arithmetic) :
    Token.Canonical (glyphTable standardOperators) (.glyph op.operator.symbol) := by
  refine ⟨glyphTableMember.mpr (List.mem_append_left _ (List.mem_map_of_mem (signListed op))), ?_⟩
  cases op <;> decide

theorem tokensCanonical (first : Nat) (links : List Link) :
    Token.CanonicalList (glyphTable standardOperators) (tokens first links) := by
  have numeral := numeralCanonical signsSpelled
  induction links generalizing first with
  | nil => exact Token.canonicalCons (numeral first) Token.canonicalNone (by simp)
  | cons link links ih =>
    exact Token.canonicalCons (numeral first)
      (Token.canonicalCons (signCanonical link.1) (ih link.2) nofun) (by simp [linkTokens])

section Flat

open Parlance.Language.StandardParts

theorem signAccepted (op : Arithmetic) : Accepted (.glyph op.operator.symbol) "binop" :=
  infixAccepted (List.mem_map_of_mem (List.mem_filter.mpr ⟨signListed op, by cases op <;> rfl⟩))

theorem tokensFlat (first : Nat) (links : List Link) : Flat (tokens first links) := by
  have numeral : ∀ n : Nat, Accepted (.text (toString n)) "ident" := fun n => textAccepted _
  constructor
  · intro t member
    rcases List.mem_cons.mp member with rfl | behind
    · exact .inl (numeral first)
    · obtain ⟨link, -, inside⟩ := List.mem_flatMap.mp behind
      simp only [linkTokens, List.mem_cons, List.not_mem_nil, or_false] at inside
      rcases inside with rfl | rfl
      · exact .inr (signAccepted link.1)
      · exact .inl (numeral link.2)
  · induction links generalizing first with
    | nil => exact .singleton _
    | cons link links ih =>
      exact .cons_cons (.inl (numeral first)) (.cons_cons (.inr (numeral link.2)) (ih link.2))

end Flat

def numberTree (n : Nat) : Tree :=
  .composite "expr'" "apply" [("callee", .composite "primary" "ident"
    [("ident", .terminal "ident" "ident" (.text (toString n)))])]

def linkTree (link : Link) : Tree :=
  .composite "link" "infix"
    [("binop", .terminal "binop" "op" (.glyph link.1.operator.symbol)), ("rhs", numberTree link.2)]

def tree (first : Nat) (links : List Link) : Tree :=
  .composite "expr" "chain" (("head", numberTree first) :: under "link" (links.map linkTree))

def program (first : Nat) (links : List Link) : Tree :=
  .composite "stmts" "seq" [("stmt", tree first links)]

theorem programTokens (first : Nat) (links : List Link) :
    (program first links).tokens = tokens first links := by
  have each : ∀ link, (linkTree link).tokens = linkTokens link := fun _ => rfl
  simp [program, tree, numberTree, Tree.tokens, Tree.fieldTokens, Tree.underTokens, List.flatMap_map, each,
    tokens]

theorem numberDerived (n : Nat) : Derived standardOperators "expr'" (numberTree n) := by
  have ident : Derived standardOperators "ident" (.terminal "ident" "ident" (.text (toString n))) :=
    @Grammar.Derives.token _ _ ⟨"ident", "ident", Token.isText⟩ _ List.mem_cons_self rfl
  have primary : Derived standardOperators "primary" _ :=
    branchDerives ⟨"ident", [bareArm "ident"]⟩ (by decide) (.once ident .nil)
  exact branchDerives ⟨"apply", [fieldArm "callee" "primary", manyArm "args" "group"]⟩ (by decide)
    (.once primary (.stop .nil))

theorem linkDerived (link : Link) : Derived standardOperators "link" (linkTree link) := by
  have sign : Derived standardOperators "binop" (.terminal "binop" "op" (.glyph link.1.operator.symbol)) :=
    @Grammar.Derives.token _ _ (glyphTerminal "binop" (standardOperators.symbols .infixOp)) _
      (by simp [terminals]) (by cases link.1 <;> rfl)
  exact branchDerives ⟨"infix", [bareArm "binop", fieldArm "rhs" "expr'"]⟩ (by decide)
    (.once sign (.once (numberDerived link.2) .nil))

theorem programDerived (first : Nat) (links : List Link) :
    Derived standardOperators standardStart (program first links) := by
  have each : ∀ c ∈ links.map linkTree, Derived standardOperators "link" c :=
    List.forall_mem_map.mpr fun link _ => linkDerived link
  have chain : Derived standardOperators "expr" (tree first links) :=
    branchDerives ⟨"chain", [fieldArm "head" "expr'", manyArm "link" "link"]⟩ (by decide)
      (.once (numberDerived first) (repeatedDerives each))
  exact branchDerives ⟨"seq", [fieldArm "stmt" "expr", manyArm "rest" "next-stmt"]⟩ (by decide)
    (.once chain (.stop .nil))

def numeral (n : Nat) : Expr := .ident (toString n)

section Resolved

open Parlance.Expr

theorem numberResolved (n : Nat) : ofTree standardOperators (numberTree n) = .ok (numeral n) := by
  rw [numberTree, ofTreeApply, ofTreeParts]
  rfl

theorem signFound (op : Arithmetic) :
    standardOperators.find? op.operator.symbol .infixOp = some op.operator := by
  cases op <;> rfl

theorem linkResolved (link : Link) :
    Resolve.link (ofTree standardOperators) standardOperators (linkTree link) =
      .ok (link.1.operator, numeral link.2) := by
  have sign : (linkTree link).token? "binop" = some (.glyph link.1.operator.symbol) := rfl
  have rhs : Resolve.child (linkTree link) "rhs" = .ok (numberTree link.2) := rfl
  rw [Resolve.link, Resolve.operatorFound sign (signFound link.1), rhs]
  change (ofTree standardOperators (numberTree link.2) >>= fun e => Except.ok (link.1.operator, e)) = _
  rw [numberResolved]
  rfl

theorem treeFlattened (first : Nat) (links : List Link) :
    Resolve.flatten (ofTree standardOperators) standardOperators (tree first links) =
      .ok (numeral first :: links.map fun link => numeral link.2, links.map fun link => link.1.operator) := by
  have head : Resolve.child (tree first links) "head" = .ok (numberTree first) := rfl
  have children : (tree first links).children "link" = links.map linkTree := Tree.restChildren _ (by decide)
  have each : ∀ link ∈ links, Resolve.link (ofTree standardOperators) standardOperators (linkTree link) =
      .ok (link.1.operator, numeral link.2) := fun link _ => linkResolved link
  have walked := traverseMap each
  rw [Resolve.flatten, head, children, walked]
  change (do
    let e ← ofTree standardOperators (numberTree first)
    let found ← Except.ok (links.map fun link : Link => (link.1.operator, numeral link.2))
    Except.ok (e :: found.map Prod.snd, found.map Prod.fst)) = _
  rw [numberResolved]
  simp [bind, Except.bind]

theorem programResolved (first : Nat) {links : List Link} (few : links.length ≤ maxNesting) :
    statements standardOperators (program first links) =
      .ok [(OperatorTree.twoLevels numeral first links).toExpr] := by
  have whole : ofTree standardOperators (tree first links) =
      .ok (OperatorTree.twoLevels numeral first links).toExpr := by
    rw [ofTreeChain rfl, treeFlattened]
    exact twoLevelsReassociated numeral first few
  rw [program, statementsSole, whole]
  rfl

end Resolved

end Parlance.Arithmetic
