import Parlance.Proofs.Chain.Related
import Parlance.Proofs.Expr.Resolution
import Parlance.Proofs.Expr.Tokens
import Parlance.Proofs.Language.Shapes
import Parlance.Proofs.Language.Standard
import Parlance.Proofs.Matching.Conservation
import Parlance.Proofs.Operator.Built

/-! Resolving derivation trees. Every rule of the grammar has its own step in the resolver, so a derivation
tree is resolved to an expression with the same tokens and with its enclosers in their places, and whatever
goes wrong on the way is the fault of the source text. -/
namespace Parlance

def unended (tokens : List Token) : List Token := tokens.filter fun t => t != .glyph ";"

@[simp] theorem unendedAppend (a b : List Token) : unended (a ++ b) = unended a ++ unended b :=
  List.filter_append a b

@[simp] theorem unendedNil : unended [] = [] := rfl

@[simp] theorem unendedCons (t : Token) (tokens : List Token) :
    unended (t :: tokens) = (if t = .glyph ";" then [] else [t]) ++ unended tokens := by
  by_cases same : t = .glyph ";" <;> simp [unended, same]

theorem unendedFlatMap {α : Type} (f : α → List Token) (as : List α) :
    unended (as.flatMap f) = as.flatMap fun a => unended (f a) := by
  induction as with
  | nil => rfl
  | cons a as ih => simp [ih]

/-- What a stage reports about trees and tables that do not fit it, whatever the source text is. -/
def ResolveError.Internal : ResolveError → Prop
  | .unexpectedNode _ => True
  | .missingField _ _ => True
  | .malformedChain => True
  | .unknownOperator _ _ => True
  | _ => False

/-- What a source text can be blamed for only under a table that leaves it open. -/
def ResolveError.Tabular : ResolveError → Prop
  | .precedenceConflict _ _ => True
  | .mismatchedEncloser _ _ => True
  | .misplacedEncloser _ => True
  | _ => False

def ResolveError.Fair (strict : Prop) (e : ResolveError) : Prop := ¬ e.Internal ∧ (strict → ¬ e.Tabular)

namespace Language

def roleOf (r : Roles) (name : String) : Option Operator :=
  if name = "group" then r.group else if name = "params" then r.params else r.block

structure Settled (t : OperatorTable) (r : Roles) : Prop where
  related : ∀ a ∈ t.operators, a.category = .infixOp → ∀ b ∈ t.operators, b.category = .infixOp →
    t.precedence a.id b.id ≠ .undefined
  paired : ∀ e ∈ enclosures, ∀ p ∈ t.enclosers, ∀ q ∈ t.enclosers,
    p.1.name ++ "-open" = e.2.1 → q.1.name ++ "-close" = e.2.2.2 →
      t.find? p.1.symbol .opener = roleOf r e.1 ∧
        ((t.find? q.2.symbol .closer).map fun close => close.id) = (roleOf r e.1).bind Operator.partner

end Language

namespace Resolve

open Parlance.Language
open Parlance.Tree (under)

structure Faithful (t : OperatorTable) (strict : Prop) (r : Roles) (m : Tree) (e : Expr) : Prop where
  placed : e.Placed strict r
  written : unended (e.tokens t) = unended m.tokens

def FaithfulAll (t : OperatorTable) (strict : Prop) (r : Roles) (m : Tree) (es : List Expr) : Prop :=
  (∀ e ∈ es, e.Placed strict r) ∧ unended (Expr.allTokens t es) = unended m.tokens

def FaithfulIn (t : OperatorTable) (strict : Prop) (r : Roles) (role : Option Operator) (m : Tree)
    (e : Expr) : Prop :=
  Expr.Encloses strict r role e ∧ unended (e.tokens t) = unended m.tokens

inductive Content (t : OperatorTable) (m : Tree) : List Token → Prop where
  | nothing (noStatements : m.child? "stmts" = none) (noExpr : m.child? "expr" = none) : Content t m []
  | expr {e} (noStatements : m.child? "stmts" = none) (found : m.child? "expr" = some e)
      (derived : Derived t "expr" e) : Content t m e.tokens
  | statements {e} (found : m.child? "stmts" = some e) (derived : Derived t "stmts" e) :
      Content t m e.tokens

structure Enclosure (t : OperatorTable) (strict : Prop) (role : Option Operator) (m : Tree)
    (op close : Operator) (inner : List Token) : Prop where
  opened : operator t m "opener" .opener = .ok op
  closed : operator t m "closer" .closer = .ok close
  closing : op.partner = some close.id → t.closing? op = some close
  fits : strict → role = some op ∧ op.partner = some close.id
  content : Content t m inner
  tokens : m.tokens = .glyph op.symbol :: (inner ++ [.glyph close.symbol])

def parts : List String := ["expr", "expr'", "primary"]

structure Resolving (t : OperatorTable) (strict : Prop) (r : Roles)
    (step : Tree → Except ResolveError Expr) (height : Nat) : Prop where
  formed : t.Formed
  once : (Grammar.declared standardRules (terminals t)).Nodup
  settled : strict → Settled t r
  lower : ∀ {rule c}, rule ∈ parts → Derived t rule c → c.height < height →
    Gives (Faithful t strict r c) (ResolveError.Fair strict) (step c)

section

variable {t : OperatorTable} {strict : Prop} {r : Roles} {step : Tree → Except ResolveError Expr}
  {height : Nat} (known : Resolving t strict r step height) {m : Tree}

theorem operatorFound {field symbol : String} {category : Category} {op : Operator}
    (sign : m.token? field = some (.glyph symbol)) (found : t.find? symbol category = some op) :
    operator t m field category = .ok op := by
  simp [operator, token, sign, found, Token.content, bind, Except.bind]

include known

theorem nextGives (h : Derived t "next-stmt" m) (low : m.height ≤ height) :
    Gives (FaithfulAll t strict r m) (ResolveError.Fair strict) (nextStatement step m) := by
  rcases nextShape known.once h with ⟨mark, e, rfl, ended, statement⟩ | ⟨mark, rfl, ended⟩
  · cases markShape known.once (by decide : ("endstmt", ";") ∈ punctuation) ended
    have below := Tree.fieldWithin low (by simp : ("stmt", e) ∈ _)
    refine givesFound rfl (givesBind (known.lower (by decide) statement below) fun x faithful => ?_)
    refine ⟨by simpa using faithful.placed, ?_⟩
    simp [Expr.allTokens, Tree.tokens, Tree.fieldTokens, faithful.written]
  · cases markShape known.once (by decide : ("endstmt", ";") ∈ punctuation) ended
    exact ⟨by simp, by simp [Expr.allTokens, Tree.tokens, Tree.fieldTokens]⟩

theorem statementsGive (h : Derived t "stmts" m) (low : m.height ≤ height) :
    Gives (FaithfulAll t strict r m) (ResolveError.Fair strict) (statementsWith step m) := by
  obtain ⟨first, rest, rfl, statement, others⟩ := statementsShape known.once h
  have below := Tree.fieldWithin low (by simp : ("stmt", first) ∈ _)
  refine givesFound rfl (givesBind (known.lower (by decide) statement below) fun e faithful => ?_)
  rw [Tree.restChildren rest (by decide)]
  have walked := givesTraverse fun n member =>
    nextGives known (others n member) (Nat.le_of_lt (Tree.restWithin low member))
  refine givesBind walked ?_
  rintro groups ⟨placed, written⟩
  refine ⟨?_, ?_⟩
  · refine List.forall_mem_cons.mpr ⟨faithful.placed, fun x member => ?_⟩
    obtain ⟨group, inside, member⟩ := List.mem_flatten.mp member
    exact placed group inside x member
  · simp [Expr.allTokens, Expr.allTokensFlatten, unendedFlatMap, written, Tree.tokens,
      Tree.fieldTokens, Tree.underTokens, faithful.written]

theorem linkGives (h : Derived t "link" m) (low : m.height ≤ height) :
    Gives (fun l => (l.1 ∈ t.operators ∧ l.1.category = .infixOp ∧ l.2.Placed strict r) ∧
      unended (.glyph l.1.symbol :: l.2.tokens t) = unended m.tokens) (ResolveError.Fair strict)
      (link step t m) := by
  obtain ⟨sign, rhs, rfl, glyph, operand⟩ := linkShape known.once h
  obtain ⟨symbol, listed, rfl⟩ := infixShape known.once glyph
  obtain ⟨op, inside, rfl, category, found⟩ := OperatorTable.listedFound listed
  have below := Tree.fieldWithin low (by simp : ("rhs", rhs) ∈ _)
  refine givesFound (operatorFound rfl found) (givesFound rfl ?_)
  refine givesBind (known.lower (by decide) operand below) fun e faithful => ?_
  exact ⟨⟨inside, category, faithful.placed⟩, by
    simp [Tree.tokens, Tree.fieldTokens, faithful.written]⟩

structure Flat (t : OperatorTable) (strict : Prop) (r : Roles) (m : Tree)
    (chain : List Expr × List Operator) : Prop where
  turns : chain.1.length = chain.2.length + 1
  placed : ∀ e ∈ chain.1, e.Placed strict r
  ops : ∀ op ∈ chain.2, op ∈ t.operators ∧ op.category = .infixOp
  written : unended (Expr.chainTokens t chain.1 chain.2) = unended m.tokens

theorem flattenGives (h : Derived t "expr" m) (low : m.height ≤ height) :
    Gives (Flat t strict r m) (ResolveError.Fair strict) (flatten step t m) := by
  obtain ⟨head, links, rfl, operand, others⟩ := chainShape known.once h
  have below := Tree.fieldWithin low (by simp : ("head", head) ∈ _)
  refine givesFound rfl (givesBind (known.lower (by decide) operand below) fun e faithful => ?_)
  rw [Tree.restChildren links (by decide)]
  have walked := givesTraverse fun l member =>
    linkGives known (others l member) (Nat.le_of_lt (Tree.restWithin low member))
  refine givesBind walked ?_
  rintro read ⟨each, written⟩
  refine ⟨by simp, ?_, ?_, ?_⟩
  · refine List.forall_mem_cons.mpr ⟨faithful.placed, fun x member => ?_⟩
    obtain ⟨l, inside, rfl⟩ := List.mem_map.mp member
    exact (each l inside).2.2
  · intro op member
    obtain ⟨l, inside, rfl⟩ := List.mem_map.mp member
    exact ⟨(each l inside).1, (each l inside).2.1⟩
  · have paired : (read.map Prod.fst).zip (read.map Prod.snd) = read :=
      (List.zip_of_prod rfl rfl).symm
    simp only [Expr.chainTokens, paired, Tree.tokens, Tree.fieldTokens, Tree.underTokens, unendedAppend,
      unendedFlatMap, faithful.written, written]

omit known in
theorem reassociateGives {operands : List Expr} {ops : List Operator}
    (turns : operands.length = ops.length + 1) (placed : ∀ e ∈ operands, e.Placed strict r)
    (related : strict → Chain.Related t ops) :
    Gives (fun e => e.Placed strict r ∧ e.tokens t = Expr.chainTokens t operands ops)
      (ResolveError.Fair strict) (reassociate t operands ops) := by
  have verdict := Chain.verdict t operands ops
  cases found : reassociate t operands ops with
  | ok e =>
    obtain ⟨tree, stands, -, rfl⟩ := (Chain.verdictOk verdict e).mp found
    refine ⟨OperatorTree.toExprPlaced fun e member => placed e ?_, Chain.standsTokens stands⟩
    rwa [stands.operands] at member
  | error e =>
    rw [found] at verdict
    cases verdict with
    | malformed wrong => exact absurd turns wrong
    | conflict length conflict none =>
      rcases conflict with ⟨symbol, rfl⟩ | ⟨left, right, rfl⟩
      · exact ⟨not_false, fun _ => not_false⟩
      · exact ⟨not_false, fun asked => absurd found (Chain.reassociateRelated (related asked) left right)⟩
    | tooDeep stands high => exact ⟨not_false, fun _ => not_false⟩

theorem relatedOps {ops : List Operator} (infixes : ∀ op ∈ ops, op ∈ t.operators ∧ op.category = .infixOp)
    (asked : strict) : Chain.Related t ops := fun a left b right =>
  (known.settled asked).related a (infixes a left).1 (infixes a left).2 b (infixes b right).1
    (infixes b right).2

theorem enclosureFound {name opener content closer : String}
    (listed : (name, opener, content, closer) ∈ enclosures) (h : Derived t name m) :
    ∃ op close inner, Enclosure t strict (roleOf r name) m op close inner := by
  obtain ⟨o, c, opens, closes, shape⟩ := enclosedShape known.once listed h
  have halves : ∀ e ∈ enclosures, e.2.1 ∈ openers ∧ e.2.2.2 ∈ closers := by decide
  obtain ⟨p, first, opened, rfl⟩ := openShape (halves _ listed).1 opens
  obtain ⟨q, last, closed, rfl⟩ := closeShape (halves _ listed).2 closes
  obtain ⟨op, -, sign, category, found⟩ :=
    OperatorTable.listedFound (OperatorTable.enclosersListed known.formed first).1
  obtain ⟨close, member, closer, -, ends⟩ :=
    OperatorTable.listedFound (OperatorTable.enclosersListed known.formed last).2
  have closing := OperatorTable.closingFound known.formed category member
  have fits : strict → roleOf r name = some op ∧ op.partner = some close.id := fun asked => by
    have pair := (known.settled asked).paired _ listed p first q last opened closed
    rw [found, ends] at pair
    refine ⟨pair.1.symm, ?_⟩
    rw [← pair.1] at pair
    exact pair.2.symm
  rw [← sign] at found
  rw [← closer] at ends
  rw [← sign, ← closer] at shape
  rcases shape with rfl | ⟨e, inside, rfl⟩
  · exact ⟨op, close, [], operatorFound rfl found, operatorFound rfl ends, closing, fits,
      .nothing rfl rfl, rfl⟩
  · have kinds : content = "expr" ∨ content = "stmts" :=
      (by decide : ∀ e ∈ enclosures, e.2.2.1 = "expr" ∨ e.2.2.1 = "stmts") _ listed
    rcases kinds with rfl | rfl
    · exact ⟨op, close, e.tokens, operatorFound rfl found, operatorFound rfl ends, closing, fits,
        .expr rfl rfl inside, rfl⟩
    · exact ⟨op, close, e.tokens, operatorFound rfl found, operatorFound rfl ends, closing, fits,
        .statements rfl inside, rfl⟩

omit known in
theorem enclosureFaithful {role : Option Operator} {op close : Operator} {inner : List Token}
    (enclosure : Enclosure t strict role m op close inner) (partner : op.partner = some close.id)
    {body : List Expr} (placed : ∀ e ∈ body, e.Placed strict r)
    (written : unended (Expr.allTokens t body) = unended inner) :
    FaithfulIn t strict r role m (.enclosed op body) := by
  refine ⟨.enclosed (fun asked => (enclosure.fits asked).1) placed, ?_⟩
  simp [Expr.tokens, OperatorTable.closingSign, enclosure.closing partner, enclosure.tokens, written]

theorem enclosedGives {name opener content closer : String}
    (listed : (name, opener, content, closer) ∈ enclosures) (h : Derived t name m)
    (low : m.height ≤ height) :
    Gives (FaithfulIn t strict r (roleOf r name) m) (ResolveError.Fair strict) (enclosed step t m) := by
  obtain ⟨op, close, inner, enclosure⟩ := enclosureFound known listed h
  unfold enclosed
  refine givesFound enclosure.opened (givesFound enclosure.closed ?_)
  by_cases partner : op.partner = some close.id
  · have right : (op.partner != some close.id) = false := by simpa using partner
    simp only [right]
    cases enclosure.content with
    | nothing noStatements noExpr =>
      simp only [noStatements, noExpr]
      exact enclosureFaithful enclosure partner (by simp) rfl
    | expr noStatements found derived =>
      have below := Nat.lt_of_lt_of_le (Tree.childHeight found) low
      simp only [noStatements, found]
      refine givesBind (known.lower (by decide) derived below) fun x faithful => ?_
      exact enclosureFaithful enclosure partner (by simpa using faithful.placed)
        (by simpa [Expr.allTokens] using faithful.written)
    | statements found derived =>
      have below := Nat.lt_of_lt_of_le (Tree.childHeight found) low
      simp only [found]
      refine givesBind (statementsGive known derived (Nat.le_of_lt below)) fun body read => ?_
      exact enclosureFaithful enclosure partner read.1 read.2
  · have wrong : (op.partner != some close.id) = true := by simpa using partner
    simp only [wrong, if_true]
    exact ⟨not_false, fun asked => absurd (enclosure.fits asked).2 partner⟩

theorem groupGives (h : Derived t "group" m) (low : m.height ≤ height) :
    Gives (FaithfulIn t strict r r.group m) (ResolveError.Fair strict) (enclosed step t m) :=
  enclosedGives known groupEncloses h low

theorem paramsGive (h : Derived t "params" m) (low : m.height ≤ height) :
    Gives (FaithfulIn t strict r r.params m) (ResolveError.Fair strict) (enclosed step t m) :=
  enclosedGives known paramsEnclose h low

theorem blockGives (h : Derived t "block" m) (low : m.height ≤ height) :
    Gives (FaithfulIn t strict r r.block m) (ResolveError.Fair strict) (enclosed step t m) :=
  enclosedGives known blockEncloses h low

theorem guardGives (h : Derived t "arm-guard" m) (low : m.height ≤ height) :
    Gives (fun g => (∀ e ∈ g.operands, e.Placed strict r) ∧
      unended (Expr.guardTokens t g) = unended m.tokens) (ResolveError.Fair strict)
      (guardOf step t m) := by
  cases guardShape known.once h with
  | catchAll => exact ⟨by simp [Guard.operands], by simp [Expr.guardTokens, Tree.tokens, Tree.fieldTokens]⟩
  | @left sign rhs glyph inside =>
    obtain ⟨symbol, listed, rfl⟩ := infixShape known.once glyph
    obtain ⟨op, member, rfl, category, found⟩ := OperatorTable.listedFound listed
    have below := Tree.fieldWithin low (by simp : ("rhs", rhs) ∈ _)
    refine givesFound (operatorFound rfl found) (givesFound rfl ?_)
    refine givesBind (flattenGives known inside (Nat.le_of_lt below)) fun chain flat => ?_
    have placed : ∀ e ∈ Expr.capture :: chain.1, e.Placed strict r :=
      List.forall_mem_cons.mpr ⟨.capture, flat.placed⟩
    have infixes := List.forall_mem_cons.mpr ⟨⟨member, category⟩, flat.ops⟩
    refine givesBind (reassociateGives (by simp [flat.turns]) placed (relatedOps known infixes)) ?_
    rintro e ⟨placed, written⟩
    refine ⟨by simpa [Guard.operands] using placed, ?_⟩
    obtain ⟨first, rest, operands⟩ := List.exists_cons_of_length_eq_add_one flat.turns
    have inner := flat.written
    rw [operands] at written inner
    rw [Expr.chainTokensLeft] at written
    simp [Expr.guardTokens, written, inner, Tree.tokens, Tree.fieldTokens]
  | @right e sign inside glyph =>
    obtain ⟨symbol, listed, rfl⟩ := infixShape known.once glyph
    obtain ⟨op, member, rfl, category, found⟩ := OperatorTable.listedFound listed
    have below := Tree.fieldWithin low (by simp : ("expr", e) ∈ _)
    refine givesFound (operatorFound rfl found) (givesFound rfl ?_)
    refine givesBind (flattenGives known inside (Nat.le_of_lt below)) fun chain flat => ?_
    have placed : ∀ e ∈ chain.1 ++ [.capture], e.Placed strict r :=
      List.forall_mem_append.mpr ⟨flat.placed, by simpa using .capture⟩
    have infixes := List.forall_mem_append.mpr ⟨flat.ops, List.forall_mem_singleton.mpr ⟨member, category⟩⟩
    refine givesBind (reassociateGives (by simp [flat.turns]) placed (relatedOps known infixes)) ?_
    rintro e ⟨placed, written⟩
    refine ⟨by simpa [Guard.operands] using placed, ?_⟩
    obtain ⟨first, rest, operands⟩ := List.exists_cons_of_length_eq_add_one flat.turns
    have inner := flat.written
    have turns := flat.turns
    rw [operands] at written inner turns
    rw [List.cons_append, Expr.chainTokensRight op (by simpa using turns.symm)] at written
    simp [Expr.guardTokens, written, inner, Tree.tokens, Tree.fieldTokens]
  | @whole e inside =>
    have below := Tree.fieldWithin low (by simp : ("expr", e) ∈ _)
    refine givesFound rfl (givesBind (known.lower (by decide) inside below) fun x faithful => ?_)
    refine ⟨by simpa [Guard.operands] using faithful.placed, ?_⟩
    simpa [Expr.guardTokens, Tree.tokens, Tree.fieldTokens] using faithful.written

theorem armGives (h : Derived t "arm" m) (low : m.height ≤ height) :
    Gives (fun arm => ((∀ e ∈ arm.guard.operands, e.Placed strict r) ∧
      Expr.Encloses strict r r.block arm.body) ∧ unended (Expr.armTokens t arm) = unended m.tokens)
      (ResolveError.Fair strict) (armOf step t m) := by
  obtain ⟨guard, body, rfl, test, block⟩ := armShape known.once h
  have guardLow := Tree.fieldWithin low (by simp : ("guard", guard) ∈ _)
  have bodyLow := Tree.fieldWithin low (by simp : ("body", body) ∈ _)
  refine givesFound rfl (givesBind (guardGives known test (Nat.le_of_lt guardLow)) fun g guards => ?_)
  refine givesFound rfl (givesBind (blockGives known block (Nat.le_of_lt bodyLow)) fun b bodies => ?_)
  refine ⟨⟨guards.1, bodies.1⟩, ?_⟩
  simp [Expr.armTokens, Tree.tokens, Tree.fieldTokens, guards.2, bodies.2]

theorem armsGive {trees : List Tree} (each : ∀ a ∈ trees, Derived t "arm" a ∧ a.height ≤ height) :
    Gives (fun arms => (∀ arm ∈ arms, ∀ e ∈ arm.guard.operands, e.Placed strict r) ∧
      (∀ arm ∈ arms, Expr.Encloses strict r r.block arm.body) ∧
      unended (Expr.armsTokens t arms) = trees.flatMap fun a => unended a.tokens)
      (ResolveError.Fair strict) (traverse (armOf step t) trees) := by
  have walked := givesTraverse fun a member => armGives known (each a member).1 (each a member).2
  refine givesMono walked fun arms read => ⟨?_, ?_, ?_⟩
  · exact fun arm member => (read.1 arm member).1
  · exact fun arm member => (read.1 arm member).2
  · rw [Expr.armsTokensEach, unendedFlatMap]
    exact read.2

omit known in
theorem chainTreeTokens (scrutinee : Option Tree) (arms : List Tree) :
    unended (chainTree scrutinee arms).tokens =
      .glyph "?" :: ((scrutinee.toList.flatMap fun e => unended e.tokens) ++
        arms.flatMap fun a => unended a.tokens) := by
  simp [chainTree, Tree.tokens, Tree.fieldTokens, Tree.fieldTokensAppend, Tree.underTokens, unendedFlatMap]

theorem conditionalGives (h : Derived t "cond" m) (low : m.height ≤ height) :
    Gives (Faithful t strict r m) (ResolveError.Fair strict) (conditional step t m) := by
  obtain ⟨scrutinee, first, others, rfl, subject, each⟩ := condShape known.once h
  have armsGiven := armsGive known fun a member => ⟨each a member,
    Nat.le_of_lt (Tree.fieldWithin low (List.mem_append_right _ (Tree.underMember member)))⟩
  have children : (chainTree scrutinee (first :: others)).children "arm" = first :: others :=
    Tree.childrenUnder _ _ (by simp [under])
  have lookup : (chainTree scrutinee (first :: others)).child? "scrutinee" = scrutinee := by
    cases scrutinee with
    | none => exact Tree.lookupUnder (by decide : "arm" ≠ "scrutinee") (first :: others)
    | some e => rfl
  have ruled : (chainTree scrutinee (first :: others)).rule = "cond" := rfl
  simp only [conditional, ruled, bne_self_eq_false, Bool.false_eq_true, if_false, children, lookup]
  cases scrutinee with
  | none =>
    refine givesBind armsGiven ?_
    rintro arms ⟨guards, bodies, written⟩
    refine ⟨.conditional (by simp) guards bodies, ?_⟩
    simp [Expr.tokens, chainTreeTokens, written]
  | some e =>
    have below := Tree.fieldWithin low (by simp [under] : ("scrutinee", e) ∈ _)
    refine givesBind (known.lower (by decide) (subject e rfl) below) fun x faithful => ?_
    refine givesBind armsGiven ?_
    rintro arms ⟨guards, bodies, written⟩
    refine ⟨.conditional (by simpa using faithful.placed) guards bodies, ?_⟩
    simp [Expr.tokens, chainTreeTokens, written, faithful.written]

theorem applyAllGives {groups : List Tree} (each : ∀ c ∈ groups, Derived t "group" c ∧ c.height ≤ height)
    {callee : Expr} (placed : callee.Placed strict r) :
    Gives (fun e => e.Placed strict r ∧
      unended (e.tokens t) = unended (callee.tokens t) ++ groups.flatMap fun c => unended c.tokens)
      (ResolveError.Fair strict) (applyAll step t callee groups) := by
  induction groups generalizing callee with
  | nil => exact ⟨placed, by simp⟩
  | cons c groups ih =>
    obtain ⟨⟨group, low⟩, later⟩ := List.forall_mem_cons.mp each
    refine givesBind (groupGives known group low) ?_
    rintro args ⟨inside, written⟩
    refine givesMono (ih later (.call placed inside)) fun e applied => ⟨applied.1, ?_⟩
    simp [applied.2, Expr.tokens, written]

theorem operandGives (h : Derived t "expr'" m) (low : m.height ≤ height) :
    Gives (Faithful t strict r m) (ResolveError.Fair strict) (exprWith step t m) := by
  rcases operandShape known.once h with ⟨sign, operand, rfl, glyph, inside⟩ |
    ⟨callee, args, rfl, first, groups⟩
  · obtain ⟨symbol, listed, rfl⟩ := prefixShape known.once glyph
    obtain ⟨op, -, rfl, -, found⟩ := OperatorTable.listedFound listed
    have below := Tree.fieldWithin low (by simp : ("operand", operand) ∈ _)
    refine givesFound (operatorFound rfl found) (givesFound rfl ?_)
    refine givesBind (known.lower (by decide) inside below) fun x faithful => ⟨.unary faithful.placed, ?_⟩
    simp [Expr.tokens, Tree.tokens, Tree.fieldTokens, faithful.written]
  · have below := Tree.fieldWithin low (by simp : ("callee", callee) ∈ _)
    refine givesFound rfl (givesBind (known.lower (by decide) first below) fun f faithful => ?_)
    rw [Tree.restChildren args (by decide)]
    have each : ∀ c ∈ args, Derived t "group" c ∧ c.height ≤ height := fun c member =>
      ⟨groups c member, Nat.le_of_lt (Tree.restWithin low member)⟩
    refine givesMono (applyAllGives known each faithful.placed) ?_
    rintro e ⟨placed, written⟩
    refine ⟨placed, ?_⟩
    simp [written, Tree.tokens, Tree.fieldTokens, Tree.underTokens, unendedFlatMap, faithful.written]

theorem primaryGives (h : Derived t "primary" m) (low : m.height ≤ height) :
    Gives (Faithful t strict r m) (ResolveError.Fair strict) (exprWith step t m) := by
  cases primaryShape known.once h with
  | @function params body left right =>
    have paramsLow := Tree.fieldWithin low (by simp : ("params", params) ∈ _)
    have bodyLow := Tree.fieldWithin low (by simp : ("body", body) ∈ _)
    refine givesFound rfl (givesBind (paramsGive known left (Nat.le_of_lt paramsLow)) fun p first => ?_)
    refine givesFound rfl (givesBind (blockGives known right (Nat.le_of_lt bodyLow)) fun b last => ?_)
    refine ⟨.function first.1 last.1, ?_⟩
    simp [Expr.tokens, Tree.tokens, Tree.fieldTokens, first.2, last.2]
  | @cond chain inside =>
    have below := Tree.fieldWithin low (by simp : ("cond", chain) ∈ _)
    refine givesFound rfl (givesMono (conditionalGives known inside (Nat.le_of_lt below)) ?_)
    exact fun e faithful => ⟨faithful.placed, by simp [Tree.tokens, Tree.fieldTokens, faithful.written]⟩
  | @group args inside =>
    have below := Tree.fieldWithin low (by simp : ("group", args) ∈ _)
    refine givesFound rfl (givesBind (groupGives known inside (Nat.le_of_lt below)) fun a group => ?_)
    exact ⟨.group group.1, by simp [Expr.tokens, Tree.tokens, Tree.fieldTokens, group.2]⟩
  | ident => exact ⟨.ident, rfl⟩

theorem exprGives {rule : String} (part : rule ∈ parts) (h : Derived t rule m) (low : m.height ≤ height) :
    Gives (Faithful t strict r m) (ResolveError.Fair strict) (exprWith step t m) := by
  simp only [parts, List.mem_cons, List.not_mem_nil, or_false] at part
  rcases part with rfl | rfl | rfl
  · have chained : m.rule = "expr" := by
      obtain ⟨head, links, rfl, -, -⟩ := chainShape known.once h
      rfl
    simp only [exprWith, chained]
    refine givesBind (flattenGives known h low) fun chain flat => ?_
    refine givesMono (reassociateGives flat.turns flat.placed (relatedOps known flat.ops)) ?_
    exact fun e found => ⟨found.1, found.2 ▸ flat.written⟩
  · exact operandGives known h low
  · exact primaryGives known h low

end

theorem exprAtGives {t : OperatorTable} {strict : Prop} {r : Roles} (formed : t.Formed)
    (once : (Grammar.declared standardRules (terminals t)).Nodup) (settled : strict → Settled t r)
    {height : Nat} {rule : String} {m : Tree} (part : rule ∈ parts) (h : Derived t rule m)
    (low : m.height ≤ height) :
    Gives (Faithful t strict r m) (ResolveError.Fair strict) (exprAt t height m) := by
  induction height generalizing rule m with
  | zero => cases m <;> simp [Tree.height] at low
  | succ height ih =>
    have known : Resolving t strict r (exprAt t height) (height + 1) :=
      ⟨formed, once, settled, fun part h below => ih part h (Nat.le_of_lt_succ below)⟩
    exact exprGives known part h low

theorem statementsFaithful {t : OperatorTable} {strict : Prop} {r : Roles} (formed : t.Formed)
    (once : (Grammar.declared standardRules (terminals t)).Nodup) (settled : strict → Settled t r)
    {m : Tree} (h : Derived t "stmts" m) :
    Gives (FaithfulAll t strict r m) (ResolveError.Fair strict) (Expr.statements t m) := by
  have known : Resolving t strict r (exprAt t m.height) m.height :=
    ⟨formed, once, settled, fun part h below => exprAtGives formed once settled part h (Nat.le_of_lt below)⟩
  exact statementsGive known h (Nat.le_refl _)

end Resolve

namespace Language

/- Expressions written back are the tokens that they were resolved from, up to what ends statements. -/
theorem resolutionKeepsTokens {t : OperatorTable} (built : t.Built) {g : Grammar}
    (linked : Grammar.link standardRules (terminals t) = .ok g) {tokens : List Token} {m : Tree}
    (parsed : g.parse standardStart tokens = .ok m) {es : List Expr}
    (resolved : Expr.statements t m = .ok es) : unended (Expr.allTokens t es) = unended tokens := by
  have derived : Derived t "stmts" m := Grammar.parseDerives linked parsed
  have formed := OperatorTable.builtFormed built
  have given := Resolve.statementsFaithful (r := Sugar.standard.roles t) formed
    (Grammar.linkAssembled linked).1 (fun asked : False => asked.elim) derived
  rw [resolved] at given
  rw [given.2, Grammar.parseTokens parsed]

def twoStatements : List Token :=
  [.text "f", .glyph "=", .glyph "[", .text "a", .glyph "]", .glyph "\x7b", .glyph "-", .text "a",
    .glyph ";", .glyph ";", .glyph "\x7d", .glyph ";", .glyph "?", .text "x", .glyph "|", .glyph ">",
    .text "2", .glyph "*", .text "y", .glyph "=>", .glyph "\x7b", .text "f", .glyph "(", .text "1",
    .glyph ")", .glyph "\x7d", .glyph ";"]

theorem twoStatementsKept : ∃ l m es, Language.standard = .ok l ∧
    l.grammar.parse standardStart twoStatements = .ok m ∧ Expr.statements standardOperators m = .ok es ∧
    unended (Expr.allTokens standardOperators es) = unended twoStatements := by
  have run : standardTest (parsesTo standardStart twoStatements fun m =>
      (Expr.statements standardOperators m).isOk) = true := by
    decide +kernel
  obtain ⟨l, standard, tested⟩ := standardTested run
  obtain ⟨m, parsed, resolves⟩ := parsesToMatch tested
  cases resolved : Expr.statements standardOperators m with
  | error e =>
    rw [resolved] at resolves
    contradiction
  | ok es =>
    exact ⟨l, m, es, standard, parsed, resolved, resolutionKeepsTokens OperatorTable.standardBuilt
      (standardParts standard).grammar parsed resolved⟩

end Language
end Parlance
