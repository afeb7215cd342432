import Parlance.Expr.OfTree
import Parlance.Proofs.Chain.Admissible
import Parlance.Proofs.Sequence
import Parlance.Proofs.Token.Hidden

/-! Expressions without hidden names. Resolving a syntax tree takes names from its identifiers and operators
from the table, so nothing hidden comes into an expression that way. -/
namespace Parlance

namespace Tree

inductive Part : Tree → Tree → Prop where
  | self {t} : Part t t
  | field {rule branch fields name t sub} (member : (name, t) ∈ fields) (part : Part t sub) :
      Part (.composite rule branch fields) sub

theorem partTrans {t sub low : Tree} (first : Part t sub) (second : Part sub low) : Part t low := by
  induction first with
  | self => exact second
  | field member _ ih => exact .field member (ih second)

theorem lookupMember {name : String} {fields : List (String × Tree)} {t : Tree}
    (h : lookup name fields = some t) : (name, t) ∈ fields := by
  induction fields with
  | nil => simp [lookup] at h
  | cons entry rest ih =>
    obtain ⟨field, u⟩ := entry
    simp only [lookup] at h
    split at h
    · rename_i same
      cases h
      simp [beq_iff_eq.mp same]
    · exact List.mem_cons_of_mem _ (ih h)

theorem childPart {m t : Tree} {name : String} (h : m.child? name = some t) : Part m t := by
  cases m with
  | terminal rule field token => simp [child?] at h
  | composite rule branch fields => exact .field (lookupMember h) .self

theorem childrenPart {m t : Tree} {name : String} (h : t ∈ m.children name) : Part m t := by
  cases m with
  | terminal rule field token => simp [children] at h
  | composite rule branch fields =>
    simp only [children, List.mem_map, List.mem_filter] at h
    obtain ⟨entry, ⟨member, -⟩, rfl⟩ := h
    exact .field member .self

def Plain (m : Tree) : Prop :=
  ∀ sub, Part m sub → sub.rule = "primary" → sub.branch = some "ident" →
    ∀ tok, sub.token? "ident" = some tok → ¬ Hidden tok.content

theorem plainPart {m sub : Tree} (plain : m.Plain) (part : Part m sub) : sub.Plain :=
  fun low lower => plain low (partTrans part lower)

end Tree

def Guard.operands {ε : Type} : Guard ε → List ε
  | .catchAll => []
  | .test condition => [condition]

namespace Expr

def children : Expr → List Expr
  | .ident _ => []
  | .capture => []
  | .binary _ lhs rhs => [lhs, rhs]
  | .unary _ operand => [operand]
  | .enclosed _ body => body
  | .group args => [args]
  | .call callee args => [callee, args]
  | .function params body => [params, body]
  | .conditional scrutinee arms =>
    scrutinee.toList ++ arms.flatMap fun arm => arm.guard.operands ++ [arm.body]

inductive Part : Expr → Expr → Prop where
  | self {e} : Part e e
  | child {e c sub} (member : c ∈ e.children) (part : Part c sub) : Part e sub

def Visible : Expr → Prop
  | .ident text => ¬ Hidden text
  | .binary op _ _ => ¬ Hidden op.name
  | .unary op _ => ¬ Hidden op.name
  | _ => True

def Written (e : Expr) : Prop := ∀ sub, Part e sub → sub.Visible

theorem writtenOf {e : Expr} (visible : e.Visible) (parts : ∀ c ∈ e.children, Written c) :
    Written e := by
  intro sub part
  cases part with
  | self => exact visible
  | child member part => exact parts _ member sub part

theorem writtenChild {e c : Expr} (written : Written e) (member : c ∈ e.children) : Written c :=
  fun sub part => written sub (.child member part)

theorem writtenPart {e sub : Expr} (written : Written e) (part : Part e sub) : Written sub := by
  induction part with
  | self => exact written
  | child member _ ih => exact ih (writtenChild written member)

end Expr

namespace OperatorTree

theorem toExprWritten {tree : OperatorTree Expr} (operands : ∀ e ∈ tree.operands, e.Written)
    (operators : ∀ op ∈ tree.operators, ¬ Hidden op.name) : tree.toExpr.Written := by
  induction tree with
  | operand x => exact operands x (by simp [OperatorTree.operands])
  | node op lhs rhs ihl ihr =>
    simp only [OperatorTree.operands, OperatorTree.operators, List.mem_append, List.mem_cons]
      at operands operators
    have left := ihl (fun e member => operands e (.inl member)) fun q member => operators q (.inl member)
    have right := ihr (fun e member => operands e (.inr member))
      fun q member => operators q (.inr (.inr member))
    refine Expr.writtenOf (operators op (.inr (.inl rfl))) fun c member => ?_
    simp only [toExpr, Expr.children, List.mem_cons, List.not_mem_nil, or_false] at member
    rcases member with rfl | rfl
    · exact left
    · exact right

end OperatorTree

theorem reassociateWritten {t : OperatorTable} {operands : List Expr} {ops : List Operator} {e : Expr}
    (h : reassociate t operands ops = .ok e) (written : ∀ x ∈ operands, x.Written)
    (visible : ∀ op ∈ ops, ¬ Hidden op.name) : e.Written := by
  obtain ⟨tree, stands, -, rfl⟩ := (Chain.verdictOk (Chain.verdict t operands ops) e).mp h
  rw [← stands.operands] at written
  rw [← stands.operators] at visible
  exact OperatorTree.toExprWritten written visible

namespace Resolve

theorem childPart {m t : Tree} {field : String} (h : child m field = .ok t) : Tree.Part m t := by
  unfold child at h
  split at h
  · cases h
    exact Tree.childPart (by assumption)
  · contradiction

theorem operatorMember {t : OperatorTable} {m : Tree} {field : String} {category : Category}
    {op : Operator} (h : operator t m field category = .ok op) : op ∈ t.operators := by
  obtain ⟨sign, -, last⟩ := bindOk h
  split at last
  · rename_i found
    cases last
    exact List.mem_of_find?_eq_some found
  · contradiction

section

variable {t : OperatorTable} {m : Tree} {step : Tree → Except ResolveError Expr}
  (visible : ∀ op ∈ t.operators, ¬ Hidden op.name)
  (written : ∀ {c e}, Tree.Part m c → step c = .ok e → e.Written)

include written

theorem nextWritten {s : Tree} (part : Tree.Part m s) {es : List Expr}
    (h : nextStatement step s = .ok es) : ∀ e ∈ es, e.Written := by
  unfold nextStatement at h
  split at h
  · obtain ⟨c, found, last⟩ := bindOk h
    obtain ⟨e, made, last⟩ := bindOk last
    cases last
    simpa using written (Tree.partTrans part (childPart found)) made
  · cases h
    simp
  · contradiction

theorem statementsWritten {s : Tree} (part : Tree.Part m s) {es : List Expr}
    (h : statementsWith step s = .ok es) : ∀ e ∈ es, e.Written := by
  unfold statementsWith at h
  dsimp only at h
  split at h
  · contradiction
  obtain ⟨c, found, last⟩ := bindOk h
  obtain ⟨first, made, last⟩ := bindOk last
  obtain ⟨rest, walked, last⟩ := bindOk last
  cases last
  intro e member
  rcases List.mem_cons.mp member with rfl | member
  · exact written (Tree.partTrans part (childPart found)) made
  · obtain ⟨group, inside, member⟩ := List.mem_flatten.mp member
    obtain ⟨n, next, same⟩ := traverseMember walked inside
    exact nextWritten written (Tree.partTrans part (Tree.childrenPart next)) same e member

theorem enclosedWritten {s : Tree} (part : Tree.Part m s) {e : Expr}
    (h : enclosed step t s = .ok e) : e.Written := by
  unfold enclosed at h
  obtain ⟨op, -, last⟩ := bindOk h
  obtain ⟨close, -, last⟩ := bindOk last
  dsimp only at last
  split at last
  · contradiction
  split at last
  · rename_i stmts _ found
    obtain ⟨body, made, last⟩ := bindOk last
    cases last
    exact Expr.writtenOf trivial
      (statementsWritten written (Tree.partTrans part (Tree.childPart found)) made)
  · rename_i expr _ found
    obtain ⟨inner, made, last⟩ := bindOk last
    cases last
    have one := written (Tree.partTrans part (Tree.childPart found)) made
    exact Expr.writtenOf trivial (by simpa [Expr.children] using one)
  · cases last
    exact Expr.writtenOf trivial (by simp [Expr.children])

include visible

theorem linkWritten {s : Tree} (part : Tree.Part m s) {l : Operator × Expr}
    (h : link step t s = .ok l) : ¬ Hidden l.1.name ∧ l.2.Written := by
  obtain ⟨op, named, last⟩ := bindOk h
  obtain ⟨c, found, last⟩ := bindOk last
  obtain ⟨rhs, made, last⟩ := bindOk last
  cases last
  exact ⟨visible op (operatorMember named), written (Tree.partTrans part (childPart found)) made⟩

theorem flattenWritten {s : Tree} (part : Tree.Part m s) {operands : List Expr} {ops : List Operator}
    (h : flatten step t s = .ok (operands, ops)) :
    (∀ e ∈ operands, e.Written) ∧ ∀ op ∈ ops, ¬ Hidden op.name := by
  unfold flatten at h
  dsimp only at h
  split at h
  · contradiction
  obtain ⟨c, found, last⟩ := bindOk h
  obtain ⟨head, made, last⟩ := bindOk last
  obtain ⟨links, walked, last⟩ := bindOk last
  cases last
  have each : ∀ l ∈ links, ¬ Hidden l.1.name ∧ l.2.Written := by
    intro l member
    obtain ⟨n, next, same⟩ := traverseMember walked member
    exact linkWritten visible written (Tree.partTrans part (Tree.childrenPart next)) same
  constructor
  · intro e member
    rcases List.mem_cons.mp member with rfl | member
    · exact written (Tree.partTrans part (childPart found)) made
    · obtain ⟨l, inside, rfl⟩ := List.mem_map.mp member
      exact (each l inside).2
  · intro op member
    obtain ⟨l, inside, rfl⟩ := List.mem_map.mp member
    exact (each l inside).1

theorem guardWritten {s : Tree} (part : Tree.Part m s) {g : Guard Expr}
    (h : guardOf step t s = .ok g) : ∀ e ∈ g.operands, e.Written := by
  have capture : Expr.capture.Written := Expr.writtenOf trivial (by simp [Expr.children])
  unfold guardOf at h
  split at h
  · cases h
    simp [Guard.operands]
  · obtain ⟨op, named, last⟩ := bindOk h
    obtain ⟨c, found, last⟩ := bindOk last
    obtain ⟨⟨operands, ops⟩, flat, last⟩ := bindOk last
    obtain ⟨e, made, last⟩ := bindOk last
    cases last
    obtain ⟨each, signs⟩ :=
      flattenWritten visible written (Tree.partTrans part (childPart found)) flat
    have one := reassociateWritten made (List.forall_mem_cons.mpr ⟨capture, each⟩)
      (List.forall_mem_cons.mpr ⟨visible op (operatorMember named), signs⟩)
    simpa [Guard.operands] using one
  · split at h
    · obtain ⟨op, named, last⟩ := bindOk h
      obtain ⟨c, found, last⟩ := bindOk last
      obtain ⟨⟨operands, ops⟩, flat, last⟩ := bindOk last
      obtain ⟨e, made, last⟩ := bindOk last
      cases last
      obtain ⟨each, signs⟩ :=
        flattenWritten visible written (Tree.partTrans part (childPart found)) flat
      have one := reassociateWritten made
        (List.forall_mem_append.mpr ⟨each, by simpa using capture⟩)
        (List.forall_mem_append.mpr ⟨signs, by simpa using visible op (operatorMember named)⟩)
      simpa [Guard.operands] using one
    · obtain ⟨c, found, last⟩ := bindOk h
      obtain ⟨e, made, last⟩ := bindOk last
      cases last
      simpa [Guard.operands] using written (Tree.partTrans part (childPart found)) made
  · contradiction

theorem armWritten {s : Tree} (part : Tree.Part m s) {arm : CondArm Expr}
    (h : armOf step t s = .ok arm) :
    ∀ e ∈ arm.guard.operands ++ [arm.body], e.Written := by
  obtain ⟨g, found, last⟩ := bindOk h
  obtain ⟨guard, made, last⟩ := bindOk last
  obtain ⟨b, found', last⟩ := bindOk last
  obtain ⟨body, made', last⟩ := bindOk last
  cases last
  have block := enclosedWritten written (Tree.partTrans part (childPart found')) made'
  exact List.forall_mem_append.mpr
    ⟨guardWritten visible written (Tree.partTrans part (childPart found)) made, by simpa using block⟩

theorem armsWritten {s : Tree} (part : Tree.Part m s) {arms : List (CondArm Expr)}
    (h : traverse (armOf step t) (s.children "arm") = .ok arms) :
    ∀ e ∈ arms.flatMap fun arm => arm.guard.operands ++ [arm.body], e.Written := by
  intro e member
  obtain ⟨arm, inside, member⟩ := List.mem_flatMap.mp member
  obtain ⟨a, next, same⟩ := traverseMember h inside
  exact armWritten visible written (Tree.partTrans part (Tree.childrenPart next)) same e member

theorem conditionalWritten {s : Tree} (part : Tree.Part m s) {e : Expr}
    (h : conditional step t s = .ok e) : e.Written := by
  unfold conditional at h
  dsimp only at h
  split at h
  · contradiction
  split at h
  · rename_i scrutinee found
    obtain ⟨value, made, last⟩ := bindOk h
    obtain ⟨arms, walked, last⟩ := bindOk last
    cases last
    have one := written (Tree.partTrans part (Tree.childPart found)) made
    exact Expr.writtenOf trivial
      (List.forall_mem_append.mpr ⟨by simpa using one, armsWritten visible written part walked⟩)
  · obtain ⟨arms, walked, last⟩ := bindOk h
    cases last
    exact Expr.writtenOf trivial
      (List.forall_mem_append.mpr ⟨by simp, armsWritten visible written part walked⟩)

omit visible in
theorem applyAllWritten {args : List Tree} (parts : ∀ a ∈ args, Tree.Part m a) {callee e : Expr}
    (start : callee.Written) (h : applyAll step t callee args = .ok e) : e.Written := by
  induction args generalizing callee with
  | nil =>
    cases h
    exact start
  | cons a args ih =>
    obtain ⟨list, made, last⟩ := bindOk h
    have group := enclosedWritten written (parts a List.mem_cons_self) made
    have call : (Expr.call callee list).Written :=
      Expr.writtenOf trivial (by simpa [Expr.children] using ⟨start, group⟩)
    exact ih (fun b member => parts b (List.mem_cons_of_mem _ member)) call last

theorem exprWithWritten (plain : m.Plain) {e : Expr} (h : exprWith step t m = .ok e) :
    e.Written := by
  unfold exprWith at h
  split at h
  · obtain ⟨⟨operands, ops⟩, flat, last⟩ := bindOk h
    obtain ⟨each, signs⟩ := flattenWritten visible written .self flat
    exact reassociateWritten last each signs
  · obtain ⟨op, named, last⟩ := bindOk h
    obtain ⟨c, found, last⟩ := bindOk last
    obtain ⟨operand, made, last⟩ := bindOk last
    cases last
    have one := written (childPart found) made
    exact Expr.writtenOf (visible op (operatorMember named)) (by simpa [Expr.children] using one)
  · obtain ⟨c, found, last⟩ := bindOk h
    obtain ⟨callee, made, last⟩ := bindOk last
    exact applyAllWritten written (fun a member => Tree.childrenPart member)
      (written (childPart found) made) last
  · obtain ⟨p, found, last⟩ := bindOk h
    obtain ⟨params, made, last⟩ := bindOk last
    obtain ⟨b, found', last⟩ := bindOk last
    obtain ⟨body, made', last⟩ := bindOk last
    cases last
    have first := enclosedWritten written (childPart found) made
    have second := enclosedWritten written (childPart found') made'
    exact Expr.writtenOf trivial (by simpa [Expr.children] using ⟨first, second⟩)
  · obtain ⟨g, found, last⟩ := bindOk h
    obtain ⟨args, made, last⟩ := bindOk last
    cases last
    have one := enclosedWritten written (childPart found) made
    exact Expr.writtenOf trivial (by simpa [Expr.children] using one)
  · obtain ⟨c, found, last⟩ := bindOk h
    exact conditionalWritten visible written (childPart found) last
  · rename_i rule branch
    obtain ⟨name, found, last⟩ := bindOk h
    cases last
    unfold token at found
    split at found
    · cases found
      exact Expr.writtenOf (plain m .self rule branch name (by assumption)) (by simp [Expr.children])
    · contradiction
  · exact conditionalWritten visible written .self h
  · exact enclosedWritten written .self h
  · exact enclosedWritten written .self h
  · exact enclosedWritten written .self h
  · contradiction

end

theorem exprAtWritten {t : OperatorTable} (visible : ∀ op ∈ t.operators, ¬ Hidden op.name)
    (height : Nat) {m : Tree} (plain : m.Plain) {e : Expr} (h : exprAt t height m = .ok e) :
    e.Written := by
  induction height generalizing m e with
  | zero => contradiction
  | succ height ih =>
    exact exprWithWritten visible (fun part made => ih (Tree.plainPart plain part) made) plain h

end Resolve

theorem Expr.statementsWritten {t : OperatorTable} (visible : ∀ op ∈ t.operators, ¬ Hidden op.name)
    {m : Tree} (plain : m.Plain) {es : List Expr} (h : Expr.statements t m = .ok es) :
    ∀ e ∈ es, e.Written :=
  Resolve.statementsWritten
    (fun part made => Resolve.exprAtWritten visible m.height (Tree.plainPart plain part) made) .self h

end Parlance
