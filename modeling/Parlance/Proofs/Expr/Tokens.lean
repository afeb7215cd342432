import Parlance.Instruction.OfExpr
import Parlance.Proofs.Chain.Admissible
import Parlance.Proofs.Expr.Written
import Parlance.Token

/-! Expressions as tokens. Writing an expression back gives every operator its sign and every encloser both of
its halves, adds no parentheses, and leaves out the scrutinee where a guard leaves it out. The other side of
what a match stands for is where enclosers may be: a group, a list and a block hold one, nothing else does. -/
namespace Parlance

def OperatorTable.closingSign (t : OperatorTable) (op : Operator) : List Token :=
  ((t.closing? op).map fun close => Token.glyph close.symbol).toList

namespace Expr

mutual
def tokens (t : OperatorTable) : Expr → List Token
  | .ident text => [.text text]
  | .capture => []
  | .binary op lhs rhs => lhs.tokens t ++ .glyph op.symbol :: rhs.tokens t
  | .unary op operand => .glyph op.symbol :: operand.tokens t
  | .enclosed op body => .glyph op.symbol :: (allTokens t body ++ t.closingSign op)
  | .group args => args.tokens t
  | .call callee args => callee.tokens t ++ args.tokens t
  | .function params body => params.tokens t ++ body.tokens t
  | .conditional none arms => .glyph "?" :: armsTokens t arms
  | .conditional (some scrutinee) arms => .glyph "?" :: (scrutinee.tokens t ++ armsTokens t arms)

def allTokens (t : OperatorTable) : List Expr → List Token
  | [] => []
  | e :: es => e.tokens t ++ allTokens t es

def armsTokens (t : OperatorTable) : List (CondArm Expr) → List Token
  | [] => []
  | ⟨.catchAll, body⟩ :: arms =>
    .glyph "|" :: .glyph "..." :: .glyph "=>" :: (body.tokens t ++ armsTokens t arms)
  | ⟨.test condition, body⟩ :: arms =>
    .glyph "|" :: (condition.tokens t ++ .glyph "=>" :: (body.tokens t ++ armsTokens t arms))
end

def guardTokens (t : OperatorTable) : Guard Expr → List Token
  | .catchAll => [.glyph "..."]
  | .test condition => condition.tokens t

def armTokens (t : OperatorTable) (arm : CondArm Expr) : List Token :=
  .glyph "|" :: (guardTokens t arm.guard ++ .glyph "=>" :: arm.body.tokens t)

def chainTokens (t : OperatorTable) : List Expr → List Operator → List Token
  | [], _ => []
  | first :: rest, ops =>
    first.tokens t ++ (ops.zip rest).flatMap fun link => .glyph link.1.symbol :: link.2.tokens t

variable {t : OperatorTable}

theorem allTokensEach (es : List Expr) : allTokens t es = es.flatMap (tokens t) := by
  induction es with
  | nil => rfl
  | cons e es ih => simp [allTokens, ih]

theorem allTokensFlatten (groups : List (List Expr)) :
    allTokens t groups.flatten = groups.flatMap (allTokens t) := by
  induction groups with
  | nil => rfl
  | cons group groups ih => simp [allTokensEach, ← ih]

theorem armsTokensEach (arms : List (CondArm Expr)) : armsTokens t arms = arms.flatMap (armTokens t) := by
  induction arms with
  | nil => rfl
  | cons arm arms ih =>
    obtain ⟨guard, body⟩ := arm
    cases guard <;> simp [armsTokens, armTokens, guardTokens, ih]

theorem chainTokensLeft (op : Operator) (first : Expr) (rest : List Expr) (ops : List Operator) :
    chainTokens t (.capture :: first :: rest) (op :: ops) =
      .glyph op.symbol :: chainTokens t (first :: rest) ops := by
  simp [chainTokens, tokens]

theorem chainTokensRight {first : Expr} {rest : List Expr} {ops : List Operator} (op : Operator)
    (same : ops.length = rest.length) :
    chainTokens t (first :: (rest ++ [.capture])) (ops ++ [op]) =
      chainTokens t (first :: rest) ops ++ [.glyph op.symbol] := by
  simp [chainTokens, List.zip_append same, tokens]

end Expr

namespace OperatorTree

theorem toExprTokens {t : OperatorTable} (tree : OperatorTree Expr) :
    tree.toExpr.tokens t =
      tree.first.tokens t ++ tree.links.flatMap fun link => .glyph link.1.symbol :: link.2.tokens t := by
  induction tree with
  | operand x => simp [toExpr, first, links]
  | node op lhs rhs ihl ihr => simp [toExpr, first, links, Expr.tokens, ihl, ihr]

end OperatorTree

namespace Chain

theorem standsTokens {t : OperatorTable} {operands : List Expr} {ops : List Operator}
    {tree : OperatorTree Expr} (stands : Stands t operands ops tree) :
    tree.toExpr.tokens t = Expr.chainTokens t operands ops := by
  have length := standsLength stands
  cases operands with
  | nil => simp at length
  | cons x rest =>
    obtain ⟨-, rfl, links⟩ := (standsLinks (by simpa using length)).mp stands
    rw [OperatorTree.toExprTokens, links]
    rfl

end Chain

namespace Expr

mutual
inductive Placed (strict : Prop) (r : Roles) : Expr → Prop where
  | ident {text} : Placed strict r (.ident text)
  | capture : Placed strict r .capture
  | binary {op lhs rhs} (left : Placed strict r lhs) (right : Placed strict r rhs) :
      Placed strict r (.binary op lhs rhs)
  | unary {op operand} (inside : Placed strict r operand) : Placed strict r (.unary op operand)
  | group {args} (inside : Encloses strict r r.group args) : Placed strict r (.group args)
  | call {callee args} (first : Placed strict r callee) (inside : Encloses strict r r.group args) :
      Placed strict r (.call callee args)
  | function {params body} (left : Encloses strict r r.params params)
      (right : Encloses strict r r.block body) : Placed strict r (.function params body)
  | conditional {scrutinee arms} (first : ∀ e ∈ scrutinee, Placed strict r e)
      (guards : ∀ arm ∈ arms, ∀ e ∈ arm.guard.operands, Placed strict r e)
      (bodies : ∀ arm ∈ arms, Encloses strict r r.block arm.body) :
      Placed strict r (.conditional scrutinee arms)

inductive Encloses (strict : Prop) (r : Roles) : Option Operator → Expr → Prop where
  | enclosed {role op body} (fits : strict → role = some op) (inside : ∀ e ∈ body, Placed strict r e) :
      Encloses strict r role (.enclosed op body)
end

end Expr

namespace OperatorTree

theorem toExprPlaced {strict : Prop} {r : Roles} {tree : OperatorTree Expr}
    (operands : ∀ e ∈ tree.operands, e.Placed strict r) : tree.toExpr.Placed strict r := by
  induction tree with
  | operand x => exact operands x (by simp [OperatorTree.operands])
  | node op lhs rhs ihl ihr =>
    obtain ⟨left, right⟩ := List.forall_mem_append.mp operands
    exact .binary (ihl left) (ihr right)

end OperatorTree
end Parlance
