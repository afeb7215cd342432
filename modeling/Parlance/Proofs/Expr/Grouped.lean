import Mathlib.Data.List.Forall2
import Parlance.Instruction.OfExpr
import Parlance.Proofs.Instruction.Ungrouped
import Parlance.Proofs.Sequence

/-! Expressions with more groups. Groups may stand around any values of an expression, at any depth; callees,
targets of assignments, parameters and separators are no values. What such expressions are lowered to is the
same up to groups, if both can be lowered. -/
namespace Parlance

def Roles.Separates (r : Roles) (e : Expr) : Prop :=
  ∃ op lhs rhs, e = .binary op lhs rhs ∧ r.separator = some op

mutual

/-- The second is the first with groups around values in it, and it may be in groups itself. -/
inductive Expr.Grouped (r : Roles) : Expr → Expr → Prop where
  | inside {e e' : Expr} (parts : Expr.Inside r e e') : Expr.Grouped r e e'
  | wrap {paren : Operator} {e e' : Expr} (opener : r.group = some paren) (value : ¬ r.Separates e)
      (same : Expr.Grouped r e e') : Expr.Grouped r e (.group (.enclosed paren [e']))

inductive Expr.Inside (r : Roles) : Expr → Expr → Prop where
  | ident (text : String) : Expr.Inside r (.ident text) (.ident text)
  | capture : Expr.Inside r .capture .capture
  | assignment {op : Operator} {target value value' : Expr} (role : r.assign = some op)
      (same : Expr.Grouped r value value') :
      Expr.Inside r (.binary op target value) (.binary op target value')
  | binary {op : Operator} {lhs lhs' rhs rhs' : Expr} (role : r.assign ≠ some op)
      (left : Expr.Grouped r lhs lhs') (right : Expr.Grouped r rhs rhs') :
      Expr.Inside r (.binary op lhs rhs) (.binary op lhs' rhs')
  | unary (op : Operator) {operand operand' : Expr} (same : Expr.Grouped r operand operand') :
      Expr.Inside r (.unary op operand) (.unary op operand')
  | enclosed (op : Operator) {body body' : List Expr} (parts : List.Forall₂ (Expr.Grouped r) body body') :
      Expr.Inside r (.enclosed op body) (.enclosed op body')
  | group {args args' : Expr} (parts : Expr.Inside r args args') : Expr.Inside r (.group args) (.group args')
  | call {callee callee' args args' : Expr} (function : Expr.Inside r callee callee')
      (parts : Expr.Inside r args args') : Expr.Inside r (.call callee args) (.call callee' args')
  | function (params : Expr) {body body' : Expr} (parts : Expr.Inside r body body') :
      Expr.Inside r (.function params body) (.function params body')
  | conditional {scrutinee scrutinee' : Option Expr} {arms arms' : List (CondArm Expr)}
      (value : Option.Rel (Expr.Grouped r) scrutinee scrutinee')
      (each : List.Forall₂ (Expr.GroupedArm r) arms arms') :
      Expr.Inside r (.conditional scrutinee arms) (.conditional scrutinee' arms')

inductive Expr.GroupedArm (r : Roles) : CondArm Expr → CondArm Expr → Prop where
  | catchAll {body body' : Expr} (parts : Expr.Inside r body body') :
      Expr.GroupedArm r ⟨.catchAll, body⟩ ⟨.catchAll, body'⟩
  | test {condition condition' body body' : Expr} (same : Expr.Grouped r condition condition')
      (parts : Expr.Inside r body body') :
      Expr.GroupedArm r ⟨.test condition, body⟩ ⟨.test condition', body'⟩

end

namespace Expr

variable {r : Roles}

theorem insideSelf (e : Expr) : Inside r e e := by
  cases e with
  | ident text => exact .ident text
  | capture => exact .capture
  | binary op lhs rhs =>
    by_cases role : r.assign = some op
    · exact .assignment role (.inside (insideSelf rhs))
    · exact .binary role (.inside (insideSelf lhs)) (.inside (insideSelf rhs))
  | unary op operand => exact .unary op (.inside (insideSelf operand))
  | enclosed op body => exact .enclosed op (List.forall₂_same.mpr fun e _ => .inside (insideSelf e))
  | group args => exact .group (insideSelf args)
  | call callee args => exact .call (insideSelf callee) (insideSelf args)
  | function params body => exact .function params (insideSelf body)
  | conditional scrutinee arms =>
    refine .conditional ?_ (List.forall₂_same.mpr fun arm member => ?_)
    · cases scrutinee with
      | none => exact .none
      | some e => exact .some (.inside (insideSelf e))
    · have smaller := List.sizeOf_lt_of_mem member
      match arm with
      | ⟨.catchAll, body⟩ =>
        have inBody : sizeOf body < sizeOf arms := by simp at smaller; omega
        exact .catchAll (insideSelf body)
      | ⟨.test condition, body⟩ =>
        have inBoth : sizeOf condition + sizeOf body < sizeOf arms := by simp at smaller; omega
        exact .test (.inside (insideSelf condition)) (insideSelf body)
termination_by sizeOf e

theorem separatedAlone {e : Expr} (value : ¬ r.Separates e) : Lower.separated r.separator e = [e] := by
  unfold Lower.separated
  split
  · rename_i op lhs rhs
    exact if_neg fun same => value ⟨op, lhs, rhs, rfl, by simpa using same⟩
  · rfl

theorem groupedSeparates {e e' : Expr} (grouped : Grouped r e e') (separates : r.Separates e') :
    r.Separates e := by
  obtain ⟨op, lhs, rhs, rfl, role⟩ := separates
  cases grouped with
  | inside parts =>
    cases parts with
    | assignment => exact ⟨op, _, _, rfl, role⟩
    | binary => exact ⟨op, _, _, rfl, role⟩

theorem separatedGrouped {e e' : Expr} (grouped : Grouped r e e') :
    List.Forall₂ (Grouped r) (Lower.separated r.separator e) (Lower.separated r.separator e') := by
  cases grouped with
  | wrap opener value same =>
    rw [separatedAlone value]
    exact .cons (.wrap opener value same) .nil
  | inside parts =>
    cases parts with
    | assignment role same =>
      simp only [Lower.separated]
      split
      · refine List.rel_append (List.forall₂_same.mpr fun e _ => .inside (insideSelf e)) ?_
        exact separatedGrouped same
      · exact .cons (.inside (.assignment role same)) .nil
    | binary role left right =>
      simp only [Lower.separated]
      split
      · exact List.rel_append (separatedGrouped left) (separatedGrouped right)
      · exact .cons (.inside (.binary role left right)) .nil
    | ident text => exact .cons (.inside (.ident text)) .nil
    | capture => exact .cons (.inside .capture) .nil
    | unary op same => exact .cons (.inside (.unary op same)) .nil
    | enclosed op parts => exact .cons (.inside (.enclosed op parts)) .nil
    | group parts => exact .cons (.inside (.group parts)) .nil
    | call function parts => exact .cons (.inside (.call function parts)) .nil
    | function params parts => exact .cons (.inside (.function params parts)) .nil
    | conditional value each => exact .cons (.inside (.conditional value each)) .nil
termination_by sizeOf e

end Expr

namespace Lower

open Parlance.Expr Parlance.Instruction

variable {H : Type} {r : Roles} {captured : Bool}

theorem enclosedGrouped (role : Option Operator) {e e' : Expr} (inside : Inside r e e') :
    BothOk (List.Forall₂ (Grouped r)) (enclosedBy role e) (enclosedBy role e') := by
  cases inside with
  | enclosed op parts =>
    simp only [enclosedBy]
    split
    · exact .ok parts
    · exact .error _ _
  | _ => exact .error _ _

section Level

variable {step step' : Bool → Expr → Except ResolveError (Instruction H)}
  (steps : ∀ captured e e', Grouped r e e' → BothOk SameUngrouped (step captured e) (step' captured e'))

include steps

theorem argumentsGrouped {args args' : Expr} (inside : Inside r args args') :
    BothOk (List.Forall₂ SameUngrouped) (arguments step r captured args)
      (arguments step' r captured args') :=
  .bind (enclosedGrouped r.group inside) fun _ _ same =>
    .traverse (List.rel_flatMap same fun _ _ grouped => separatedGrouped grouped) (steps captured)

theorem blockGrouped {body body' : Expr} (inside : Inside r body body') :
    BothOk (List.Forall₂ SameUngrouped) (block step r body) (block step' r body') :=
  .bind (enclosedGrouped r.block inside) fun _ _ same => .traverse same (steps false)

theorem cascadeGrouped {arms arms' : List (CondArm Expr)} (each : List.Forall₂ (GroupedArm r) arms arms') :
    BothOk SameUngrouped (cascade step r captured arms) (cascade step' r captured arms') := by
  induction each with
  | nil => exact .ok rfl
  | cons first _ ih =>
    cases first with
    | catchAll parts =>
      refine .bind (blockGrouped steps parts) fun body body' same => .ok ?_
      exact shapedSame (.callFunction [] same .nil)
    | test grouped parts =>
      refine .bind (blockGrouped steps parts) fun body body' yes => ?_
      refine .bind ih fun rest rest' no => ?_
      refine .bind (steps captured _ _ grouped) fun guard guard' same => .ok (shapedSame ?_)
      have chosen := shapedSame (.function [] yes)
      have otherwise := shapedSame (.function [] (.cons no .nil))
      exact .callNative .branch (.cons same (.cons chosen (.cons otherwise .nil)))

theorem conditionalGrouped {scrutinee scrutinee' : Option Expr} {arms arms' : List (CondArm Expr)}
    (value : Option.Rel (Grouped r) scrutinee scrutinee') (each : List.Forall₂ (GroupedArm r) arms arms') :
    BothOk SameUngrouped (conditional step r captured scrutinee arms)
      (conditional step' r captured scrutinee' arms') := by
  cases value with
  | none => exact cascadeGrouped steps each
  | some grouped =>
    refine .bind (cascadeGrouped steps each) fun body body' inner => ?_
    refine .bind (steps captured _ _ grouped) fun v v' same => .ok (shapedSame ?_)
    exact .callFunction [scrutineeName] (.cons inner .nil) (.cons same .nil)

theorem assignmentGrouped (target : Expr) {value value' : Expr} (grouped : Grouped r value value') :
    BothOk SameUngrouped (assignment step captured target value)
      (assignment step' captured target value') := by
  cases target with
  | ident name =>
    simp only [assignment]
    split
    · exact .bind (steps captured _ _ grouped) fun v v' same => .ok (shapedSame (.assign name same))
    · exact .error _ _
  | _ => exact .error _ _

theorem computedGrouped {callee callee' : Expr} {args args' : List (Instruction H)}
    (inside : Inside r callee callee') (given : List.Forall₂ SameUngrouped args args') :
    BothOk SameUngrouped (computedCall step captured callee args)
      (computedCall step' captured callee' args') := by
  refine .bind (steps captured _ _ (.inside inside)) fun f f' same => .ok (shapedSame ?_)
  exact .callFunction [calleeName] (.cons (shapedSame (.call calleeName given)) .nil) (.cons same .nil)

theorem lowerInside {e e' : Expr} (inside : Inside r e e') :
    BothOk SameUngrouped (lowerWith step r captured e) (lowerWith step' r captured e') := by
  cases inside with
  | ident text =>
    simp only [lowerWith]
    split
    · exact .ok rfl
    · exact .ok rfl
    · exact .error _ _
  | capture =>
    simp only [lowerWith]
    split
    · exact .ok rfl
    · exact .error _ _
  | assignment role grouped =>
    simp only [lowerWith, role, BEq.rfl, if_true]
    exact assignmentGrouped steps _ grouped
  | @binary op lhs lhs' rhs rhs' role left right =>
    have other : (r.assign == some op) = false := beq_eq_false_iff_ne.mpr role
    simp only [lowerWith, other, Bool.false_eq_true, if_false]
    split
    · exact .error _ _
    · refine .bind (steps captured _ _ left) fun a a' same => ?_
      refine .bind (steps captured _ _ right) fun b b' same' => .ok (shapedSame ?_)
      exact .call op.name (.cons same (.cons same' .nil))
  | unary op grouped =>
    exact .bind (steps captured _ _ grouped) fun a a' same =>
      .ok (shapedSame (.call op.name (.cons same .nil)))
  | enclosed op parts => exact .error _ _
  | group parts =>
    exact .bind (argumentsGrouped steps parts) fun args args' given =>
      .ok (shapedSame (.callNative .group given))
  | @call callee callee' _ _ function parts =>
    refine .bind (argumentsGrouped steps parts) fun args args' given => ?_
    have computed : BothOk SameUngrouped (computedCall step captured callee args)
        (computedCall step' captured callee' args') := computedGrouped steps function given
    cases function with
    | ident name =>
      dsimp only
      split
      · exact .ok (shapedSame (.call name given))
      · exact computed
    | _ => exact computed
  | function params parts =>
    refine .bind (R := Eq) (fun _ _ left right => Except.ok.inj (left.symm.trans right)) ?_
    rintro params _ rfl
    exact .bind (blockGrouped steps parts) fun body body' same => .ok (shapedSame (.function params same))
  | conditional value each =>
    simp only [lowerWith, each.length_eq]
    split
    · exact .error _ _
    · exact conditionalGrouped steps value each

end Level

theorem groupArgument {step : Bool → Expr → Except ResolveError (Instruction H)} {paren : Operator}
    {e : Expr} {args : List (Instruction H)} (opener : r.group = some paren) (value : ¬ r.Separates e)
    (given : arguments step r captured (.enclosed paren [e]) = .ok args) :
    ∃ i, step captured e = .ok i ∧ args = [i] := by
  have role : (r.group == some paren) = true := beq_iff_eq.mpr opener
  simp only [arguments, enclosedBy, role, if_true] at given
  obtain ⟨_, ⟨⟩, given⟩ := bindOk given
  simp only [List.flatMap_cons, List.flatMap_nil, List.append_nil, separatedAlone value] at given
  obtain ⟨i, _, lowered, ⟨⟩, rfl⟩ := traverseConsOk given
  exact ⟨i, lowered, rfl⟩

theorem lowerGrouped (levels' : Nat) : ∀ (levels : Nat) (captured : Bool) (e e' : Expr), Grouped r e e' →
    BothOk SameUngrouped (lowerAt r levels captured e : Except ResolveError (Instruction H))
      (lowerAt r levels' captured e') := by
  -- By induction on the levels of the second, which a group around it takes as well.
  induction levels' with
  | zero => exact fun _ _ _ _ _ _ _ _ right => nomatch right
  | succ levels' ih =>
    intro levels captured e e' grouped
    cases grouped with
    | wrap opener value same =>
      intro i j left right
      obtain ⟨args, given, ⟨⟩⟩ := bindOk right
      obtain ⟨j, lowered, rfl⟩ := groupArgument opener (fun h => value (groupedSeparates same h)) given
      have below : SameUngrouped i j := ih levels captured _ _ same left lowered
      exact below
    | inside parts =>
      cases levels with
      | zero => exact .error _ _
      | succ levels => exact lowerInside (ih levels) parts

end Lower

theorem Instruction.statementsGrouped {H : Type} {t : OperatorTable} {sugar : Sugar} {es es' : List Expr}
    (grouped : List.Forall₂ (Expr.Grouped (sugar.roles t)) es es') :
    BothOk (List.Forall₂ SameUngrouped) (ofStatements (H := H) t sugar es) (ofStatements t sugar es') :=
  .traverse grouped fun e e' => Lower.lowerGrouped maxNesting maxNesting false e e'

end Parlance
