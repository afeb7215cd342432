import Parlance.Proofs.Expr.Faithful
import Parlance.Proofs.Instruction.Lowering

/-! Lowering expressions whose enclosers are where they belong. Every part of such an expression is one again,
and an encloser is taken apart only by the role that it stands in, so nothing is misplaced on the way. -/
namespace Parlance

namespace Lower

variable {strict : Prop} {r : Roles}

theorem separatedPlaced {separator : Option Operator} {e : Expr} (placed : e.Placed strict r) :
    ∀ item ∈ separated separator e, item.Placed strict r := by
  fun_induction separated separator e with
  | case1 op lhs rhs same ihl ihr =>
    cases placed with
    | binary left right => exact List.forall_mem_append.mpr ⟨ihl left, ihr right⟩
  | case2 op lhs rhs other => simpa using placed
  | case3 e other => simpa using placed

theorem itemsPlaced {separator : Option Operator} {items : List Expr}
    (placed : ∀ e ∈ items, e.Placed strict r) :
    ∀ item ∈ items.flatMap (separated separator), item.Placed strict r := by
  intro item member
  obtain ⟨e, inside, member⟩ := List.mem_flatMap.mp member
  exact separatedPlaced (placed e inside) item member

theorem enclosedByGives {role : Option Operator} {e : Expr} (encloses : Expr.Encloses strict r role e) :
    Gives (fun items => ∀ item ∈ items, item.Placed strict r) (ResolveError.Fair strict)
      (enclosedBy role e) := by
  cases encloses with
  | @enclosed role op body fits inside =>
    simp only [enclosedBy]
    split
    · exact inside
    · rename_i wrong
      exact ⟨not_false, fun asked => absurd (beq_iff_eq.mpr (fits asked)) wrong⟩

theorem parametersFair {params : Expr} (encloses : Expr.Encloses strict r r.params params) :
    Gives (fun _ => True) (ResolveError.Fair strict) (parameters r params) := by
  refine givesBind (enclosedByGives encloses) fun items _ => fairTraverse fun item _ => ?_
  unfold parameter
  split
  · split
    · trivial
    · exact ⟨not_false, fun _ => not_false⟩
  · exact ⟨not_false, fun _ => not_false⟩

section

variable {H : Type} {step : Bool → Expr → Except ResolveError (Instruction H)}
  (below : ∀ captured e, e.Placed strict r →
    Gives (fun _ => True) (ResolveError.Fair strict) (step captured e))

include below

theorem argumentsFair {captured : Bool} {args : Expr} (encloses : Expr.Encloses strict r r.group args) :
    Gives (fun _ => True) (ResolveError.Fair strict) (arguments step r captured args) :=
  givesBind (enclosedByGives encloses) fun _ placed =>
    fairTraverse fun item member => below captured item (itemsPlaced placed item member)

theorem blockFair {body : Expr} (encloses : Expr.Encloses strict r r.block body) :
    Gives (fun _ => True) (ResolveError.Fair strict) (block step r body) :=
  givesBind (enclosedByGives encloses) fun _ placed =>
    fairTraverse fun item member => below false item (placed item member)

theorem cascadeFair {captured : Bool} {arms : List (CondArm Expr)}
    (guards : ∀ arm ∈ arms, ∀ e ∈ arm.guard.operands, e.Placed strict r)
    (bodies : ∀ arm ∈ arms, Expr.Encloses strict r r.block arm.body) :
    Gives (fun _ => True) (ResolveError.Fair strict) (cascade step r captured arms) := by
  induction arms with
  | nil => trivial
  | cons arm rest ih =>
    obtain ⟨guard, body⟩ := arm
    obtain ⟨first, otherGuards⟩ := List.forall_mem_cons.mp guards
    obtain ⟨block, otherBodies⟩ := List.forall_mem_cons.mp bodies
    refine givesBind (blockFair below block) fun _ _ => ?_
    cases guard with
    | catchAll => trivial
    | test condition =>
      refine givesBind (ih otherGuards otherBodies) fun _ _ => ?_
      refine givesBind (below captured condition (first condition List.mem_cons_self)) fun _ _ => trivial

theorem computedCallFair {captured : Bool} {callee : Expr} (placed : callee.Placed strict r)
    (args : List (Instruction H)) :
    Gives (fun _ => True) (ResolveError.Fair strict) (computedCall step captured callee args) :=
  givesBind (below captured callee placed) fun _ _ => trivial

theorem assignmentFair {captured : Bool} (target : Expr) {value : Expr} (placed : value.Placed strict r) :
    Gives (fun _ => True) (ResolveError.Fair strict) (assignment step captured target value) := by
  unfold assignment
  split
  · split
    · exact givesBind (below captured value placed) fun _ _ => trivial
    · exact ⟨not_false, fun _ => not_false⟩
  · exact ⟨not_false, fun _ => not_false⟩

theorem lowerWithFair {captured : Bool} {e : Expr} (placed : e.Placed strict r) :
    Gives (fun _ => True) (ResolveError.Fair strict) (lowerWith step r captured e) := by
  cases placed with
  | ident =>
    simp only [lowerWith]
    split
    · trivial
    · trivial
    · exact ⟨not_false, fun _ => not_false⟩
  | capture =>
    simp only [lowerWith]
    split
    · trivial
    · exact ⟨not_false, fun _ => not_false⟩
  | binary left right =>
    simp only [lowerWith]
    split
    · exact assignmentFair below _ right
    split
    · exact ⟨not_false, fun _ => not_false⟩
    · exact givesBind (below _ _ left) fun _ _ => givesBind (below _ _ right) fun _ _ => trivial
  | unary inside => exact givesBind (below _ _ inside) fun _ _ => trivial
  | group inside => exact givesBind (argumentsFair below inside) fun _ _ => trivial
  | call first inside =>
    refine givesBind (argumentsFair below inside) fun args _ => ?_
    split
    · split
      · trivial
      · exact computedCallFair below first args
    · exact computedCallFair below first args
  | function left right =>
    exact givesBind (parametersFair left) fun _ _ => givesBind (blockFair below right) fun _ _ => trivial
  | @conditional scrutinee arms first guards bodies =>
    simp only [lowerWith]
    split
    · exact ⟨not_false, fun _ => not_false⟩
    cases scrutinee with
    | none => exact cascadeFair below guards bodies
    | some e =>
      exact givesBind (cascadeFair below guards bodies) fun _ _ =>
        givesBind (below captured e (first e rfl)) fun _ _ => trivial

end

theorem lowerAtFair {H : Type} {levels : Nat} {captured : Bool} {e : Expr} (placed : e.Placed strict r) :
    Gives (fun _ => True) (ResolveError.Fair strict) (lowerAt (H := H) r levels captured e) := by
  induction levels generalizing captured e with
  | zero => exact ⟨not_false, fun _ => not_false⟩
  | succ levels ih => exact lowerWithFair (fun _ _ placed => ih placed) placed

end Lower

theorem Instruction.ofStatementsFair {H : Type} {strict : Prop} {t : OperatorTable} {sugar : Sugar}
    {es : List Expr} (placed : ∀ e ∈ es, e.Placed strict (sugar.roles t)) :
    Gives (fun _ => True) (ResolveError.Fair strict) (ofStatements (H := H) t sugar es) :=
  fairTraverse fun e member => Lower.lowerAtFair (placed e member)

end Parlance
