import Parlance.Proofs.Expr.Written
import Parlance.Proofs.Instruction.Code

/-! Lowering an expression without hidden names gives code. A chain is lowered arm by arm up to the first
arm that is always taken, and its arms are then nested. -/
namespace Parlance

variable {H : Type}

namespace Conditional

def reachable : List (CondArm Expr) → List (CondArm Expr)
  | [] => []
  | arm :: rest =>
    match arm.guard with
    | .catchAll => [arm]
    | .test _ => arm :: reachable rest

theorem reachableMember {arms : List (CondArm Expr)} {arm : CondArm Expr}
    (h : arm ∈ reachable arms) : arm ∈ arms := by
  induction arms with
  | nil => simp [reachable] at h
  | cons first rest ih =>
    simp only [reachable] at h
    split at h
    · simp [List.mem_singleton.mp h]
    · rcases List.mem_cons.mp h with rfl | later
      · exact List.mem_cons_self
      · exact List.mem_cons_of_mem _ (ih later)

def lowerArm (step : Bool → Expr → Except ResolveError (Instruction H)) (r : Roles) (captured : Bool)
    (arm : CondArm Expr) : Except ResolveError (Arm H) := do
  let block ← Lower.block step r arm.body
  match arm.guard with
  | .catchAll => .ok ⟨.catchAll, block⟩
  | .test condition => do
    let guard ← step captured condition
    .ok ⟨.test guard, block⟩

def lowerArms (step : Bool → Expr → Except ResolveError (Instruction H)) (r : Roles) (captured : Bool)
    (arms : List (CondArm Expr)) : Except ResolveError (List (Arm H)) :=
  traverse (lowerArm step r captured) (reachable arms)

theorem traverseCons {α β ε : Type} {step : α → Except ε β} {a : α} {as : List α} {b : β} {bs : List β}
    (first : step a = .ok b) (rest : traverse step as = .ok bs) :
    traverse step (a :: as) = .ok (b :: bs) := by
  simp only [traverse, first, rest]

theorem cascadeLowered {step : Bool → Expr → Except ResolveError (Instruction H)} {r : Roles}
    {captured : Bool} {arms : List (CondArm Expr)} {i : Instruction H}
    (h : Lower.cascade step r captured arms = .ok i) :
    ∃ lowered, lowerArms step r captured arms = .ok lowered ∧ i = cascade lowered := by
  induction arms generalizing i with
  | nil =>
    cases h
    exact ⟨[], rfl, rfl⟩
  | cons arm rest ih =>
    obtain ⟨guard, body⟩ := arm
    obtain ⟨block, made, last⟩ := bindOk h
    cases guard with
    | catchAll =>
      cases last
      have first : lowerArm step r captured ⟨.catchAll, body⟩ = .ok ⟨.catchAll, block⟩ := by
        simp only [lowerArm, made, bind, Except.bind]
      exact ⟨_, traverseCons first rfl, rfl⟩
    | test condition =>
      obtain ⟨otherwise, nested, last⟩ := bindOk last
      obtain ⟨guard, made', last⟩ := bindOk last
      cases last
      obtain ⟨lowered, walked, rfl⟩ := ih nested
      have first : lowerArm step r captured ⟨.test condition, body⟩ = .ok ⟨.test guard, block⟩ := by
        simp only [lowerArm, made, made', bind, Except.bind]
      exact ⟨_, traverseCons first walked, rfl⟩

def lowerScrutinee (step : Bool → Expr → Except ResolveError (Instruction H)) (captured : Bool) :
    Option Expr → Except ResolveError (Option (Instruction H))
  | none => .ok none
  | some e => do
    let value ← step captured e
    .ok (some value)

def assembled : Option (Instruction H) → List (Arm H) → Instruction H
  | none, arms => cascade arms
  | some value, arms => .callFunction [Lower.scrutineeName] [cascade arms] [value]

theorem conditionalLowered {step : Bool → Expr → Except ResolveError (Instruction H)} {r : Roles}
    {captured : Bool} {scrutinee : Option Expr} {arms : List (CondArm Expr)} {i : Instruction H}
    (h : Lower.conditional step r captured scrutinee arms = .ok i) :
    ∃ value lowered, lowerScrutinee step captured scrutinee = .ok value ∧
      lowerArms step r scrutinee.isSome arms = .ok lowered ∧ i = assembled value lowered := by
  cases scrutinee with
  | none =>
    obtain ⟨lowered, walked, rfl⟩ := cascadeLowered h
    exact ⟨none, lowered, rfl, walked, rfl⟩
  | some e =>
    obtain ⟨body, nested, last⟩ := bindOk h
    obtain ⟨value, made, last⟩ := bindOk last
    cases last
    obtain ⟨lowered, walked, rfl⟩ := cascadeLowered nested
    exact ⟨some value, lowered, by simp only [lowerScrutinee, made, bind, Except.bind], walked, rfl⟩

structure ChainCode (captured : Bool) (scrutinee : Option (Instruction H)) (arms : List (Arm H)) :
    Prop where
  value : ∀ v, scrutinee = some v → Code captured v
  guards : ∀ arm ∈ arms, ∀ g, arm.guard = .test g → Code scrutinee.isSome g
  blocks : ∀ arm ∈ arms, ∀ i ∈ arm.block, Code false i

theorem assembledCode {captured : Bool} {scrutinee : Option (Instruction H)} {arms : List (Arm H)}
    (code : ChainCode captured scrutinee arms) : Code captured (assembled scrutinee arms) := by
  cases scrutinee with
  | none => exact .bare code.guards code.blocks
  | some value => exact .chain (code.value value rfl) code.guards code.blocks

end Conditional

namespace Lower

theorem separatedWritten (separator : Option Operator) {e : Expr} (written : e.Written) :
    ∀ x ∈ separated separator e, x.Written := by
  fun_induction separated separator e with
  | case1 op lhs rhs same ihl ihr =>
    have left := ihl (Expr.writtenChild written (by simp [Expr.children]))
    have right := ihr (Expr.writtenChild written (by simp [Expr.children]))
    exact List.forall_mem_append.mpr ⟨left, right⟩
  | case2 op lhs rhs other => simpa using written
  | case3 e notBinary => simpa using written

theorem enclosedByOk {role : Option Operator} {e : Expr} {items : List Expr} :
    enclosedBy role e = .ok items ↔ ∃ op, e = .enclosed op items ∧ role = some op := by
  constructor
  · intro found
    unfold enclosedBy at found
    split at found
    · split at found
      · rename_i op body fits
        cases found
        exact ⟨op, rfl, beq_iff_eq.mp fits⟩
      · contradiction
    · contradiction
  · rintro ⟨op, rfl, rfl⟩
    simp only [enclosedBy, beq_self_eq_true, if_true]

theorem enclosedItems {role : Option Operator} {e : Expr} {items : List Expr} (written : e.Written)
    (h : enclosedBy role e = .ok items) : ∀ x ∈ items, x.Written := by
  obtain ⟨op, rfl, -⟩ := enclosedByOk.mp h
  exact fun x member => Expr.writtenChild written member

theorem separatedItems {separator role : Option Operator} {e : Expr} {items : List Expr}
    (written : e.Written) (h : enclosedBy role e = .ok items) :
    ∀ x ∈ items.flatMap (separated separator), x.Written := by
  intro x member
  obtain ⟨item, inside, member⟩ := List.mem_flatMap.mp member
  exact separatedWritten separator (enclosedItems written h item inside) x member

theorem parameterOk {item : Expr} {name : String} :
    parameter item = .ok name ↔ item = .ident name ∧ isName name = true := by
  constructor
  · intro read
    unfold parameter at read
    split at read
    · split at read
      · rename_i plain
        cases read
        exact ⟨rfl, plain⟩
      · contradiction
    · contradiction
  · rintro ⟨rfl, plain⟩
    simp only [parameter, plain, if_true]

theorem parametersVisible {r : Roles} {params : Expr} {names : List String} (written : params.Written)
    (h : parameters r params = .ok names) : ∀ p ∈ names, ¬ Hidden p := by
  obtain ⟨items, found, walked⟩ := bindOk h
  intro p member
  obtain ⟨e, inside, same⟩ := traverseMember walked member
  have visible := separatedItems written found e inside e .self
  obtain ⟨rfl, -⟩ := parameterOk.mp same
  exact visible

section

variable {step : Bool → Expr → Except ResolveError (Instruction H)}
  (codes : ∀ {captured e i}, e.Written → step captured e = .ok i → Code captured i)

include codes

theorem argumentsCode {r : Roles} {captured : Bool} {args : Expr} {is : List (Instruction H)}
    (written : args.Written) (h : arguments step r captured args = .ok is) :
    ∀ i ∈ is, Code captured i := by
  obtain ⟨items, found, walked⟩ := bindOk h
  intro i member
  obtain ⟨e, inside, same⟩ := traverseMember walked member
  exact codes (separatedItems written found e inside) same

theorem blockCode {r : Roles} {body : Expr} {is : List (Instruction H)} (written : body.Written)
    (h : block step r body = .ok is) : ∀ i ∈ is, Code false i := by
  obtain ⟨items, found, walked⟩ := bindOk h
  intro i member
  obtain ⟨e, inside, same⟩ := traverseMember walked member
  exact codes (enclosedItems written found e inside) same

theorem armsCode {r : Roles} {captured : Bool} {arms : List (CondArm Expr)}
    {lowered : List (Conditional.Arm H)}
    (written : ∀ e ∈ arms.flatMap fun arm => arm.guard.operands ++ [arm.body], e.Written)
    (h : Conditional.lowerArms step r captured arms = .ok lowered) :
    (∀ arm ∈ lowered, ∀ g, arm.guard = .test g → Code captured g) ∧
      ∀ arm ∈ lowered, ∀ i ∈ arm.block, Code false i := by
  have each : ∀ arm ∈ lowered, (∀ g, arm.guard = .test g → Code captured g) ∧
      ∀ i ∈ arm.block, Code false i := by
    intro arm member
    obtain ⟨a, inside, same⟩ := traverseMember h member
    have parts : ∀ e ∈ a.guard.operands ++ [a.body], e.Written := fun e part =>
      written e (List.mem_flatMap.mpr ⟨a, Conditional.reachableMember inside, part⟩)
    obtain ⟨block, made, last⟩ := bindOk same
    have body := blockCode codes (parts a.body (by simp)) made
    split at last
    · cases last
      exact ⟨nofun, body⟩
    · rename_i condition test
      obtain ⟨guard, made', last⟩ := bindOk last
      cases last
      have code := codes (parts condition (by simp [test, Guard.operands])) made'
      exact ⟨fun g same => by cases same; exact code, body⟩
  exact ⟨fun arm member => (each arm member).1, fun arm member => (each arm member).2⟩

theorem chainCode {r : Roles} {captured : Bool} {scrutinee : Option Expr} {arms : List (CondArm Expr)}
    {value : Option (Instruction H)} {lowered : List (Conditional.Arm H)}
    (written : (Expr.conditional scrutinee arms).Written)
    (first : Conditional.lowerScrutinee step captured scrutinee = .ok value)
    (rest : Conditional.lowerArms step r scrutinee.isSome arms = .ok lowered) :
    Conditional.ChainCode captured value lowered := by
  have parts : ∀ e ∈ (Expr.conditional scrutinee arms).children, e.Written := fun e member =>
    Expr.writtenChild written member
  obtain ⟨head, tail⟩ := List.forall_mem_append.mp parts
  obtain ⟨guards, blocks⟩ := armsCode codes tail rest
  cases scrutinee with
  | none =>
    cases first
    exact ⟨nofun, guards, blocks⟩
  | some e =>
    obtain ⟨made, same, last⟩ := bindOk first
    cases last
    have code := codes (head e (by simp)) same
    exact ⟨fun i found => by cases found; exact code, guards, blocks⟩

theorem computedCode {captured : Bool} {callee : Expr} {args : List (Instruction H)} {i : Instruction H}
    (written : callee.Written) (parts : ∀ i ∈ args, Code captured i)
    (h : computedCall step captured callee args = .ok i) : Code captured i := by
  obtain ⟨made, same, last⟩ := bindOk h
  cases last
  exact .computed (codes written same) parts

theorem assignmentCode {captured : Bool} {target value : Expr} {i : Instruction H}
    (name : target.Written) (written : value.Written)
    (h : assignment step captured target value = .ok i) : Code captured i := by
  unfold assignment at h
  split at h
  · split at h
    · obtain ⟨made, same, last⟩ := bindOk h
      cases last
      exact .assign (name _ .self) (codes written same)
    · contradiction
  · contradiction

theorem lowerWithCode {r : Roles} {captured : Bool} {e : Expr} {i : Instruction H} (written : e.Written)
    (h : lowerWith step r captured e = .ok i) : Code captured i := by
  cases e with
  | ident text =>
    simp only [lowerWith] at h
    split at h
    · cases h
      exact .literal
    · cases h
      exact .lookup (written _ .self)
    · contradiction
  | capture =>
    simp only [lowerWith] at h
    split at h
    · rename_i inGuard
      cases h
      subst inGuard
      exact .scrutinee
    · contradiction
  | binary op lhs rhs =>
    have left : lhs.Written := Expr.writtenChild written (by simp [Expr.children])
    have right : rhs.Written := Expr.writtenChild written (by simp [Expr.children])
    simp only [lowerWith] at h
    split at h
    · exact assignmentCode codes left right h
    split at h
    · contradiction
    obtain ⟨l, first, last⟩ := bindOk h
    obtain ⟨r, second, last⟩ := bindOk last
    cases last
    exact .call (written _ .self) (by simpa using ⟨codes left first, codes right second⟩)
  | unary op operand =>
    obtain ⟨made, same, last⟩ := bindOk h
    cases last
    have part := codes (Expr.writtenChild written (by simp [Expr.children])) same
    exact .call (written _ .self) (by simpa using part)
  | enclosed op body => contradiction
  | group args =>
    obtain ⟨is, made, last⟩ := bindOk h
    cases last
    exact .group (argumentsCode codes (Expr.writtenChild written (by simp [Expr.children])) made)
  | call callee args =>
    have first : callee.Written := Expr.writtenChild written (by simp [Expr.children])
    have second : args.Written := Expr.writtenChild written (by simp [Expr.children])
    obtain ⟨is, made, last⟩ := bindOk h
    have parts := argumentsCode codes second made
    split at last
    · split at last
      · cases last
        exact .call (first _ .self) parts
      · exact computedCode codes first parts last
    · exact computedCode codes first parts last
  | function params body =>
    have first : params.Written := Expr.writtenChild written (by simp [Expr.children])
    have second : body.Written := Expr.writtenChild written (by simp [Expr.children])
    obtain ⟨names, found, last⟩ := bindOk h
    obtain ⟨is, made, last⟩ := bindOk last
    cases last
    exact .function (parametersVisible first found) (blockCode codes second made)
  | conditional scrutinee arms =>
    simp only [lowerWith] at h
    split at h
    · contradiction
    · obtain ⟨value, lowered, first, rest, rfl⟩ := Conditional.conditionalLowered h
      exact Conditional.assembledCode (chainCode codes written first rest)

end

theorem lowerAtCode {r : Roles} {levels : Nat} {captured : Bool} {e : Expr} {i : Instruction H}
    (written : e.Written) (h : lowerAt r levels captured e = .ok i) : Code captured i := by
  induction levels generalizing captured e i with
  | zero => contradiction
  | succ levels ih => exact lowerWithCode ih written h

end Lower
end Parlance
