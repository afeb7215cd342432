import Parlance.Operator.Standard
import Parlance.Proofs.Chain.Admissible
import Parlance.Proofs.Sequence
import Parlance.Value

/-! Chains of the four operators in two levels. The links of a chain fall into runs of factors with sums
between them; a run is computed from the left, and so are the sums of runs. The tree of this reading is the
admissible one of the standard operators, and it is no higher than the chain is long. -/
namespace Parlance

namespace Arithmetic

def isFactor : Arithmetic → Bool
  | .mul | .div => true
  | .add | .sub => false

def exact : Arithmetic → Int → Int → Int
  | .add, a, b => a + b
  | .sub, a, b => a - b
  | .mul, a, b => a * b
  | .div, a, b => a.tdiv b

def Fits (n : Int) : Prop := -(twoTo 63 : Int) ≤ n ∧ n < twoTo 63

instance (n : Int) : Decidable (Fits n) := inferInstanceAs (Decidable (_ ∧ _))

def step (op : Arithmetic) (a b : Int) : Except EvalError Int :=
  if op = .div ∧ b = 0 then .error .divisionByZero
  else if Fits (op.exact a b) then .ok (op.exact a b)
  else .error .integerOverflow

abbrev Link := Arithmetic × Nat

/-- The factors that a chain goes on with, and after them each sum with the factors behind its number. -/
def split : List Link → List Link × List (Link × List Link)
  | [] => ([], [])
  | link :: links =>
    let (factors, sums) := split links
    if link.1.isFactor then (link :: factors, sums) else ([], (link, factors) :: sums)

def product (n : Int) (factors : List Link) : Except EvalError Int :=
  factors.foldlM (fun total link => link.1.step total link.2) n

def sum (n : Int) (sums : List (Link × List Link)) : Except EvalError Int :=
  sums.foldlM (fun total part => do
    let term ← product part.1.2 part.2
    part.1.1.step total term) n

/-- The textbook reading of a chain, up to the first step that fails. -/
def total (first : Nat) (links : List Link) : Except EvalError Int := do
  let start ← product first (split links).1
  sum start (split links).2

def flat (sums : List (Link × List Link)) : List Link := sums.flatMap fun part => part.1 :: part.2

theorem splitFlat (links : List Link) : (split links).1 ++ flat (split links).2 = links := by
  induction links with
  | nil => rfl
  | cons link links ih =>
    simp only [split]
    split
    · exact congrArg (link :: ·) ih
    · simpa [flat] using ih

theorem splitKinds (links : List Link) : (∀ link ∈ (split links).1, link.1.isFactor = true) ∧
    ∀ part ∈ (split links).2, part.1.1.isFactor = false ∧ ∀ link ∈ part.2, link.1.isFactor = true := by
  induction links with
  | nil => simp [split]
  | cons link links ih =>
    obtain ⟨factors, sums⟩ := ih
    simp only [split]
    split
    · rename_i factor
      exact ⟨List.forall_mem_cons.mpr ⟨factor, factors⟩, sums⟩
    · rename_i other
      exact ⟨by simp, List.forall_mem_cons.mpr ⟨⟨by simpa using other, factors⟩, sums⟩⟩

theorem stepFits {op : Arithmetic} {a b n : Int} (h : op.step a b = .ok n) : Fits n := by
  unfold step at h
  split at h
  · contradiction
  · split at h
    · cases h
      assumption
    · contradiction

theorem stepFails {op : Arithmetic} {a b : Int} {e : EvalError} (h : op.step a b = .error e) :
    e = .divisionByZero ∨ e = .integerOverflow := by
  unfold step at h
  split at h
  · exact .inl (Except.error.inj h).symm
  · split at h
    · contradiction
    · exact .inr (Except.error.inj h).symm

theorem productFails {factors : List Link} {n : Int} {e : EvalError} (h : product n factors = .error e) :
    e = .divisionByZero ∨ e = .integerOverflow := by
  obtain ⟨before, link, -, failed⟩ := foldError h
  exact stepFails failed

theorem sumFails {sums : List (Link × List Link)} {n : Int} {e : EvalError} (h : sum n sums = .error e) :
    e = .divisionByZero ∨ e = .integerOverflow := by
  obtain ⟨before, part, -, failed⟩ := foldError h
  rcases bindError failed with term | ⟨m, -, last⟩
  · exact productFails term
  · exact stepFails last

theorem totalFails {first : Nat} {links : List Link} {e : EvalError} (h : total first links = .error e) :
    e = .divisionByZero ∨ e = .integerOverflow := by
  rcases bindError h with here | ⟨n, -, later⟩
  · exact productFails here
  · exact sumFails later

def operator : Arithmetic → Operator
  | .mul => ⟨0, "mul", "*", .infixOp, .left, none⟩
  | .div => ⟨1, "div", "/", .infixOp, .left, none⟩
  | .add => ⟨2, "plus", "+", .infixOp, .left, none⟩
  | .sub => ⟨3, "minus", "-", .infixOp, .left, none⟩

section Precedence

theorem operatorEqual (q p : Arithmetic) :
    standardOperators.equal.holds q.operator.id p.operator.id = (q.isFactor == p.isFactor) := by
  rw [Bool.eq_iff_iff]
  simp only [standardOperators, OperatorTable.makeEqual, OperatorTable.makeGreater, Relation.holdsInsertAll]
  cases q <;> cases p <;> decide

theorem operatorHigher (q p : Arithmetic) :
    standardOperators.higher.holds q.operator.id p.operator.id = (q.isFactor && !p.isFactor) := by
  rw [Bool.eq_iff_iff]
  simp only [standardOperators, OperatorTable.makeEqual, OperatorTable.makeGreater, Relation.holdsInsertAll]
  cases q <;> cases p <;> decide

theorem operatorCloses (q p : Arithmetic) :
    Chain.closesBefore standardOperators q.operator p.operator = .ok (q.isFactor || !p.isFactor) := by
  unfold Chain.closesBefore OperatorTable.precedence
  rw [operatorEqual, operatorHigher, operatorHigher]
  cases q <;> cases p <;> rfl

end Precedence

end Arithmetic

namespace OperatorTree

open Arithmetic (Link)

variable {α : Type}

variable (operand : Nat → α)

def product (tree : OperatorTree α) (factors : List Link) : OperatorTree α :=
  factors.foldl (fun tree link => .node link.1.operator tree (.operand (operand link.2))) tree

def sum (tree : OperatorTree α) (sums : List (Link × List Link)) : OperatorTree α :=
  sums.foldl (fun tree part =>
    .node part.1.1.operator tree (product operand (.operand (operand part.1.2)) part.2)) tree

def twoLevels (first : Nat) (links : List Link) : OperatorTree α :=
  sum operand (product operand (.operand (operand first)) (Arithmetic.split links).1)
    (Arithmetic.split links).2

def linked (links : List Link) : List (Operator × α) :=
  links.map fun link => (link.1.operator, operand link.2)

theorem productCons (tree : OperatorTree α) (link : Link) (factors : List Link) :
    product operand tree (link :: factors) =
      product operand (.node link.1.operator tree (.operand (operand link.2))) factors := rfl

theorem sumCons (tree : OperatorTree α) (part : Link × List Link) (sums : List (Link × List Link)) :
    sum operand tree (part :: sums) = sum operand
      (.node part.1.1.operator tree (product operand (.operand (operand part.1.2)) part.2)) sums := rfl

section Shape

theorem productShape (tree : OperatorTree α) (factors : List Link) :
    (product operand tree factors).first = tree.first ∧
      (product operand tree factors).links = tree.links ++ linked operand factors ∧
      (product operand tree factors).height = tree.height + factors.length := by
  induction factors generalizing tree with
  | nil => simp [product, linked]
  | cons link factors ih =>
    obtain ⟨first, links, high⟩ := ih (.node link.1.operator tree (.operand (operand link.2)))
    refine ⟨first, ?_, ?_⟩
    · rw [productCons, links]
      simp [OperatorTree.links, OperatorTree.first, linked]
    · rw [productCons, high]
      simp only [height, Nat.max_zero, List.length_cons]
      omega

theorem sumShape (tree : OperatorTree α) (sums : List (Link × List Link)) :
    (sum operand tree sums).first = tree.first ∧
      (sum operand tree sums).links = tree.links ++ linked operand (Arithmetic.flat sums) ∧
      (sum operand tree sums).height ≤ tree.height + (Arithmetic.flat sums).length := by
  induction sums generalizing tree with
  | nil => simp [sum, linked, Arithmetic.flat]
  | cons part sums ih =>
    obtain ⟨begun, inner, inside⟩ := productShape operand (.operand (operand part.1.2)) part.2
    obtain ⟨first, links, high⟩ := ih
      (.node part.1.1.operator tree (product operand (.operand (operand part.1.2)) part.2))
    refine ⟨first, ?_, ?_⟩
    · rw [sumCons, links]
      simp [OperatorTree.links, OperatorTree.first, begun, inner, linked, Arithmetic.flat]
    · rw [sumCons]
      simp only [height, inside, Nat.zero_add] at high
      simp only [Arithmetic.flat, List.flatMap_cons, List.length_append, List.length_cons] at high ⊢
      omega

theorem twoLevelsShape (first : Nat) (links : List Link) :
    (twoLevels operand first links).first = operand first ∧
      (twoLevels operand first links).links = linked operand links ∧
      (twoLevels operand first links).height ≤ links.length := by
  have joined := Arithmetic.splitFlat links
  obtain ⟨begun, inner, inside⟩ := productShape operand (.operand (operand first)) (Arithmetic.split links).1
  obtain ⟨front, later, high⟩ := sumShape operand
    (product operand (.operand (operand first)) (Arithmetic.split links).1) (Arithmetic.split links).2
  refine ⟨front.trans begun, ?_, ?_⟩
  · calc (twoLevels operand first links).links
        = linked operand ((Arithmetic.split links).1 ++ Arithmetic.flat (Arithmetic.split links).2) := by
          rw [twoLevels, later, inner]
          exact List.map_append.symm
      _ = linked operand links := by rw [joined]
  · have long := congrArg List.length joined
    simp only [List.length_append] at long
    simp only [inside, height, Nat.zero_add] at high
    exact long ▸ high

end Shape

section Arranged

structure Arranged (among : Arithmetic → Prop) (tree : OperatorTree α) : Prop where
  admissible : Chain.Admissible standardOperators tree
  operators : ∀ q ∈ tree.operators, ∃ op, among op ∧ q = op.operator

theorem operandArranged (among : Arithmetic → Prop) (x : α) : Arranged among (.operand x) :=
  ⟨trivial, by simp [operators]⟩

theorem nodeArranged {among inner : Arithmetic → Prop} {op : Arithmetic} {lhs rhs : OperatorTree α}
    (left : Arranged among lhs) (right : Arranged inner rhs) (here : among op)
    (before : ∀ q, among q → q.isFactor = true ∨ op.isFactor = false)
    (behind : ∀ q, inner q → among q ∧ q.isFactor = true ∧ op.isFactor = false) :
    Arranged among (.node op.operator lhs rhs) where
  admissible := by
    refine ⟨fun q member => ?_, fun q member => ?_, left.admissible, right.admissible⟩
    · obtain ⟨other, known, rfl⟩ := left.operators q ((spinesInside lhs).1 q member)
      rw [← Chain.closesTrue, Arithmetic.operatorCloses]
      rcases before other known with factor | sum
      · rw [factor, Bool.true_or]
      · rw [sum, Bool.not_false, Bool.or_true]
    · obtain ⟨other, known, rfl⟩ := right.operators q ((spinesInside rhs).2 q member)
      obtain ⟨-, factor, sum⟩ := behind other known
      rw [← Chain.closesFalse, Arithmetic.operatorCloses, factor, sum]
      rfl
  operators := by
    intro q member
    rcases List.mem_append.mp member with inside | inside
    · exact left.operators q inside
    · rcases List.mem_cons.mp inside with rfl | inside
      · exact ⟨op, here, rfl⟩
      · obtain ⟨other, known, rfl⟩ := right.operators q inside
        exact ⟨other, (behind other known).1, rfl⟩

theorem productArranged {tree : OperatorTree α} {factors : List Link}
    (known : ∀ link ∈ factors, link.1.isFactor = true) (arranged : Arranged (·.isFactor = true) tree) :
    Arranged (·.isFactor = true) (product operand tree factors) := by
  induction factors generalizing tree with
  | nil => exact arranged
  | cons link factors ih =>
    obtain ⟨factor, others⟩ := List.forall_mem_cons.mp known
    exact ih others (nodeArranged arranged (operandArranged (fun _ => False) _) factor (fun _ => .inl) nofun)

theorem sumArranged {tree : OperatorTree α} {sums : List (Link × List Link)}
    (known : ∀ part ∈ sums, part.1.1.isFactor = false ∧ ∀ link ∈ part.2, link.1.isFactor = true)
    (arranged : Arranged (fun _ => True) tree) : Arranged (fun _ => True) (sum operand tree sums) := by
  induction sums generalizing tree with
  | nil => exact arranged
  | cons part sums ih =>
    obtain ⟨⟨sign, factors⟩, others⟩ := List.forall_mem_cons.mp known
    have term := productArranged operand factors (operandArranged _ (operand part.1.2))
    exact ih others (nodeArranged arranged term trivial (fun _ _ => .inr sign) fun _ factor =>
      ⟨trivial, factor, sign⟩)

theorem twoLevelsArranged (first : Nat) (links : List Link) :
    Chain.Admissible standardOperators (twoLevels operand first links) := by
  obtain ⟨factors, sums⟩ := Arithmetic.splitKinds links
  have start := productArranged operand factors (operandArranged _ (operand first))
  have any : Arranged (fun _ => True) _ := ⟨start.admissible, fun q member =>
    (start.operators q member).imp fun _ known => ⟨trivial, known.2⟩⟩
  exact (sumArranged operand sums any).admissible

end Arranged

end OperatorTree

theorem twoLevelsReassociated (operand : Nat → Expr) (first : Nat) {links : List Arithmetic.Link}
    (few : links.length ≤ maxNesting) :
    reassociate standardOperators (operand first :: links.map fun link => operand link.2)
        (links.map fun link => link.1.operator) =
      .ok (OperatorTree.twoLevels operand first links).toExpr := by
  obtain ⟨begun, spelled, high⟩ := OperatorTree.twoLevelsShape operand first links
  refine (Chain.verdictOk (Chain.verdict _ _ _) _).mpr
    ⟨_, ⟨?_, ?_, OperatorTree.twoLevelsArranged operand first links⟩, Nat.le_trans high few, rfl⟩
  · rw [OperatorTree.operandsLinks, begun, spelled]
    simp [OperatorTree.linked]
  · rw [OperatorTree.operatorsLinks, spelled]
    simp [OperatorTree.linked]

end Parlance
