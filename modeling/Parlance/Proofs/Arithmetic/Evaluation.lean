import Parlance.Proofs.Arithmetic.Programs
import Parlance.Proofs.Evaluator.Library

/-! What chains of numbers come to. A tree of the four operators is lowered to calls of the standard functions,
as deep as it is high, and evaluating these computes its operands from the left and then its own step; so a
chain comes to what its two levels give, or to the error of the first step that fails. -/
namespace Parlance

namespace Arithmetic

variable {H : Type}

def valued : Except EvalError Int → Except EvalError (Value H)
  | .ok n => .ok (.integer (Int64.ofInt n))
  | .error e => .error e

theorem fitsBack {n : Int} (fits : Fits n) : (Int64.ofInt n).toInt = n :=
  Int64.toInt_ofInt_of_le fits.1 fits.2

theorem integerValued (n : Int) : Operation.integer (H := H) n =
    valued (if Fits n then .ok n else .error .integerOverflow) := by
  have bounds : (-(twoTo 63 : Int) ≤ n ∧ n < twoTo 63) ↔ Fits n := Iff.rfl
  unfold Operation.integer
  split
  · rw [if_pos (bounds.mp ‹_›), valued]
  · rw [if_neg fun fits => absurd (bounds.mpr fits) ‹_›, valued]

theorem stepValued (op : Arithmetic) {a b : Int} (left : Fits a) (right : Fits b) :
    Operation.arithmetic op (.integer (Int64.ofInt a)) (.integer (Int64.ofInt b) : Value H) =
      valued (op.step a b) := by
  simp only [Operation.arithmetic, Operation.integers, fitsBack left, fitsBack right, integerValued]
  by_cases zero : op = .div ∧ b = 0
  · obtain ⟨rfl, rfl⟩ := zero
    rfl
  · rw [step, if_neg zero]
    cases op with
    | div =>
      have other : (b == 0) = false := beq_eq_false_iff_ne.mpr fun same => zero ⟨rfl, same⟩
      rw [other]
      rfl
    | _ => rfl

def roles : Roles := Sugar.standard.roles standardOperators

variable [Host H]

variable (H) in
structure Computes (tree : OperatorTree Expr) (r : Except EvalError Int) : Prop where
  fits : ∀ n, r = .ok n → Fits n
  runs : ∃ i : Instruction H, (∀ levels > tree.height, Lower.lowerAt roles levels false tree.toExpr = .ok i) ∧
    ∀ fuel > tree.height, ∀ s : Evaluator H, s.Equipped →
      Evaluator.evalInstruction fuel i s = Eval.ofExcept (valued r) s

theorem numberComputes {n : Nat} (small : n < twoTo 63) : Computes H (.operand (numeral n)) (.ok n) where
  fits m same := by
    cases same
    exact ⟨by omega, by exact_mod_cast small⟩
  runs := by
    refine ⟨.literal (.integer (Int64.ofNat n)), fun levels enough => ?_, fun fuel enough s _ => ?_⟩
    · obtain ⟨levels, rfl⟩ := Nat.exists_eq_succ_of_ne_zero (Nat.ne_of_gt enough)
      simp only [Lower.lowerAt, OperatorTree.toExpr, numeral, Lower.lowerWith, numeralLiteral small]
    · obtain ⟨fuel, rfl⟩ := Nat.exists_eq_succ_of_ne_zero (Nat.ne_of_gt enough)
      rw [Evaluator.evalLevel, valued, Int64.ofInt_eq_ofNat]
      rfl

theorem nodeComputes (op : Arithmetic) {lhs rhs : OperatorTree Expr} {r q : Except EvalError Int}
    (left : Computes H lhs r) (right : Computes H rhs q) :
    Computes H (.node op.operator lhs rhs) (do
      let a ← r
      let b ← q
      op.step a b) where
  fits n same := by
    obtain ⟨a, -, same⟩ := bindOk same
    obtain ⟨b, -, same⟩ := bindOk same
    exact stepFits same
  runs := by
    obtain ⟨i, lowered, computed⟩ := left.runs
    obtain ⟨j, lowered', computed'⟩ := right.runs
    refine ⟨.call op.operator.name [i, j], fun levels enough => ?_, fun fuel enough s equipped => ?_⟩
    · obtain ⟨levels, rfl⟩ := Nat.exists_eq_succ_of_ne_zero (Nat.ne_zero_of_lt enough)
      have room : max lhs.height rhs.height < levels := Nat.lt_of_succ_lt_succ enough
      have first := lowered levels (by omega)
      have second := lowered' levels (by omega)
      have plain : (roles.assign == some op.operator) = false ∧
          (roles.separator == some op.operator) = false := by cases op <;> decide
      simp only [Lower.lowerAt, OperatorTree.toExpr, Lower.lowerWith, plain, first, second]
      rfl
    · obtain ⟨fuel, rfl⟩ := Nat.exists_eq_succ_of_ne_zero (Nat.ne_zero_of_lt enough)
      have room : max lhs.height rhs.height < fuel := Nat.lt_of_succ_lt_succ enough
      have listed : (op.operator.name, Native.arithmetic op) ∈ standardLibrary (H := H) := by
        cases op <;> simp [standardLibrary, operator]
      obtain ⟨id, named⟩ := equipped _ _ listed
      rw [Evaluator.callArithmetic named (computed fuel (by omega) s equipped)
        (computed' fuel (by omega) s equipped)]
      cases r with
      | error e => rfl
      | ok a =>
        cases q with
        | error e => rfl
        | ok b => exact congrArg (Eval.ofExcept · s) (stepValued op (left.fits a rfl) (right.fits b rfl))

theorem productComputes {tree : OperatorTree Expr} {r : Except EvalError Int} {factors : List Link}
    (small : ∀ link ∈ factors, link.2 < twoTo 63) (computes : Computes H tree r) :
    Computes H (OperatorTree.product numeral tree factors) (r >>= fun n => product n factors) := by
  induction factors generalizing tree r with
  | nil =>
    have nothing : (r >>= fun n => product n []) = r := by cases r <;> rfl
    rwa [nothing]
  | cons link factors ih =>
    obtain ⟨here, others⟩ := List.forall_mem_cons.mp small
    have whole := ih others (nodeComputes link.1 computes (numberComputes here))
    have same : (r >>= fun n => product n (link :: factors)) = (r >>= fun a => link.1.step a link.2) >>=
        fun n => product n factors := by cases r <;> rfl
    rw [same]
    exact whole

theorem sumComputes {tree : OperatorTree Expr} {r : Except EvalError Int} {sums : List (Link × List Link)}
    (small : ∀ link ∈ flat sums, link.2 < twoTo 63) (computes : Computes H tree r) :
    Computes H (OperatorTree.sum numeral tree sums) (r >>= fun n => sum n sums) := by
  induction sums generalizing tree r with
  | nil =>
    have nothing : (r >>= fun n => sum n []) = r := by cases r <;> rfl
    rwa [nothing]
  | cons part sums ih =>
    obtain ⟨here, others⟩ := List.forall_mem_append.mp small
    obtain ⟨number, factors⟩ := List.forall_mem_cons.mp here
    have term := productComputes factors (numberComputes (H := H) number)
    have whole := ih others (nodeComputes part.1.1 computes term)
    have same : (r >>= fun n => sum n (part :: sums)) = (do
        let a ← r
        let b ← product part.1.2 part.2
        part.1.1.step a b) >>= fun n => sum n sums := by
      cases r <;> rfl
    rw [same]
    exact whole

theorem totalComputes {first : Nat} {links : List Link} (small : first < twoTo 63)
    (others : ∀ link ∈ links, link.2 < twoTo 63) :
    Computes H (OperatorTree.twoLevels numeral first links) (total first links) := by
  rw [← splitFlat links] at others
  obtain ⟨factors, sums⟩ := List.forall_mem_append.mp others
  exact sumComputes sums (productComputes factors (numberComputes small))

end Arithmetic

namespace Language

open Arithmetic

variable {H : Type}

theorem StandardParts.chainCompiled {l : Language} (standard : StandardParts l) (first : Nat)
    {links : List Link} (few : links.length ≤ maxNesting) {i : Instruction H} (lowered :
      Lower.lowerAt roles maxNesting false (OperatorTree.twoLevels numeral first links).toExpr = .ok i) :
    l.compile (text first links) = .ok [i] := by
  have cut : l.tokenize (text first links) = tokens first links := by
    rw [textLine]
    exact standard.tokenizeCanonical (tokensCanonical first links)
  have flat : StandardParts.Flat (program first links).tokens :=
    programTokens first links ▸ tokensFlat first links
  have parsed : l.grammar.parse l.start (l.tokenize (text first links)) = .ok (program first links) := by
    rw [cut, standard.start, ← programTokens]
    exact standard.flatParsed (programDerived first links) flat
  have resolved : Expr.statements l.operators (program first links) = _ :=
    standard.operators ▸ programResolved first few
  refine compileFound (cut ▸ List.cons_ne_nil _ _) parsed resolved ?_
  change traverse (Lower.lowerAt (l.sugar.roles l.operators) maxNesting false) _ = _
  rw [standard.sugar, standard.operators]
  change traverse (Lower.lowerAt roles maxNesting false) _ = _
  simp only [traverse, lowered]

/-- A chain of numbers runs to what its two levels give: each run of factors from the left, and the sums of
runs from the left. The result is an integer of 64 bits, or the error of the first step that fails. -/
theorem twoLevelsComputed [Host H] {l : Language} (h : Language.standard = .ok l) (first : Nat)
    (links : List Link) (few : links.length ≤ 255) (small : first < twoTo 63)
    (others : ∀ link ∈ links, link.2 < twoTo 63) :
    (∀ n, total first links = .ok n → ∃ result : Int64, result.toInt = n ∧
      l.run (H := H) (text first links) = .value (.integer result) Evaluator.standard) ∧
    ∀ e, total first links = .error e → (e = .divisionByZero ∨ e = .integerOverflow) ∧
      l.run (H := H) (text first links) = .error (.eval e) Evaluator.standard := by
  have computes : Computes H (OperatorTree.twoLevels numeral first links) (total first links) :=
    totalComputes small others
  have low := (OperatorTree.twoLevelsShape numeral first links).2.2
  obtain ⟨i, lowered, computed⟩ := computes.runs
  have room : 255 < maxNesting := by decide
  have compiled := (standardParts h).chainCompiled first (by omega) (lowered maxNesting (by omega))
  have fuel : twoTo 62 ≤ (Evaluator.standard : Evaluator H).fuelFor :=
    Nat.le_mul_of_pos_right _ (Nat.succ_pos _)
  have most : 255 < twoTo 62 := by decide
  have evaluated := Evaluator.runSole
    (computed (Evaluator.standard : Evaluator H).fuelFor (by omega) _ Evaluator.standardEquipped)
  have run : l.run (text first links) =
      (Eval.ofExcept (valued (total first links)) (Evaluator.standard (H := H))).mapError .eval := by
    rw [Language.run, runIn, compiled]
    exact congrArg (Outcome.mapError Error.eval) evaluated
  constructor
  · intro n same
    rw [same] at run
    exact ⟨Int64.ofInt n, fitsBack (computes.fits n same), run⟩
  · intro e same
    rw [same] at run
    exact ⟨totalFails same, run⟩

theorem overflowComesFirst : ∃ l : Language, Language.standard = .ok l ∧
    l.run (H := Empty) "7 - 2 * 3 / 4 + 5" = .value (.integer 11) Evaluator.standard ∧
    l.run (H := Empty) "9223372036854775807 + 1 - 1 / 0" =
      .error (.eval .integerOverflow) Evaluator.standard := by
  have built : standardTest (fun _ => true) = true := by decide +kernel
  obtain ⟨l, standard, -⟩ := standardTested built
  obtain ⟨worth, -⟩ := twoLevelsComputed (H := Empty) standard 7
    [(.sub, 2), (.mul, 3), (.div, 4), (.add, 5)] (by decide) (by decide) (by decide)
  obtain ⟨-, fails⟩ := twoLevelsComputed (H := Empty) standard 9223372036854775807
    [(.add, 1), (.sub, 1), (.div, 0)] (by decide) (by decide) (by decide)
  obtain ⟨result, same, run⟩ := worth 11 (by decide)
  obtain ⟨-, run'⟩ := fails .integerOverflow (by decide)
  have eleven : result = 11 := Int64.toInt_inj.mp same
  have left : text 7 [(.sub, 2), (.mul, 3), (.div, 4), (.add, 5)] = "7 - 2 * 3 / 4 + 5" := by decide
  have right : text 9223372036854775807 [(.add, 1), (.sub, 1), (.div, 0)] =
      "9223372036854775807 + 1 - 1 / 0" := by decide
  exact ⟨l, standard, left ▸ eleven ▸ run, right ▸ run'⟩

end Language
end Parlance
