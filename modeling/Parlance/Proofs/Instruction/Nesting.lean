import Parlance.Language
import Parlance.Proofs.Sequence

/-! How deep instructions nest. Whatever the grammar, the operators and the roles they play, lowering makes
calls of the branching native only with the two functions it branches to written out, and what one level of
an expression is lowered to nests by a fixed number of levels at most. -/
namespace Parlance

variable {H : Type}

inductive Nested : Nat → Instruction H → Prop where
  | literal {n value} (room : 0 < n) : Nested n (.literal value)
  | lookup {n name} (room : 0 < n) : Nested n (.lookup name)
  | assign {m n name value} (room : m < n) (part : Nested m value) : Nested n (.assign name value)
  | function {m n params body} (room : m < n) (inner : ∀ i ∈ body, Nested m i) :
      Nested n (.function params body)
  | call {m n name args} (room : m < n) (parts : ∀ i ∈ args, Nested m i) : Nested n (.call name args)
  | callFunction {m n params body args} (room : m < n) (inner : ∀ i ∈ body, Nested m i)
      (parts : ∀ i ∈ args, Nested m i) : Nested n (.callFunction params body args)
  | group {m n args} (room : m < n) (parts : ∀ i ∈ args, Nested m i) :
      Nested n (.callNative .group args)
  | branch {m n guard block otherwise} (room : m + 1 < n) (first : Nested (m + 1) guard)
      (inner : ∀ i ∈ block, Nested m i) (rest : Nested m otherwise) :
      Nested n (.callNative .branch [guard, .function [] block, .function [] [otherwise]])

theorem nestedMono {m n : Nat} {i : Instruction H} (h : Nested m i) (le : m ≤ n) : Nested n i := by
  cases h with
  | literal room => exact .literal (by omega)
  | lookup room => exact .lookup (by omega)
  | assign room part => exact .assign (by omega) part
  | function room inner => exact .function (by omega) inner
  | call room parts => exact .call (by omega) parts
  | callFunction room inner parts => exact .callFunction (by omega) inner parts
  | group room parts => exact .group (by omega) parts
  | branch room first inner rest => exact .branch (by omega) first inner rest

namespace Instruction

def parts : Instruction H → List (Instruction H)
  | .literal _ => []
  | .lookup _ => []
  | .assign _ value => [value]
  | .function _ body => body
  | .call _ args => args
  | .callFunction _ body args => body ++ args
  | .callNative _ args => args

inductive Part : Instruction H → Instruction H → Prop where
  | self {i} : Part i i
  | inside {i c sub} (member : c ∈ i.parts) (part : Part c sub) : Part i sub

theorem partInner {i sub c : Instruction H} (part : i.Part sub) (member : c ∈ sub.parts) : i.Part c := by
  induction part with
  | self => exact .inside member .self
  | inside first _ ih => exact .inside first (ih member)

end Instruction

theorem nestedParts {n : Nat} {i c : Instruction H} (h : Nested n i) (member : c ∈ i.parts) :
    Nested n c := by
  cases h with
  | literal room => simp [Instruction.parts] at member
  | lookup room => simp [Instruction.parts] at member
  | assign room part =>
    cases List.mem_singleton.mp member
    exact nestedMono part (Nat.le_of_lt room)
  | function room inner => exact nestedMono (inner c member) (Nat.le_of_lt room)
  | call room parts => exact nestedMono (parts c member) (Nat.le_of_lt room)
  | callFunction room inner parts =>
    rcases List.mem_append.mp member with body | arg
    · exact nestedMono (inner c body) (Nat.le_of_lt room)
    · exact nestedMono (parts c arg) (Nat.le_of_lt room)
  | group room parts => exact nestedMono (parts c member) (Nat.le_of_lt room)
  | @branch m n guard block otherwise room first inner rest =>
    simp only [Instruction.parts, List.mem_cons, List.not_mem_nil, or_false] at member
    rcases member with rfl | rfl | rfl
    · exact nestedMono first (Nat.le_of_lt room)
    · exact .function (by omega) inner
    · exact .function (m := m) (by omega) (by simpa using rest)

theorem nestedPart {n : Nat} {i sub : Instruction H} (h : Nested n i) (part : i.Part sub) :
    Nested n sub := by
  induction part with
  | self => exact h
  | inside member _ ih => exact ih (nestedParts h member)

namespace Lower

def levelsAdded : Nat := 2 * maxNesting + 3

section

variable {step : Bool → Expr → Except ResolveError (Instruction H)} {n : Nat}
  (nested : ∀ {captured e i}, step captured e = .ok i → Nested n i)

include nested

theorem argumentsNested {r : Roles} {captured : Bool} {args : Expr} {is : List (Instruction H)}
    (h : arguments step r captured args = .ok is) : ∀ i ∈ is, Nested n i := by
  obtain ⟨items, -, walked⟩ := bindOk h
  intro i member
  obtain ⟨e, -, same⟩ := traverseMember walked member
  exact nested same

theorem blockNested {r : Roles} {body : Expr} {is : List (Instruction H)}
    (h : block step r body = .ok is) : ∀ i ∈ is, Nested n i := by
  obtain ⟨items, -, walked⟩ := bindOk h
  intro i member
  obtain ⟨e, -, same⟩ := traverseMember walked member
  exact nested same

theorem cascadeNested {r : Roles} {captured : Bool} {arms : List (CondArm Expr)} {i : Instruction H}
    (h : cascade step r captured arms = .ok i) : Nested (n + 2 * arms.length + 1) i := by
  induction arms generalizing i with
  | nil =>
    cases h
    exact .literal (by omega)
  | cons arm rest ih =>
    obtain ⟨guard, body⟩ := arm
    obtain ⟨block, made, last⟩ := bindOk h
    have inner := blockNested nested made
    cases guard with
    | catchAll =>
      cases last
      exact .callFunction (by omega) inner (by simp)
    | test condition =>
      obtain ⟨otherwise, arms, last⟩ := bindOk last
      obtain ⟨guard, made', last⟩ := bindOk last
      cases last
      have deeper : ∀ i ∈ block, Nested (n + 2 * rest.length + 1) i := fun i member =>
        nestedMono (inner i member) (by omega)
      exact .branch (by simp; omega) (nestedMono (nested made') (by omega)) deeper (ih arms)

theorem conditionalNested {r : Roles} {captured : Bool} {scrutinee : Option Expr}
    {arms : List (CondArm Expr)} {i : Instruction H}
    (h : conditional step r captured scrutinee arms = .ok i) :
    Nested (n + 2 * arms.length + 2) i := by
  cases scrutinee with
  | none => exact nestedMono (cascadeNested nested h) (by omega)
  | some e =>
    obtain ⟨body, made, last⟩ := bindOk h
    obtain ⟨value, made', last⟩ := bindOk last
    cases last
    have inner := cascadeNested nested made
    have part : Nested (n + 2 * arms.length + 1) value := nestedMono (nested made') (by omega)
    exact .callFunction (Nat.lt_succ_self _) (by simpa using inner) (by simpa using part)

theorem computedNested {captured : Bool} {callee : Expr} {args : List (Instruction H)}
    {i : Instruction H} (parts : ∀ i ∈ args, Nested n i)
    (h : computedCall step captured callee args = .ok i) : Nested (n + 2) i := by
  obtain ⟨made, same, last⟩ := bindOk h
  cases last
  have call : Nested (n + 1) (.call calleeName args) := .call (Nat.lt_succ_self n) parts
  exact .callFunction (Nat.lt_succ_self _) (by simpa using call)
    (by simpa using nestedMono (nested same) (Nat.le_succ n))

theorem assignmentNested {captured : Bool} {target value : Expr} {i : Instruction H}
    (h : assignment step captured target value = .ok i) : Nested (n + 1) i := by
  unfold assignment at h
  split at h
  · split at h
    · obtain ⟨made, same, last⟩ := bindOk h
      cases last
      exact .assign (Nat.lt_succ_self n) (nested same)
    · contradiction
  · contradiction

theorem lowerWithNested {r : Roles} {captured : Bool} {e : Expr} {i : Instruction H}
    (h : lowerWith step r captured e = .ok i) : Nested (n + levelsAdded) i := by
  have level : n < n + levelsAdded := by unfold levelsAdded; omega
  cases e with
  | ident text =>
    simp only [lowerWith] at h
    split at h
    · cases h
      exact .literal (by omega)
    · cases h
      exact .lookup (by omega)
    · contradiction
  | capture =>
    simp only [lowerWith] at h
    split at h
    · cases h
      exact .lookup (by omega)
    · contradiction
  | binary op lhs rhs =>
    simp only [lowerWith] at h
    split at h
    · exact nestedMono (assignmentNested nested h) level
    split at h
    · contradiction
    obtain ⟨l, first, last⟩ := bindOk h
    obtain ⟨r, second, last⟩ := bindOk last
    cases last
    exact .call level (by simpa using ⟨nested first, nested second⟩)
  | unary op operand =>
    obtain ⟨made, same, last⟩ := bindOk h
    cases last
    exact .call level (by simpa using nested same)
  | enclosed op body => contradiction
  | group args =>
    obtain ⟨is, made, last⟩ := bindOk h
    cases last
    exact .group level (argumentsNested nested made)
  | call callee args =>
    obtain ⟨is, made, last⟩ := bindOk h
    have parts := argumentsNested nested made
    have two : n + 2 ≤ n + levelsAdded := by unfold levelsAdded; omega
    split at last
    · split at last
      · cases last
        exact .call level parts
      · exact nestedMono (computedNested nested parts last) two
    · exact nestedMono (computedNested nested parts last) two
  | function params body =>
    obtain ⟨names, -, last⟩ := bindOk h
    obtain ⟨is, made, last⟩ := bindOk last
    cases last
    exact .function level (blockNested nested made)
  | conditional scrutinee arms =>
    simp only [lowerWith] at h
    split at h
    · contradiction
    · refine nestedMono (conditionalNested nested h) ?_
      unfold levelsAdded
      omega

end

theorem lowerAtNested {r : Roles} {levels : Nat} {captured : Bool} {e : Expr} {i : Instruction H}
    (h : lowerAt r levels captured e = .ok i) : Nested (levels * levelsAdded) i := by
  induction levels generalizing captured e i with
  | zero => contradiction
  | succ levels ih =>
    rw [Nat.succ_mul]
    exact lowerWithNested ih h

end Lower

/-- How deep the instructions of a program nest at most, in any language. -/
def Language.deepest : Nat := maxNesting * Lower.levelsAdded

theorem Language.compileNested {l : Language} {source : String} {program : List (Instruction H)}
    (h : l.compile source = .ok program) : ∀ i ∈ program, Nested deepest i := by
  unfold compile at h
  split at h
  · cases h
    simp
  · obtain ⟨m, -, last⟩ := bindOk h
    obtain ⟨es, -, walked⟩ := bindOk (mapErrorOk last)
    intro i member
    obtain ⟨e, -, same⟩ := traverseMember walked member
    exact Lower.lowerAtNested same

end Parlance
