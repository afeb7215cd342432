import Parlance.Expr.Chain

/-! The trees that a chain of operators can stand for. Precedence need not be total or transitive, so a tree
is judged by every pair of operators that compete for an operand in it: an operator at the right edge of a
left subtree, or at the left edge of a right subtree, against the operator above. A chain has at most one
admissible tree, and arranging finds it or shows that there is none. -/
namespace Parlance

namespace OperatorTree

variable {α : Type}

def rightSpine : OperatorTree α → List Operator
  | .operand _ => []
  | .node op _ rhs => op :: rhs.rightSpine

def leftSpine : OperatorTree α → List Operator
  | .operand _ => []
  | .node op lhs _ => op :: lhs.leftSpine

def first : OperatorTree α → α
  | .operand x => x
  | .node _ lhs _ => lhs.first

def links : OperatorTree α → List (Operator × α)
  | .operand _ => []
  | .node op lhs rhs => lhs.links ++ (op, rhs.first) :: rhs.links

theorem operandsLinks (tree : OperatorTree α) :
    tree.operands = tree.first :: tree.links.map Prod.snd := by
  induction tree with
  | operand x => rfl
  | node op lhs rhs ihl ihr => simp [operands, first, links, ihl, ihr]

theorem operatorsLinks (tree : OperatorTree α) : tree.operators = tree.links.map Prod.fst := by
  induction tree with
  | operand x => rfl
  | node op lhs rhs ihl ihr => simp [operators, links, ihl, ihr]

theorem spinesInside (tree : OperatorTree α) :
    (∀ q ∈ tree.rightSpine, q ∈ tree.operators) ∧ ∀ q ∈ tree.leftSpine, q ∈ tree.operators := by
  induction tree with
  | operand => simp [rightSpine, leftSpine]
  | node op lhs rhs left right =>
    simp only [rightSpine, leftSpine, operators, List.mem_append, List.mem_cons]
    exact ⟨fun q member => .inr (member.imp id (right.1 q)), fun q member =>
      member.elim (fun same => .inr (.inl same)) fun inside => .inl (left.2 q inside)⟩

end OperatorTree

namespace Chain

variable {α : Type}

/-- The operator `q` before `p` binds their common operand. -/
def TakesLeft (t : OperatorTable) (q p : Operator) : Prop :=
  t.precedence q.id p.id = .higher ∨ t.precedence q.id p.id = .equal ∧ p.assoc = .left

/-- The operator `q` after `p` binds their common operand. -/
def TakesRight (t : OperatorTable) (p q : Operator) : Prop :=
  t.precedence p.id q.id = .lower ∨ t.precedence p.id q.id = .equal ∧ q.assoc = .right

def Admissible (t : OperatorTable) : OperatorTree α → Prop
  | .operand _ => True
  | .node p lhs rhs =>
    (∀ q ∈ lhs.rightSpine, TakesLeft t q p) ∧ (∀ q ∈ rhs.leftSpine, TakesRight t p q) ∧
      Admissible t lhs ∧ Admissible t rhs

structure Stands (t : OperatorTable) (operands : List α) (ops : List Operator)
    (tree : OperatorTree α) : Prop where
  operands : tree.operands = operands
  operators : tree.operators = ops
  admissible : Admissible t tree

theorem closesTrue {t : OperatorTable} {q p : Operator} :
    closesBefore t q p = .ok true ↔ TakesLeft t q p := by
  unfold closesBefore TakesLeft
  cases t.precedence q.id p.id <;> cases p.assoc <;> simp

theorem closesFalse {t : OperatorTable} {p q : Operator} :
    closesBefore t p q = .ok false ↔ TakesRight t p q := by
  unfold closesBefore TakesRight
  cases t.precedence p.id q.id <;> cases q.assoc <;> simp

def waiting : OperatorTree α → Pending α × OperatorTree α
  | .operand x => ([], .operand x)
  | .node op lhs rhs => ((waiting rhs).1 ++ [(lhs, op)], (waiting rhs).2)

theorem closeAppend (xs ys : Pending α) (right : OperatorTree α) :
    close (xs ++ ys) right = close ys (close xs right) := by
  induction xs generalizing right with
  | nil => rfl
  | cons x xs ih => exact ih _

theorem closeWaiting (tree : OperatorTree α) : close (waiting tree).1 (waiting tree).2 = tree := by
  induction tree with
  | operand x => rfl
  | node op lhs rhs _ ihr => simp only [waiting, closeAppend, ihr, close]

theorem waitingSpine (tree : OperatorTree α) :
    ∀ entry ∈ (waiting tree).1, entry.2 ∈ tree.rightSpine := by
  induction tree with
  | operand x => simp [waiting]
  | node op lhs rhs _ ihr =>
    intro entry member
    rcases List.mem_append.mp member with inside | last
    · exact List.mem_cons_of_mem _ (ihr entry inside)
    · rw [List.mem_singleton.mp last]
      exact List.mem_cons_self

def Yields (t : OperatorTable) (next : Operator) : Pending α → Prop
  | [] => True
  | (_, top) :: _ => closesBefore t top next = .ok false

theorem settleYields {t : OperatorTable} {next : Operator} {pending : Pending α}
    (yields : Yields t next pending) (right : OperatorTree α) :
    settle t next pending right = .ok (pending, right) := by
  cases pending with
  | nil => rfl
  | cons entry pending =>
    have top : closesBefore t entry.2 next = .ok false := yields
    simp only [settle, top]

theorem settleAppend {t : OperatorTable} {next : Operator} {xs : Pending α}
    (closes : ∀ entry ∈ xs, closesBefore t entry.2 next = .ok true) (pending : Pending α)
    (right : OperatorTree α) :
    settle t next (xs ++ pending) right = settle t next pending (close xs right) := by
  induction xs generalizing right with
  | nil => rfl
  | cons entry xs ih =>
    have top := closes entry List.mem_cons_self
    have others := fun e member => closes e (List.mem_cons_of_mem _ member)
    simp only [List.cons_append, settle, top, close]
    exact ih others _

theorem arrangeTree {t : OperatorTable} {tree : OperatorTree α} (ok : Admissible t tree)
    {pending : Pending α} (yields : ∀ q ∈ tree.leftSpine, Yields t q pending)
    (rest : List (Operator × α)) :
    arrangeFrom t pending (.operand tree.first) (tree.links ++ rest) =
      arrangeFrom t ((waiting tree).1 ++ pending) (waiting tree).2 rest := by
  -- The induction is over the tree, with any operators waiting before it that leave the tree its left edge and any
  -- links after it.
  induction tree generalizing pending rest with
  | operand x => rfl
  | node op lhs rhs ihl ihr =>
    obtain ⟨left, right, okl, okr⟩ := ok
    have edge : ∀ q ∈ lhs.leftSpine, Yields t q pending := fun q member =>
      yields q (List.mem_cons_of_mem _ member)
    have closes : ∀ entry ∈ (waiting lhs).1, closesBefore t entry.2 op = .ok true :=
      fun entry member => closesTrue.mpr (left _ (waitingSpine lhs entry member))
    have settled : settle t op ((waiting lhs).1 ++ pending) (waiting lhs).2 = .ok (pending, lhs) := by
      rw [settleAppend closes, closeWaiting]
      exact settleYields (yields op List.mem_cons_self) lhs
    have inner : ∀ q ∈ rhs.leftSpine, Yields t q ((lhs, op) :: pending) := fun q member =>
      closesFalse.mpr (right q member)
    calc arrangeFrom t pending (.operand lhs.first)
          ((lhs.links ++ (op, rhs.first) :: rhs.links) ++ rest)
        = arrangeFrom t ((waiting lhs).1 ++ pending) (waiting lhs).2
            ((op, rhs.first) :: (rhs.links ++ rest)) := by
          rw [List.append_assoc, List.cons_append]
          exact ihl okl edge _
      _ = arrangeFrom t ((lhs, op) :: pending) (.operand rhs.first) (rhs.links ++ rest) := by
          simp only [arrangeFrom, settled]
      _ = arrangeFrom t ((waiting rhs).1 ++ (lhs, op) :: pending) (waiting rhs).2 rest :=
          ihr okr inner rest
      _ = arrangeFrom t (((waiting rhs).1 ++ [(lhs, op)]) ++ pending) (waiting rhs).2 rest := by
          rw [List.append_assoc, List.singleton_append]

theorem arrangeFinds {t : OperatorTable} {tree : OperatorTree α} (ok : Admissible t tree) :
    arrange t tree.first tree.links = .ok tree := by
  have edge : ∀ q ∈ tree.leftSpine, Yields t q ([] : Pending α) := fun _ _ => trivial
  have found := arrangeTree ok edge []
  rw [List.append_nil, List.append_nil] at found
  rw [arrange, found, arrangeFrom, closeWaiting]

def Fits (t : OperatorTable) : Pending α → List Operator → Prop
  | [], _ => True
  | (lhs, op) :: pending, edge =>
    Admissible t lhs ∧ (∀ q ∈ lhs.rightSpine, TakesLeft t q op) ∧ (∀ q ∈ edge, TakesRight t op q) ∧
      Fits t pending (op :: lhs.leftSpine)

theorem fitsYields {t : OperatorTable} {next : Operator} {pending : Pending α} {edge : List Operator}
    (fits : Fits t pending edge) (yields : Yields t next pending) : Fits t pending (next :: edge) := by
  cases pending with
  | nil => trivial
  | cons entry pending =>
    obtain ⟨ok, left, right, outer⟩ := fits
    refine ⟨ok, left, fun q member => ?_, outer⟩
    rcases List.mem_cons.mp member with rfl | inside
    · exact closesFalse.mp yields
    · exact right q inside

theorem closeAdmissible {t : OperatorTable} {pending : Pending α} {right : OperatorTree α}
    (ok : Admissible t right) (fits : Fits t pending right.leftSpine) :
    Admissible t (close pending right) := by
  induction pending generalizing right with
  | nil => exact ok
  | cons entry pending ih =>
    obtain ⟨okl, left, edge, outer⟩ := fits
    exact ih ⟨left, edge, okl, ok⟩ outer

theorem settleFits {t : OperatorTable} {next : Operator} {pending pending' : Pending α}
    {right left : OperatorTree α} (settled : settle t next pending right = .ok (pending', left))
    (ok : Admissible t right) (fits : Fits t pending right.leftSpine)
    (taken : ∀ q ∈ right.rightSpine, TakesLeft t q next) :
    Admissible t left ∧ Fits t pending' left.leftSpine ∧ (∀ q ∈ left.rightSpine, TakesLeft t q next) ∧
      Yields t next pending' := by
  induction pending generalizing right with
  | nil =>
    cases settled
    exact ⟨ok, trivial, taken, trivial⟩
  | cons entry pending ih =>
    unfold settle at settled
    split at settled
    · contradiction
    · rename_i closes
      obtain ⟨okl, leftOk, edge, outer⟩ := fits
      refine ih settled ⟨leftOk, edge, okl, ok⟩ outer fun q member => ?_
      rcases List.mem_cons.mp member with rfl | inside
      · exact closesTrue.mp closes
      · exact taken q inside
    · rename_i yields
      cases settled
      exact ⟨ok, fits, taken, yields⟩

theorem settleClose {t : OperatorTable} {next : Operator} {pending pending' : Pending α}
    {right left : OperatorTree α} (settled : settle t next pending right = .ok (pending', left)) :
    close pending' left = close pending right := by
  induction pending generalizing right with
  | nil =>
    cases settled
    rfl
  | cons entry pending ih =>
    unfold settle at settled
    split at settled
    · contradiction
    · exact ih settled
    · cases settled
      rfl

theorem closeFirst (pending : Pending α) {a b : OperatorTree α} (same : a.first = b.first) :
    (close pending a).first = (close pending b).first := by
  induction pending generalizing a b with
  | nil => exact same
  | cons entry pending ih => exact ih rfl

theorem closeLinks (pending : Pending α) {a b : OperatorTree α} {more : List (Operator × α)}
    (first : a.first = b.first) (links : a.links = b.links ++ more) :
    (close pending a).links = (close pending b).links ++ more := by
  induction pending generalizing a b with
  | nil => exact links
  | cons entry pending ih =>
    refine ih rfl ?_
    simp only [OperatorTree.links, first, links, List.append_assoc, List.cons_append]

theorem arrangeFromSound {t : OperatorTable} {pending : Pending α} {x : α}
    {links : List (Operator × α)} {tree : OperatorTree α} (fits : Fits t pending [])
    (found : arrangeFrom t pending (.operand x) links = .ok tree) :
    Admissible t tree ∧ tree.first = (close pending (.operand x)).first ∧
      tree.links = (close pending (.operand x)).links ++ links := by
  induction links generalizing pending x with
  | nil =>
    cases found
    exact ⟨closeAdmissible trivial fits, rfl, (List.append_nil _).symm⟩
  | cons link links ih =>
    obtain ⟨op, y⟩ := link
    unfold arrangeFrom at found
    split at found
    · contradiction
    · rename_i pending' left settled
      obtain ⟨okl, outer, taken, yields⟩ := settleFits settled trivial fits (by simp [OperatorTree.rightSpine])
      have closed := settleClose settled
      have next : Fits t ((left, op) :: pending') [] :=
        ⟨okl, taken, by simp, fitsYields outer yields⟩
      obtain ⟨ok, first, same⟩ := ih next found
      refine ⟨ok, ?_, ?_⟩
      · rw [first, ← closed]
        exact closeFirst pending' rfl
      · rw [same, ← closed]
        have added : (OperatorTree.node op left (.operand y)).links = left.links ++ [(op, y)] := rfl
        have start : (OperatorTree.node op left (.operand y)).first = left.first := rfl
        rw [close, closeLinks pending' start added, List.append_assoc, List.singleton_append]

theorem arrangeSound {t : OperatorTable} {first : α} {links : List (Operator × α)}
    {tree : OperatorTree α} (found : arrange t first links = .ok tree) :
    Admissible t tree ∧ tree.first = first ∧ tree.links = links := by
  have fits : Fits t ([] : Pending α) [] := trivial
  exact arrangeFromSound fits found

/-- Two neighbours that no precedence relates, or that may not be chained. -/
def Conflict (e : ResolveError) : Prop :=
  (∃ symbol, e = .nonAssociative symbol) ∨ ∃ left right, e = .precedenceConflict left right

theorem closesConflict {t : OperatorTable} {q p : Operator} {e : ResolveError}
    (h : closesBefore t q p = .error e) : Conflict e := by
  unfold closesBefore at h
  split at h
  · contradiction
  · contradiction
  · split at h
    · contradiction
    · contradiction
    · exact .inl ⟨_, (Except.error.inj h).symm⟩
  · exact .inr ⟨_, _, (Except.error.inj h).symm⟩

theorem settleConflict {t : OperatorTable} {next : Operator} {pending : Pending α}
    {right : OperatorTree α} {e : ResolveError} (h : settle t next pending right = .error e) :
    Conflict e := by
  induction pending generalizing right with
  | nil => contradiction
  | cons entry pending ih =>
    unfold settle at h
    split at h
    · rename_i wrong
      cases Except.error.inj h
      exact closesConflict wrong
    · exact ih h
    · contradiction

theorem arrangeFromConflict {t : OperatorTable} {pending : Pending α} {right : OperatorTree α}
    {links : List (Operator × α)} {e : ResolveError}
    (h : arrangeFrom t pending right links = .error e) : Conflict e := by
  induction links generalizing pending right with
  | nil => contradiction
  | cons link links ih =>
    unfold arrangeFrom at h
    split at h
    · rename_i wrong
      cases Except.error.inj h
      exact settleConflict wrong
    · exact ih h

theorem standsLinks {t : OperatorTable} {x : α} {rest : List α} {ops : List Operator}
    (same : rest.length = ops.length) {tree : OperatorTree α} :
    Stands t (x :: rest) ops tree ↔ Admissible t tree ∧ tree.first = x ∧ tree.links = ops.zip rest := by
  constructor
  · rintro ⟨operands, operators, ok⟩
    rw [OperatorTree.operandsLinks] at operands
    rw [OperatorTree.operatorsLinks] at operators
    obtain ⟨first, others⟩ := List.cons.inj operands
    refine ⟨ok, first, ?_⟩
    rw [← others, ← operators]
    exact List.zip_of_prod rfl rfl
  · rintro ⟨ok, first, links⟩
    refine ⟨?_, ?_, ok⟩
    · rw [OperatorTree.operandsLinks, first, links, List.map_snd_zip (by omega)]
    · rw [OperatorTree.operatorsLinks, links, List.map_fst_zip (by omega)]

theorem arrangeExact {t : OperatorTable} {x : α} {rest : List α} {ops : List Operator}
    (same : rest.length = ops.length) {tree : OperatorTree α} :
    arrange t x (ops.zip rest) = .ok tree ↔ Stands t (x :: rest) ops tree := by
  rw [standsLinks same]
  constructor
  · exact arrangeSound
  · rintro ⟨ok, rfl, links⟩
    rw [← links]
    exact arrangeFinds ok

theorem standsLength {t : OperatorTable} {operands : List α} {ops : List Operator}
    {tree : OperatorTree α} (h : Stands t operands ops tree) : operands.length = ops.length + 1 := by
  rw [← h.operands, ← h.operators, OperatorTree.operandsLinks, OperatorTree.operatorsLinks]
  simp

theorem standsOnce {t : OperatorTable} {operands : List α} {ops : List Operator}
    {a b : OperatorTree α} (left : Stands t operands ops a) (right : Stands t operands ops b) : a = b := by
  have length := standsLength left
  cases operands with
  | nil => simp at length
  | cons x rest =>
    have same : rest.length = ops.length := by simpa using length
    exact Except.ok.inj (((arrangeExact same).mpr left).symm.trans ((arrangeExact same).mpr right))

theorem reassociateArranged {t : OperatorTable} {first : Expr} {rest : List Expr} {ops : List Operator}
    (same : rest.length = ops.length) :
    reassociate t (first :: rest) ops =
      match arrange t first (ops.zip rest) with
      | .error e => .error e
      | .ok tree => if tree.height > maxNesting then .error (.tooDeep maxNesting) else .ok tree.toExpr := by
  simp only [reassociate, same, beq_self_eq_true, if_true]
  cases arrange t first (ops.zip rest) <;> rfl

/-- How the expression of a chain comes about: not at all for a wrong number of operands or for a conflict,
and otherwise from the admissible tree, if that is not too high. -/
inductive Verdict (t : OperatorTable) (operands : List Expr) (ops : List Operator) :
    Except ResolveError Expr → Prop where
  | malformed (wrong : operands.length ≠ ops.length + 1) :
      Verdict t operands ops (.error .malformedChain)
  | conflict {e} (length : operands.length = ops.length + 1) (conflict : Conflict e)
      (none : ¬ ∃ tree, Stands t operands ops tree) : Verdict t operands ops (.error e)
  | tooDeep {tree} (stands : Stands t operands ops tree) (high : maxNesting < tree.height) :
      Verdict t operands ops (.error (.tooDeep maxNesting))
  | ok {tree} (stands : Stands t operands ops tree) (low : tree.height ≤ maxNesting) :
      Verdict t operands ops (.ok tree.toExpr)

theorem verdict (t : OperatorTable) (operands : List Expr) (ops : List Operator) :
    Verdict t operands ops (reassociate t operands ops) := by
  cases operands with
  | nil => exact .malformed (by simp)
  | cons x rest =>
    by_cases same : rest.length = ops.length
    · rw [reassociateArranged same]
      cases found : arrange t x (ops.zip rest) with
      | error e =>
        have none : ¬ ∃ tree, Stands t (x :: rest) ops tree := by
          rintro ⟨tree, stands⟩
          rw [(arrangeExact same).mpr stands] at found
          contradiction
        exact .conflict (by simp [same]) (arrangeFromConflict found) none
      | ok tree =>
        have stands := (arrangeExact same).mp found
        by_cases high : tree.height > maxNesting
        · have cut := Verdict.tooDeep stands high
          simpa only [if_pos high] using cut
        · have done := Verdict.ok stands (Nat.le_of_not_lt high)
          simpa only [if_neg high] using done
    · have wrong : (x :: rest).length ≠ ops.length + 1 := by simpa using same
      rw [reassociate, if_neg (by simpa using same)]
      exact .malformed wrong

theorem verdictOk {t : OperatorTable} {operands : List Expr} {ops : List Operator}
    {r : Except ResolveError Expr} (h : Verdict t operands ops r) (e : Expr) :
    r = .ok e ↔ ∃ tree, Stands t operands ops tree ∧ tree.height ≤ maxNesting ∧ tree.toExpr = e := by
  constructor
  · intro same
    cases h <;> cases same
    rename_i tree stands low
    exact ⟨tree, stands, low, rfl⟩
  · rintro ⟨tree, stands, low, rfl⟩
    cases h with
    | malformed wrong => exact absurd (standsLength stands) wrong
    | conflict length conflict none => exact absurd ⟨tree, stands⟩ none
    | tooDeep other high =>
      rw [standsOnce other stands] at high
      omega
    | ok other low => rw [standsOnce other stands]

theorem conflictNotDeep {limit : Nat} : ¬ Conflict (.tooDeep limit) := by
  rintro (⟨_, h⟩ | ⟨_, _, h⟩) <;> contradiction

theorem conflictNotMalformed : ¬ Conflict .malformedChain := by
  rintro (⟨_, h⟩ | ⟨_, _, h⟩) <;> contradiction

theorem verdictTooDeep {t : OperatorTable} {operands : List Expr} {ops : List Operator}
    {r : Except ResolveError Expr} (h : Verdict t operands ops r) :
    r = .error (.tooDeep maxNesting) ↔
      ∃ tree, Stands t operands ops tree ∧ maxNesting < tree.height := by
  constructor
  · intro same
    cases h with
    | malformed wrong => cases Except.error.inj same
    | conflict length conflict none =>
      rw [Except.error.inj same] at conflict
      exact absurd conflict conflictNotDeep
    | tooDeep stands high => exact ⟨_, stands, high⟩
    | ok stands low => contradiction
  · rintro ⟨tree, stands, high⟩
    cases h with
    | malformed wrong => exact absurd (standsLength stands) wrong
    | conflict length conflict none => exact absurd ⟨tree, stands⟩ none
    | tooDeep other high => rfl
    | ok other low =>
      rw [standsOnce other stands] at low
      omega

theorem verdictConflict {t : OperatorTable} {operands : List Expr} {ops : List Operator}
    {r : Except ResolveError Expr} (h : Verdict t operands ops r) :
    (∃ e, r = .error e ∧ Conflict e) ↔
      operands.length = ops.length + 1 ∧ ¬ ∃ tree, Stands t operands ops tree := by
  constructor
  · rintro ⟨e, same, conflict⟩
    cases h with
    | malformed wrong =>
      rw [← Except.error.inj same] at conflict
      exact absurd conflict conflictNotMalformed
    | conflict length conflict none => exact ⟨length, none⟩
    | tooDeep stands high =>
      rw [← Except.error.inj same] at conflict
      exact absurd conflict conflictNotDeep
    | ok stands low => contradiction
  · rintro ⟨length, none⟩
    cases h with
    | malformed wrong => exact absurd length wrong
    | conflict length conflict none => exact ⟨_, rfl, conflict⟩
    | tooDeep stands high => exact absurd ⟨_, stands⟩ none
    | ok stands low => exact absurd ⟨_, stands⟩ none

theorem verdictMalformed {t : OperatorTable} {operands : List Expr} {ops : List Operator}
    {r : Except ResolveError Expr} (h : Verdict t operands ops r) :
    r = .error .malformedChain ↔ operands.length ≠ ops.length + 1 := by
  constructor
  · intro same
    cases h with
    | malformed wrong => exact wrong
    | conflict length conflict none =>
      rw [Except.error.inj same] at conflict
      exact absurd conflict conflictNotMalformed
    | tooDeep stands high => cases Except.error.inj same
    | ok stands low => contradiction
  · intro wrong
    cases h with
    | malformed wrong => rfl
    | conflict length conflict none => exact absurd length wrong
    | tooDeep stands high => exact absurd (standsLength stands) wrong
    | ok stands low => exact absurd (standsLength stands) wrong

end Chain

/-- A chain stands for at most one admissible tree. It is resolved to that tree if the tree is low enough,
it is too deep exactly if the tree is higher, and it is in conflict exactly if there is none. -/
theorem reassociateExact (t : OperatorTable) (operands : List Expr) (ops : List Operator) :
    (∀ a b, Chain.Stands t operands ops a → Chain.Stands t operands ops b → a = b) ∧
    (∀ e, reassociate t operands ops = .ok e ↔
      ∃ tree, Chain.Stands t operands ops tree ∧ tree.height ≤ maxNesting ∧ tree.toExpr = e) ∧
    (reassociate t operands ops = .error (.tooDeep maxNesting) ↔
      ∃ tree, Chain.Stands t operands ops tree ∧ maxNesting < tree.height) ∧
    ((∃ e, reassociate t operands ops = .error e ∧ Chain.Conflict e) ↔
      operands.length = ops.length + 1 ∧ ¬ ∃ tree, Chain.Stands t operands ops tree) ∧
    (reassociate t operands ops = .error .malformedChain ↔ operands.length ≠ ops.length + 1) := by
  have verdict := Chain.verdict t operands ops
  exact ⟨fun _ _ => Chain.standsOnce, Chain.verdictOk verdict, Chain.verdictTooDeep verdict,
    Chain.verdictConflict verdict, Chain.verdictMalformed verdict⟩

end Parlance
