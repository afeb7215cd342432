import Parlance.Proofs.Chain.Related
import Parlance.Proofs.Operator.Built

/-! Tables with levels. Where every operator that stands between operands has a level, and precedence and
associativity go by level, the only fault of a chain is that two operators of a level that may not be chained
meet with nothing but higher levels between them. The operators that wait while a chain is read stand for all
that were read: from either of them the same level comes next below any bound. -/
namespace Parlance

namespace OperatorTable

structure Leveled (t : OperatorTable) (level : Operator → Int) : Prop where
  precedence : ∀ a b, t.Binary a → t.Binary b → t.precedence a.id b.id =
    if level b < level a then .higher else if level a < level b then .lower else .equal
  assoc : ∀ a b, t.Binary a → t.Binary b → level a = level b → a.assoc = b.assoc

end OperatorTable

namespace Chain

variable {α : Type} (level : Operator → Int)

/-- At two places there are operators of one level that may not be chained, and only higher ones between. -/
def Clash (ops : List Operator) (i j : Nat) : Prop :=
  ∃ before a between b after, ops = before ++ a :: (between ++ b :: after) ∧
    before.length = i ∧ i + between.length + 1 = j ∧
    level a = level b ∧ b.assoc = .nonAssoc ∧ ∀ c ∈ between, level b < level c

def levelBelow (bound : Int) (ops : List Operator) : Option Int :=
  (ops.find? fun op => level op ≤ bound).map level

def Blocked (next : Operator) (read : List Operator) : Prop :=
  next.assoc = .nonAssoc ∧ levelBelow level (level next) read = some (level next)

instance (next : Operator) (read : List Operator) : Decidable (Blocked level next read) := by
  unfold Blocked
  infer_instance

def firstBlocked (read : List Operator) : List Operator → Option Operator
  | [] => none
  | next :: ops => if Blocked level next read then some next else firstBlocked (next :: read) ops

variable {level}

section Below

variable {bound : Int} {op : Operator}

theorem belowHere (low : level op ≤ bound) (ops : List Operator) :
    levelBelow level bound (op :: ops) = some (level op) := by
  simp [levelBelow, low]

theorem belowLater (high : bound < level op) (ops : List Operator) :
    levelBelow level bound (op :: ops) = levelBelow level bound ops := by
  simp [levelBelow, Int.not_le.mpr high]

theorem belowSplit {ops : List Operator} : levelBelow level bound ops = some bound ↔
    ∃ before op after, ops = before ++ op :: after ∧ level op = bound ∧
      ∀ other ∈ before, bound < level other := by
  simp only [levelBelow, Option.map_eq_some_iff, List.find?_eq_some_iff_append]
  constructor
  · rintro ⟨op, ⟨-, before, after, rfl, higher⟩, same⟩
    exact ⟨before, op, after, rfl, same, by simpa using higher⟩
  · rintro ⟨before, op, after, rfl, same, higher⟩
    exact ⟨op, ⟨by simp [same], before, after, rfl, by simpa using higher⟩, same⟩

end Below

section Positions

variable {ops : List Operator}

theorem clashBlocked {j : Nat} {next : Operator} (here : ops[j]? = some next) :
    (∃ i, Clash level ops i j) ↔ Blocked level next (ops.take j).reverse := by
  constructor
  · rintro ⟨i, before, a, between, b, after, rfl, rfl, rfl, same, unchained, higher⟩
    have front : before ++ a :: (between ++ b :: after) = (before ++ a :: between) ++ b :: after := by simp
    have long : before.length + between.length + 1 = (before ++ a :: between).length := by simp; omega
    rw [front, long, List.getElem?_append_right (Nat.le_refl _), Nat.sub_self] at here
    cases here
    rw [front, long, List.take_left]
    refine ⟨unchained, belowSplit.mpr ⟨between.reverse, a, before.reverse, by simp, same, ?_⟩⟩
    simpa using higher
  · rintro ⟨unchained, below⟩
    obtain ⟨between, a, before, split, same, higher⟩ := belowSplit.mp below
    obtain ⟨inside, found⟩ := List.getElem?_eq_some_iff.mp here
    have taken : ops.take j = before.reverse ++ a :: between.reverse := by
      rw [← List.reverse_reverse (ops.take j), split]
      simp
    have long := congrArg List.length taken
    simp only [List.length_take, List.length_append, List.length_cons, List.length_reverse] at long
    refine ⟨before.length, before.reverse, a, between.reverse, next, ops.drop (j + 1), ?_, by simp,
      by simp; omega, same, unchained, by simpa using higher⟩
    calc ops = ops.take j ++ next :: ops.drop (j + 1) := by
          rw [← found, List.getElem_cons_drop, List.take_append_drop]
      _ = _ := by rw [taken]; simp

theorem clashPlace {i j : Nat} (clash : Clash level ops i j) : ∃ op, ops[j]? = some op := by
  obtain ⟨before, a, between, b, after, rfl, rfl, rfl, -⟩ := clash
  refine ⟨_, List.getElem?_eq_getElem ?_⟩
  simp only [List.length_append, List.length_cons]
  omega

theorem blockedAt {read : List Operator} {next : Operator} (h : firstBlocked level read ops = some next) :
    ∃ j, ops[j]? = some next ∧ Blocked level next ((ops.take j).reverse ++ read) ∧
      ∀ k < j, ∀ other, ops[k]? = some other → ¬ Blocked level other ((ops.take k).reverse ++ read) := by
  induction ops generalizing read with
  | nil => contradiction
  | cons op ops ih =>
    simp only [firstBlocked] at h
    split at h
    · rename_i blocked
      cases h
      exact ⟨0, rfl, blocked, by simp⟩
    · rename_i free
      obtain ⟨j, found, blocked, first⟩ := ih h
      refine ⟨j + 1, found, by simpa using blocked, fun k low other here => ?_⟩
      cases k with
      | zero =>
        cases here
        simpa using free
      | succ k => simpa using first k (by omega) other here

theorem unblocked {read : List Operator} (h : firstBlocked level read ops = none) (k : Nat) (other : Operator)
    (here : ops[k]? = some other) : ¬ Blocked level other ((ops.take k).reverse ++ read) := by
  induction ops generalizing read k with
  | nil => simp at here
  | cons op ops ih =>
    simp only [firstBlocked] at h
    split at h
    · contradiction
    · rename_i free
      cases k with
      | zero =>
        cases here
        simpa using free
      | succ k => simpa using ih h k here

theorem firstClash {next : Operator} (h : firstBlocked level [] ops = some next) :
    ∃ j, ops[j]? = some next ∧ (∃ i, Clash level ops i j) ∧ ∀ i k, Clash level ops i k → j ≤ k := by
  obtain ⟨j, here, blocked, first⟩ := blockedAt h
  refine ⟨j, here, (clashBlocked here).mpr (by simpa using blocked), fun i k clash => ?_⟩
  obtain ⟨other, found⟩ := clashPlace clash
  refine Nat.le_of_not_lt fun earlier => ?_
  have free := first k earlier other found
  rw [List.append_nil] at free
  exact free ((clashBlocked found).mp ⟨i, clash⟩)

theorem noClash (h : firstBlocked level [] ops = none) (i j : Nat) : ¬ Clash level ops i j := by
  intro clash
  obtain ⟨op, found⟩ := clashPlace clash
  have free := unblocked h j op found
  rw [List.append_nil] at free
  exact free ((clashBlocked found).mp ⟨i, clash⟩)

end Positions

section Read

variable {t : OperatorTable} (leveled : t.Leveled level)

include leveled

theorem settleLevels {next : Operator} (here : t.Binary next) {pending : Pending α}
    (known : ∀ entry ∈ pending, t.Binary entry.2) (right : OperatorTree α) :
    (Blocked level next (pending.map Prod.snd) ∧
      settle t next pending right = .error (.nonAssociative next.symbol)) ∨
    (¬ Blocked level next (pending.map Prod.snd) ∧
      ∃ rest left, settle t next pending right = .ok (rest, left) ∧ ∀ bound < level next,
        levelBelow level bound (rest.map Prod.snd) = levelBelow level bound (pending.map Prod.snd)) := by
  -- The induction is over the waiting operators. One that is higher closes and no bound below the next operator sees
  -- it; so does one of the same level that is chained to the left, and then nothing blocks.
  induction pending generalizing right with
  | nil => exact .inr ⟨by simp [Blocked, levelBelow], [], right, rfl, fun _ _ => rfl⟩
  | cons entry pending ih =>
    obtain ⟨lhs, op⟩ := entry
    obtain ⟨first, others⟩ := List.forall_mem_cons.mp known
    have relation := leveled.precedence op next first here
    have inner := ih others (.node op lhs right)
    simp only [settle, closesBefore, relation, List.map_cons]
    rcases Int.lt_trichotomy (level op) (level next) with lower | same | higher
    · have passed : levelBelow level (level next) (op :: pending.map Prod.snd) = some (level op) :=
        belowHere (Int.le_of_lt lower) _
      rw [if_neg (Int.lt_asymm lower), if_pos lower]
      exact .inr ⟨fun blocked => absurd (Option.some.inj (passed.symm.trans blocked.2)) (Int.ne_of_lt lower),
        _, right, rfl, fun _ _ => rfl⟩
    · have passed : levelBelow level (level next) (op :: pending.map Prod.snd) = some (level next) :=
        same ▸ belowHere (Int.le_refl _) _
      simp only [same, Int.lt_irrefl, if_false]
      cases chained : next.assoc with
      | nonAssoc => exact .inl ⟨⟨chained, passed⟩, rfl⟩
      | right => exact .inr ⟨mt And.left (by simp [chained]), _, right, rfl, fun _ _ => rfl⟩
      | left =>
        rcases inner with ⟨blocked, -⟩ | ⟨-, rest, left, settled, below⟩
        · cases chained.symm.trans blocked.1
        · refine .inr ⟨mt And.left (by simp [chained]), rest, left, settled, fun bound low => ?_⟩
          rw [belowLater (same ▸ low)]
          exact below bound low
    · have passed : ∀ bound ≤ level next, levelBelow level bound (op :: pending.map Prod.snd) =
          levelBelow level bound (pending.map Prod.snd) := fun bound low =>
        belowLater (Int.lt_of_le_of_lt low higher) _
      rw [if_pos higher]
      simp only [Blocked, passed _ (Int.le_refl _)]
      rcases inner with blocked | ⟨free, rest, left, settled, below⟩
      · exact .inl blocked
      · exact .inr ⟨free, rest, left, settled, fun bound low =>
          (below bound low).trans (passed bound (Int.le_of_lt low)).symm⟩

theorem arrangeFromLevels {pending : Pending α} {links : List (Operator × α)}
    (known : ∀ entry ∈ pending, t.Binary entry.2) (coming : ∀ link ∈ links, t.Binary link.1)
    {read : List Operator}
    (alike : ∀ bound, levelBelow level bound (pending.map Prod.snd) = levelBelow level bound read)
    (right : OperatorTree α) :
    (∃ next, firstBlocked level read (links.map Prod.fst) = some next ∧
      arrangeFrom t pending right links = .error (.nonAssociative next.symbol)) ∨
    (firstBlocked level read (links.map Prod.fst) = none ∧
      ∃ tree, arrangeFrom t pending right links = .ok tree) := by
  -- By induction on the links, with the operators read so far, last first: whatever comes next is blocked by them as
  -- it is blocked by those that wait.
  induction links generalizing pending read right with
  | nil => exact .inr ⟨rfl, _, rfl⟩
  | cons link links ih =>
    obtain ⟨next, x⟩ := link
    obtain ⟨here, later⟩ := List.forall_mem_cons.mp coming
    have settled := settleLevels leveled here known right
    have blocks : Blocked level next (pending.map Prod.snd) ↔ Blocked level next read := by
      simp only [Blocked, alike]
    rw [blocks] at settled
    simp only [List.map_cons, firstBlocked, arrangeFrom]
    rcases settled with ⟨blocked, failed⟩ | ⟨free, rest, left, found, below⟩
    · exact .inl ⟨next, if_pos blocked, by rw [failed]⟩
    · have waiting : ∀ entry ∈ rest, t.Binary entry.2 := fun entry member =>
        known entry ((settleSuffix found).subset member)
      rw [if_neg free, found]
      refine ih (List.forall_mem_cons.mpr ⟨here, waiting⟩) later (fun bound => ?_) _
      by_cases low : level next ≤ bound
      · rw [List.map_cons, belowHere low, belowHere low]
      · have under := Int.not_le.mp low
        rw [List.map_cons, belowLater under, belowLater under, below bound under, alike]

theorem reassociateLeveled {operands : List Expr} {ops : List Operator} (known : ∀ op ∈ ops, t.Binary op)
    (length : operands.length = ops.length + 1) :
    (∃ next, firstBlocked level [] ops = some next ∧
      reassociate t operands ops = .error (.nonAssociative next.symbol)) ∨
    (firstBlocked level [] ops = none ∧ ((∃ e, reassociate t operands ops = .ok e) ∨
      reassociate t operands ops = .error (.tooDeep maxNesting))) := by
  obtain ⟨first, rest, rfl⟩ := List.exists_cons_of_length_eq_add_one length
  have same : rest.length = ops.length := by simpa using length
  have coming : ∀ link ∈ ops.zip rest, t.Binary link.1 := fun link member => known _ (List.of_mem_zip member).1
  have unread : ∀ bound, levelBelow level bound (([] : Pending Expr).map Prod.snd) = levelBelow level bound [] :=
    fun _ => rfl
  have arranged := arrangeFromLevels leveled (by simp) coming unread (.operand first)
  rw [List.map_fst_zip (Nat.le_of_eq same.symm)] at arranged
  rw [reassociateArranged same]
  unfold arrange
  rcases arranged with ⟨next, blocked, failed⟩ | ⟨free, tree, found⟩
  · exact .inl ⟨next, blocked, by rw [failed]⟩
  · rw [found]
    dsimp only
    split
    · exact .inr ⟨free, .inr rfl⟩
    · exact .inr ⟨free, .inl ⟨_, rfl⟩⟩

end Read

end Chain

def standardLevel (op : Operator) : Int :=
  match op.id with
  | 0 | 1 => 4
  | 2 | 3 => 3
  | 5 => 1
  | 12 => 0
  | _ => 2

theorem standardLeveled : standardOperators.Leveled standardLevel where
  precedence := by
    have checked : ∀ a ∈ standardOperators.operators, ∀ b ∈ standardOperators.operators,
        a.category = .infixOp → b.category = .infixOp → standardOperators.precedence a.id b.id =
          if standardLevel b < standardLevel a then .higher
          else if standardLevel a < standardLevel b then .lower else .equal := by decide +kernel
    exact fun a b first second => checked a first.1 b second.1 first.2 second.2
  assoc := by
    have checked : ∀ a ∈ standardOperators.operators, ∀ b ∈ standardOperators.operators,
        a.category = .infixOp → b.category = .infixOp → standardLevel a = standardLevel b →
          a.assoc = b.assoc := by decide +kernel
    exact fun a b first second => checked a first.1 b second.1 first.2 second.2

/-- Over a table with levels a chain has no fault but a clash, and the operator that is blamed is the second of the
first clash. The standard table has levels. -/
theorem levelsDecide :
    (∀ (t : OperatorTable) (level : Operator → Int), t.Leveled level →
      ∀ (operands : List Expr) (ops : List Operator), (∀ op ∈ ops, t.Binary op) →
        operands.length = ops.length + 1 →
        (∀ left right, reassociate t operands ops ≠ .error (.precedenceConflict left right)) ∧
        ((∃ symbol, reassociate t operands ops = .error (.nonAssociative symbol)) ↔
          ∃ i j, Chain.Clash level ops i j) ∧
        (∀ i j op, Chain.Clash level ops i j → ops[j]? = some op →
          (∀ h k, Chain.Clash level ops h k → j ≤ k) →
            reassociate t operands ops = .error (.nonAssociative op.symbol)) ∧
        ((¬ ∃ i j, Chain.Clash level ops i j) → (∃ e, reassociate t operands ops = .ok e) ∨
          reassociate t operands ops = .error (.tooDeep maxNesting))) ∧
    ∃ level, standardOperators.Leveled level := by
  refine ⟨fun t level leveled operands ops known length => ?_, standardLevel, standardLeveled⟩
  rcases Chain.reassociateLeveled leveled known length with ⟨next, blocked, failed⟩ | ⟨free, answered⟩
  · obtain ⟨j, here, ⟨i, clash⟩, least⟩ := Chain.firstClash blocked
    rw [failed]
    refine ⟨nofun, ⟨fun _ => ⟨i, j, clash⟩, fun _ => ⟨next.symbol, rfl⟩⟩,
      fun h k op other found first => ?_, fun none => absurd ⟨i, j, clash⟩ none⟩
    cases Nat.le_antisymm (least h k other) (first i j clash)
    cases here.symm.trans found
    rfl
  · have none : ¬ ∃ i j, Chain.Clash level ops i j := fun ⟨i, j, clash⟩ => Chain.noClash free i j clash
    have allowed : ∀ wrong, reassociate t operands ops = .error wrong → wrong = .tooDeep maxNesting := by
      intro wrong failed
      rcases answered with ⟨e, found⟩ | cut
      · cases found.symm.trans failed
      · exact Except.error.inj (failed.symm.trans cut)
    refine ⟨fun left right wrong => ?_, ⟨?_, fun clash => absurd clash none⟩,
      fun i j op clash => absurd ⟨i, j, clash⟩ none, fun _ => answered⟩
    · cases allowed _ wrong
    · rintro ⟨symbol, wrong⟩
      cases allowed _ wrong

theorem comparisonsClash :
    let plus : Operator := ⟨2, "plus", "+", .infixOp, .left, none⟩
    let less : Operator := ⟨10, "lt", "<", .infixOp, .nonAssoc, none⟩
    let mul : Operator := ⟨0, "mul", "*", .infixOp, .left, none⟩
    let eq : Operator := ⟨6, "eq", "==", .infixOp, .nonAssoc, none⟩
    let operands := ["a", "b", "c", "d", "e"].map Expr.ident
    standardOperators.Leveled standardLevel ∧
      (∀ op ∈ [plus, less, mul, eq], standardOperators.Binary op) ∧
      Chain.Clash standardLevel [plus, less, mul, eq] 1 3 ∧
      reassociate standardOperators operands [plus, less, mul, eq] = .error (.nonAssociative "==") := by
  intro plus less mul eq operands
  have known : ∀ op ∈ [plus, less, mul, eq], standardOperators.Binary op := by
    have listed : ∀ op ∈ [plus, less, mul, eq],
        op ∈ standardOperators.operators ∧ op.category = .infixOp := by decide
    exact listed
  have clash : Chain.Clash standardLevel [plus, less, mul, eq] 1 3 :=
    ⟨[plus], less, [mul], eq, [], rfl, rfl, rfl, rfl, rfl, by decide⟩
  have least : ∀ h k, Chain.Clash standardLevel [plus, less, mul, eq] h k → 3 ≤ k := by
    intro h k earlier
    match k with
    | 0 => exact absurd ((Chain.clashBlocked rfl).mp ⟨h, earlier⟩) (by decide)
    | 1 => exact absurd ((Chain.clashBlocked rfl).mp ⟨h, earlier⟩) (by decide)
    | 2 => exact absurd ((Chain.clashBlocked rfl).mp ⟨h, earlier⟩) (by decide)
    | k + 3 => exact Nat.le_add_left 3 k
  have decided := levelsDecide.1 standardOperators standardLevel standardLeveled operands _ known rfl
  exact ⟨standardLeveled, known, clash, decided.2.2.1 1 3 eq clash rfl least⟩

end Parlance
