import Parlance.Instruction.OfExpr
import Parlance.Proofs.Chain.Admissible
import Parlance.Proofs.Operator.Built

/-! Chains that a separator parts. Where every other operator binds tighter than the separator, the admissible
tree of a chain has its separators at the top, so that what they separate in it are the trees of the parts of the
chain; and trees of the parts make one of the whole, whichever way the separator is chained. -/
namespace Parlance

structure OperatorTable.Separates (t : OperatorTable) (separator : Operator) : Prop where
  binary : t.Binary separator
  chained : separator.assoc ≠ .nonAssoc
  tighter : ∀ op, t.Binary op → op ≠ separator →
    t.precedence op.id separator.id = .higher ∧ t.precedence separator.id op.id = .lower

/-- The parts of a chain between its separators, each with its operands and operators. Every operator has one
operand in front of it. -/
def Chain.segments {α : Type} (separator : Operator) :
    List α → List Operator → List (List α × List Operator)
  | operands, [] => [(operands, [])]
  | operands, op :: ops =>
    let later := segments separator (operands.drop 1) ops
    if op = separator then (operands.take 1, []) :: later
    else later.modifyHead fun part => (operands.take 1 ++ part.1, op :: part.2)

variable {α : Type} {separator : Operator}

namespace Chain

section Segments

theorem segmentsBegin (separator : Operator) (operands : List α) (ops : List Operator) :
    ∃ first later, segments separator operands ops = first :: later := by
  induction ops generalizing operands with
  | nil => exact ⟨_, _, rfl⟩
  | cons op ops ih =>
    obtain ⟨first, later, found⟩ := ih (operands.drop 1)
    simp only [segments, found]
    split
    · exact ⟨_, _, rfl⟩
    · exact ⟨_, _, rfl⟩

theorem segmentsOperators {operands : List α} {ops : List Operator} {part : List α × List Operator}
    (member : part ∈ segments separator operands ops) : ∀ q ∈ part.2, q ∈ ops ∧ q ≠ separator := by
  induction ops generalizing operands part with
  | nil => simp [List.mem_singleton.mp member]
  | cons op ops ih =>
    obtain ⟨first, others, later⟩ := segmentsBegin separator (operands.drop 1) ops
    have behind : ∀ part ∈ first :: others, ∀ q ∈ part.2, q ∈ op :: ops ∧ q ≠ separator :=
      fun part inside q which => (ih (later ▸ inside) q which).imp_left (List.mem_cons_of_mem op)
    simp only [segments, later] at member
    split at member
    · rcases List.mem_cons.mp member with rfl | inside
      · simp
      · exact behind part inside
    · rename_i other
      rcases List.mem_cons.mp member with rfl | inside
      · exact List.forall_mem_cons.mpr ⟨⟨List.mem_cons_self, other⟩, behind first List.mem_cons_self⟩
      · exact behind part (List.mem_cons_of_mem _ inside)

theorem segmentsWhole {ops : List Operator} (free : separator ∉ ops) (operands : List α) :
    segments separator operands ops = [(operands, ops)] := by
  induction ops generalizing operands with
  | nil => rfl
  | cons op ops ih =>
    obtain ⟨here, later⟩ := not_or.mp (mt List.mem_cons.mpr free)
    simp only [segments, if_neg (Ne.symm here), ih later, List.modifyHead_cons, List.take_append_drop]

theorem segmentsAppend {operands others : List α} {ops more : List Operator}
    (length : operands.length = ops.length + 1) :
    segments separator (operands ++ others) (ops ++ separator :: more) =
      segments separator operands ops ++ segments separator others more := by
  induction ops generalizing operands with
  | nil =>
    obtain ⟨x, rfl⟩ := List.length_eq_one_iff.mp length
    simp [segments]
  | cons op ops ih =>
    obtain ⟨x, rest, rfl⟩ := List.exists_cons_of_length_eq_add_one length
    have later := @ih rest (by simpa using length)
    obtain ⟨first, parts, found⟩ := segmentsBegin separator rest ops
    rw [found] at later
    simp only [List.cons_append, segments, List.drop_one, List.tail_cons, List.take_succ_cons, List.take_zero,
      later, found]
    split <;> rfl

theorem segmentsJoined (separator : Operator) (operands : List α) (ops : List Operator) :
    (segments separator operands ops).flatMap Prod.fst = operands ∧
      [separator].intercalate ((segments separator operands ops).map Prod.snd) = ops := by
  induction ops generalizing operands with
  | nil => simp [segments]
  | cons op ops ih =>
    have later := ih (operands.drop 1)
    obtain ⟨first, parts, found⟩ := segmentsBegin separator (operands.drop 1) ops
    rw [found] at later
    obtain ⟨before, between⟩ := later
    simp only [segments, found]
    split
    · rename_i same
      simp only [List.flatMap_cons, List.map_cons, List.intercalate_cons_cons] at before between ⊢
      rw [before, between, same, List.take_append_drop]
      simp
    · simp only [List.modifyHead_cons, List.flatMap_cons, List.map_cons] at before between ⊢
      refine ⟨by rw [List.append_assoc, before, List.take_append_drop], ?_⟩
      rw [← between]
      cases parts <;> simp

end Segments

end Chain

namespace OperatorTree

def parts (separator : Operator) : OperatorTree α → List (OperatorTree α)
  | .operand x => [.operand x]
  | .node op lhs rhs =>
    if op = separator then lhs.parts separator ++ rhs.parts separator else [.node op lhs rhs]

def chain (tree : OperatorTree α) : List α × List Operator := (tree.operands, tree.operators)

def root : OperatorTree α → Option Operator
  | .operand _ => none
  | .node op _ _ => some op

theorem rootEdges {tree : OperatorTree α} {op : Operator} (top : tree.root = some op) :
    op ∈ tree.leftSpine ∧ op ∈ tree.rightSpine := by
  cases tree with
  | operand x => contradiction
  | node q lhs rhs =>
    cases top
    exact ⟨List.mem_cons_self, List.mem_cons_self⟩

theorem chainLength (tree : OperatorTree α) : tree.operands.length = tree.operators.length + 1 := by
  rw [operandsLinks, operatorsLinks]
  simp

theorem partsHeight {tree part : OperatorTree α} (member : part ∈ tree.parts separator) :
    part.height ≤ tree.height := by
  induction tree with
  | operand x => exact Nat.le_of_eq (congrArg height (List.mem_singleton.mp member))
  | node op lhs rhs left right =>
    simp only [parts] at member
    split at member
    · simp only [height]
      rcases List.mem_append.mp member with inside | inside
      · have := left inside
        omega
      · have := right inside
        omega
    · exact Nat.le_of_eq (congrArg height (List.mem_singleton.mp member))

theorem separatedParts {tree : OperatorTree Expr}
    (apart : ∀ x ∈ tree.operands, ∀ lhs rhs, x ≠ .binary separator lhs rhs) :
    Lower.separated (some separator) tree.toExpr = (tree.parts separator).map toExpr := by
  induction tree with
  | operand x =>
    have other := apart x (by simp [operands])
    unfold Lower.separated
    split
    · rename_i op lhs rhs same
      have different : separator ≠ op := fun is => other lhs rhs (is ▸ same)
      simp [parts, same, different]
    · rfl
  | node op lhs rhs left right =>
    simp only [operands, List.forall_mem_append] at apart
    simp only [toExpr, Lower.separated, parts, left apart.1, right apart.2]
    by_cases same : op = separator
    · simp [same]
    · simp [same, Ne.symm same, toExpr]

end OperatorTree

namespace Chain

section Trees

variable {t : OperatorTable} (separates : t.Separates separator)

theorem partsAdmissible {tree part : OperatorTree α} (ok : Admissible t tree)
    (member : part ∈ tree.parts separator) : Admissible t part := by
  induction tree with
  | operand x =>
    rw [List.mem_singleton.mp member]
    exact ok
  | node op lhs rhs left right =>
    simp only [OperatorTree.parts] at member
    split at member
    · obtain ⟨-, -, okl, okr⟩ := ok
      rcases List.mem_append.mp member with inside | inside
      · exact left okl inside
      · exact right okr inside
    · rw [List.mem_singleton.mp member]
      exact ok

include separates

theorem neverLeft {op : Operator} (known : t.Binary op) (other : op ≠ separator) :
    ¬ TakesLeft t separator op := by
  simp [TakesLeft, (separates.tighter op known other).2]

theorem neverRight {op : Operator} (known : t.Binary op) (other : op ≠ separator) :
    ¬ TakesRight t op separator := by
  simp [TakesRight, (separates.tighter op known other).1]

theorem tightFree {tree : OperatorTree α} (known : ∀ q ∈ tree.operators, t.Binary q) (ok : Admissible t tree)
    (other : tree.root ≠ some separator) : separator ∉ tree.operators := by
  induction tree with
  | operand x => simp [OperatorTree.operators]
  | node op lhs rhs left right =>
    have different : op ≠ separator := fun same => other (congrArg some same)
    simp only [OperatorTree.operators, List.forall_mem_append, List.forall_mem_cons] at known
    obtain ⟨knownLeft, here, knownRight⟩ := known
    obtain ⟨before, behind, okl, okr⟩ := ok
    have inLeft := left knownLeft okl fun top =>
      neverLeft separates here different (before _ (OperatorTree.rootEdges top).2)
    have inRight := right knownRight okr fun top =>
      neverRight separates here different (behind _ (OperatorTree.rootEdges top).1)
    simp [OperatorTree.operators, inLeft, inRight, Ne.symm different]

theorem segmentsParts {tree : OperatorTree α} (known : ∀ q ∈ tree.operators, t.Binary q)
    (ok : Admissible t tree) :
    segments separator tree.operands tree.operators = (tree.parts separator).map OperatorTree.chain := by
  induction tree with
  | operand x => rfl
  | node op lhs rhs left right =>
    by_cases same : op = separator
    · subst same
      simp only [OperatorTree.operators, List.forall_mem_append, List.forall_mem_cons] at known
      obtain ⟨knownLeft, -, knownRight⟩ := known
      obtain ⟨-, -, okl, okr⟩ := ok
      simp only [OperatorTree.operands, OperatorTree.operators, OperatorTree.parts, if_true, List.map_append]
      rw [segmentsAppend lhs.chainLength, left knownLeft okl, right knownRight okr]
    · have free := tightFree separates known ok fun top => same (Option.some.inj top)
      rw [segmentsWhole free]
      simp [OperatorTree.parts, same, OperatorTree.chain]

theorem takesBefore {q : Operator} (known : t.Binary q) (chained : q = separator → separator.assoc = .left) :
    TakesLeft t q separator := by
  by_cases same : q = separator
  · exact .inr ⟨by simp [OperatorTable.precedence, same], chained same⟩
  · exact .inl (separates.tighter q known same).1

theorem takesBehind {q : Operator} (known : t.Binary q) (chained : q = separator → separator.assoc = .right) :
    TakesRight t separator q := by
  by_cases same : q = separator
  · exact .inr ⟨by simp [OperatorTable.precedence, same], same ▸ chained same⟩
  · exact .inl (separates.tighter q known same).2

structure Sound (t : OperatorTable) (tree : OperatorTree α) : Prop where
  known : ∀ q ∈ tree.operators, t.Binary q
  admissible : Admissible t tree

theorem soundSeparated {lhs rhs : OperatorTree α} (left : Sound t lhs) (right : Sound t rhs)
    (before : separator ∈ lhs.operators → separator.assoc = .left)
    (behind : separator ∈ rhs.operators → separator.assoc = .right) : Sound t (.node separator lhs rhs) where
  known := by
    simp only [OperatorTree.operators, List.forall_mem_append, List.forall_mem_cons]
    exact ⟨left.known, separates.binary, right.known⟩
  admissible := by
    refine ⟨fun q member => ?_, fun q member => ?_, left.admissible, right.admissible⟩
    · have inside := (OperatorTree.spinesInside lhs).1 q member
      exact takesBefore separates (left.known q inside) fun same => before (same ▸ inside)
    · have inside := (OperatorTree.spinesInside rhs).2 q member
      exact takesBehind separates (right.known q inside) fun same => behind (same ▸ inside)

def Joined (t : OperatorTable) (separator : Operator) (trees : List (OperatorTree α)) : Prop :=
  ∃ whole, Sound t whole ∧ whole.operands = trees.flatMap OperatorTree.operands ∧
    whole.operators = [separator].intercalate (trees.map OperatorTree.operators)

theorem joinedRight (chained : separator.assoc = .right) {first : OperatorTree α}
    {rest : List (OperatorTree α)} (sound : ∀ tree ∈ first :: rest, Sound t tree)
    (free : ∀ tree ∈ first :: rest, separator ∉ tree.operators) : Joined t separator (first :: rest) := by
  induction rest generalizing first with
  | nil => exact ⟨first, sound first List.mem_cons_self, by simp, by simp⟩
  | cons next rest ih =>
    obtain ⟨here, later⟩ := List.forall_mem_cons.mp sound
    obtain ⟨freeHere, freeLater⟩ := List.forall_mem_cons.mp free
    obtain ⟨others, joined, operands, operators⟩ := ih later freeLater
    refine ⟨.node separator first others, ?_, ?_, ?_⟩
    · exact soundSeparated separates here joined (fun member => absurd member freeHere) fun _ => chained
    · simp only [OperatorTree.operands, operands, List.flatMap_cons]
    · simp only [OperatorTree.operators, operators, List.map_cons, List.intercalate_cons_cons,
        List.append_assoc, List.singleton_append]

theorem joinedLeft (chained : separator.assoc = .left) {tree : OperatorTree α} {rest : List (OperatorTree α)}
    (begun : Sound t tree) (sound : ∀ next ∈ rest, Sound t next)
    (free : ∀ next ∈ rest, separator ∉ next.operators) : Joined t separator (tree :: rest) := by
  induction rest generalizing tree with
  | nil => exact ⟨tree, begun, by simp, by simp⟩
  | cons next rest ih =>
    obtain ⟨here, later⟩ := List.forall_mem_cons.mp sound
    obtain ⟨freeHere, freeLater⟩ := List.forall_mem_cons.mp free
    have onto := soundSeparated separates begun here (fun _ => chained) fun member => absurd member freeHere
    obtain ⟨whole, joined, operands, operators⟩ := ih onto later freeLater
    refine ⟨whole, joined, ?_, ?_⟩
    · rw [operands]
      simp only [List.flatMap_cons, OperatorTree.operands, List.append_assoc]
    · rw [operators]
      cases rest <;> simp [OperatorTree.operators]

omit separates in
theorem standTrees {parts : List (List α × List Operator)}
    (each : ∀ part ∈ parts, ∃ tree, Stands t part.1 part.2 tree) :
    ∃ trees : List (OperatorTree α), trees.map OperatorTree.chain = parts ∧
      ∀ tree ∈ trees, Admissible t tree := by
  induction parts with
  | nil => exact ⟨[], rfl, by simp⟩
  | cons part parts ih =>
    obtain ⟨⟨tree, operands, operators, ok⟩, later⟩ := List.forall_mem_cons.mp each
    obtain ⟨trees, same, others⟩ := ih later
    refine ⟨tree :: trees, ?_, List.forall_mem_cons.mpr ⟨ok, others⟩⟩
    rw [List.map_cons, same, OperatorTree.chain, operands, operators]

theorem segmentsStand {operands : List α} {ops : List Operator} (known : ∀ op ∈ ops, t.Binary op)
    (each : ∀ part ∈ segments separator operands ops, ∃ tree, Stands t part.1 part.2 tree) :
    ∃ tree, Stands t operands ops tree := by
  obtain ⟨trees, same, admissible⟩ := standTrees each
  obtain ⟨before, between⟩ := segmentsJoined separator operands ops
  have inside : ∀ tree ∈ trees, ∀ q ∈ tree.operators, q ∈ ops ∧ q ≠ separator := fun tree member =>
    segmentsOperators (same ▸ List.mem_map_of_mem member : tree.chain ∈ segments separator operands ops)
  have sound : ∀ tree ∈ trees, Sound t tree := fun tree member =>
    ⟨fun q which => known q (inside tree member q which).1, admissible tree member⟩
  have free : ∀ tree ∈ trees, separator ∉ tree.operators := fun tree member which =>
    (inside tree member separator which).2 rfl
  have joined : Joined t separator trees := by
    cases trees with
    | nil =>
      obtain ⟨first, later, found⟩ := segmentsBegin separator operands ops
      cases same.trans found
    | cons first rest =>
      cases chained : separator.assoc with
      | nonAssoc => exact absurd chained separates.chained
      | right => exact joinedRight separates chained sound free
      | left =>
        obtain ⟨begun, later⟩ := List.forall_mem_cons.mp sound
        exact joinedLeft separates chained begun later (List.forall_mem_cons.mp free).2
  obtain ⟨tree, whole, operandsSame, operatorsSame⟩ := joined
  refine ⟨tree, ?_, ?_, whole.admissible⟩
  · rw [operandsSame, ← before, ← same, List.flatMap_map]
    rfl
  · rw [operatorsSame, ← between, ← same, List.map_map]
    rfl

end Trees

end Chain

/-- What the separators part in the tree of a chain are the trees of the parts of the chain, and where every part
has a tree the whole chain has one, if that is not too high. -/
theorem separatorParts {t : OperatorTable} {separator : Operator} (separates : t.Separates separator)
    {operands : List Expr} {ops : List Operator} (known : ∀ op ∈ ops, t.Binary op)
    (apart : ∀ x ∈ operands, ∀ lhs rhs, x ≠ .binary separator lhs rhs) :
    (∀ e, reassociate t operands ops = .ok e →
      traverse (fun part => reassociate t part.1 part.2) (Chain.segments separator operands ops) =
        .ok (Lower.separated (some separator) e)) ∧
    ((∀ part ∈ Chain.segments separator operands ops, ∃ e, reassociate t part.1 part.2 = .ok e) →
      (∃ e, reassociate t operands ops = .ok e) ∨
        reassociate t operands ops = .error (.tooDeep maxNesting)) := by
  constructor
  · intro e found
    obtain ⟨tree, stands, low, rfl⟩ := (Chain.verdictOk (Chain.verdict t operands ops) e).mp found
    obtain ⟨rfl, rfl, ok⟩ := stands
    rw [Chain.segmentsParts separates known ok, OperatorTree.separatedParts apart]
    refine traverseMap fun part member => ?_
    have inner := Chain.partsAdmissible ok member
    have lower := Nat.le_trans (OperatorTree.partsHeight member) low
    exact (Chain.verdictOk (Chain.verdict _ _ _) _).mpr ⟨part, ⟨rfl, rfl, inner⟩, lower, rfl⟩
  · intro each
    have stand : ∀ part ∈ Chain.segments separator operands ops,
        ∃ tree, Chain.Stands t part.1 part.2 tree := by
      intro part member
      obtain ⟨e, found⟩ := each part member
      obtain ⟨tree, stands, -⟩ := (Chain.verdictOk (Chain.verdict _ _ _) e).mp found
      exact ⟨tree, stands⟩
    obtain ⟨tree, whole⟩ := Chain.segmentsStand separates known stand
    by_cases low : tree.height ≤ maxNesting
    · exact .inl ⟨_, (Chain.verdictOk (Chain.verdict _ _ _) _).mpr ⟨tree, whole, low, rfl⟩⟩
    · exact .inr ((Chain.verdictTooDeep (Chain.verdict _ _ _)).mpr ⟨tree, whole, Nat.lt_of_not_le low⟩)

theorem commaSeparates : standardOperators.Separates ⟨12, "comma", ",", .infixOp, .right, none⟩ where
  binary := by
    unfold OperatorTable.Binary
    decide
  chained := by decide
  tighter := by
    have checked : ∀ op ∈ standardOperators.operators, op.category = .infixOp →
        op ≠ ⟨12, "comma", ",", .infixOp, .right, none⟩ →
        standardOperators.precedence op.id 12 = .higher ∧ standardOperators.precedence 12 op.id = .lower := by
      decide +kernel
    exact fun op known => checked op known.1 known.2

theorem threeArgumentsParted :
    let comma : Operator := ⟨12, "comma", ",", .infixOp, .right, none⟩
    let plus : Operator := ⟨2, "plus", "+", .infixOp, .left, none⟩
    let mul : Operator := ⟨0, "mul", "*", .infixOp, .left, none⟩
    let operands := ["a", "b", "c", "d", "e"].map Expr.ident
    let ops := [plus, comma, comma, mul]
    standardOperators.Separates comma ∧ (∀ op ∈ ops, standardOperators.Binary op) ∧
      (∀ x ∈ operands, ∀ lhs rhs, x ≠ .binary comma lhs rhs) ∧
      Chain.segments comma operands ops =
        [([.ident "a", .ident "b"], [plus]), ([.ident "c"], []), ([.ident "d", .ident "e"], [mul])] ∧
      ∃ e, reassociate standardOperators operands ops = .ok e ∧
        traverse (fun part => reassociate standardOperators part.1 part.2) (Chain.segments comma operands ops) =
          .ok (Lower.separated (some comma) e) := by
  intro comma plus mul operands ops
  have known : ∀ op ∈ ops, standardOperators.Binary op := by
    have listed : ∀ op ∈ ops, op ∈ standardOperators.operators ∧ op.category = .infixOp := by decide
    exact listed
  have apart : ∀ x ∈ operands, ∀ lhs rhs, x ≠ .binary comma lhs rhs := by simp [operands]
  have parted := separatorParts commaSeparates known apart
  have found : ∃ e, reassociate standardOperators operands ops = .ok e := ⟨_, rfl⟩
  obtain ⟨e, same⟩ := found
  exact ⟨commaSeparates, known, apart, rfl, e, same, parted.1 e same⟩

end Parlance
