import Mathlib.Data.List.Perm.Basic
import Parlance.Proofs.Operator.Built
import Parlance.Proofs.Operator.Declared

/-! What a configuration declares. It is a table exactly if no name is declared twice and the relations hold declared
names only. The table lists the operators and then the pairs, and it is the one that a run of calls makes, so the order
of the relations makes no difference. Anything else is an error that names the first name that is declared again, or
if there is none the first name in the relations that is not declared. -/
namespace Parlance

theorem Relation.sameHolds {r s : Relation} (same : ∀ a b, r.holds a b = true ↔ s.holds a b = true) : r = s := by
  obtain ⟨ps, ascending⟩ := r
  obtain ⟨qs, ascending'⟩ := s
  have apart : ∀ {p q}, Before p q → p ≠ q := by
    rintro p q before rfl
    unfold Before at before
    omega
  have members : ∀ p, p ∈ ps ↔ p ∈ qs := fun p => by simpa [holds] using same p.1 p.2
  have moved : ps.Perm qs := (List.perm_ext_iff_of_nodup (ascending.imp apart) (ascending'.imp apart)).mpr members
  have equal : ps = qs := moved.eq_of_pairwise (fun p q _ _ before after => by
    unfold Before at before after
    omega) ascending ascending'
  subst equal
  rfl

def OperatorEntry.toOperator (id : Nat) (entry : OperatorEntry) : Operator :=
  match entry.category with
  | .infixOp => ⟨id, entry.name, entry.symbol, .infixOp, entry.assoc.getD .left, none⟩
  | .prefixOp => ⟨id, entry.name, entry.symbol, .prefixOp, .right, none⟩

def EncloserEntry.opener (id : Nat) (pair : EncloserEntry) : Operator :=
  ⟨id, pair.opening.name, pair.opening.symbol, .opener, .nonAssoc, some (id + 1)⟩

def EncloserEntry.closer (id : Nat) (pair : EncloserEntry) : Operator :=
  ⟨id + 1, pair.closing.name, pair.closing.symbol, .closer, .nonAssoc, some id⟩

namespace OperatorConfig

open OperatorTable (Call ofCalls apply Repeats SameMembers)

def entriesFrom (start : Nat) : List OperatorEntry → List Operator
  | [] => []
  | entry :: entries => entry.toOperator start :: entriesFrom (start + 1) entries

def pairsFrom (start : Nat) : List EncloserEntry → List Operator
  | [] => []
  | pair :: pairs => pair.opener start :: pair.closer start :: pairsFrom (start + 2) pairs

def listed (c : OperatorConfig) : List Operator :=
  entriesFrom 0 c.operators ++ pairsFrom c.operators.length c.enclosers

def references (c : OperatorConfig) : List String :=
  c.equal.flatten ++ c.greater.flatMap fun entry => entry.group ++ entry.than

def openings (c : OperatorConfig) : List String := c.enclosers.map fun pair => pair.opening.name

def FirstUnknown (c : OperatorConfig) (name : String) : Prop :=
  ∃ before after, c.references = before ++ name :: after ∧ name ∉ c.names ∧ ∀ other ∈ before, other ∈ c.names

def Rearranged {α : Type} (R : α → α → Prop) (as bs : List α) : Prop :=
  ∃ moved, as.Perm moved ∧ List.Forall₂ R moved bs

/-- The same configuration but for the order of its relations and the order of names in them. -/
structure Reordered (c d : OperatorConfig) : Prop where
  operators : d.operators = c.operators
  enclosers : d.enclosers = c.enclosers
  equal : Rearranged List.Perm c.equal d.equal
  greater : Rearranged (fun e f => e.group.Perm f.group ∧ e.than.Perm f.than) c.greater d.greater

def position (c : OperatorConfig) (name : String) : Nat := c.names.idxOf name

def entryCall (entry : OperatorEntry) : Call :=
  match entry.category with
  | .infixOp => .addInfix entry.name entry.symbol (entry.assoc.getD .left)
  | .prefixOp => .addPrefix entry.name entry.symbol

def pairCall (pair : EncloserEntry) : Call :=
  .addEncloser pair.opening.name pair.opening.symbol pair.closing.name pair.closing.symbol

def equalCall (c : OperatorConfig) (group : List String) : Call := .makeEqual (group.map c.position)

def greaterCall (c : OperatorConfig) (entry : GreaterEntry) : Call :=
  .makeGreater (entry.group.map c.position) (entry.than.map c.position)

def additions (c : OperatorConfig) : List Call := c.operators.map entryCall ++ c.enclosers.map pairCall

def relations (c : OperatorConfig) : List Call := c.equal.map c.equalCall ++ c.greater.map c.greaterCall

def calls (c : OperatorConfig) : List Call := c.additions ++ c.relations

section Listed

variable {c : OperatorConfig} {t : OperatorTable}

theorem addEntryCall (t : OperatorTable) (entry : OperatorEntry) : addEntry t entry = t.apply (entryCall entry) := by
  unfold addEntry entryCall
  cases entry.category <;> rfl

theorem unrelatedCalls (c : OperatorConfig) : c.unrelated = ofCalls c.additions := by
  unfold unrelated ofCalls additions
  rw [List.foldl_append, List.foldl_map, List.foldl_map]
  have entries : addEntry = fun t entry => t.apply (entryCall entry) := funext fun t => funext (addEntryCall t)
  rw [entries]
  rfl

theorem entriesAdded (entries : List OperatorEntry) (t : OperatorTable) :
    (entries.foldl addEntry t).operators = t.operators ++ entriesFrom t.size entries := by
  induction entries generalizing t with
  | nil => simp [entriesFrom]
  | cons entry entries ih =>
    have added : (addEntry t entry).operators = t.operators ++ [entry.toOperator t.size] := by
      unfold addEntry OperatorEntry.toOperator
      cases entry.category <;> rfl
    have grown : (addEntry t entry).size = t.size + 1 := by simp [OperatorTable.size, added]
    rw [List.foldl_cons, ih, added, grown, List.append_assoc]
    rfl

theorem pairsAdded (pairs : List EncloserEntry) (t : OperatorTable) :
    (pairs.foldl addPair t).operators = t.operators ++ pairsFrom t.size pairs := by
  induction pairs generalizing t with
  | nil => simp [pairsFrom]
  | cons pair pairs ih =>
    have added : (addPair t pair).operators = t.operators ++ [pair.opener t.size, pair.closer t.size] := rfl
    have grown : (addPair t pair).size = t.size + 2 := by simp [OperatorTable.size, added]
    rw [List.foldl_cons, ih, added, grown, List.append_assoc]
    rfl

theorem entriesLength (start : Nat) (entries : List OperatorEntry) :
    (entriesFrom start entries).length = entries.length := by
  induction entries generalizing start with
  | nil => rfl
  | cons entry entries ih => simp [entriesFrom, ih]

theorem unrelatedListed (c : OperatorConfig) : c.unrelated.operators = c.listed := by
  have entries := entriesAdded c.operators .empty
  have size : (c.operators.foldl addEntry .empty).size = c.operators.length := by
    unfold OperatorTable.size
    rw [entries]
    exact entriesLength _ _
  unfold unrelated
  rw [pairsAdded, entries, size]
  rfl

theorem entriesNames (start : Nat) (entries : List OperatorEntry) :
    (entriesFrom start entries).map Operator.name = entries.map OperatorEntry.name := by
  induction entries generalizing start with
  | nil => rfl
  | cons entry entries ih =>
    have here : (entry.toOperator start).name = entry.name := by
      unfold OperatorEntry.toOperator
      cases entry.category <;> rfl
    simp [entriesFrom, ih, here]

theorem pairsNames (start : Nat) (pairs : List EncloserEntry) : (pairsFrom start pairs).map Operator.name =
    pairs.flatMap fun pair => [pair.opening.name, pair.closing.name] := by
  induction pairs generalizing start with
  | nil => rfl
  | cons pair pairs ih => simp [pairsFrom, ih, EncloserEntry.opener, EncloserEntry.closer]

theorem listedNames (c : OperatorConfig) : c.listed.map Operator.name = c.names := by
  unfold listed names
  rw [List.map_append, entriesNames, pairsNames]

theorem listedNumbered {i : Nat} {op : Operator} (found : c.listed[i]? = some op) : op.id = i := by
  rw [← unrelatedListed] at found
  exact (OperatorTable.builtFormed (unrelatedBuilt c)).numbered i op found

theorem foundNamed (same : t.operators = c.listed) {name : String} (declared : name ∈ c.names) :
    ∃ op, t.byName? name = some op ∧ op.id = c.position name := by
  rw [← listedNames] at declared
  obtain ⟨known, member, rfl⟩ := List.mem_map.mp declared
  obtain ⟨op, found⟩ := Option.isSome_iff_exists.mp
    (List.find?_isSome.mpr ⟨known, same ▸ member, by simp⟩ : (t.byName? known.name).isSome)
  refine ⟨op, found, ?_⟩
  obtain ⟨named, before, after, split, passed⟩ := List.find?_eq_some_iff_append.mp found
  have place : c.listed[before.length]? = some op := by
    rw [← same, split, List.getElem?_append_right (Nat.le_refl _)]
    simp
  have unseen : known.name ∉ before.map Operator.name := by
    intro inside
    obtain ⟨other, earlier, again⟩ := List.mem_map.mp inside
    simpa [again] using passed other earlier
  rw [listedNumbered place, position, ← listedNames, ← same, split, List.map_append,
    List.idxOf_append_of_notMem unseen, List.map_cons, beq_iff_eq.mp named, List.idxOf_cons_self, List.length_map]
  rfl

theorem notFound (same : t.operators = c.listed) {name : String} (unknown : name ∉ c.names) :
    t.byName? name = none := by
  refine List.find?_eq_none.mpr fun op member named => unknown ?_
  rw [same] at member
  rw [← listedNames, ← beq_iff_eq.mp named]
  exact List.mem_map_of_mem member

theorem resolvedKnown (same : t.operators = c.listed) {name : String} (declared : name ∈ c.names) :
    resolveName t name = .ok (c.position name) := by
  obtain ⟨op, found, id⟩ := foundNamed same declared
  unfold resolveName
  rw [found, ← id]

theorem resolvedUnknown (same : t.operators = c.listed) {name : String} (unknown : name ∉ c.names) :
    resolveName t name = .error (.unknownOperator name) := by
  unfold resolveName
  rw [notFound same unknown]

end Listed

section Relations

variable {c : OperatorConfig} {t u : OperatorTable}

theorem resolvedPositions (same : t.operators = c.listed) {names : List String} {ids : List Nat}
    (h : traverse (resolveName t) names = .ok ids) : ids = names.map c.position := by
  have each : ∀ name id, resolveName t name = .ok id → id = c.position name := by
    intro name id resolved
    by_cases declared : name ∈ c.names
    · cases (resolvedKnown same declared).symm.trans resolved
      rfl
    · cases (resolvedUnknown same declared).symm.trans resolved
  simpa using traverseMapped each h

theorem relateEqualCalls {groups : List (List String)} (same : t.operators = c.listed)
    (h : relateEqual groups t = .ok u) : u = (groups.map c.equalCall).foldl apply t := by
  induction groups generalizing t with
  | nil =>
    cases h
    rfl
  | cons group groups ih =>
    obtain ⟨ids, resolved, last⟩ := bindOk h
    cases resolvedPositions same resolved
    exact ih same last

theorem relateGreaterCalls {entries : List GreaterEntry} (same : t.operators = c.listed)
    (h : relateGreater entries t = .ok u) : u = (entries.map c.greaterCall).foldl apply t := by
  induction entries generalizing t with
  | nil =>
    cases h
    rfl
  | cons entry entries ih =>
    obtain ⟨group, first, last⟩ := bindOk h
    obtain ⟨than, second, last⟩ := bindOk last
    cases resolvedPositions same first
    cases resolvedPositions same second
    exact ih same last

theorem relatingKeeps {α : Type} (call : α → Call) (relates : ∀ a u, (apply u (call a)).operators = u.operators)
    (as : List α) (t : OperatorTable) : ((as.map call).foldl apply t).operators = t.operators := by
  rw [List.foldl_map]
  exact List.foldlRecOn (motive := fun u : OperatorTable => u.operators = t.operators) as _ rfl
    fun u kept a _ => (relates a u).trans kept

theorem equalKeeps (c : OperatorConfig) (t : OperatorTable) :
    ((c.equal.map c.equalCall).foldl apply t).operators = t.operators :=
  relatingKeeps c.equalCall (fun _ _ => rfl) c.equal t

theorem tableOperators (c : OperatorConfig) : (ofCalls c.calls).operators = c.listed := by
  unfold calls relations ofCalls
  rw [List.foldl_append, List.foldl_append, relatingKeeps c.greaterCall (fun _ _ => rfl), equalKeeps]
  exact (congrArg OperatorTable.operators (unrelatedCalls c)).symm.trans (unrelatedListed c)

theorem tableCalls (h : c.toTable = .ok t) : c.names.Nodup ∧ t = ofCalls c.calls := by
  unfold toTable at h
  split at h
  · contradiction
  · rename_i once
    refine ⟨firstRepeatedNone once, ?_⟩
    obtain ⟨related, first, last⟩ := bindOk h
    have equal := relateEqualCalls (unrelatedListed c) first
    have kept : related.operators = c.listed := by rw [equal, equalKeeps, unrelatedListed]
    rw [relateGreaterCalls kept last, equal, unrelatedCalls]
    unfold calls relations ofCalls
    rw [List.foldl_append, List.foldl_append]

theorem namesBlame (same : t.operators = c.listed) (names : List String) :
    Blames (fun name => decide (name ∉ c.names)) ConfigError.unknownOperator names
      (traverse (resolveName t) names) := by
  have each : ∀ name, Blames (fun name => decide (name ∉ c.names)) ConfigError.unknownOperator [name]
      (resolveName t name) := by
    intro name
    by_cases declared : name ∈ c.names
    · rw [resolvedKnown same declared]
      simp [Blames, declared]
    · rw [resolvedUnknown same declared]
      simp [Blames, declared]
  simpa using blamesTraverse fun name (_ : name ∈ names) => each name

theorem equalBlames (same : t.operators = c.listed) (groups : List (List String)) :
    Blames (fun name => decide (name ∉ c.names)) ConfigError.unknownOperator groups.flatten
      (relateEqual groups t) := by
  induction groups generalizing t with
  | nil => rfl
  | cons group groups ih => exact blamesBind (namesBlame same group) fun ids _ => ih same

theorem greaterBlames (same : t.operators = c.listed) (entries : List GreaterEntry) :
    Blames (fun name => decide (name ∉ c.names)) ConfigError.unknownOperator
      (entries.flatMap fun entry => entry.group ++ entry.than) (relateGreater entries t) := by
  induction entries generalizing t with
  | nil => rfl
  | cons entry entries ih =>
    rw [List.flatMap_cons, List.append_assoc]
    exact blamesBind (namesBlame same entry.group) fun group _ =>
      blamesBind (namesBlame same entry.than) fun than _ => ih same

theorem relationsBlame (c : OperatorConfig) :
    Blames (fun name => decide (name ∉ c.names)) ConfigError.unknownOperator c.references
      (relateEqual c.equal c.unrelated >>= relateGreater c.greater) := by
  refine blamesBind (equalBlames (unrelatedListed c) c.equal) fun related first => greaterBlames ?_ c.greater
  rw [relateEqualCalls (unrelatedListed c) first, equalKeeps, unrelatedListed]

end Relations

section Reordered

variable {c d : OperatorConfig}

theorem rearrangedMember {α : Type} {R : α → α → Prop} {as bs : List α} (h : Rearranged R as bs) {a : α}
    (member : a ∈ as) : ∃ b ∈ bs, R a b := by
  obtain ⟨moved, permuted, related⟩ := h
  obtain ⟨i, inside, rfl⟩ := List.getElem_of_mem (permuted.mem_iff.mp member)
  obtain ⟨length, each⟩ := List.forall₂_iff_get.mp related
  exact ⟨_, List.getElem_mem (length ▸ inside), each i inside (length ▸ inside)⟩

theorem rearrangedSymm {α : Type} {R : α → α → Prop} (symmetric : ∀ a b, R a b → R b a) {as bs : List α}
    (h : Rearranged R as bs) : Rearranged R bs as := by
  obtain ⟨moved, permuted, related⟩ := h
  have back : List.Forall₂ R bs moved := related.flip.imp fun b a same => symmetric a b same
  have commute := congrFun₂ (List.forall₂_comp_perm_eq_perm_comp_forall₂ (r := R)) bs as
  exact commute.mp ⟨moved, back, permuted.symm⟩

theorem reorderedSymm (h : Reordered c d) : Reordered d c where
  operators := h.operators.symm
  enclosers := h.enclosers.symm
  equal := rearrangedSymm (fun _ _ => List.Perm.symm) h.equal
  greater := rearrangedSymm (fun _ _ same => ⟨same.1.symm, same.2.symm⟩) h.greater

theorem reorderedNames (h : Reordered c d) : d.names = c.names := by
  unfold names
  rw [h.operators, h.enclosers]

theorem referenceFrom {name : String} : name ∈ c.references ↔
    (∃ group ∈ c.equal, name ∈ group) ∨ ∃ entry ∈ c.greater, name ∈ entry.group ∨ name ∈ entry.than := by
  simp [references]

theorem reorderedReferences (h : Reordered c d) {name : String} (member : name ∈ c.references) :
    name ∈ d.references := by
  rcases referenceFrom.mp member with ⟨group, listed, inside⟩ | ⟨entry, listed, inside⟩
  · obtain ⟨group', listed', same⟩ := rearrangedMember h.equal listed
    exact referenceFrom.mpr (.inl ⟨group', listed', same.mem_iff.mp inside⟩)
  · obtain ⟨entry', listed', same, same'⟩ := rearrangedMember h.greater listed
    exact referenceFrom.mpr (.inr ⟨entry', listed', inside.imp same.mem_iff.mp same'.mem_iff.mp⟩)

theorem additionsRelateNone {call : Call} (added : call ∈ c.additions) :
    (∀ ids, call ≠ .makeEqual ids) ∧ ∀ above below, call ≠ .makeGreater above below := by
  rcases List.mem_append.mp added with single | double
  · obtain ⟨entry, -, rfl⟩ := List.mem_map.mp single
    unfold entryCall
    cases entry.category <;> exact ⟨nofun, nofun⟩
  · obtain ⟨pair, -, rfl⟩ := List.mem_map.mp double
    exact ⟨nofun, nofun⟩

theorem equalDeclared {ids : List Nat} :
    Call.makeEqual ids ∈ c.calls ↔ ∃ group ∈ c.equal, group.map c.position = ids := by
  have added : Call.makeEqual ids ∉ c.additions := fun inside => (additionsRelateNone inside).1 ids rfl
  simp [calls, added, relations, equalCall, greaterCall]

theorem greaterDeclared {above below : List Nat} : Call.makeGreater above below ∈ c.calls ↔
    ∃ entry ∈ c.greater, entry.group.map c.position = above ∧ entry.than.map c.position = below := by
  have added : Call.makeGreater above below ∉ c.additions := fun inside =>
    (additionsRelateNone inside).2 above below rfl
  simp [calls, added, relations, equalCall, greaterCall]

theorem reorderedRepeats (h : Reordered c d) : Repeats c.calls d.calls := by
  have positions : d.position = c.position := by
    funext name
    unfold position
    rw [reorderedNames h]
  have sameMembers : ∀ {names others : List String}, names.Perm others →
      SameMembers (names.map c.position) (others.map d.position) := fun same id => by
    rw [positions]
    exact (same.map _).mem_iff
  refine ⟨fun ids declared => ?_, fun above below declared => ?_⟩
  · obtain ⟨group, listed, rfl⟩ := equalDeclared.mp declared
    obtain ⟨group', listed', same⟩ := rearrangedMember h.equal listed
    exact ⟨_, equalDeclared.mpr ⟨group', listed', rfl⟩, sameMembers same⟩
  · obtain ⟨entry, listed, rfl, rfl⟩ := greaterDeclared.mp declared
    obtain ⟨entry', listed', same, same'⟩ := rearrangedMember h.greater listed
    exact ⟨_, _, greaterDeclared.mpr ⟨entry', listed', rfl, rfl⟩, sameMembers same, sameMembers same'⟩

theorem reorderedCalls (h : Reordered c d) : ofCalls d.calls = ofCalls c.calls := by
  have there := reorderedRepeats h
  have back := reorderedRepeats (reorderedSymm h)
  have operators : (ofCalls d.calls).operators = (ofCalls c.calls).operators := by
    rw [tableOperators, tableOperators]
    unfold listed
    rw [h.operators, h.enclosers]
  have equal : (ofCalls d.calls).equal = (ofCalls c.calls).equal := Relation.sameHolds fun a b => by
    rw [OperatorTable.equalMade, OperatorTable.equalMade]
    exact ⟨OperatorTable.equalRepeated back, OperatorTable.equalRepeated there⟩
  have higher : (ofCalls d.calls).higher = (ofCalls c.calls).higher := Relation.sameHolds fun a b => by
    rw [OperatorTable.higherMade, OperatorTable.higherMade]
    exact ⟨OperatorTable.greaterRepeated back, OperatorTable.greaterRepeated there⟩
  generalize ofCalls d.calls = t at operators equal higher ⊢
  generalize ofCalls c.calls = u at operators equal higher ⊢
  cases t
  cases u
  cases operators
  cases equal
  cases higher
  rfl

end Reordered

/-- A table as a configuration declares it. -/
structure DeclaredAs (c : OperatorConfig) (t : OperatorTable) : Prop where
  operators : t.operators = c.listed
  named : ∀ i name, c.names[i]? = some name → ∃ op, t.byName? name = some op ∧ op.id = i ∧ t.get? i = some op

section Exact

variable {c : OperatorConfig} {t : OperatorTable}

theorem unknownFound {name : String} :
    c.references.find? (fun name => decide (name ∉ c.names)) = some name ↔ c.FirstUnknown name := by
  simp only [List.find?_eq_some_iff_append, FirstUnknown, decide_eq_true_eq]
  constructor
  · rintro ⟨unknown, before, after, split, passed⟩
    exact ⟨before, after, split, unknown, fun other member => by simpa using passed other member⟩
  · rintro ⟨before, after, split, unknown, passed⟩
    exact ⟨unknown, before, after, split, fun other member => by simpa using passed other member⟩

theorem unknownUnique {name other : String} (first : c.FirstUnknown name) (second : c.FirstUnknown other) :
    name = other :=
  Option.some.inj ((unknownFound.mpr first).symm.trans (unknownFound.mpr second))

theorem unknownReferenced {name : String} (unknown : c.FirstUnknown name) :
    ¬ ∀ name ∈ c.references, name ∈ c.names := by
  obtain ⟨before, after, split, undeclared, -⟩ := unknown
  exact fun known => undeclared (known name (split ▸ List.mem_append_right before List.mem_cons_self))

theorem tableOutcome (c : OperatorConfig) :
    (∃ name, FirstRepeat c.names name ∧ c.toTable = .error (.duplicateOperator name)) ∨
    c.names.Nodup ∧ ((∃ name, c.FirstUnknown name ∧ c.toTable = .error (.unknownOperator name)) ∨
      (∀ name ∈ c.references, name ∈ c.names) ∧ ∃ t, c.toTable = .ok t) := by
  have blamed := relationsBlame c
  unfold toTable
  split
  · rename_i name repeated
    exact .inl ⟨name, firstRepeatedSome.mp repeated, rfl⟩
  · rename_i unrepeated
    refine .inr ⟨firstRepeatedNone unrepeated, ?_⟩
    change (∃ name, _ ∧ (relateEqual c.equal c.unrelated >>= relateGreater c.greater) = _) ∨
      _ ∧ ∃ t, (relateEqual c.equal c.unrelated >>= relateGreater c.greater) = .ok t
    generalize relateEqual c.equal c.unrelated >>= relateGreater c.greater = made at blamed ⊢
    cases made with
    | ok t => exact .inr ⟨by simpa [Blames] using blamed, t, rfl⟩
    | error wrong =>
      obtain ⟨name, found, rfl⟩ := Option.map_eq_some_iff.mp blamed
      exact .inl ⟨name, unknownFound.mp found, rfl⟩

theorem tableFound (c : OperatorConfig) :
    (∃ t, c.toTable = .ok t) ↔ c.names.Nodup ∧ ∀ name ∈ c.references, name ∈ c.names := by
  rcases tableOutcome c with ⟨name, again, failed⟩ | ⟨once, ⟨name, unknown, failed⟩ | ⟨known, found⟩⟩
  · rw [failed]
    exact ⟨nofun, fun declared => absurd declared.1 (repeatedTwice again)⟩
  · rw [failed]
    exact ⟨nofun, fun declared => absurd declared.2 (unknownReferenced unknown)⟩
  · exact ⟨fun _ => ⟨once, known⟩, fun _ => found⟩

theorem tableError (e : ConfigError) : c.toTable = .error e ↔
    (∃ name, e = .duplicateOperator name ∧ FirstRepeat c.names name) ∨
      c.names.Nodup ∧ ∃ name, e = .unknownOperator name ∧ c.FirstUnknown name := by
  rcases tableOutcome c with ⟨name, again, failed⟩ | ⟨once, ⟨name, unknown, failed⟩ | ⟨known, t, made⟩⟩
  · rw [failed]
    constructor
    · rintro ⟨⟩
      exact .inl ⟨name, rfl, again⟩
    · rintro (⟨other, rfl, again'⟩ | ⟨once, -⟩)
      · rw [repeatUnique again again']
      · exact absurd once (repeatedTwice again)
  · rw [failed]
    constructor
    · rintro ⟨⟩
      exact .inr ⟨once, name, rfl, unknown⟩
    · rintro (⟨other, -, again⟩ | ⟨-, other, rfl, unknown'⟩)
      · exact absurd once (repeatedTwice again)
      · rw [unknownUnique unknown unknown']
  · rw [made]
    refine ⟨nofun, ?_⟩
    rintro (⟨name, -, again⟩ | ⟨-, name, -, unknown⟩)
    · exact absurd once (repeatedTwice again)
    · exact absurd known (unknownReferenced unknown)

theorem tableDeclared (h : c.toTable = .ok t) : DeclaredAs c t := by
  obtain ⟨once, rfl⟩ := tableCalls h
  have same := tableOperators c
  refine ⟨same, fun i name found => ?_⟩
  obtain ⟨inside, rfl⟩ := List.getElem?_eq_some_iff.mp found
  obtain ⟨op, named, id⟩ := foundNamed same (List.getElem_mem inside)
  have place : op.id = i := id.trans (once.idxOf_getElem i inside)
  obtain ⟨j, there⟩ := List.getElem?_of_mem (List.mem_of_find?_eq_some named)
  have number := listedNumbered (same ▸ there)
  exact ⟨op, named, place, place ▸ number ▸ there⟩

theorem reorderedTable {d : OperatorConfig} (h : Reordered c d) (made : c.toTable = .ok t) : d.toTable = .ok t := by
  obtain ⟨once, known⟩ := (tableFound c).mp ⟨t, made⟩
  have names := reorderedNames h
  obtain ⟨u, made'⟩ := (tableFound d).mpr ⟨names ▸ once, fun name member =>
    names ▸ known name (reorderedReferences (reorderedSymm h) member)⟩
  rw [made', (tableCalls made').2, (tableCalls made).2, reorderedCalls h]

end Exact

/-- A configuration is a table exactly if no name is declared twice and the relations hold declared names only. The
table lists what is declared in order, and the order of the relations makes no difference to it. An error tells of the
first name that is declared again, or else of the first name in the relations that is not declared. -/
theorem configExact (c : OperatorConfig) :
    ((∃ t, c.toTable = .ok t) ↔ c.names.Nodup ∧ ∀ name ∈ c.references, name ∈ c.names) ∧
    (∀ t, c.toTable = .ok t → DeclaredAs c t ∧ ∀ d, Reordered c d → d.toTable = .ok t) ∧
    ∀ e, c.toTable = .error e ↔ (∃ name, e = .duplicateOperator name ∧ FirstRepeat c.names name) ∨
      c.names.Nodup ∧ ∃ name, e = .unknownOperator name ∧ c.FirstUnknown name :=
  ⟨tableFound c, fun _ made => ⟨tableDeclared made, fun _ h => reorderedTable h made⟩, tableError⟩

def powers : OperatorConfig where
  operators := [⟨"plus", "+", .infixOp, none⟩, ⟨"minus", "-", .infixOp, some .left⟩,
    ⟨"pow", "^", .infixOp, some .right⟩, ⟨"neg", "-", .prefixOp, none⟩]
  enclosers := [⟨⟨"lparen", "("⟩, ⟨"rparen", ")"⟩⟩]
  equal := [["plus", "minus"], ["pow"]]
  greater := [⟨["pow", "neg"], ["plus", "minus"]⟩, ⟨["rparen"], ["pow", "neg"]⟩]

def powersTurned : OperatorConfig :=
  { powers with
    equal := [["pow"], ["minus", "plus"]]
    greater := [⟨["rparen"], ["neg", "pow"]⟩, ⟨["neg", "pow"], ["minus", "plus"]⟩] }

theorem powersDeclared : ∃ t, powers.toTable = .ok t ∧ powersTurned.toTable = .ok t ∧
    ∃ op, t.byName? "rparen" = some op ∧ op.id = 5 ∧ t.get? 5 = some op := by
  obtain ⟨t, made⟩ := (configExact powers).1.mpr ⟨by decide, by decide⟩
  obtain ⟨declared, reordered⟩ := (configExact powers).2.1 t made
  have turned : Reordered powers powersTurned :=
    ⟨rfl, rfl, ⟨[["pow"], ["plus", "minus"]], by decide, .cons (by decide) (.cons (by decide) .nil)⟩,
      ⟨[⟨["rparen"], ["pow", "neg"]⟩, ⟨["pow", "neg"], ["plus", "minus"]⟩], by decide,
        .cons (by decide) (.cons (by decide) .nil)⟩⟩
  exact ⟨t, made, reordered _ turned, declared.named 5 "rparen" rfl⟩

end OperatorConfig
end Parlance
