import Parlance.Operator.Config
import Parlance.Operator.Standard
import Parlance.Proofs.Sequence

/-! Tables that the operations on tables make. In such a table an operator is found at its id, and an opener
that has a partner has a closer for it, whatever was related to what. -/
namespace Parlance

namespace OperatorTable

inductive Built : OperatorTable → Prop where
  | empty : Built .empty
  | add {t} (built : Built t) (name symbol : String) (category : Category) (assoc : Associativity) :
      Built (t.add name symbol category assoc)
  | encloser {t} (built : Built t) (openName openSymbol closeName closeSymbol : String) :
      Built (t.addEncloser openName openSymbol closeName closeSymbol)
  | equal {t} (built : Built t) (group : List Nat) : Built (t.makeEqual group)
  | greater {t} (built : Built t) (group than : List Nat) : Built (t.makeGreater group than)

structure Formed (t : OperatorTable) : Prop where
  numbered : ∀ i op, t.get? i = some op → op.id = i
  closed : ∀ op ∈ t.operators, op.category = .opener → ∀ i, op.partner = some i →
    ∃ close, t.get? i = some close ∧ close.category = .closer

theorem formedAppend {t u : OperatorTable} {added : List Operator} (formed : t.Formed)
    (same : u.operators = t.operators ++ added)
    (numbered : ∀ i op, added[i]? = some op → op.id = t.size + i)
    (closed : ∀ op ∈ added, op.category = .opener → ∀ i, op.partner = some i →
      ∃ close, u.get? i = some close ∧ close.category = .closer) : u.Formed where
  numbered i op found := by
    unfold get? at found
    rw [same] at found
    by_cases before : i < t.operators.length
    · rw [List.getElem?_append_left before] at found
      exact formed.numbered i op found
    · rw [List.getElem?_append_right (Nat.le_of_not_lt before)] at found
      have id := numbered _ op found
      unfold size at id
      omega
  closed op member opener i partner := by
    rw [same] at member
    rcases List.mem_append.mp member with old | new
    · obtain ⟨close, found, closer⟩ := formed.closed op old opener i partner
      refine ⟨close, ?_, closer⟩
      unfold get? at found ⊢
      rw [same, List.getElem?_append_left (List.getElem?_eq_some_iff.mp found).1]
      exact found
    · exact closed op new opener i partner

theorem formedSame {t u : OperatorTable} (formed : t.Formed) (same : u.operators = t.operators) :
    u.Formed :=
  @formedAppend t u [] formed (by simp [same]) (by simp) (by simp)

theorem builtFormed {t : OperatorTable} (built : t.Built) : t.Formed := by
  induction built with
  | empty => exact ⟨fun i op found => by simp [get?, empty] at found, by simp [empty]⟩
  | add built name symbol category assoc ih =>
    refine formedAppend ih rfl (fun i op found => ?_) (by simp)
    cases i with
    | zero =>
      cases found
      rfl
    | succ i => simp at found
  | @encloser t built openName openSymbol closeName closeSymbol ih =>
    refine formedAppend ih rfl (fun i op found => ?_) fun op member opener i partner => ?_
    · match i with
      | 0 =>
        cases found
        rfl
      | 1 =>
        cases found
        rfl
      | i + 2 => simp at found
    · rcases List.mem_cons.mp member with rfl | member
      · cases partner
        refine ⟨⟨t.size + 1, closeName, closeSymbol, .closer, .nonAssoc, some t.size⟩, ?_, rfl⟩
        unfold get? addEncloser
        rw [List.getElem?_append_right (by unfold size; omega)]
        simp [size]
      · cases List.mem_singleton.mp member
        contradiction
  | equal built group ih => exact formedSame ih rfl
  | greater built group than ih => exact formedSame ih rfl

theorem standardBuilt : standardOperators.Built := by
  repeat
    first
      | exact .empty
      | apply Built.greater
      | apply Built.equal
      | apply Built.encloser
      | apply Built.add

def Binary (t : OperatorTable) (op : Operator) : Prop := op ∈ t.operators ∧ op.category = .infixOp

section Lookup

variable {t : OperatorTable} {symbol : String} {category : Category}

theorem listedFound (listed : symbol ∈ t.symbols category) :
    ∃ op ∈ t.operators, op.symbol = symbol ∧ op.category = category ∧ t.find? symbol category = some op := by
  obtain ⟨known, member, rfl⟩ := List.mem_map.mp listed
  obtain ⟨inside, kind⟩ := List.mem_filter.mp member
  obtain ⟨op, found⟩ := Option.isSome_iff_exists.mp
    (List.find?_isSome.mpr ⟨known, inside, by simpa using kind⟩ : (t.find? known.symbol category).isSome)
  have accepted := List.find?_some found
  simp only [Bool.and_eq_true, beq_iff_eq] at accepted
  exact ⟨op, List.mem_of_find?_eq_some found, accepted.1, accepted.2, found⟩

theorem memberListed {op : Operator} (member : op ∈ t.operators) :
    op.symbol ∈ t.symbols op.category :=
  List.mem_map_of_mem (List.mem_filter.mpr ⟨member, beq_self_eq_true _⟩)

theorem enclosersListed (formed : t.Formed) {pair : Operator × Operator} (listed : pair ∈ t.enclosers) :
    pair.1.symbol ∈ t.symbols .opener ∧ pair.2.symbol ∈ t.symbols .closer := by
  obtain ⟨op, member, found⟩ := List.mem_filterMap.mp listed
  obtain ⟨close, closing, rfl⟩ := Option.map_eq_some_iff.mp found
  unfold closing? at closing
  split at closing
  · rename_i id opener partner
    obtain ⟨other, same, closer⟩ := formed.closed op member opener id partner
    cases same.symm.trans closing
    refine ⟨opener ▸ memberListed member, closer ▸ memberListed ?_⟩
    exact List.mem_of_getElem? same
  · contradiction

theorem closingFound (formed : t.Formed) {op close : Operator} (opener : op.category = .opener)
    (member : close ∈ t.operators) (partner : op.partner = some close.id) :
    t.closing? op = some close := by
  obtain ⟨i, inside⟩ := List.getElem?_of_mem member
  have id := formed.numbered i close inside
  unfold closing?
  rw [opener, partner, id]
  exact inside

end Lookup

end OperatorTable

namespace OperatorConfig

open OperatorTable (Built)

theorem unrelatedBuilt (c : OperatorConfig) : c.unrelated.Built := by
  have entries : (c.operators.foldl addEntry .empty).Built := by
    refine List.foldlRecOn c.operators addEntry .empty fun t built entry _ => ?_
    unfold addEntry
    split
    · exact .add built _ _ _ _
    · exact .add built _ _ _ _
  exact List.foldlRecOn c.enclosers addPair entries fun t built pair _ => .encloser built _ _ _ _

theorem relateEqualBuilt {groups : List (List String)} {t u : OperatorTable} (built : t.Built)
    (h : relateEqual groups t = .ok u) : u.Built := by
  induction groups generalizing t with
  | nil =>
    cases h
    exact built
  | cons group groups ih =>
    obtain ⟨ids, -, last⟩ := bindOk h
    exact ih (.equal built ids) last

theorem relateGreaterBuilt {entries : List GreaterEntry} {t u : OperatorTable} (built : t.Built)
    (h : relateGreater entries t = .ok u) : u.Built := by
  induction entries generalizing t with
  | nil =>
    cases h
    exact built
  | cons entry entries ih =>
    obtain ⟨group, -, last⟩ := bindOk h
    obtain ⟨than, -, last⟩ := bindOk last
    exact ih (.greater built group than) last

theorem configBuilt {c : OperatorConfig} {t : OperatorTable} (h : c.toTable = .ok t) : t.Built := by
  unfold toTable at h
  split at h
  · contradiction
  · obtain ⟨related, equal, last⟩ := bindOk h
    exact relateGreaterBuilt (relateEqualBuilt (unrelatedBuilt c) equal) last

end OperatorConfig
end Parlance
