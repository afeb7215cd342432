import Parlance.Proofs.Operator.Configured

/-! How the answers for two operators go together. Of two operators the one is higher exactly if the other is lower,
but for operators that were made greater than each other both ways and never equal: nothing refuses such declarations,
and then each is higher than the other. -/
namespace Parlance

namespace OperatorTable

/-- Calls that make each of two operators greater than the other, and never equal. -/
def Crossed (calls : List Call) (a b : Nat) : Prop :=
  a ≠ b ∧ ¬ MadeEqual calls a b ∧ MadeGreater calls a b ∧ MadeGreater calls b a

theorem equalTurned {calls : List Call} {a b : Nat} (made : MadeEqual calls a b) : MadeEqual calls b a := by
  obtain ⟨group, member, first, second⟩ := made
  exact ⟨group, member, second, first⟩

theorem relatedTurned {calls : List Call} {a b : Nat} (same : a = b ∨ MadeEqual calls a b) :
    b = a ∨ MadeEqual calls b a := same.imp Eq.symm equalTurned

theorem bothHigher {calls : List Call} {a b : Nat} :
    (ofCalls calls).precedence a b = .higher ∧ (ofCalls calls).precedence b a = .higher ↔ Crossed calls a b := by
  rw [precedenceDeclares, precedenceDeclares]
  constructor
  · rintro ⟨⟨apart, greater⟩, -, back⟩
    exact ⟨fun same => apart (.inl same), fun made => apart (.inr made), greater, back⟩
  · rintro ⟨different, unequal, greater, back⟩
    have apart : ¬ (a = b ∨ MadeEqual calls a b) := not_or.mpr ⟨different, unequal⟩
    exact ⟨⟨apart, greater⟩, fun same => apart (relatedTurned same), back⟩

theorem uncrossedTurns {calls : List Call} {a b : Nat} :
    ((ofCalls calls).precedence a b = .higher ↔ (ofCalls calls).precedence b a = .lower) ↔ ¬ Crossed calls a b := by
  constructor
  · intro turns crossed
    obtain ⟨higher, back⟩ := bothHigher.mpr crossed
    cases (turns.mp higher).symm.trans back
  · intro uncrossed
    rw [precedenceDeclares, precedenceDeclares]
    constructor
    · rintro ⟨apart, greater⟩
      have never : ¬ MadeGreater calls b a := fun back =>
        uncrossed ⟨fun same => apart (.inl same), fun made => apart (.inr made), greater, back⟩
      exact ⟨fun same => apart (relatedTurned same), never, greater⟩
    · rintro ⟨apart, -, greater⟩
      exact ⟨fun same => apart (relatedTurned same), greater⟩

end OperatorTable

namespace OperatorConfig

open OperatorTable (ofCalls MadeEqual MadeGreater)

def Level (c : OperatorConfig) (a b : String) : Prop := ∃ group ∈ c.equal, a ∈ group ∧ b ∈ group

def Above (c : OperatorConfig) (a b : String) : Prop := ∃ entry ∈ c.greater, a ∈ entry.group ∧ b ∈ entry.than

def Crossed (c : OperatorConfig) (a b : String) : Prop := a ≠ b ∧ ¬ c.Level a b ∧ c.Above a b ∧ c.Above b a

section Named

variable {c : OperatorConfig} {a b : Operator}

theorem listedPosition (once : c.names.Nodup) (member : a ∈ c.listed) :
    a.name ∈ c.names ∧ a.id = c.position a.name := by
  obtain ⟨i, inside, rfl⟩ := List.getElem_of_mem member
  have place : i < c.names.length := by rwa [← listedNames, List.length_map]
  have named : c.listed[i].name = c.names[i] := by simp [← listedNames]
  refine ⟨named ▸ List.getElem_mem place, ?_⟩
  rw [listedNumbered (List.getElem?_eq_getElem inside), named]
  exact (once.idxOf_getElem i place).symm

theorem positionListed (once : c.names.Nodup) (member : a ∈ c.listed) {group : List String} :
    a.id ∈ group.map c.position ↔ a.name ∈ group := by
  obtain ⟨declared, place⟩ := listedPosition once member
  rw [place, List.mem_map]
  constructor
  · rintro ⟨name, inside, same⟩
    rwa [(List.idxOf_inj declared).mp same.symm]
  · exact fun inside => ⟨a.name, inside, rfl⟩

variable (once : c.names.Nodup) (first : a ∈ c.listed) (second : b ∈ c.listed)
include once first second

theorem levelMade : MadeEqual c.calls a.id b.id ↔ c.Level a.name b.name := by
  constructor
  · rintro ⟨ids, declared, here, there⟩
    obtain ⟨group, listed, rfl⟩ := equalDeclared.mp declared
    exact ⟨group, listed, (positionListed once first).mp here, (positionListed once second).mp there⟩
  · rintro ⟨group, listed, here, there⟩
    exact ⟨_, equalDeclared.mpr ⟨group, listed, rfl⟩, (positionListed once first).mpr here,
      (positionListed once second).mpr there⟩

theorem aboveMade : MadeGreater c.calls a.id b.id ↔ c.Above a.name b.name := by
  constructor
  · rintro ⟨above, below, declared, here, there⟩
    obtain ⟨entry, listed, rfl, rfl⟩ := greaterDeclared.mp declared
    exact ⟨entry, listed, (positionListed once first).mp here, (positionListed once second).mp there⟩
  · rintro ⟨entry, listed, here, there⟩
    exact ⟨_, _, greaterDeclared.mpr ⟨entry, listed, rfl, rfl⟩, (positionListed once first).mpr here,
      (positionListed once second).mpr there⟩

theorem crossedMade : OperatorTable.Crossed c.calls a.id b.id ↔ c.Crossed a.name b.name := by
  have different : a.id = b.id ↔ a.name = b.name := by
    obtain ⟨declared, place⟩ := listedPosition once first
    rw [place, (listedPosition once second).2]
    exact List.idxOf_inj declared
  exact and_congr (not_congr different) (and_congr (not_congr (levelMade once first second))
    (and_congr (aboveMade once first second) (aboveMade once second first)))

end Named

theorem configTurns {c : OperatorConfig} {t : OperatorTable} (h : c.toTable = .ok t) {a b : Operator}
    (first : a ∈ t.operators) (second : b ∈ t.operators) :
    ((t.precedence a.id b.id = .higher ↔ t.precedence b.id a.id = .lower) ↔ ¬ c.Crossed a.name b.name) ∧
    (t.precedence a.id b.id = .higher ∧ t.precedence b.id a.id = .higher ↔ c.Crossed a.name b.name) := by
  obtain ⟨once, rfl⟩ := tableCalls h
  rw [tableOperators] at first second
  rw [← crossedMade once first second]
  exact ⟨OperatorTable.uncrossedTurns, OperatorTable.bothHigher⟩

end OperatorConfig

namespace OperatorTable

/-- Of two operators the one is higher exactly if the other is lower, unless they were made greater than each other
both ways and never equal. Exactly then each is higher than the other. -/
theorem precedenceTurned :
    (∀ calls a b,
      (((ofCalls calls).precedence a b = .higher ↔ (ofCalls calls).precedence b a = .lower) ↔
        ¬ Crossed calls a b) ∧
      ((ofCalls calls).precedence a b = .higher ∧ (ofCalls calls).precedence b a = .higher ↔ Crossed calls a b)) ∧
    ∀ c t, OperatorConfig.toTable c = .ok t → ∀ a ∈ t.operators, ∀ b ∈ t.operators,
      ((t.precedence a.id b.id = .higher ↔ t.precedence b.id a.id = .lower) ↔ ¬ c.Crossed a.name b.name) ∧
      (t.precedence a.id b.id = .higher ∧ t.precedence b.id a.id = .higher ↔ c.Crossed a.name b.name) :=
  ⟨fun _ _ _ => ⟨uncrossedTurns, bothHigher⟩, fun _ _ made _ first _ second =>
    OperatorConfig.configTurns made first second⟩

theorem powersAntisymmetric : ∃ t, OperatorConfig.powers.toTable = .ok t ∧
    ¬ OperatorConfig.powers.Crossed "pow" "plus" ∧ t.precedence 2 0 = .higher ∧ t.precedence 0 2 = .lower := by
  obtain ⟨t, made⟩ := (OperatorConfig.tableFound .powers).mpr ⟨by decide, by decide⟩
  have kept : ¬ OperatorConfig.powers.Crossed "pow" "plus" := by
    unfold OperatorConfig.Crossed OperatorConfig.Level OperatorConfig.Above
    decide
  have operators : t.operators = OperatorConfig.powers.listed := (OperatorConfig.tableDeclared made).operators
  have higher : t.precedence 2 0 = .higher := by
    rw [(OperatorConfig.tableCalls made).2]
    decide
  have turned := (precedenceTurned.2 _ t made ⟨2, "pow", "^", .infixOp, .right, none⟩ (by rw [operators]; decide)
    ⟨0, "plus", "+", .infixOp, .left, none⟩ (by rw [operators]; decide)).1.mpr kept
  exact ⟨t, made, kept, higher, turned.mp higher⟩

def crossedCalls : List Call :=
  [.addInfix "a" "@" .left, .addInfix "b" "#" .left, .makeGreater [0] [1], .makeGreater [1] [0]]

theorem crossedBothHigher :
    ((ofCalls crossedCalls).precedence 0 1 = .higher ∧ (ofCalls crossedCalls).precedence 1 0 = .higher) ∧
      ¬ ((ofCalls crossedCalls).precedence 0 1 = .higher ↔ (ofCalls crossedCalls).precedence 1 0 = .lower) := by
  decide

end OperatorTable
end Parlance
