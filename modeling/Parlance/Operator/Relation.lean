/-! Finite relations on ids. The pairs are kept in ascending order without repetition, so two relations
that hold of the same pairs are equal. -/
namespace Parlance

namespace Relation

def Before (a b : Nat × Nat) : Prop := a.1 < b.1 ∨ a.1 = b.1 ∧ a.2 < b.2

instance (a b : Nat × Nat) : Decidable (Before a b) := by unfold Before; infer_instance

def insertPair (p : Nat × Nat) : List (Nat × Nat) → List (Nat × Nat)
  | [] => [p]
  | q :: qs => if Before p q then p :: q :: qs else if p = q then q :: qs else q :: insertPair p qs

theorem memInsertPair {p x : Nat × Nat} {qs : List (Nat × Nat)} :
    x ∈ insertPair p qs ↔ x = p ∨ x ∈ qs := by
  induction qs with
  | nil => simp [insertPair]
  | cons q qs ih =>
    simp only [insertPair]
    split
    · simp
    · split
      · rename_i same
        subst same
        simp
      · simp only [List.mem_cons, ih]
        exact or_left_comm

theorem ascendingInsertPair {p : Nat × Nat} {qs : List (Nat × Nat)}
    (h : qs.Pairwise Before) : (insertPair p qs).Pairwise Before := by
  induction qs with
  | nil => simp [insertPair]
  | cons q qs ih =>
    obtain ⟨head, tail⟩ := List.pairwise_cons.mp h
    simp only [insertPair]
    split
    · rename_i before
      refine List.pairwise_cons.mpr ⟨?_, h⟩
      intro x hx
      rcases List.mem_cons.mp hx with rfl | inside
      · exact before
      · have later := head x inside
        simp only [Before] at *
        omega
    · split
      · exact h
      · rename_i notBefore different
        refine List.pairwise_cons.mpr ⟨?_, ih tail⟩
        intro x hx
        rcases memInsertPair.mp hx with rfl | inside
        · simp only [Before] at *
          have apart : ¬ (x.1 = q.1 ∧ x.2 = q.2) := fun same => different (Prod.ext same.1 same.2)
          omega
        · exact head x inside

end Relation

structure Relation where
  pairs : List (Nat × Nat)
  ascending : pairs.Pairwise Relation.Before
  deriving DecidableEq, Repr

namespace Relation

def empty : Relation := ⟨[], .nil⟩

def holds (r : Relation) (a b : Nat) : Bool := r.pairs.contains (a, b)

def insert (p : Nat × Nat) (r : Relation) : Relation :=
  ⟨insertPair p r.pairs, ascendingInsertPair r.ascending⟩

def insertAll : List (Nat × Nat) → Relation → Relation
  | [], r => r
  | p :: ps, r => insertAll ps (r.insert p)

def product (as bs : List Nat) : List (Nat × Nat) := as.flatMap fun a => bs.map fun b => (a, b)

@[simp] theorem holdsEmpty (a b : Nat) : empty.holds a b = false := rfl

theorem holdsInsert {r : Relation} {p : Nat × Nat} {a b : Nat} :
    (r.insert p).holds a b = true ↔ (a, b) = p ∨ r.holds a b = true := by
  simp [holds, insert, memInsertPair]

theorem holdsInsertAll {ps : List (Nat × Nat)} {r : Relation} {a b : Nat} :
    (r.insertAll ps).holds a b = true ↔ (a, b) ∈ ps ∨ r.holds a b = true := by
  induction ps generalizing r with
  | nil => simp [insertAll]
  | cons p ps ih =>
    simp only [insertAll, ih, holdsInsert, List.mem_cons]
    exact or_left_comm.trans or_assoc.symm

end Relation
end Parlance
