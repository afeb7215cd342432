import Parlance.Operator.Table

/-! Precedence as it was declared. A table remembers of every call on it which operators were made equal and which
were made greater, and nothing else: operators that are added later change no relation, and neither do the order
of the calls, repeated calls and the order within a group. -/
namespace Parlance

namespace OperatorTable

inductive Call where
  | add (name symbol : String) (category : Category) (assoc : Associativity)
  | addInfix (name symbol : String) (assoc : Associativity)
  | addPrefix (name symbol : String)
  | addEncloser (openName openSymbol closeName closeSymbol : String)
  | makeEqual (group : List Nat)
  | makeGreater (group than : List Nat)
  deriving DecidableEq, Repr

def apply (t : OperatorTable) : Call → OperatorTable
  | .add name symbol category assoc => t.add name symbol category assoc
  | .addInfix name symbol assoc => t.addInfix name symbol assoc
  | .addPrefix name symbol => t.addPrefix name symbol
  | .addEncloser openName openSymbol closeName closeSymbol =>
    t.addEncloser openName openSymbol closeName closeSymbol
  | .makeEqual group => t.makeEqual group
  | .makeGreater group than => t.makeGreater group than

def ofCalls (calls : List Call) : OperatorTable := calls.foldl apply empty

def MadeEqual (calls : List Call) (a b : Nat) : Prop :=
  ∃ group, Call.makeEqual group ∈ calls ∧ a ∈ group ∧ b ∈ group

def MadeGreater (calls : List Call) (a b : Nat) : Prop :=
  ∃ group than, Call.makeGreater group than ∈ calls ∧ a ∈ group ∧ b ∈ than

/-- What calls declare of two operators. Equality is asked first, then whether the one was made greater than the
other, and only then whether it was the other way round. -/
def Declares (calls : List Call) (a b : Nat) : Precedence → Prop
  | .equal => a = b ∨ MadeEqual calls a b
  | .higher => ¬ (a = b ∨ MadeEqual calls a b) ∧ MadeGreater calls a b
  | .lower => ¬ (a = b ∨ MadeEqual calls a b) ∧ ¬ MadeGreater calls a b ∧ MadeGreater calls b a
  | .undefined => ¬ (a = b ∨ MadeEqual calls a b) ∧ ¬ MadeGreater calls a b ∧ ¬ MadeGreater calls b a

def SameMembers (group others : List Nat) : Prop := ∀ id, id ∈ group ↔ id ∈ others

/-- Whatever one history relates, the other relates by a call with the same members. -/
structure Repeats (calls others : List Call) : Prop where
  equal : ∀ group, .makeEqual group ∈ calls → ∃ group', .makeEqual group' ∈ others ∧ SameMembers group group'
  greater : ∀ group than, .makeGreater group than ∈ calls →
    ∃ group' than', .makeGreater group' than' ∈ others ∧ SameMembers group group' ∧ SameMembers than than'

section Steps

variable {a b : Nat}

theorem productMember {as bs : List Nat} : (a, b) ∈ Relation.product as bs ↔ a ∈ as ∧ b ∈ bs := by
  simp [Relation.product]

theorem equalStep (t : OperatorTable) (call : Call) : (t.apply call).equal.holds a b = true ↔
    t.equal.holds a b = true ∨ ∃ group, call = .makeEqual group ∧ a ∈ group ∧ b ∈ group := by
  cases call with
  | makeEqual group =>
    change (t.equal.insertAll (Relation.product group group)).holds a b = true ↔ _
    rw [Relation.holdsInsertAll, productMember, or_comm]
    simp
  | add | addInfix | addPrefix | addEncloser | makeGreater =>
    exact ⟨.inl, fun made => made.resolve_right (by simp)⟩

theorem higherStep (t : OperatorTable) (call : Call) : (t.apply call).higher.holds a b = true ↔
    t.higher.holds a b = true ∨ ∃ group than, call = .makeGreater group than ∧ a ∈ group ∧ b ∈ than := by
  cases call with
  | makeGreater group than =>
    change (t.higher.insertAll (Relation.product group than)).holds a b = true ↔ _
    rw [Relation.holdsInsertAll, productMember, or_comm]
    simp [and_assoc]
  | add | addInfix | addPrefix | addEncloser | makeEqual =>
    exact ⟨.inl, fun made => made.resolve_right (by simp)⟩

theorem runMakes (holds : OperatorTable → Prop) (makes : Call → Prop)
    (step : ∀ t call, holds (t.apply call) ↔ holds t ∨ makes call) (t : OperatorTable) (calls : List Call) :
    holds (calls.foldl apply t) ↔ holds t ∨ ∃ call ∈ calls, makes call := by
  induction calls generalizing t with
  | nil => simp
  | cons call calls ih => simp [ih, step, or_assoc]

theorem equalMade {calls : List Call} : (ofCalls calls).equal.holds a b = true ↔ MadeEqual calls a b := by
  have made := runMakes (·.equal.holds a b = true) _ equalStep empty calls
  simp only [empty, Relation.holdsEmpty, Bool.false_eq_true, false_or] at made
  refine made.trans ⟨?_, ?_⟩
  · rintro ⟨call, member, group, rfl, both⟩
    exact ⟨group, member, both⟩
  · rintro ⟨group, member, both⟩
    exact ⟨.makeEqual group, member, group, rfl, both⟩

theorem higherMade {calls : List Call} : (ofCalls calls).higher.holds a b = true ↔ MadeGreater calls a b := by
  have made := runMakes (·.higher.holds a b = true) _ higherStep empty calls
  simp only [empty, Relation.holdsEmpty, Bool.false_eq_true, false_or] at made
  refine made.trans ⟨?_, ?_⟩
  · rintro ⟨call, member, group, than, rfl, both⟩
    exact ⟨group, than, member, both⟩
  · rintro ⟨group, than, member, both⟩
    exact ⟨.makeGreater group than, member, group, than, rfl, both⟩

end Steps

section Repeated

variable {calls others : List Call} {a b : Nat}

theorem equalRepeated (repeated : Repeats calls others) (made : MadeEqual calls a b) : MadeEqual others a b := by
  obtain ⟨group, member, first, second⟩ := made
  obtain ⟨group', again, same⟩ := repeated.equal group member
  exact ⟨group', again, (same a).mp first, (same b).mp second⟩

theorem greaterRepeated (repeated : Repeats calls others) (made : MadeGreater calls a b) :
    MadeGreater others a b := by
  obtain ⟨group, than, member, first, second⟩ := made
  obtain ⟨group', than', again, same, same'⟩ := repeated.greater group than member
  exact ⟨group', than', again, (same a).mp first, (same' b).mp second⟩

end Repeated

theorem precedenceDeclares (calls : List Call) (a b : Nat) (p : Precedence) :
    (ofCalls calls).precedence a b = p ↔ Declares calls a b p := by
  have equal : (a == b || (ofCalls calls).equal.holds a b) = true ↔ a = b ∨ MadeEqual calls a b := by
    rw [Bool.or_eq_true, beq_iff_eq, equalMade]
  unfold precedence
  by_cases made : a = b ∨ MadeEqual calls a b
  · rw [if_pos (equal.mpr made)]
    cases p <;> simp only [Declares, made, not_true_eq_false, false_and, reduceCtorEq]
  rw [if_neg (mt equal.mp made)]
  by_cases greater : MadeGreater calls a b
  · rw [if_pos (higherMade.mpr greater)]
    cases p <;> simp only [Declares, made, greater, not_true_eq_false, not_false_eq_true, false_and, and_false,
      and_self, reduceCtorEq]
  rw [if_neg (mt higherMade.mp greater)]
  by_cases lesser : MadeGreater calls b a
  · rw [if_pos (higherMade.mpr lesser)]
    cases p <;> simp only [Declares, made, greater, lesser, not_true_eq_false, not_false_eq_true, and_false,
      and_self, reduceCtorEq]
  · rw [if_neg (mt higherMade.mp lesser)]
    cases p <;> simp only [Declares, made, greater, lesser, not_false_eq_true, and_false, and_self, reduceCtorEq]

/-- The precedence of two operators is what was declared of them, so calls that relate the same operators make the
same precedence, in whatever order they come and however often. -/
theorem precedenceDeclared (calls : List Call) :
    (∀ a b p, (ofCalls calls).precedence a b = p ↔ Declares calls a b p) ∧
    ∀ others, Repeats calls others → Repeats others calls →
      (ofCalls others).precedence = (ofCalls calls).precedence := by
  refine ⟨precedenceDeclares calls, fun others repeated repeated' => ?_⟩
  funext a b
  have equal : MadeEqual others a b ↔ MadeEqual calls a b :=
    ⟨equalRepeated repeated', equalRepeated repeated⟩
  have greater : ∀ a b, MadeGreater others a b ↔ MadeGreater calls a b := fun a b =>
    ⟨greaterRepeated repeated', greaterRepeated repeated⟩
  rw [precedenceDeclares]
  have same := (precedenceDeclares calls a b _).mp rfl
  generalize (ofCalls calls).precedence a b = p at same ⊢
  cases p <;> simpa only [Declares, equal, greater] using same

end OperatorTable
end Parlance
