import Parlance.Proofs.Evaluator.Tandem

/-! The limit of the call depth only cuts off. A program beside itself under another limit does the same, until
the lower limit ends one of the two. Under one and the same limit nothing is cut off, so what a program reaches
with some fuel it reaches with more. -/
namespace Parlance

variable {H : Type} [Host H]

def Evaluator.Finishes (program : List (Instruction H)) (s : Evaluator H)
    (o : Outcome EvalError (Evaluator H) (Value H)) : Prop :=
  o ≠ .outOfFuel ∧ ∃ fuel, runWith (evalInstruction fuel) program s = o

namespace Tandem

open Evaluator

section

variable {T : Tandem H} {w : T.World} {s t : Evaluator H} {is js : List (Instruction H)}
  {o p : Outcome EvalError (Evaluator H) (Value H)}

theorem program (related : List.Forall₂ T.codes is js) (fuel : Nat) :
    T.Keeps fuel (Value.Matched T.codes) (Evaluator.runWith (evalInstruction fuel) is)
      fun n => Evaluator.runWith (evalInstruction n) js :=
  runWith (T.evaluation fuel).1 related

theorem finishes (related : List.Forall₂ T.codes is js) (states : T.States w s t)
    (ends : Finishes is s o) :
    T.Lost o ∨ ∃ p, Finishes js t p ∧ T.Met w (Value.Matched T.codes) o p := by
  obtain ⟨-, fuel, rfl⟩ := ends
  refine (program related fuel w s t states).imp id ?_
  rintro ⟨least, p, -, settled, met⟩
  refine ⟨p, ⟨?_, least, settled least (Nat.le_refl _)⟩, met⟩
  rintro rfl
  revert met
  cases Evaluator.runWith (evalInstruction fuel) is s <;> exact id

end

def limiting (H : Type) [Host H] (a b : Nat) : Tandem H where
  codes := Eq
  limits x y := x = a ∧ y = b
  lost e := a < b ∧ e = .callDepthExceeded a
  missed e := b < a ∧ e = .callDepthExceeded b
  bounded := True
  shaped := by
    rintro i _ rfl
    exact ⟨0, 0, i, i, rfl, rfl, fun _ => Nat.le_refl 0, shapedSelf (fun _ => rfl) i⟩
  full := by
    rintro x y depth ⟨rfl, rfl⟩ full
    obtain above | rfl | below := Nat.lt_trichotomy x y
    · exact .inl ⟨above, rfl⟩
    · exact .inr ⟨full, .inr rfl⟩
    · exact .inr ⟨Nat.le_of_lt (Nat.lt_of_lt_of_le below full), .inl ⟨below, rfl⟩⟩
  roomy := by
    rintro _ _ depth ⟨rfl, rfl⟩ room full
    exact ⟨by omega, rfl⟩
  hosts := by
    intro h args args' same
    rw [valuesEqual same]
    exact scriptSelf _

end Tandem

namespace Evaluator

def limited (limit : Nat) (s : Evaluator H) : Evaluator H := { s with maxDepth := limit }

section

variable {program : List (Instruction H)} {s : Evaluator H} {a b : Nat}
  {o p : Outcome EvalError (Evaluator H) (Value H)}

theorem limitingStart (s : Evaluator H) (a b : Nat) :
    (Tandem.limiting H a b).States () (s.limited a) (s.limited b) :=
  ⟨framesSelf (fun _ => rfl) _, rfl, rfl, ⟨rfl, rfl⟩, trivial⟩

theorem limitingStates {s t : Evaluator H} (states : (Tandem.limiting H a b).States () s t) :
    t = s.limited b := by
  obtain ⟨frames, depth, ids, limit, -⟩ := states
  cases t
  cases framesEqual frames
  cases depth
  cases ids
  cases limit.2
  rfl

theorem limitingMet (met : (Tandem.limiting H a b).Met () (Value.Matched Eq) o p) :
    (b < a ∧ ∃ after, p = .error (.callDepthExceeded b) after) ∨ p = o.leaving (limited b) := by
  revert met
  cases o <;> cases p <;> intro met <;> try exact met.elim
  · rw [matchedEqual met.1, limitingStates met.2]
    exact .inr rfl
  · obtain ⟨below, rfl⟩ := met
    exact .inl ⟨below, _, rfl⟩
  · obtain ⟨below, rfl⟩ | ⟨rfl, states⟩ := met
    · exact .inl ⟨below, _, rfl⟩
    · rw [limitingStates states]
      exact .inr rfl

theorem limitingLost (ends : o ≠ .outOfFuel) (lost : (Tandem.limiting H a b).Lost o) :
    a < b ∧ ∃ after, o = .error (.callDepthExceeded a) after := by
  cases o with
  | value v after => exact lost.elim
  | error e after => exact ⟨lost.1, after, by rw [lost.2]⟩
  | outOfFuel => exact absurd rfl ends

omit [Host H] in
theorem leavingEnds {change : Evaluator H → Evaluator H} (ends : o ≠ .outOfFuel) :
    o.leaving change ≠ .outOfFuel := by
  cases o with
  | value v after => exact nofun
  | error e after => exact nofun
  | outOfFuel => exact absurd rfl ends

end

theorem limitingRun (program : List (Instruction H)) (s : Evaluator H) (a b : Nat) {fuel more : Nat}
    (le : fuel ≤ more) (ends : runWith (evalInstruction fuel) program (s.limited a) ≠ .outOfFuel) :
    (a < b ∧ ∃ after, runWith (evalInstruction fuel) program (s.limited a) =
      .error (.callDepthExceeded a) after) ∨
    (b < a ∧ ∃ after, runWith (evalInstruction more) program (s.limited b) =
      .error (.callDepthExceeded b) after) ∨
    runWith (evalInstruction more) program (s.limited b) =
      (runWith (evalInstruction fuel) program (s.limited a)).leaving (limited b) := by
  obtain lost | ⟨least, p, within, settled, met⟩ := Tandem.program (T := Tandem.limiting H a b)
    (List.forall₂_same.mpr fun _ _ => rfl) fuel () _ _ (limitingStart s a b)
  · exact .inl (limitingLost ends lost)
  · obtain rfl := settled more (Nat.le_trans (within trivial) le)
    exact .inr (limitingMet met)

theorem runMore {program : List (Instruction H)} {s : Evaluator H} {fuel more : Nat}
    (ends : runWith (evalInstruction fuel) program s ≠ .outOfFuel) (le : fuel ≤ more) :
    runWith (evalInstruction more) program s = runWith (evalInstruction fuel) program s := by
  have left : ∀ more ≥ fuel, runWith (evalInstruction more) program s =
      (runWith (evalInstruction fuel) program s).leaving (limited s.maxDepth) := by
    intro more le
    obtain below | below | same := limitingRun program s s.maxDepth s.maxDepth le ends
    · exact absurd below.1 (Nat.lt_irrefl _)
    · exact absurd below.1 (Nat.lt_irrefl _)
    · exact same
  exact (left more le).trans (left fuel (Nat.le_refl _)).symm

theorem finishesOnce {program : List (Instruction H)} {s : Evaluator H}
    {o p : Outcome EvalError (Evaluator H) (Value H)} (one : Finishes program s o)
    (other : Finishes program s p) : p = o := by
  obtain ⟨ends, fuel, rfl⟩ := one
  obtain ⟨ends', fuel', rfl⟩ := other
  rw [← runMore ends (Nat.le_max_left fuel fuel'), ← runMore ends' (Nat.le_max_right fuel fuel')]

theorem evalFinishes {program : List (Instruction H)} {s : Evaluator H}
    (ends : eval program s ≠ .outOfFuel) : Finishes program s (eval program s) :=
  ⟨ends, s.fuelFor, rfl⟩

/-- A program that ends under some limit ends alike under a higher one, unless it ended at the limit; and if it
ends under some limit, then under a lower one it ends alike or at exactly that limit. Nothing but the limit
differs in the state afterwards. -/
theorem callLimitOnlyCuts (program : List (Instruction H)) (s : Evaluator H) {low high : Nat}
    (le : low ≤ high) :
    (∀ o, Finishes program (s.limited low) o →
      (∃ after, o = .error (.callDepthExceeded low) after) ∨
      Finishes program (s.limited high) (o.leaving (limited high))) ∧
    (∀ o, Finishes program (s.limited high) o →
      Finishes program (s.limited low) (o.leaving (limited low)) ∨
      ∃ after, Finishes program (s.limited low) (.error (.callDepthExceeded low) after)) ∧
    (eval program (s.limited low) ≠ .outOfFuel →
      (∃ after, eval program (s.limited low) = .error (.callDepthExceeded low) after) ∨
      eval program (s.limited high) = (eval program (s.limited low)).leaving (limited high)) := by
  refine ⟨?_, ?_, fun ends => ?_⟩
  · rintro _ ⟨ends, fuel, rfl⟩
    obtain ⟨-, reached⟩ | ⟨below, -⟩ | same := limitingRun program s low high (Nat.le_refl fuel) ends
    · exact .inl reached
    · exact absurd le (Nat.not_le.mpr below)
    · exact .inr ⟨leavingEnds ends, fuel, same⟩
  · rintro _ ⟨ends, fuel, rfl⟩
    obtain ⟨below, -⟩ | ⟨-, after, reached⟩ | same :=
      limitingRun program s high low (Nat.le_refl fuel) ends
    · exact absurd le (Nat.not_le.mpr below)
    · exact .inr ⟨after, nofun, fuel, reached⟩
    · exact .inl ⟨leavingEnds ends, fuel, same⟩
  · have enough : (s.limited low).fuelFor ≤ (s.limited high).fuelFor :=
      Nat.mul_le_mul_left _ (Nat.succ_le_succ le)
    obtain ⟨-, reached⟩ | ⟨below, -⟩ | same := limitingRun program s low high enough ends
    · exact .inl reached
    · exact absurd le (Nat.not_le.mpr below)
    · exact .inr same

theorem twoCallsUncut :
    ∃ (program : List (Instruction Empty)) (s after : Evaluator Empty), 2 ≤ 7 ∧
      Finishes program (s.limited 2) (.value (.integer 5) after) ∧
      Finishes program (s.limited 7) (.value (.integer 5) (after.limited 7)) := by
  let inner : Function Empty := .user ["x"] [.lookup "x"]
  let outer : Function Empty := .user ["x"] [.call "f" [.lookup "x"]]
  let s : Evaluator Empty := ⟨[[("f", .function 0 inner), ("g", .function 1 outer)]], 0, 2, 2⟩
  have low : Finishes [.call "g" [.literal (.integer 5)]] (s.limited 2) (.value (.integer 5) s) :=
    ⟨nofun, 3, rfl⟩
  obtain ⟨upward, -, -⟩ := callLimitOnlyCuts _ s (show 2 ≤ 7 by decide)
  obtain ⟨_, cut⟩ | high := upward _ low
  · contradiction
  · exact ⟨_, s, s, by decide, low, high⟩

end Evaluator
end Parlance
