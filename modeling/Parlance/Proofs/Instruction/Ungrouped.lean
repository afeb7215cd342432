import Parlance.Proofs.Evaluator.Tandem

/-! Instructions without their groups. Two instructions are the same up to groups if nothing but groups around
single parts tells them apart; below the groups around them they have one form. -/
namespace Parlance

variable {H : Type}

def Instruction.regroup : Native H → List (Instruction H) → Instruction H
  | .group, [i] => i
  | n, args => .callNative n args

mutual

def Instruction.ungrouped : Instruction H → Instruction H
  | .literal value => .literal value
  | .lookup name => .lookup name
  | .assign name value => .assign name value.ungrouped
  | .function params body => .function params (ungroupedAll body)
  | .call name args => .call name (ungroupedAll args)
  | .callFunction params body args => .callFunction params (ungroupedAll body) (ungroupedAll args)
  | .callNative n args => regroup n (ungroupedAll args)

def Instruction.ungroupedAll : List (Instruction H) → List (Instruction H)
  | [] => []
  | i :: is => i.ungrouped :: ungroupedAll is

end

namespace Instruction

/-- The same but for groups around single parts. -/
def SameUngrouped (i j : Instruction H) : Prop := i.ungrouped = j.ungrouped

theorem ungroupedAllMap (is : List (Instruction H)) : ungroupedAll is = is.map ungrouped := by
  induction is with
  | nil => rfl
  | cons i is ih => simp only [ungroupedAll, ih, List.map_cons]

theorem sameUngroupedAll {is js : List (Instruction H)} :
    List.Forall₂ SameUngrouped is js ↔ ungroupedAll is = ungroupedAll js := by
  rw [ungroupedAllMap, ungroupedAllMap, ← List.forall₂_eq_eq_eq, List.forall₂_map_left_iff,
    List.forall₂_map_right_iff]
  exact Iff.rfl

theorem ungroupedGrouped (i : Instruction H) (n : Nat) : (i.grouped n).ungrouped = i.ungrouped := by
  induction n with
  | zero => rfl
  | succ n ih => exact ih

def Bare (i : Instruction H) : Prop := ∀ part, i ≠ .callNative .group [part]

theorem regroupBare {n : Native H} {args : List (Instruction H)} (bare : Bare (.callNative n args)) :
    regroup n (ungroupedAll args) = .callNative n (ungroupedAll args) := by
  unfold regroup
  split
  · rename_i part single
    obtain ⟨i, rfl⟩ : ∃ i, args = [i] := by
      rw [ungroupedAllMap] at single
      exact List.length_eq_one_iff.mp (by simpa using congrArg List.length single)
    exact absurd rfl (bare i)
  · rfl

theorem groupsPeeled (i : Instruction H) : ∃ n j, i = grouped j n ∧ j.Bare := by
  by_cases bare : i.Bare
  · exact ⟨0, i, rfl, bare⟩
  · obtain ⟨part, rfl⟩ : ∃ part, i = .callNative .group [part] := by simpa [Bare] using bare
    obtain ⟨n, j, same, bare⟩ := groupsPeeled part
    exact ⟨n + 1, j, by rw [same]; rfl, bare⟩
termination_by sizeOf i

theorem bareShaped {i j : Instruction H} (bare : i.Bare) (bare' : j.Bare) (same : SameUngrouped i j) :
    i.Shaped SameUngrouped j := by
  unfold SameUngrouped at same
  cases i <;> cases j <;> simp only [ungrouped, regroupBare, bare, bare', reduceCtorEq] at same
  case literal value _ =>
    cases same
    exact .literal value
  case lookup name _ =>
    cases same
    exact .lookup name
  case assign name value _ value' =>
    obtain ⟨rfl, part⟩ := assign.inj same
    exact .assign name part
  case function params body _ body' =>
    obtain ⟨rfl, parts⟩ := function.inj same
    exact .function params (sameUngroupedAll.mpr parts)
  case call name args _ args' =>
    obtain ⟨rfl, parts⟩ := call.inj same
    exact .call name (sameUngroupedAll.mpr parts)
  case callFunction params body args _ body' args' =>
    obtain ⟨rfl, inner, parts⟩ := callFunction.inj same
    exact .callFunction params (sameUngroupedAll.mpr inner) (sameUngroupedAll.mpr parts)
  case callNative n args _ args' =>
    obtain ⟨rfl, parts⟩ := callNative.inj same
    exact .callNative n (sameUngroupedAll.mpr parts)

theorem shapedSame {i j : Instruction H} (shaped : i.Shaped SameUngrouped j) : SameUngrouped i j := by
  unfold SameUngrouped
  cases shaped with
  | literal value => rfl
  | lookup name => rfl
  | assign name part => exact congrArg (assign name) part
  | function params body => exact congrArg (function params) (sameUngroupedAll.mp body)
  | call name args => exact congrArg (call name) (sameUngroupedAll.mp args)
  | callFunction params inner args =>
    exact congrArg₂ (callFunction params) (sameUngroupedAll.mp inner) (sameUngroupedAll.mp args)
  | callNative n args => exact congrArg (regroup n) (sameUngroupedAll.mp args)

theorem sameShaped {i j : Instruction H} (same : SameUngrouped i j) :
    ∃ m n i' j', i = grouped i' m ∧ j = grouped j' n ∧ i'.Shaped SameUngrouped j' := by
  obtain ⟨m, i, rfl, bare⟩ := groupsPeeled i
  obtain ⟨n, j, rfl, bare'⟩ := groupsPeeled j
  unfold SameUngrouped at same
  rw [ungroupedGrouped, ungroupedGrouped] at same
  exact ⟨m, n, i, j, rfl, rfl, bareShaped bare bare' same⟩

end Instruction
end Parlance
