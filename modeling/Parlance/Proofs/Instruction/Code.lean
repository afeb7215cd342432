import Parlance.Instruction.OfExpr
import Parlance.Proofs.Token.Hidden
import Parlance.Value.Operation

/-! The instructions that programs are lowered to. Hidden names stand in them at three places only: where
a computed callee is bound and called, where the scrutinee of a chain is bound, and where a guard leaves
an operand out. A value is tame if a call of it runs such instructions or a native of the language. -/
namespace Parlance

variable {H : Type}

namespace Conditional

structure Arm (H : Type) where
  guard : Guard (Instruction H)
  block : List (Instruction H)

def cascade : List (Arm H) → Instruction H
  | [] => .literal .nil
  | ⟨.catchAll, block⟩ :: _ => .callFunction [] block []
  | ⟨.test guard, block⟩ :: rest =>
    .callNative .branch [guard, .function [] block, .function [] [cascade rest]]

end Conditional

open Conditional in
inductive Code : Bool → Instruction H → Prop where
  | literal {captured value} : Code captured (.literal value)
  | lookup {captured name} (visible : ¬ Hidden name) : Code captured (.lookup name)
  | scrutinee : Code true (.lookup Lower.scrutineeName)
  | assign {captured name value} (visible : ¬ Hidden name) (part : Code captured value) :
      Code captured (.assign name value)
  | function {captured params body} (visible : ∀ p ∈ params, ¬ Hidden p)
      (parts : ∀ i ∈ body, Code false i) : Code captured (.function params body)
  | call {captured name args} (visible : ¬ Hidden name) (parts : ∀ i ∈ args, Code captured i) :
      Code captured (.call name args)
  | group {captured args} (parts : ∀ i ∈ args, Code captured i) :
      Code captured (.callNative .group args)
  | computed {captured callee args} (part : Code captured callee)
      (parts : ∀ i ∈ args, Code captured i) :
      Code captured (.callFunction [Lower.calleeName] [.call Lower.calleeName args] [callee])
  | bare {captured arms}
      (guards : ∀ arm ∈ arms, ∀ g, arm.guard = .test g → Code false g)
      (blocks : ∀ arm ∈ arms, ∀ i ∈ arm.block, Code false i) : Code captured (cascade arms)
  | chain {captured value arms} (part : Code captured value)
      (guards : ∀ arm ∈ arms, ∀ g, arm.guard = .test g → Code true g)
      (blocks : ∀ arm ∈ arms, ∀ i ∈ arm.block, Code false i) :
      Code captured (.callFunction [Lower.scrutineeName] [cascade arms] [value])

def Native.Quiet : Native H → Prop
  | .branch => False
  | .host _ => False
  | _ => True

def Function.Tame : Function H → Prop
  | .user params body => (∀ p ∈ params, ¬ Hidden p) ∧ ∀ i ∈ body, Code false i
  | .native n => n.Quiet

def Value.Tame : Value H → Prop
  | .function _ f => f.Tame
  | _ => True

def Value.IsData (v : Value H) : Prop := v.asFunction? = none

theorem dataTame {v : Value H} (data : v.IsData) : v.Tame := by
  cases v with
  | function id f => contradiction
  | nil => trivial
  | integer n => trivial
  | float x => trivial

theorem literalData (value : Literal) : (Value.ofLiteral value : Value H).IsData := by
  cases value <;> rfl

namespace Operation

theorem integerData {n : Int} {v : Value H} (h : integer n = .ok v) : v.IsData := by
  unfold integer at h
  split at h
  · cases h
    rfl
  · contradiction

theorem integersData {op : Arithmetic} {a b : Int} {v : Value H} (h : integers op a b = .ok v) :
    v.IsData := by
  cases op with
  | add => exact integerData h
  | sub => exact integerData h
  | mul => exact integerData h
  | div =>
    simp only [integers] at h
    split at h
    · contradiction
    · exact integerData h

theorem floatsData {op : Arithmetic} {a b : Float} {v : Value H} (h : floats op a b = .ok v) :
    v.IsData := by
  unfold floats at h
  split at h
  · contradiction
  · cases h
    rfl

theorem decimalData (d : Decimal) : (ofDecimal d : Value H).IsData := by
  unfold ofDecimal
  split
  · split <;> rfl
  · rfl

theorem mixedData {op : Arithmetic} {a b : Option Decimal} {x y : Float} {v : Value H}
    (h : mixed op a b x y = .ok v) : v.IsData := by
  unfold mixed at h
  split at h
  · split at h
    · contradiction
    · split at h
      · cases h
        exact decimalData _
      · exact floatsData h
  · exact floatsData h

theorem arithmeticData {op : Arithmetic} {a b v : Value H} (h : arithmetic op a b = .ok v) :
    v.IsData := by
  unfold arithmetic at h
  split at h
  · exact integersData h
  · exact floatsData h
  · exact mixedData h
  · exact mixedData h
  · contradiction

theorem negateData {a v : Value H} (h : negate a = .ok v) : v.IsData := by
  cases a with
  | integer n => exact integerData h
  | float x =>
    cases h
    rfl
  | nil => contradiction
  | function id f => contradiction

theorem comparisonData {op : Comparison} {a b v : Value H} (h : comparison op a b = .ok v) :
    v.IsData := by
  unfold comparison at h
  split at h
  · cases h
    rfl
  · split at h
    · cases h
      rfl
    · cases h
      rfl
    · contradiction

end Operation
end Parlance
