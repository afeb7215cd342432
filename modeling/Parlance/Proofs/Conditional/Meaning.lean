import Parlance.Proofs.Language.Session

/-! What a conditional chain of a program does. Its instruction does the same as the direct reading of its
arms, in every state that the code of a session runs in and however much fuel there is. -/
namespace Parlance

variable {H : Type}

def Language.Contains (l : Language) (source : String) (e : Expr) : Prop :=
  ∃ m statements whole, l.parse source = .ok m ∧ Expr.statements l.operators m = .ok statements ∧
    whole ∈ statements ∧ Expr.Part whole e

theorem Language.containsWritten {l : Language} (standard : Language.standard = .ok l) {source : String}
    {e : Expr} (h : l.Contains source e) : e.Written := by
  obtain ⟨m, statements, whole, parsed, resolved, member, part⟩ := h
  exact Expr.writtenPart (sourceWritten standard (mapErrorOk parsed) resolved whole member) part

/-- A state that the code of a session runs in: the bindings of programs, over them hidden ones. -/
def Evaluator.Standing (s : Evaluator H) : Prop :=
  ∃ (σ : List (Layer H)) (below : Evaluator H), Layer.Veil σ ∧ below.Plain ∧ s = below.cover σ

theorem Evaluator.plainStanding {s : Evaluator H} (plain : s.Plain) : s.Standing :=
  ⟨[], s, Layer.veilNil, plain, rfl⟩

namespace Conditional

open Evaluator

def HasOperand (captured : Bool) (s : Evaluator H) : Prop :=
  captured = true → ∃ v : Value H, v.Tame ∧ find? Lower.scrutineeName s.frames = some v

theorem hasOperandSees {captured : Bool} {σ : List (Layer H)} {below : Evaluator H}
    (plain : below.Plain) (h : HasOperand captured (below.cover σ)) :
    Sees captured none none σ σ := by
  intro guarded
  obtain ⟨v, tame, found⟩ := h guarded
  have same : find? Lower.scrutineeName (below.cover σ).frames = bound σ :=
    Layer.findHidden scrutineeHidden (fun f member e inside => (plain.program f member e inside).1) σ
  exact ⟨v, tame, same ▸ found, same ▸ found⟩

theorem alikeEqual {σ : List (Layer H)} {x y : Eval H (Value H)} (alike : Alike σ σ Value.Tame x y)
    (veil : Layer.Veil σ) {below : Evaluator H} (plain : below.Plain) :
    x (below.cover σ) = y (below.cover σ) ∧
      ∀ after, (x (below.cover σ)).after? = some after → after.Standing ∧
        after.frames.length = (below.cover σ).frames.length ∧ after.depth = below.depth := by
  obtain ⟨o, left, right, settled⟩ := alike below plain
  refine ⟨left.trans right.symm, fun after found => ?_⟩
  rw [left] at found
  have kept : ∀ t : Evaluator H, below.Keeps t → (t.cover σ).Standing ∧
      (t.cover σ).frames.length = (below.cover σ).frames.length ∧ (t.cover σ).depth = below.depth :=
    fun t keeps => ⟨⟨σ, t, veil, keeps.plain, rfl⟩, Layer.coverLength σ keeps.frames, keeps.depth⟩
  cases o with
  | value v t =>
    cases found
    exact kept t settled.2
  | error e t =>
    cases found
    exact kept t settled
  | outOfFuel => contradiction

variable [Host H]

theorem chainAlike (fuel : Nat) {captured : Bool} {scrutinee : Option (Instruction H)}
    {arms : List (Arm H)} (code : ChainCode captured scrutinee arms) {σ : List (Layer H)}
    (veil : Layer.Veil σ) (sees : Sees captured none none σ σ) :
    Alike σ σ Value.Tame (evalInstruction fuel (assembled scrutinee arms))
      (readChain fuel scrutinee arms) := by
  have before : ∀ k < fuel, AlikeAt H k := fun k _ => evalAlike k
  rw [← evalAsNone]
  cases scrutinee with
  | none => exact cascadeReads before code.guards code.blocks veil veil seesNone seesNone
  | some value =>
    cases fuel with
    | zero => exact .outOfFuel
    | succ fuel =>
      have first := evalAlike fuel (code.value value rfl) veil veil sees
      simp only [assembled, chainRun, readChain, ← evalAsNone]
      exact first.bind fun v tame =>
        scrutineeReads (fun k _ => evalAlike k) tame code.guards code.blocks veil veil

theorem conditionalReads {l : Language} (standard : Language.standard = .ok l) {source : String}
    {scrutinee : Option Expr} {arms : List (CondArm Expr)}
    (contained : l.Contains source (.conditional scrutinee arms)) {levels : Nat} {captured : Bool}
    {i : Instruction H}
    (compiled : Lower.lowerAt (l.sugar.roles l.operators) (levels + 1) captured
      (.conditional scrutinee arms) = .ok i) :
    (∀ s : Evaluator H, Session l s → s.Standing) ∧
      ∃ value lowered,
        lowerScrutinee (Lower.lowerAt (l.sugar.roles l.operators) levels) captured scrutinee =
          .ok value ∧
        lowerArms (Lower.lowerAt (l.sugar.roles l.operators) levels) (l.sugar.roles l.operators)
          scrutinee.isSome arms = .ok lowered ∧
        ∀ s : Evaluator H, s.Standing → HasOperand captured s → ∀ fuel,
          evalInstruction fuel i s = readChain fuel value lowered s ∧
            ∀ after, (evalInstruction fuel i s).after? = some after →
              after.Standing ∧ after.frames.length = s.frames.length ∧ after.depth = s.depth := by
  refine ⟨fun s session => plainStanding (sessionPlain standard session), ?_⟩
  have written := Language.containsWritten standard contained
  simp only [Lower.lowerAt, Lower.lowerWith] at compiled
  split at compiled
  · contradiction
  obtain ⟨value, lowered, first, rest, rfl⟩ := conditionalLowered compiled
  have code := Lower.chainCode Lower.lowerAtCode written first rest
  refine ⟨value, lowered, first, rest, ?_⟩
  rintro s ⟨σ, below, veil, plain, rfl⟩ operand fuel
  exact alikeEqual (chainAlike fuel code veil (hasOperandSees plain operand)) veil plain

def soleChain (l : Language) (source : String) :
    Option (Option Expr × List (CondArm Expr) × Instruction Empty × List (Arm Empty)) :=
  match l.parse source with
  | .error _ => none
  | .ok m =>
    match Expr.statements l.operators m with
    | .ok [.conditional scrutinee arms] =>
      let roles := l.sugar.roles l.operators
      match Lower.lowerAt roles 256 false (.conditional scrutinee arms),
          lowerArms (Lower.lowerAt roles 255) roles scrutinee.isSome arms with
      | .ok i, .ok lowered => some (scrutinee, arms, i, lowered)
      | _, _ => none
    | _ => none

def soleChainPasses (source : String) (test : Option Expr → Instruction Empty → List (Arm Empty) → Bool) : Bool :=
  match Language.standard with
  | .error _ => false
  | .ok l =>
    match soleChain l source with
    | none => false
    | some (scrutinee, _, i, lowered) => test scrutinee i lowered

omit [Host H] in
theorem soleChainParts {source : String} {test : Option Expr → Instruction Empty → List (Arm Empty) → Bool}
    (h : soleChainPasses source test = true) :
    ∃ l scrutinee arms i lowered, Language.standard = .ok l ∧
      l.Contains source (.conditional scrutinee arms) ∧
      Lower.lowerAt (l.sugar.roles l.operators) 256 false (.conditional scrutinee arms) = .ok i ∧
      lowerArms (Lower.lowerAt (l.sugar.roles l.operators) 255) (l.sugar.roles l.operators)
        scrutinee.isSome arms = .ok lowered ∧
      test scrutinee i lowered = true := by
  unfold soleChainPasses at h
  split at h
  · contradiction
  rename_i l standard
  split at h
  · contradiction
  rename_i scrutinee arms i lowered found
  unfold soleChain at found
  split at found
  · contradiction
  rename_i m parsed
  split at found
  · rename_i resolved
    dsimp only at found
    split at found
    · rename_i compiled walked
      cases found
      exact ⟨l, scrutinee, arms, i, lowered, standard,
        ⟨m, _, _, parsed, resolved, List.mem_singleton_self _, .self⟩, compiled, walked, h⟩
    · contradiction
  · contradiction

def integerOf : Outcome EvalError (Evaluator Empty) (Value Empty) → Option Int64
  | .value v _ => v.asInt?
  | _ => none

theorem conditionalReadsMatch :
    ∃ (l : Language) (i : Instruction Empty) (value : Option (Instruction Empty))
      (lowered : List (Arm Empty)), Language.standard = .ok l ∧ lowered.length = 3 ∧
      (∀ s : Evaluator Empty, Session l s → s.Standing) ∧
      evalInstruction 12 i Evaluator.standard = readChain 12 value lowered Evaluator.standard ∧
      integerOf (evalInstruction 12 i Evaluator.standard) = some 2 := by
  have run : soleChainPasses "? 1 | == 0 => \x7b 3 \x7d | == 1 => \x7b 2 \x7d | ... => \x7b 4 \x7d" (fun _ i arms =>
      arms.length == 3 && integerOf (evalInstruction 12 i Evaluator.standard) == some 2) = true := by
    decide +kernel
  obtain ⟨l, scrutinee, arms, i, found, standard, contained, compiled, walked, tested⟩ := soleChainParts run
  simp only [Bool.and_eq_true, beq_iff_eq] at tested
  obtain ⟨session, value, lowered, -, walked', reads⟩ := conditionalReads standard contained compiled
  cases walked.symm.trans walked'
  have same := (reads Evaluator.standard (plainStanding standardPlain) nofun 12).1
  exact ⟨l, i, value, found, standard, tested.1, session, same, tested.2⟩

def boundAfter (name : String) (o : Outcome EvalError (Evaluator Empty) (Value Empty)) :
    Option Int64 :=
  (o.after?.bind fun s => find? name s.frames).bind Value.asInt?

theorem bareChainBindsOutside :
    ∃ (l : Language) (arms : List (CondArm Expr)) (i : Instruction Empty)
      (lowered : List (Arm Empty)), Language.standard = .ok l ∧
      l.Contains "? | x = 1 => \x7b 2 \x7d" (.conditional none arms) ∧
      Lower.lowerAt (l.sugar.roles l.operators) 256 false (.conditional none arms) = .ok i ∧
      lowerArms (Lower.lowerAt (l.sugar.roles l.operators) 255) (l.sugar.roles l.operators)
        false arms = .ok lowered ∧
      Session l (Evaluator.standard : Evaluator Empty) ∧
      boundAfter "x" (evalInstruction 9 i Evaluator.standard) = some 1 ∧
      boundAfter "x" (inFrame [] (readArms none 9 lowered) Evaluator.standard) = none := by
  have run : soleChainPasses "? | x = 1 => \x7b 2 \x7d" (fun scrutinee i lowered =>
      scrutinee.isNone && boundAfter "x" (evalInstruction 9 i Evaluator.standard) == some 1 &&
        boundAfter "x" (inFrame [] (readArms none 9 lowered) Evaluator.standard) == none) = true := by
    decide +kernel
  obtain ⟨l, scrutinee, arms, i, lowered, standard, contained, compiled, walked, tested⟩ :=
    soleChainParts run
  simp only [Bool.and_eq_true, beq_iff_eq, Option.isNone_iff_eq_none] at tested
  obtain ⟨⟨rfl, outside⟩, inside⟩ := tested
  exact ⟨l, arms, i, lowered, standard, contained, compiled, walked, .start, outside, inside⟩

end Conditional
end Parlance
