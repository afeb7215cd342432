import Parlance.Proofs.Conditional.Reading
import Parlance.Proofs.Evaluator.Calls

/-! The names that lowering makes up change nothing. Code under two veils is alike, as long as both give the
operands that a guard leaves out the same value; and the nested calls that the arms of a chain are lowered
to are alike to the reading of the arms. Both are shown at once, by induction on fuel. -/
namespace Parlance.Conditional

open Evaluator

variable {H : Type}

def bound (σ : List (Layer H)) : Option (Value H) :=
  find? Lower.scrutineeName (σ.map Layer.bindings)

def Sees (captured : Bool) (it it' : Option (Value H)) (σ τ : List (Layer H)) : Prop :=
  captured = true → ∃ v : Value H, v.Tame ∧ it.or (bound σ) = some v ∧ it'.or (bound τ) = some v

theorem seesNone {it it' : Option (Value H)} {σ τ : List (Layer H)} : Sees false it it' σ τ := nofun

theorem scrutineeHidden : Hidden Lower.scrutineeName := by decide

theorem calleeHidden : Hidden Lower.calleeName := by decide

theorem findBound {σ : List (Layer H)} {s : Evaluator H} (plain : s.Plain) {name : String}
    (hidden : Hidden name) {v : Value H} (found : find? name (σ.map Layer.bindings) = some v) :
    lookup name (s.cover σ) = .value v (s.cover σ) := by
  have same := Layer.findHidden hidden (fun f member e inside => (plain.program f member e inside).1) σ
  rw [found] at same
  simp [lookup, cover, same]

theorem operandFound {σ : List (Layer H)} {s : Evaluator H} (plain : s.Plain) {it : Option (Value H)}
    {v : Value H} (seen : it.or (bound σ) = some v) : operand it (s.cover σ) = .value v (s.cover σ) := by
  cases it with
  | some w =>
    cases Option.some.inj seen
    rfl
  | none => exact findBound plain scrutineeHidden seen

theorem operandAlike {it it' : Option (Value H)} {σ τ : List (Layer H)} (sees : Sees true it it' σ τ) :
    Alike σ τ Value.Tame (operand it) (operand it') := by
  obtain ⟨v, tame, seen, seen'⟩ := sees rfl
  exact .value (fun s plain => operandFound plain seen) (fun s plain => operandFound plain seen') tame

theorem boundCallee (v : Value H) (σ : List (Layer H)) :
    bound (.mask [(Lower.calleeName, v)] :: σ) = bound σ := by
  simp [bound, find?, Layer.bindings, List.lookup_cons, Lower.calleeName, Lower.scrutineeName]

theorem calleeAlike {v : Value H} (tame : v.Tame) (σ τ : List (Layer H)) :
    Alike (.mask [(Lower.calleeName, v)] :: σ) (.mask [(Lower.calleeName, v)] :: τ) Value.Tame
      (lookup Lower.calleeName) (lookup Lower.calleeName) := by
  have found : ∀ ρ : List (Layer H), find? Lower.calleeName
      ((Layer.mask [(Lower.calleeName, v)] :: ρ).map Layer.bindings) = some v := by
    simp [find?, Layer.bindings]
  exact .value (fun s plain => findBound plain calleeHidden (found σ))
    (fun s plain => findBound plain calleeHidden (found τ)) tame

theorem boundBranch (v yes no : Value H) (σ : List (Layer H)) :
    bound (.mask [] :: .extra [("?guard", v), ("?then", yes), ("?else", no)] :: σ) = bound σ := by
  simp [bound, find?, Layer.bindings, List.lookup_cons, Lower.scrutineeName]

theorem secretBranch (v yes no : Value H) :
    Layer.Secret [("?guard", v), ("?then", yes), ("?else", no)] := by
  simp [Layer.Secret, Hidden]

theorem runSingle (step : Instruction H → Eval H (Value H)) (i : Instruction H) :
    runWith step [i] = step i := by
  funext s
  simp only [runWith, runFrom, bind, Eval.bind]
  cases step i s <;> rfl

variable [Host H]

def AlikeAt (H : Type) [Host H] (fuel : Nat) : Prop :=
  ∀ ⦃captured : Bool⦄ ⦃it it' : Option (Value H)⦄ ⦃i : Instruction H⦄ ⦃σ τ : List (Layer H)⦄,
    Code captured i → Layer.Veil σ → Layer.Veil τ → Sees captured it it' σ τ →
      Alike σ τ Value.Tame (evalAs it fuel i) (evalAs it' fuel i)

section Step

variable {fuel : Nat} {captured : Bool} {it it' : Option (Value H)} {σ τ : List (Layer H)}
  (left : Layer.Veil σ) (right : Layer.Veil τ)

include left right

theorem visibleAlike {name : String} (visible : ¬ Hidden name) :
    Alike σ τ Value.Tame (evalAs it (fuel + 1) (.lookup name)) (evalAs it' (fuel + 1) (.lookup name)) := by
  have other : name ≠ Lower.scrutineeName := fun same => visible (same ▸ scrutineeHidden)
  simp only [evalAs, if_neg other]
  exact .lookup visible left right

theorem bodyAlike (here : AlikeAt H fuel) {is : List (Instruction H)} (codes : ∀ i ∈ is, Code false i) :
    Alike σ τ Value.Tame (runWith (evalInstruction fuel) is) (runWith (evalInstruction fuel) is) := by
  rw [← evalAsNone]
  exact .runWith fun i member => here (codes i member) left right seesNone

theorem invokeAlike (here : AlikeAt H fuel) {f : Function H} (tame : f.Tame) {args : List (Value H)}
    (tames : ∀ v ∈ args, v.Tame) (label : String) (byName : Bool) :
    Alike σ τ Value.Tame
      (invoke (runWith (evalInstruction fuel)) (callValue fuel) label byName f args)
      (invoke (runWith (evalInstruction fuel)) (callValue fuel) label byName f args) := by
  refine .invoke tame tames label byName fun params is same => ?_
  subst same
  exact bodyAlike (Layer.veilMask Layer.secretNil left.secret)
    (Layer.veilMask Layer.secretNil right.secret) here tame.2

theorem callAlike (here : AlikeAt H fuel) {callee : Value H} (tame : callee.Tame)
    {args : List (Value H)} (tames : ∀ v ∈ args, v.Tame) (label : String) (byName : Bool) :
    Alike σ τ Value.Tame
      (invokeValue (runWith (evalInstruction fuel)) (callValue fuel) label byName callee args)
      (invokeValue (runWith (evalInstruction fuel)) (callValue fuel) label byName callee args) := by
  cases callee with
  | function id f => exact invokeAlike left right here tame tames label byName
  | nil => exact .fail _
  | integer n => exact .fail _
  | float x => exact .fail _

theorem argumentsAlike (here : AlikeAt H fuel) {args : List (Instruction H)}
    (parts : ∀ i ∈ args, Code captured i) (sees : Sees captured it it' σ τ) :
    Alike σ τ (fun vs => ∀ v ∈ vs, v.Tame) (evalEach (evalAs it fuel) args)
      (evalEach (evalAs it' fuel) args) :=
  .evalEach fun i member => here (parts i member) left right sees

theorem namedAlike (here : AlikeAt H fuel) {args : List (Instruction H)}
    (parts : ∀ i ∈ args, Code captured i) (sees : Sees captured it it' σ τ) {name : String}
    (callee : Alike σ τ Value.Tame (lookup name) (lookup name)) :
    Alike σ τ Value.Tame (evalAs it (fuel + 1) (.call name args))
      (evalAs it' (fuel + 1) (.call name args)) := by
  simp only [evalAs]
  refine callee.bind fun v tame => ?_
  exact (argumentsAlike left right here parts sees).bind fun vs tames =>
    callAlike left right here tame tames name true

theorem computedAlike (before : ∀ k < fuel, AlikeAt H k) {v : Value H} (tame : v.Tame)
    {args : List (Instruction H)} (parts : ∀ i ∈ args, Code captured i)
    (sees : Sees captured it it' σ τ) :
    Alike σ τ Value.Tame
      (inFrame [(Lower.calleeName, v)] (runWith (evalAs it fuel) [.call Lower.calleeName args]))
      (inFrame [(Lower.calleeName, v)] (runWith (evalAs it' fuel) [.call Lower.calleeName args])) := by
  have secret : Layer.Secret [(Lower.calleeName, v)] := by simpa [Layer.Secret] using calleeHidden
  have left' := Layer.veilMask secret left.secret
  have right' := Layer.veilMask secret right.secret
  have sees' : Sees captured it it' (.mask [(Lower.calleeName, v)] :: σ)
      (.mask [(Lower.calleeName, v)] :: τ) := by
    simpa only [Sees, boundCallee] using sees
  rw [runSingle, runSingle]
  cases fuel with
  | zero => exact .inMask .outOfFuel
  | succ fuel =>
    exact .inMask (namedAlike left' right' (before fuel (by omega)) parts sees' (calleeAlike tame σ τ))

end Step

def branchOn (fuel : Nat) (block : List (Instruction H)) (otherwise : Instruction H) (v : Value H) :
    Eval H (Value H) := do
  let yes ← make (.user [] block)
  let no ← make (.user [] [otherwise])
  inFrame [("?guard", v), ("?then", yes), ("?else", no)]
    (callValue (fuel + 1) (if v.isTruthy then yes else no) [])

theorem branchRun (it : Option (Value H)) (fuel : Nat) (guard otherwise : Instruction H)
    (block : List (Instruction H)) :
    evalAs it (fuel + 2) (.callNative .branch [guard, .function [] block, .function [] [otherwise]]) =
      evalAs it (fuel + 1) guard >>= branchOn fuel block otherwise := by
  funext s
  change (evalEach (evalAs it (fuel + 1)) [guard, .function [] block, .function [] [otherwise]] >>=
    _) s = _
  simp only [evalEach, bind, Eval.bind]
  cases evalAs it (fuel + 1) guard s <;> rfl

theorem branchAlike {σ τ : List (Layer H)} {fuel : Nat} {block : List (Instruction H)}
    {otherwise : Instruction H} {v : Value H} {y : Eval H (Value H)}
    (chosen : ∀ hidden : Frame H, Layer.Secret hidden →
      bound (.mask [] :: .extra hidden :: σ) = bound σ →
      Alike (.mask [] :: .extra hidden :: σ) (.mask [] :: τ) Value.Tame
        (runWith (evalInstruction fuel) (if v.isTruthy then block else [otherwise])) y) :
    Alike σ τ Value.Tame (branchOn fuel block otherwise v) (do setAside; inFrame [] y) := by
  intro s plain
  let yes : Value H := .function s.nextId (.user [] block)
  let no : Value H := .function (s.nextId + 1) (.user [] [otherwise])
  have run : callValue (fuel + 1) (if v.isTruthy then yes else no) [] =
      inFrame [] (runWith (evalInstruction fuel) (if v.isTruthy then block else [otherwise])) := by
    split <;> rfl
  have inner := chosen _ (secretBranch v yes no) (boundBranch v yes no σ)
  obtain ⟨o, left, right, settled⟩ :=
    inner.inMask.inExtra { s with nextId := s.nextId + 2 } ⟨plain.framed, plain.program⟩
  rw [← run] at left
  refine ⟨o, left, right, ?_⟩
  cases o with
  | value a after => exact ⟨settled.1, settled.2.plain, settled.2.frames, settled.2.depth⟩
  | error e after => exact ⟨settled.plain, settled.frames, settled.depth⟩
  | outOfFuel => trivial

theorem catchAllRun (it : Option (Value H)) (fuel : Nat) (block : List (Instruction H)) :
    evalAs it (fuel + 1) (.callFunction [] block []) = inFrame [] (runWith (evalAs it fuel) block) := rfl

theorem wrapperRun (it : Option (Value H)) (fuel : Nat) (name : String) (value body : Instruction H) :
    evalAs it (fuel + 1) (.callFunction [name] [body] [value]) =
      evalAs it fuel value >>= fun v =>
        inFrame [(name, v)]
          (runWith (evalAs (if [name] = [Lower.scrutineeName] then none else it) fuel) [body]) := by
  funext s
  change (evalEach (evalAs it fuel) [value] >>= _) s = _
  simp only [evalEach, bind, Eval.bind]
  cases evalAs it fuel value s <;> rfl

theorem chainRun (it : Option (Value H)) (fuel : Nat) (value body : Instruction H) :
    evalAs it (fuel + 1) (.callFunction [Lower.scrutineeName] [body] [value]) =
      evalAs it fuel value >>= fun v =>
        inFrame [(Lower.scrutineeName, v)] (runWith (evalAs none fuel) [body]) := by
  simp [wrapperRun]

theorem computedRun (it : Option (Value H)) (fuel : Nat) (callee body : Instruction H) :
    evalAs it (fuel + 1) (.callFunction [Lower.calleeName] [body] [callee]) =
      evalAs it fuel callee >>= fun v =>
        inFrame [(Lower.calleeName, v)] (runWith (evalAs it fuel) [body]) := by
  simp [wrapperRun, Lower.calleeName, Lower.scrutineeName]

theorem cascadeReads {fuel : Nat} (before : ∀ k < fuel, AlikeAt H k) {captured : Bool}
    {it it' : Option (Value H)} {arms : List (Arm H)} {σ τ : List (Layer H)}
    (guards : ∀ arm ∈ arms, ∀ g, arm.guard = .test g → Code captured g)
    (blocks : ∀ arm ∈ arms, ∀ i ∈ arm.block, Code false i)
    (left : Layer.Veil σ) (right : Layer.Veil τ)
    (first : Sees captured it it' σ τ) (later : Sees captured none it' σ τ) :
    Alike σ τ Value.Tame (evalAs it fuel (cascade arms)) (readArms it' fuel arms) := by
  -- By induction on the arms: each guard is alike at once, and the arms after it run under one more frame of the
  -- branching native and a fresh one, with their operands looked up in the veil from there on.
  induction arms generalizing fuel it σ τ with
  | nil =>
    cases fuel with
    | zero => exact .outOfFuel
    | succ fuel => exact .pure trivial
  | cons arm rest ih =>
    obtain ⟨guard, block⟩ := arm
    have codes : ∀ i ∈ block, Code false i := blocks _ List.mem_cons_self
    cases guard with
    | catchAll =>
      cases fuel with
      | zero => exact .outOfFuel
      | succ fuel =>
        have left' := Layer.veilMask Layer.secretNil left.secret
        have right' := Layer.veilMask Layer.secretNil right.secret
        simp only [cascade, catchAllRun, readArms, ← evalAsNone]
        exact .inMask (.runWith fun i member => before fuel (by omega) (codes i member) left' right' seesNone)
    | test guard =>
      match fuel with
      | 0 => exact .outOfFuel
      | 1 => exact .outOfFuel
      | fuel + 2 =>
        have code : Code captured guard := guards _ List.mem_cons_self guard rfl
        have below : ∀ k < fuel + 1, AlikeAt H k := fun k less => before k (by omega)
        simp only [cascade, branchRun, readArms]
        refine (before (fuel + 1) (by omega) code left right first).bind fun v tame => ?_
        refine branchAlike fun hidden secret same => ?_
        have covered : ∀ layer ∈ .extra hidden :: σ, Layer.Secret layer.bindings :=
          Layer.secretCons secret left.secret
        have left' := Layer.veilMask Layer.secretNil covered
        have right' := Layer.veilMask Layer.secretNil right.secret
        cases v.isTruthy with
        | true => exact bodyAlike left' right' (below fuel (by omega)) codes
        | false =>
          have sees : Sees captured none it' (.mask [] :: .extra hidden :: σ) (.mask [] :: τ) := by
            intro guarded
            obtain ⟨v, tame, seen, seen'⟩ := later guarded
            exact ⟨v, tame, by rw [same]; exact seen, seen'⟩
          simp only [Bool.false_eq_true, if_false, runSingle, ← evalAsNone]
          exact ih (fun k less => below k (by omega))
            (fun arm member => guards arm (List.mem_cons_of_mem _ member))
            (fun arm member => blocks arm (List.mem_cons_of_mem _ member)) left' right' sees sees

theorem scrutineeReads {fuel : Nat} (before : ∀ k < fuel, AlikeAt H k) {v : Value H} (tame : v.Tame)
    {arms : List (Arm H)} {σ τ : List (Layer H)}
    (guards : ∀ arm ∈ arms, ∀ g, arm.guard = .test g → Code true g)
    (blocks : ∀ arm ∈ arms, ∀ i ∈ arm.block, Code false i)
    (left : Layer.Veil σ) (right : Layer.Veil τ) :
    Alike σ τ Value.Tame (inFrame [(Lower.scrutineeName, v)] (runWith (evalAs none fuel) [cascade arms]))
      (inFrame [] (readArms (some v) fuel arms)) := by
  have secret : Layer.Secret [(Lower.scrutineeName, v)] := by simpa [Layer.Secret] using scrutineeHidden
  have left' := Layer.veilMask secret left.secret
  have right' := Layer.veilMask Layer.secretNil right.secret
  have sees : Sees true none (some v) (.mask [(Lower.scrutineeName, v)] :: σ) (.mask [] :: τ) :=
    fun _ => ⟨v, tame, by simp [bound, find?, Layer.bindings], rfl⟩
  rw [runSingle]
  exact .inMask (cascadeReads before guards blocks left' right' sees sees)

theorem evalAlike (fuel : Nat) : AlikeAt H fuel := by
  -- Chains under two veils are alike because both are alike to the reading under none.
  induction fuel using Nat.strongRecOn with
  | ind fuel before =>
    intro captured it it' i σ τ code left right sees
    cases fuel with
    | zero => exact .outOfFuel
    | succ fuel =>
      have here := before fuel (by omega)
      have earlier : ∀ k < fuel, AlikeAt H k := fun k less => before k (by omega)
      cases code with
      | literal => exact .pure (dataTame (literalData _))
      | lookup visible => exact visibleAlike left right visible
      | scrutinee => simpa [evalAs] using operandAlike sees
      | assign visible part =>
        exact (here part left right sees).bind fun v tame => .assign visible tame left right
      | function visible parts => exact .make ⟨visible, parts⟩
      | call visible parts => exact namedAlike left right here parts sees (.lookup visible left right)
      | group parts =>
        have tame : (Function.native (.group : Native H)).Tame := trivial
        exact (argumentsAlike left right here parts sees).bind fun vs tames =>
          invokeAlike left right here tame tames anonymous false
      | computed part parts =>
        simp only [computedRun]
        exact (here part left right sees).bind fun v tame =>
          computedAlike left right earlier tame parts sees
      | bare guards blocks =>
        have reads := @cascadeReads H _ (fuel + 1) before false it none _ σ [] guards blocks left
          Layer.veilNil seesNone seesNone
        have reads' := @cascadeReads H _ (fuel + 1) before false it' none _ τ [] guards blocks right
          Layer.veilNil seesNone seesNone
        exact reads.trans reads'.symm
      | chain part guards blocks =>
        simp only [chainRun]
        refine (here part left right sees).bind fun v tame => ?_
        have reads := scrutineeReads earlier tame guards blocks left Layer.veilNil
        have reads' := scrutineeReads earlier tame guards blocks right Layer.veilNil
        exact reads.trans reads'.symm

end Parlance.Conditional
