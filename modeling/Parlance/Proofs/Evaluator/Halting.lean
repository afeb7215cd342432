import Parlance.Proofs.Evaluator.Agree
import Parlance.Proofs.Evaluator.Entries
import Parlance.Proofs.Instruction.Nesting
import Parlance.Proofs.Language.Session

/-! Evaluation of programs halts. A call that is not counted runs what is nested in the instruction that
makes it; a counted one runs a body that may be as deep as any, and there is room for one less. So what is
nested `n` deep, with room for `d` more calls, needs fuel for `n` levels and for `d` bodies at most. -/
namespace Parlance

variable {H α : Type}

def Instruction.Programmed (i : Instruction H) : Prop :=
  ∃ (l : Language) (source : String) (program : List (Instruction H)),
    l.compile source = .ok program ∧ ∃ whole ∈ program, whole.Part i

theorem programmedPart {i c : Instruction H} (h : i.Programmed) (member : c ∈ i.parts) :
    c.Programmed := by
  obtain ⟨l, source, program, compiled, whole, inside, part⟩ := h
  exact ⟨l, source, program, compiled, whole, inside, Instruction.partInner part member⟩

theorem programmedNested {i : Instruction H} (h : i.Programmed) : Nested Language.deepest i := by
  obtain ⟨l, source, program, compiled, whole, inside, part⟩ := h
  exact nestedPart (Language.compileNested compiled whole inside) part

def Function.Programmed : Function H → Prop
  | .user params body => (Instruction.function params body).Programmed
  | .native n => ∃ name, (name, n) ∈ standardLibrary

/-- Nil, a number, a native of the standard library or a function that a program makes. -/
def Value.Programmed : Value H → Prop
  | .function _ f => f.Programmed
  | _ => True

theorem dataProgrammed {v : Value H} (data : v.IsData) : v.Programmed := by
  cases v with
  | function id f => contradiction
  | nil => trivial
  | integer n => trivial
  | float x => trivial

def Evaluator.Programmed (s : Evaluator H) : Prop :=
  ∀ entry, Bound s.frames entry → entry.2.Programmed

/-- Every frame holds values of programs, before and after, and there is room for so many calls. -/
structure Spends (room : Nat) (s after : Evaluator H) : Prop where
  before : s.Programmed
  programmed : after.Programmed
  depth : after.depth = s.depth
  limit : after.maxDepth = s.maxDepth
  room : s.maxDepth ≤ s.depth + room

theorem spendsSelf {room : Nat} {s : Evaluator H} (programmed : s.Programmed)
    (enough : s.maxDepth ≤ s.depth + room) : Spends room s s :=
  ⟨programmed, programmed, rfl, rfl, enough⟩

theorem spendsComposes (room : Nat) : Composes (Spends (H := H) room) where
  onward h := spendsSelf h.programmed (by rw [h.depth, h.limit]; exact h.room)
  trans first second := ⟨first.before, second.programmed, second.depth.trans first.depth,
    second.limit.trans first.limit, first.room⟩

abbrev Halts (room : Nat) (x y : Eval H (Value H)) : Prop :=
  Agree (Spends room) False Value.Programmed x y

namespace Halts

variable {room : Nat} {x y : Eval H (Value H)}

theorem lookup (name : String) :
    Halts room (Evaluator.lookup (H := H) name) (Evaluator.lookup name) := by
  intro s start
  refine ⟨rfl, ?_⟩
  unfold Evaluator.lookup
  split
  · rename_i v found
    exact ⟨start.before _ (Evaluator.findEntry found), start⟩
  · exact start

theorem assign (name : String) {v : Value H} (programmed : v.Programmed) :
    Halts room (Evaluator.assign name v) (Evaluator.assign name v) := by
  refine fun s start => ⟨rfl, programmed, start.before, fun entry bound => ?_, rfl, rfl, start.room⟩
  rcases Evaluator.assignEntry bound with rfl | earlier
  · exact programmed
  · exact start.before entry earlier

theorem make {f : Function H} (programmed : f.Programmed) :
    Agree (Spends room) False (fun v => v.Programmed ∧ v.asFunction? = some f) (Evaluator.make f)
      (Evaluator.make f) := fun _ start =>
  ⟨rfl, ⟨programmed, rfl⟩, start.before, start.before, rfl, rfl, start.room⟩

theorem inFrame {f : Frame H} (programmed : ∀ entry ∈ f, entry.2.Programmed) (h : Halts room x y) :
    Halts room (Evaluator.inFrame f x) (Evaluator.inFrame f y) := by
  intro s start
  simp only [Evaluator.inFrameRun]
  have pushed : (s.push f).Programmed := fun entry bound =>
    (Evaluator.boundCons.mp bound).elim (programmed entry) (start.before entry)
  refine Agree.leaving h (spendsSelf pushed start.room) fun after kept => ?_
  have popped : after.pop.Programmed := by
    rintro entry ⟨g, member, inside⟩
    exact kept.programmed entry ⟨g, List.mem_of_mem_tail member, inside⟩
  exact ⟨start.before, popped, kept.depth, kept.limit, start.room⟩

theorem counted (h : ∀ less, room = less + 1 → Halts less x y) :
    Halts room (Evaluator.counted x) (Evaluator.counted y) := by
  intro s start
  by_cases full : s.depth ≥ s.maxDepth
  · simp only [Evaluator.counted, if_pos full]
    exact ⟨trivial, start⟩
  · have enough := start.room
    obtain ⟨less, rfl⟩ : ∃ less, room = less + 1 := ⟨room - 1, by omega⟩
    rw [Evaluator.countedRun x full, Evaluator.countedRun y full]
    have entered : Spends less s.enter s.enter :=
      spendsSelf start.before (by simp only [Evaluator.enter]; omega)
    refine Agree.leaving (h less rfl) entered fun after kept => ?_
    have depth : after.depth = s.depth + 1 := kept.depth
    exact ⟨start.before, kept.programmed, by simp [Evaluator.leave, depth], kept.limit, start.room⟩

variable [Host H]

theorem invoke {run run' : List (Instruction H) → Eval H (Value H)}
    {callBack callBack' : Value H → List (Value H) → Eval H (Value H)} {f : Function H}
    {args : List (Value H)} (programmed : ∀ v ∈ args, v.Programmed) (label : String) (byName : Bool)
    (natives : ∀ n, f = .native n → n.Quiet)
    (bodies : ∀ params body less, f = .user params body → room = less + byName.toNat →
      Halts less (run body) (run' body)) :
    Halts room (Evaluator.invoke run callBack label byName f args)
      (Evaluator.invoke run' callBack' label byName f args) := by
  unfold Evaluator.invoke
  split
  · exact .fail _
  · cases f with
    | user params body =>
      have framed : ∀ entry ∈ Frame.bindAll params args [], entry.2.Programmed := by
        intro entry member
        rcases Frame.bindAllEntry member with bound | absent
        · exact programmed _ bound.2
        · simp at absent
      cases byName with
      | false => exact inFrame framed (bodies params body room rfl rfl)
      | true => exact counted fun less same => inFrame framed (bodies params body less rfl same)
    | native n =>
      obtain ⟨r, results, same⟩ := Alike.quietResult (natives n rfl) args
      simp only [same, Alike.inFrameExcept]
      exact .ofExcept fun v h => (results v h).elim (programmed v) dataProgrammed

end Halts

namespace Evaluator

theorem libraryNative {n : Native H} (programmed : (Function.native n).Programmed) : n.Quiet := by
  obtain ⟨name, member⟩ := programmed
  exact (libraryQuiet _ member).2

variable [Host H]

def HaltsAt (H : Type) [Host H] (fuel : Nat) : Prop :=
  ∀ ⦃more n room : Nat⦄ ⦃i : Instruction H⦄, fuel ≤ more → i.Programmed → Nested n i →
    n ≤ Language.deepest → n + room * Language.deepest ≤ fuel →
      Halts room (evalInstruction fuel i) (evalInstruction more i)

section Step

variable {fuel more n room : Nat} (here : HaltsAt H fuel) (le : fuel ≤ more)
  (bounded : n ≤ Language.deepest) (enough : n + room * Language.deepest ≤ fuel)

include here le bounded enough

theorem argumentsHalt {args : List (Instruction H)} (programmed : ∀ i ∈ args, i.Programmed)
    (nested : ∀ i ∈ args, Nested n i) :
    Agree (Spends room) False (fun vs => ∀ v ∈ vs, v.Programmed)
      (evalEach (evalInstruction fuel) args) (evalEach (evalInstruction more) args) :=
  .evalEach (spendsComposes room) fun i member =>
    here le (programmed i member) (nested i member) bounded enough

theorem bodyHalts {body : List (Instruction H)} (programmed : ∀ i ∈ body, i.Programmed)
    (nested : ∀ i ∈ body, Nested n i) :
    Halts room (runWith (evalInstruction fuel) body) (runWith (evalInstruction more) body) :=
  .runWith (spendsComposes room) (fun i member =>
    here le (programmed i member) (nested i member) bounded enough) trivial

theorem ownCallHalts {params : List String} {body : List (Instruction H)} {args : List (Value H)}
    (programmed : ∀ i ∈ body, i.Programmed) (nested : ∀ i ∈ body, Nested n i)
    (values : ∀ v ∈ args, v.Programmed) :
    Halts room
      (invoke (runWith (evalInstruction fuel)) (callValue fuel) anonymous false (.user params body) args)
      (invoke (runWith (evalInstruction more)) (callValue more) anonymous false (.user params body)
        args) := by
  refine .invoke values anonymous false nofun fun params' body' less same spent => ?_
  cases same
  cases spent
  exact bodyHalts here le bounded enough programmed nested

theorem chosenHalts {body : List (Instruction H)} (programmed : ∀ i ∈ body, i.Programmed)
    (nested : ∀ i ∈ body, Nested n i) {v : Value H} (made : v.asFunction? = some (.user [] body)) :
    Halts room (callValue (fuel + 1) v []) (callValue (more + 1) v []) := by
  cases v with
  | function id f =>
    cases made
    simp only [callValue, invokeValue]
    exact ownCallHalts here le bounded enough programmed nested (by simp)
  | nil => contradiction
  | integer n => contradiction
  | float x => contradiction

theorem branchHalts {block : List (Instruction H)} {otherwise : Instruction H}
    (yes : (Instruction.function [] block).Programmed)
    (no : (Instruction.function [] [otherwise]).Programmed) (blockNested : ∀ i ∈ block, Nested n i)
    (restNested : Nested n otherwise) {v : Value H} (programmed : v.Programmed) :
    Halts room (Conditional.branchOn fuel block otherwise v)
      (Conditional.branchOn more block otherwise v) := by
  have inBlock : ∀ i ∈ block, i.Programmed := fun i member => programmedPart yes member
  have inRest : ∀ i ∈ [otherwise], i.Programmed := fun i member => programmedPart no member
  have made : (Function.user [] block).Programmed := yes
  have made' : (Function.user [] [otherwise]).Programmed := no
  refine (Halts.make made).bind (spendsComposes room) fun first isFirst => ?_
  refine (Halts.make made').bind (spendsComposes room) fun second isSecond => ?_
  refine Halts.inFrame (by simpa using ⟨programmed, isFirst.1, isSecond.1⟩) ?_
  cases v.isTruthy with
  | true => exact chosenHalts here le bounded enough inBlock blockNested isFirst.2
  | false => exact chosenHalts here le bounded enough inRest (by simpa using restNested) isSecond.2

end Step

theorem namedHalts {fuel more n room : Nat} (here : HaltsAt H fuel) (le : fuel ≤ more)
    (enough : n + room * Language.deepest ≤ fuel) {callee : Value H} (programmed : callee.Programmed)
    {args : List (Value H)} (values : ∀ v ∈ args, v.Programmed) (name : String) :
    Halts room
      (invokeValue (runWith (evalInstruction fuel)) (callValue fuel) name true callee args)
      (invokeValue (runWith (evalInstruction more)) (callValue more) name true callee args) := by
  cases callee with
  | function id f =>
    refine .invoke values name true (fun n same => ?_) fun params body less same spent => ?_
    · subst same
      exact libraryNative programmed
    · subst same
      have inner : ∀ i ∈ body, i.Programmed := fun i member => programmedPart programmed member
      have enough' : Language.deepest + less * Language.deepest ≤ fuel := by
        rw [spent, Bool.toNat_true, Nat.succ_mul] at enough
        omega
      exact bodyHalts here le (Nat.le_refl _) enough' inner fun i member => programmedNested (inner i member)
  | nil => exact .fail _
  | integer n => exact .fail _
  | float x => exact .fail _

theorem evalHaltsAt (fuel : Nat) : HaltsAt H fuel := by
  induction fuel using Nat.strongRecOn with
  | ind fuel before =>
    intro more n room i le programmed nested bounded enough
    have parts : ∀ c ∈ i.parts, c.Programmed := fun c member => programmedPart programmed member
    have positive : 0 < n := by cases nested <;> omega
    obtain ⟨fuel, rfl⟩ : ∃ less, fuel = less + 1 := ⟨fuel - 1, by omega⟩
    obtain ⟨more, rfl⟩ : ∃ less, more = less + 1 := ⟨more - 1, by omega⟩
    have here := before fuel (by omega)
    have le : fuel ≤ more := by omega
    cases nested with
    | literal => exact .pure (dataProgrammed (literalData _))
    | lookup => exact .lookup _
    | @assign m _ name value less part =>
      have enough' : m + room * Language.deepest ≤ fuel := by omega
      have value := here le (parts _ (by simp [Instruction.parts])) part (by omega) enough'
      exact value.bind (spendsComposes room) fun v valued => Halts.assign name valued
    | @function m _ params body =>
      have made : (Function.user params body).Programmed := programmed
      exact (Halts.make made).mono fun v made => made.1
    | @call m _ name args less inner =>
      have enough' : m + room * Language.deepest ≤ fuel := by omega
      refine (Halts.lookup name).bind (spendsComposes room) fun callee made => ?_
      have arguments := argumentsHalt here le (by omega) enough' parts inner
      exact arguments.bind (spendsComposes room) fun vs values =>
        namedHalts here le enough' made values name
    | @callFunction m _ params body args less inner inner' =>
      have enough' : m + room * Language.deepest ≤ fuel := by omega
      have arguments := argumentsHalt here le (by omega) enough'
        (fun c member => parts c (List.mem_append_right _ member)) inner'
      exact arguments.bind (spendsComposes room) fun vs values =>
        ownCallHalts here le (by omega) enough' (fun c member => parts c (List.mem_append_left _ member))
          inner values
    | @group m _ args less inner =>
      have enough' : m + room * Language.deepest ≤ fuel := by omega
      have arguments := argumentsHalt here le (by omega) enough' parts inner
      refine arguments.bind (spendsComposes room) fun vs values => ?_
      exact Halts.invoke values anonymous false (fun n same => by cases same; trivial)
        fun _ _ _ same => by contradiction
    | @branch m _ guard block otherwise less first inner rest =>
      obtain ⟨fuel, rfl⟩ : ∃ less, fuel = less + 1 := ⟨fuel - 1, by omega⟩
      obtain ⟨more, rfl⟩ : ∃ less, more = less + 1 := ⟨more - 1, by omega⟩
      have enough' : m + room * Language.deepest ≤ fuel := by omega
      have yes := parts (.function [] block) (by simp [Instruction.parts])
      have no := parts (.function [] [otherwise]) (by simp [Instruction.parts])
      have atGuard : m + 1 + room * Language.deepest ≤ fuel + 1 := by omega
      have value := here le (parts guard (by simp [Instruction.parts])) first (by omega) atGuard
      simp only [← Conditional.evalAsNone, Conditional.branchRun]
      simp only [Conditional.evalAsNone]
      exact value.bind (spendsComposes room) fun v valued =>
        branchHalts (before fuel (by omega)) (by omega) (by omega) enough' yes no inner rest valued

omit [Host H] in
theorem fuelSuffices (s : Evaluator H) :
    Language.deepest + s.maxDepth * Language.deepest ≤ s.fuelFor := by
  have most : Language.deepest ≤ twoTo 62 := by decide
  have grown := Nat.mul_le_mul_right (s.maxDepth + 1) most
  rw [Nat.mul_succ, Nat.mul_comm Language.deepest] at grown
  unfold fuelFor
  omega

theorem programHalts {l : Language} {source : String} {program : List (Instruction H)}
    (compiled : l.compile source = .ok program) {s : Evaluator H} {fuel : Nat} (le : s.fuelFor ≤ fuel) :
    Halts s.maxDepth (runWith (evalInstruction s.fuelFor) program)
      (runWith (evalInstruction fuel) program) := by
  have parts : ∀ i ∈ program, i.Programmed := fun i member =>
    ⟨l, source, program, compiled, i, member, .self⟩
  exact bodyHalts (evalHaltsAt s.fuelFor) le (Nat.le_refl _) (fuelSuffices s) parts fun i member =>
    programmedNested (parts i member)

theorem evalEnds {l : Language} {source : String} {program : List (Instruction H)}
    (compiled : l.compile source = .ok program) {s : Evaluator H} (programmed : s.Programmed) :
    (eval program s).Ends False Value.Programmed Evaluator.Programmed := by
  have start : Spends s.maxDepth s s := spendsSelf programmed (Nat.le_add_left _ _)
  exact Outcome.endsMono (programHalts compiled (Nat.le_refl _) s start).2 (fun _ valued => valued)
    fun _ spent => spent.programmed

/-- Where the frames hold what programs make and the standard library, a program ends in a value or an error,
whatever it rebinds and calls, and the frames hold such values again. More fuel than it gets would not
change that. -/
theorem evalHalts {l : Language} {source : String} {program : List (Instruction H)}
    (compiled : l.compile source = .ok program) {s : Evaluator H} (programmed : s.Programmed) :
    ((∃ v after, eval program s = .value v after ∧ v.Programmed ∧ after.Programmed) ∨
      ∃ e after, eval program s = .error e after ∧ after.Programmed) ∧
    ∀ fuel, s.fuelFor ≤ fuel → runWith (evalInstruction fuel) program s = eval program s := by
  have start : Spends s.maxDepth s s := spendsSelf programmed (Nat.le_add_left _ _)
  refine ⟨?_, fun fuel le => (programHalts compiled le s start).1.symm⟩
  have ends := evalEnds compiled programmed
  revert ends
  cases eval program s with
  | value v after => exact fun ends => .inl ⟨v, after, rfl, ends⟩
  | error e after => exact fun ends => .inr ⟨e, after, rfl, ends⟩
  | outOfFuel => exact False.elim

omit [Host H] in
theorem standardProgrammed : (standard : Evaluator H).Programmed := by
  intro entry bound
  obtain ⟨n, id, member, same⟩ := standardEntry.2 entry bound
  rw [same]
  exact ⟨entry.1, member⟩

omit [Host H] in
theorem limitedProgrammed {s : Evaluator H} (programmed : s.Programmed) (maxDepth : Nat) :
    Programmed { s with maxDepth := maxDepth } := programmed

def fails (source : String) (s : Evaluator Empty) (e : EvalError) : Bool :=
  match Language.standard with
  | .error _ => false
  | .ok l =>
    match l.compile source with
    | .error _ => false
    | .ok program =>
      match eval program s with
      | .error found _ => found == e
      | _ => false

theorem selfCallHalts :
    ∃ (l : Language) (program : List (Instruction Empty)) (s after : Evaluator Empty),
      l.compile "f = []\x7b f() \x7d; f()" = .ok program ∧ s.Programmed ∧
      eval program s = .error (.callDepthExceeded 3) after ∧ after.Programmed := by
  let s : Evaluator Empty := { standard with maxDepth := 3 }
  have run : fails "f = []\x7b f() \x7d; f()" s (.callDepthExceeded 3) = true := by decide +kernel
  unfold fails at run
  split at run
  · contradiction
  rename_i l _
  split at run
  · contradiction
  rename_i program compiled
  have programmed : s.Programmed := limitedProgrammed standardProgrammed 3
  rcases (evalHalts compiled programmed).1 with ⟨v, after, ended, -⟩ | ⟨e, after, ended, kept⟩
  · simp [ended] at run
  · simp only [ended, beq_iff_eq] at run
    exact ⟨l, program, s, after, compiled, programmed, run ▸ ended, kept⟩

end Evaluator
end Parlance
