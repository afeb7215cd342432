import Parlance.Proofs.Conditional.Hygiene
import Parlance.Proofs.Instruction.Lowering
import Parlance.Proofs.Language.Standard

/-! Sessions of the standard language: an evaluator with the standard functions in which programs are run
one after the other, whether they fail or not. Between programs no hidden name is bound. -/
namespace Parlance

variable {H : Type}

theorem compileCode {l : Language} (standard : Language.standard = .ok l) {source : String}
    {program : List (Instruction H)} (h : l.compile source = .ok program) :
    ∀ i ∈ program, Code false i := by
  unfold Language.compile at h
  split at h
  · cases h
    simp
  · rename_i t tokens found
    obtain ⟨m, parsed, last⟩ := bindOk h
    obtain ⟨es, resolved, walked⟩ := bindOk (mapErrorOk last)
    have parsed := mapErrorOk parsed
    rw [← found] at parsed
    have written := Language.sourceWritten standard parsed resolved
    intro i member
    obtain ⟨e, inside, same⟩ := traverseMember walked member
    exact Lower.lowerAtCode (written e inside) same

namespace Evaluator

theorem libraryQuiet : ∀ entry ∈ standardLibrary (H := H), ¬ Hidden entry.1 ∧ entry.2.Quiet := by
  simp only [standardLibrary, List.forall_mem_cons]
  refine ⟨⟨by decide, trivial⟩, ?_⟩
  simp [Hidden, Native.Quiet]

theorem standardPlain : (standard : Evaluator H).Plain := by
  refine ⟨standardEntry.1, fun f member entry inside => ?_⟩
  obtain ⟨n, id, listed, same⟩ := standardEntry.2 entry ⟨f, member, inside⟩
  obtain ⟨visible, quiet⟩ := libraryQuiet _ listed
  have tame : (Value.function id (.native n)).Tame := quiet
  exact ⟨visible, same ▸ tame⟩

end Evaluator

inductive Session [Host H] (l : Language) : Evaluator H → Prop where
  | start : Session l Evaluator.standard
  | limited {s} (before : Session l s) (maxDepth : Nat) : Session l { s with maxDepth := maxDepth }
  | value {s after source v} (before : Session l s) (run : l.runIn source s = .value v after) :
      Session l after
  | error {s after source e} (before : Session l s) (run : l.runIn source s = .error e after) :
      Session l after

variable [Host H]

theorem runSettled {program : List (Instruction H)} (codes : ∀ i ∈ program, Code false i) (fuel : Nat)
    {s : Evaluator H} (plain : s.Plain) :
    (Evaluator.runWith (Evaluator.evalInstruction fuel) program s).Settled Value.Tame s := by
  have alike := Conditional.bodyAlike Layer.veilNil Layer.veilNil (Conditional.evalAlike fuel) codes
  obtain ⟨o, run, -, settled⟩ := alike s plain
  have bare : o.cover [] = o := by cases o <;> rfl
  rw [bare] at run
  exact run ▸ settled

theorem runInPlain {l : Language} (standard : Language.standard = .ok l) {source : String}
    {s : Evaluator H} (plain : s.Plain) :
    (∀ v after, l.runIn source s = .value v after → after.Plain) ∧
      ∀ e after, l.runIn source s = .error e after → after.Plain := by
  unfold Language.runIn
  split
  · refine ⟨nofun, fun e after same => ?_⟩
    cases same
    exact plain
  · rename_i program compiled
    have settled := runSettled (compileCode standard compiled) s.fuelFor plain
    unfold Evaluator.eval
    generalize s.fuelFor = fuel at settled
    generalize Evaluator.runWith (Evaluator.evalInstruction fuel) program s = o at settled
    constructor
    · intro v after same
      cases o <;> cases same
      exact settled.2.plain
    · intro e after same
      cases o <;> cases same
      exact settled.plain

theorem sessionPlain {l : Language} (standard : Language.standard = .ok l) {s : Evaluator H}
    (session : Session l s) : s.Plain := by
  induction session with
  | start => exact Evaluator.standardPlain
  | limited _ maxDepth before => exact ⟨before.framed, before.program⟩
  | value _ run before => exact (runInPlain standard before).1 _ _ run
  | error _ run before => exact (runInPlain standard before).2 _ _ run

end Parlance
