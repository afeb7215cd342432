import Mathlib.Logic.Relation
import Parlance.Proofs.Matching.OrderedChoice

/-! Matching halts. A run of the matcher is told with loops that no number of rounds bounds, so there is a run
only where every loop comes to its end. Each round but the last takes tokens, and a rule is tried with one
level less than the rule it is tried for. A rule whose first arms lead back to a rule already passed takes no
token before it is tried again, and is cut off under every limit. -/
namespace Parlance

namespace Tree

theorem fieldsHeightAppend (xs ys : List (String × Tree)) :
    fieldsHeight (xs ++ ys) = max (fieldsHeight xs) (fieldsHeight ys) := by
  induction xs with
  | nil => simp [fieldsHeight]
  | cons entry rest ih => simp [fieldsHeight, ih, Nat.max_assoc]

end Tree

namespace Matching

abbrev Running (α : Type) := Cursor → Outcome α → List Tree → Prop

/-- The loop of a repeated arm. It goes on until its rule fails, is cut off or covers nothing. -/
inductive LoopRuns (step : Running Tree) (field : String) : Running (List (String × Tree)) where
  | stop {c after inner} (fails : step c (.failed, after) inner) :
      LoopRuns step field c (.matched [], after) []
  | idle {c t after inner} (matched : step c (.matched t, after) inner) (empty : t.isEmpty = true) :
      LoopRuns step field c (.matched [], after) []
  | cut {c after inner} (deep : step c (.tooDeep, after) inner) :
      LoopRuns step field c (.tooDeep, after) []
  | more {c t middle inner fields after others} (matched : step c (.matched t, middle) inner)
      (full : t.isEmpty = false) (later : LoopRuns step field middle (.matched fields, after) others) :
      LoopRuns step field c (.matched ((field, t) :: fields), after) (t :: inner ++ others)
  | laterCut {c t middle inner after others} (matched : step c (.matched t, middle) inner)
      (full : t.isEmpty = false) (later : LoopRuns step field middle (.tooDeep, after) others) :
      LoopRuns step field c (.tooDeep, after) []

variable {n : Nat}

inductive ArmRuns (step : Fin n → Running Tree) (arm : Arm n) : Running (List (String × Tree)) where
  | present {c t after inner} (single : arm.times ≠ .many)
      (matched : step arm.rule c (.matched t, after) inner) :
      ArmRuns step arm c (.matched [(arm.field, t)], after) inner
  | missing {c after inner} (times : arm.times = .once) (fails : step arm.rule c (.failed, after) inner) :
      ArmRuns step arm c (.failed, after) []
  | absent {c after inner} (times : arm.times = .optional)
      (fails : step arm.rule c (.failed, after) inner) : ArmRuns step arm c (.matched [], after) []
  | cut {c after inner} (single : arm.times ≠ .many) (deep : step arm.rule c (.tooDeep, after) inner) :
      ArmRuns step arm c (.tooDeep, after) []
  | many {c out starred} (times : arm.times = .many)
      (repeated : LoopRuns (step arm.rule) arm.field c out starred) : ArmRuns step arm c out starred

inductive ArmsRun (step : Fin n → Running Tree) : List (Arm n) → Running (List (String × Tree)) where
  | nil {c} : ArmsRun step [] c (.matched [], c) []
  | cons {arm arms c fields middle starred rest after more}
      (first : ArmRuns step arm c (.matched fields, middle) starred)
      (others : ArmsRun step arms middle (.matched rest, after) more) :
      ArmsRun step (arm :: arms) c (.matched (fields ++ rest), after) (starred ++ more)
  | firstFails {arm arms c after starred} (first : ArmRuns step arm c (.failed, after) starred) :
      ArmsRun step (arm :: arms) c (.failed, after) []
  | firstCut {arm arms c after starred} (first : ArmRuns step arm c (.tooDeep, after) starred) :
      ArmsRun step (arm :: arms) c (.tooDeep, after) []
  | laterFails {arm arms c fields middle starred after more}
      (first : ArmRuns step arm c (.matched fields, middle) starred)
      (others : ArmsRun step arms middle (.failed, after) more) :
      ArmsRun step (arm :: arms) c (.failed, Tree.unwindFields fields after) []
  | laterCut {arm arms c fields middle starred after more}
      (first : ArmRuns step arm c (.matched fields, middle) starred)
      (others : ArmsRun step arms middle (.tooDeep, after) more) :
      ArmsRun step (arm :: arms) c (.tooDeep, after) []

inductive BranchesRun (step : Fin n → Running Tree) (rule : String) :
    List (Branch n) → Running Tree where
  | none {c} : BranchesRun step rule [] c (.failed, c) []
  | here {branch branches c fields after starred}
      (arms : ArmsRun step branch.arms c (.matched fields, after) starred) :
      BranchesRun step rule (branch :: branches) c (.matched (.composite rule branch.name fields), after)
        starred
  | later {branch branches c middle starred out more}
      (arms : ArmsRun step branch.arms c (.failed, middle) starred)
      (others : BranchesRun step rule branches middle out more) :
      BranchesRun step rule (branch :: branches) c out more
  | cut {branch branches c after starred}
      (arms : ArmsRun step branch.arms c (.tooDeep, after) starred) :
      BranchesRun step rule (branch :: branches) c (.tooDeep, after) []

def RuleRuns (g : Grammar) : Nat → Fin g.size → Running Tree
  | 0, _, c, out, starred => out = (.tooDeep, c) ∧ starred = []
  | levels + 1, id, c, out, starred =>
    match (g.rule id).body with
    | .terminal d => out = matchTerminal (g.rule id).name d c ∧ starred = []
    | .composite branches => BranchesRun (RuleRuns g levels) (g.rule id).name branches c out starred

section Runs

variable {run : Fin n → Running Tree} {step : Fin n → Cursor → Outcome Tree}
  (keeps : ∀ id c, Conserves Tree.tokens c.remaining (step id c))

include keeps

section Exists

variable (runs : ∀ id c, ∃ starred, run id c (step id c) starred)

include runs

theorem loopExists (id : Fin n) (field : String) {rounds : Nat} {c : Cursor}
    (enough : c.remaining.length < rounds) :
    ∃ starred, LoopRuns (run id) field c (matchMany (step id) field rounds c) starred := by
  induction rounds generalizing c with
  | zero => omega
  | succ rounds ih =>
    obtain ⟨inner, tried⟩ := runs id c
    have kept := keeps id c
    unfold matchMany
    generalize step id c = out at tried kept
    obtain ⟨t | _ | _, middle⟩ := out
    · have read : c.remaining = t.tokens ++ middle.remaining := kept
      dsimp only
      cases empty : t.isEmpty with
      | true => exact ⟨_, .idle tried empty⟩
      | false =>
        have shorter := takenShortens read (by simp [empty])
        obtain ⟨others, later⟩ := @ih middle (by omega)
        have going := manyNeverFails (step id) field rounds middle
        generalize matchMany (step id) field rounds middle = rest at later going
        obtain ⟨fields | _ | _, after⟩ := rest
        · exact ⟨_, .more tried empty later⟩
        · exact absurd rfl going
        · exact ⟨_, .laterCut tried empty later⟩
    · exact ⟨_, .stop tried⟩
    · exact ⟨_, .cut tried⟩

theorem armExists (arm : Arm n) (c : Cursor) :
    ∃ starred, ArmRuns run arm c (matchArm step arm c) starred := by
  obtain ⟨inner, tried⟩ := runs arm.rule c
  unfold matchArm
  cases times : arm.times with
  | once =>
    have single : arm.times ≠ .many := by simp [times]
    generalize step arm.rule c = out at tried
    obtain ⟨t | _ | _, after⟩ := out
    · exact ⟨_, .present single tried⟩
    · exact ⟨_, .missing times tried⟩
    · exact ⟨_, .cut single tried⟩
  | optional =>
    have single : arm.times ≠ .many := by simp [times]
    generalize step arm.rule c = out at tried
    obtain ⟨t | _ | _, after⟩ := out
    · exact ⟨_, .present single tried⟩
    · exact ⟨_, .absent times tried⟩
    · exact ⟨_, .cut single tried⟩
  | many =>
    obtain ⟨starred, repeated⟩ := loopExists keeps runs arm.rule arm.field (roundsOutlast c)
    exact ⟨starred, .many times repeated⟩

theorem armsExist (arms : List (Arm n)) (c : Cursor) :
    ∃ starred, ArmsRun run arms c (matchArms step arms c) starred := by
  induction arms generalizing c with
  | nil => exact ⟨_, .nil⟩
  | cons arm arms ih =>
    obtain ⟨starred, first⟩ := armExists keeps runs arm c
    unfold matchArms
    generalize matchArm step arm c = out at first
    obtain ⟨fields | _ | _, middle⟩ := out
    · obtain ⟨more, others⟩ := ih middle
      dsimp only
      generalize matchArms step arms middle = rest at others
      obtain ⟨rest | _ | _, after⟩ := rest
      · exact ⟨_, .cons first others⟩
      · exact ⟨_, .laterFails first others⟩
      · exact ⟨_, .laterCut first others⟩
    · exact ⟨_, .firstFails first⟩
    · exact ⟨_, .firstCut first⟩

theorem branchesExist (rule : String) (branches : List (Branch n)) (c : Cursor) :
    ∃ starred, BranchesRun run rule branches c (matchBranches step rule branches c) starred := by
  induction branches generalizing c with
  | nil => exact ⟨_, .none⟩
  | cons branch branches ih =>
    obtain ⟨starred, arms⟩ := armsExist keeps runs branch.arms c
    unfold matchBranches
    generalize matchArms step branch.arms c = out at arms
    obtain ⟨fields | _ | _, middle⟩ := out
    · exact ⟨_, .here arms⟩
    · obtain ⟨more, others⟩ := ih middle
      exact ⟨_, .later arms others⟩
    · exact ⟨_, .cut arms⟩

end Exists

section Unique

variable (only : ∀ id c out starred, run id c out starred → out = step id c)

include only

theorem loopUnique {id : Fin n} {field : String} {rounds : Nat} {c : Cursor}
    {out : Outcome (List (String × Tree))} {starred : List Tree} (enough : c.remaining.length < rounds)
    (h : LoopRuns (run id) field c out starred) : out = matchMany (step id) field rounds c := by
  induction rounds generalizing c out starred with
  | zero => omega
  | succ rounds ih =>
    unfold matchMany
    cases h with
    | stop tried | cut tried => rw [← only _ _ _ _ tried]
    | idle tried empty => simp only [← only _ _ _ _ tried, empty, if_true]
    | more tried full later | laterCut tried full later =>
      have kept := keeps id c
      rw [← only _ _ _ _ tried] at kept ⊢
      have shorter := takenShortens kept (by simp [full])
      simp only [full, ← ih (by omega) later, Bool.false_eq_true, if_false]

theorem armUnique {arm : Arm n} {c : Cursor} {out : Outcome (List (String × Tree))} {starred : List Tree}
    (h : ArmRuns run arm c out starred) : out = matchArm step arm c := by
  unfold matchArm
  cases h with
  | present single matched =>
    cases times : arm.times with
    | once | optional => simp only [← only _ _ _ _ matched]
    | many => exact absurd times single
  | missing times fails => simp only [times, ← only _ _ _ _ fails]
  | absent times fails => simp only [times, ← only _ _ _ _ fails]
  | cut single deep =>
    cases times : arm.times with
    | once | optional => simp only [← only _ _ _ _ deep]
    | many => exact absurd times single
  | many times repeated => simpa only [times] using loopUnique keeps only (roundsOutlast c) repeated

theorem armsUnique {arms : List (Arm n)} {c : Cursor} {out : Outcome (List (String × Tree))}
    {starred : List Tree} (h : ArmsRun run arms c out starred) : out = matchArms step arms c := by
  induction h with
  | nil => rfl
  | cons first _ ih | laterFails first _ ih | laterCut first _ ih =>
    simp only [matchArms, ← armUnique keeps only first, ← ih]
  | firstFails first | firstCut first => simp only [matchArms, ← armUnique keeps only first]

theorem branchesUnique {rule : String} {branches : List (Branch n)} {c : Cursor} {out : Outcome Tree}
    {starred : List Tree} (h : BranchesRun run rule branches c out starred) :
    out = matchBranches step rule branches c := by
  induction h with
  | none => rfl
  | here arms | cut arms => simp only [matchBranches, ← armsUnique keeps only arms]
  | later arms _ ih => simp only [matchBranches, ← armsUnique keeps only arms, ← ih]

end Unique

end Runs

theorem ruleRunExists (g : Grammar) (levels : Nat) (id : Fin g.size) (c : Cursor) :
    ∃ starred, RuleRuns g levels id c (matchAt g levels id c) starred := by
  induction levels generalizing id c with
  | zero => exact ⟨_, rfl, rfl⟩
  | succ levels ih =>
    simp only [RuleRuns, matchAt]
    cases (g.rule id).body with
    | terminal d => exact ⟨_, rfl, rfl⟩
    | composite branches => exact branchesExist (ruleConserves g levels) ih _ branches c

theorem ruleRunUnique {g : Grammar} {levels : Nat} {id : Fin g.size} {c : Cursor} {out : Outcome Tree}
    {starred : List Tree} (h : RuleRuns g levels id c out starred) : out = matchAt g levels id c := by
  induction levels generalizing id c out starred with
  | zero => exact h.1
  | succ levels ih =>
    simp only [RuleRuns, matchAt] at h ⊢
    cases body : (g.rule id).body with
    | terminal d =>
      simp only [body] at h
      exact h.1
    | composite branches =>
      simp only [body] at h
      exact branchesUnique (ruleConserves g levels) (fun _ _ _ _ tried => ih tried) h

def Low {α : Type} (height : α → Nat) (levels : Nat) : Outcome α → Prop
  | (.matched a, _) => height a ≤ levels
  | _ => True

structure Bounded {α : Type} (height : α → Nat) (levels : Nat) (out : Outcome α) (starred : List Tree) :
    Prop where
  nests : Low height levels out
  covers : ∀ t ∈ starred, t.tokens ≠ []

section Bounded

variable {levels : Nat} {c : Cursor} {starred : List Tree}

theorem loopBounded {step : Running Tree} {field : String} {out : Outcome (List (String × Tree))}
    (each : ∀ c out starred, step c out starred → Bounded Tree.height levels out starred)
    (run : LoopRuns step field c out starred) : Bounded Tree.fieldsHeight levels out starred := by
  induction run with
  | stop | idle => exact ⟨Nat.zero_le _, by simp⟩
  | cut | laterCut => exact ⟨trivial, by simp⟩
  | @more c t middle inner fields after others matched full _ ih =>
    have here := each _ _ _ matched
    have taken : t.tokens ≠ [] := by simp [← Tree.emptyTokens, full]
    refine ⟨Nat.max_le.mpr ⟨here.nests, ih.nests⟩, ?_⟩
    simp only [List.cons_append, List.forall_mem_cons, List.forall_mem_append]
    exact ⟨taken, here.covers, ih.covers⟩

variable {step : Fin n → Running Tree}
  (each : ∀ id c out starred, step id c out starred → Bounded Tree.height levels out starred)

include each

theorem armBounded {arm : Arm n} {out : Outcome (List (String × Tree))}
    (run : ArmRuns step arm c out starred) : Bounded Tree.fieldsHeight levels out starred := by
  cases run with
  | present _ matched =>
    have here := each _ _ _ _ matched
    exact ⟨Nat.max_le.mpr ⟨here.nests, Nat.zero_le _⟩, here.covers⟩
  | absent => exact ⟨Nat.zero_le _, by simp⟩
  | missing | cut => exact ⟨trivial, by simp⟩
  | many _ repeated => exact loopBounded (each arm.rule) repeated

theorem armsBounded {arms : List (Arm n)} {out : Outcome (List (String × Tree))}
    (run : ArmsRun step arms c out starred) : Bounded Tree.fieldsHeight levels out starred := by
  induction run with
  | nil => exact ⟨Nat.zero_le _, by simp⟩
  | firstFails | firstCut | laterFails | laterCut => exact ⟨trivial, by simp⟩
  | cons first _ ih =>
    have here := armBounded each first
    refine ⟨?_, List.forall_mem_append.mpr ⟨here.covers, ih.covers⟩⟩
    rw [Low, Tree.fieldsHeightAppend]
    exact Nat.max_le.mpr ⟨here.nests, ih.nests⟩

theorem branchesBounded {rule : String} {branches : List (Branch n)} {out : Outcome Tree}
    (run : BranchesRun step rule branches c out starred) :
    Bounded Tree.height (levels + 1) out starred := by
  induction run with
  | none | cut => exact ⟨trivial, by simp⟩
  | here arms =>
    have inside := armsBounded each arms
    exact ⟨Nat.succ_le_succ inside.nests, inside.covers⟩
  | later _ _ ih => exact ih

end Bounded

theorem terminalLow (rule : String) (d : Detector) (c : Cursor) (levels : Nat) :
    Low Tree.height (levels + 1) (matchTerminal rule d c) := by
  unfold matchTerminal
  rcases c.next with ⟨_ | t, after⟩
  · trivial
  · dsimp only
    split
    · exact Nat.succ_le_succ (Nat.zero_le levels)
    · trivial

theorem ruleBounded {g : Grammar} {levels : Nat} {id : Fin g.size} {c : Cursor} {out : Outcome Tree}
    {starred : List Tree} (run : RuleRuns g levels id c out starred) :
    Bounded Tree.height levels out starred := by
  induction levels generalizing id c out starred with
  | zero =>
    obtain ⟨rfl, rfl⟩ := run
    exact ⟨trivial, by simp⟩
  | succ levels ih =>
    unfold RuleRuns at run
    split at run
    · obtain ⟨rfl, rfl⟩ := run
      exact ⟨terminalLow _ _ c levels, by simp⟩
    · exact branchesBounded (fun _ _ _ _ tried => ih tried) run

end Matching

namespace Grammar

def firstRule (g : Grammar) (id : Fin g.size) : Option (Fin g.size) :=
  match (g.rule id).body with
  | .composite (⟨_, arm :: _⟩ :: _) => some arm.rule
  | _ => none

def Leads (g : Grammar) (id next : Fin g.size) : Prop := g.firstRule id = some next

/-- From the rule, first arms of first branches lead to one that they lead back to. -/
def LeadsBack (g : Grammar) (id : Fin g.size) : Prop :=
  ∃ back, Relation.ReflTransGen g.Leads id back ∧ Relation.TransGen g.Leads back back

variable {g : Grammar}

theorem leadsBackOnward {id : Fin g.size} (h : g.LeadsBack id) :
    ∃ next, g.Leads id next ∧ g.LeadsBack next := by
  obtain ⟨back, reached, around⟩ := h
  rcases reached.cases_head with rfl | ⟨next, leads, onward⟩
  · obtain ⟨next, leads, onward⟩ := Relation.TransGen.head'_iff.mp around
    exact ⟨next, leads, _, onward, around⟩
  · exact ⟨next, leads, back, onward, around⟩

theorem firstArmCut {levels : Nat} {id next : Fin g.size} {c : Cursor} (leads : g.Leads id next)
    (deep : Matching.matchAt g levels next c = (.tooDeep, c)) :
    Matching.matchAt g (levels + 1) id c = (.tooDeep, c) := by
  unfold Leads firstRule at leads
  split at leads
  · rename_i name arm arms branches body
    cases leads
    have cut : Matching.matchArm (Matching.matchAt g levels) arm c = (.tooDeep, c) := by
      unfold Matching.matchArm
      cases arm.times <;> simp only [Matching.matchMany, deep]
    simp only [Matching.matchAt, body, Matching.matchBranches, Matching.matchArms, cut]
  · contradiction

theorem leadsBackCut {id : Fin g.size} (h : g.LeadsBack id) (levels : Nat) (c : Cursor) :
    Matching.matchAt g levels id c = (.tooDeep, c) := by
  induction levels generalizing id with
  | zero => rfl
  | succ levels ih =>
    obtain ⟨next, leads, back⟩ := leadsBackOnward h
    exact firstArmCut leads (ih back)

/-- The matcher halts at every cursor under every limit: it has a run, and every run of it ends in its answer.
Its matches nest within the limit, and what a repeated arm recorded in them covers a token. A rule that
leads back to one already passed is too deep under every limit. -/
theorem matchingHalts (g : Grammar) (limit : Nat) (id : Fin g.size) (c : Cursor) :
    (∃ starred, Matching.RuleRuns g limit id c (Matching.matchAt g limit id c) starred) ∧
    (∀ out starred, Matching.RuleRuns g limit id c out starred →
      out = Matching.matchAt g limit id c ∧ ∀ t ∈ starred, t.tokens ≠ []) ∧
    (∀ m, (g.matchRule limit id c).1 = .ok (some m) → m.height ≤ limit) ∧
    (g.LeadsBack id → g.matchRule limit id c = (.error (.tooDeep limit), c)) := by
  obtain ⟨starred, run⟩ := Matching.ruleRunExists g limit id c
  refine ⟨⟨starred, run⟩, fun out starred other => ?_, fun m matched => ?_, fun back => ?_⟩
  · exact ⟨Matching.ruleRunUnique other, (Matching.ruleBounded other).covers⟩
  · have low := (Matching.ruleBounded run).nests
    unfold matchRule at matched
    generalize Matching.matchAt g limit id c = out at matched low
    obtain ⟨t | _ | _, after⟩ := out
    · cases matched
      exact low
    · cases matched
    · cases matched
  · rw [matchRule, leadsBackCut back]

theorem itemsEnd : ∃ (g : Grammar) (items left : Fin g.size) (c : Cursor),
    (∃ out starred, Matching.RuleRuns g 3 items c out starred ∧ starred.length = 2 ∧
      out = Matching.matchAt g 3 items c ∧ ∀ t ∈ starred, t.tokens ≠ []) ∧
    (∃ m, (g.matchRule 3 items c).1 = .ok (some m) ∧ m.height ≤ 3) ∧
    g.LeadsBack left ∧ g.matchRule 9 left c = (.error (.tooDeep 9), c) := by
  let g : Grammar := ⟨4, #v[⟨"items", .composite [⟨"all", [⟨"item", 1, .many⟩]⟩]⟩,
    ⟨"item", .composite [⟨"one", [⟨"sign", 2, .optional⟩]⟩]⟩,
    ⟨"sign", .terminal ⟨"text", Token.isGlyph "<"⟩⟩,
    ⟨"left", .composite [⟨"more", [⟨"left", 3, .optional⟩, ⟨"sign", 2, .once⟩]⟩]⟩]⟩
  let c : Cursor := .ofTokens [.glyph "<", .glyph "<"]
  let sign : Tree := .terminal "sign" "text" (.glyph "<")
  have item (source : List Token) : Matching.RuleRuns g 2 (1 : Fin 4) ⟨[], .glyph "<" :: source⟩
      (.matched (.composite "item" "one" [("sign", sign)]), ⟨[], source⟩) [] := by
    have arm : Matching.ArmRuns (Matching.RuleRuns g 1) ⟨"sign", (2 : Fin 4), .optional⟩
        ⟨[], .glyph "<" :: source⟩ (.matched [("sign", sign)], ⟨[], source⟩) [] :=
      .present nofun ⟨rfl, rfl⟩
    exact Matching.BranchesRun.here (.cons arm .nil)
  have idle : Matching.RuleRuns g 2 (1 : Fin 4) ⟨[], []⟩
      (.matched (.composite "item" "one" []), ⟨[], []⟩) [] := by
    have arm : Matching.ArmRuns (Matching.RuleRuns g 1) ⟨"sign", (2 : Fin 4), .optional⟩ ⟨[], []⟩
        (.matched [], ⟨[], []⟩) [] := .absent rfl (⟨rfl, rfl⟩ : _ ∧ [] = [])
    exact Matching.BranchesRun.here (.cons arm .nil)
  have loop : Matching.LoopRuns (Matching.RuleRuns g 2 (1 : Fin 4)) "item" c _ _ :=
    .more (item [.glyph "<"]) rfl (.more (item []) rfl (.idle idle rfl))
  have run : Matching.RuleRuns g 3 (0 : Fin 4) c _ _ :=
    Matching.BranchesRun.here (.cons (.many rfl loop) .nil)
  have once : g.Leads (3 : Fin 4) (3 : Fin 4) := rfl
  have back : g.LeadsBack (3 : Fin 4) := ⟨(3 : Fin 4), .refl, .single once⟩
  have matched : ∃ m, (g.matchRule 3 (0 : Fin 4) c).1 = .ok (some m) := ⟨_, rfl⟩
  obtain ⟨same, covers⟩ := (matchingHalts g 3 (0 : Fin 4) c).2.1 _ _ run
  obtain ⟨m, found⟩ := matched
  exact ⟨g, (0 : Fin 4), (3 : Fin 4), c, ⟨_, _, run, rfl, same, covers⟩,
    ⟨m, found, (matchingHalts g 3 (0 : Fin 4) c).2.2.1 m found⟩, back,
    (matchingHalts g 9 (3 : Fin 4) c).2.2.2 back⟩

end Grammar
end Parlance
