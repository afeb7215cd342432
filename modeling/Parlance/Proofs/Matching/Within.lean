import Parlance.Proofs.Matching.Taken

/-! How deep matching goes. Rules are matched within some levels where no attempt at them is cut off, also none
that fails. A branch is within the levels of its arms, each tried where the arms before it left off, and a rule
takes one level more than its branches. -/
namespace Parlance

namespace Grammar

section

variable (g : Grammar)

/-- So many levels are enough for the rule before these tokens, whatever it reads there. -/
def Within (levels : Nat) (name : String) (tokens : List Token) : Prop :=
  ∀ more ≥ levels, ∀ id, (g.rule id).name = name → ∀ c : Cursor, c.remaining = tokens →
    ∃ out, Matching.reading (Matching.matchAt g more id c) = some out

def ArmWithin (levels : Nat) (spec : ArmSpec) (tokens : List Token) : Prop :=
  ∀ later, later <:+ tokens → (spec.times ≠ .many → later = tokens) → g.Within levels spec.rule later

def ArmsWithin (levels : Nat) : List ArmSpec → List Token → Prop
  | [], _ => True
  | spec :: specs, tokens => g.ArmWithin levels spec tokens ∧
      ∀ fields rest, g.ArmTaken spec tokens (some (fields, rest)) → ArmsWithin levels specs rest

end

variable {g : Grammar} {levels : Nat} {name : String} {tokens rest : List Token}

theorem withinMore {more : Nat} (within : g.Within levels name tokens) (le : levels ≤ more) :
    g.Within more name tokens := fun most enough => within most (Nat.le_trans le enough)

end Grammar

namespace Matching

open Grammar

variable {g : Grammar} {more : Nat} {tokens : List Token}

theorem terminalAnswers (rule : String) (d : Detector) (c : Cursor) :
    ∃ out, reading (matchTerminal rule d c) = some out := by
  unfold matchTerminal
  rcases c.next with ⟨_ | t, after⟩
  · exact ⟨_, rfl⟩
  · dsimp only
    split
    · exact ⟨_, rfl⟩
    · exact ⟨_, rfl⟩

theorem manyAnswers {id : Fin g.size} (field : String)
    (each : ∀ c, c.remaining <:+ tokens → ∃ out, reading (matchAt g more id c) = some out) (rounds : Nat)
    {c : Cursor} (inside : c.remaining <:+ tokens) :
    ∃ out, reading (matchMany (matchAt g more id) field rounds c) = some out := by
  induction rounds generalizing c with
  | zero => exact ⟨_, rfl⟩
  | succ rounds ih =>
    obtain ⟨out, answer⟩ := each c inside
    have keeps := ruleConserves g more id c
    unfold matchMany
    generalize matchAt g more id c = attempt at answer keeps
    obtain ⟨t | _ | _, after⟩ := attempt
    · have read : c.remaining = t.tokens ++ after.remaining := keeps
      obtain ⟨others, later⟩ := ih (suffixAfter read (List.suffix_refl _) |>.trans inside)
      dsimp only
      split
      · exact ⟨_, rfl⟩
      · generalize matchMany (matchAt g more id) field rounds after = rest at later
        obtain ⟨fields | _ | _, last⟩ := rest
        · exact ⟨_, rfl⟩
        · exact ⟨_, rfl⟩
        · contradiction
    · exact ⟨_, rfl⟩
    · contradiction

theorem armAnswers {levels : Nat} (enough : levels ≤ more) (arm : Arm g.size) (c : Cursor)
    (within : g.ArmWithin levels (g.armSpec arm) c.remaining) :
    ∃ out, reading (matchArm (matchAt g more) arm c) = some out := by
  obtain ⟨out, answer⟩ := within _ (List.suffix_refl _) (fun _ => rfl) more enough arm.rule rfl c rfl
  unfold matchArm
  cases times : arm.times with
  | once | optional =>
    generalize matchAt g more arm.rule c = attempt at answer
    obtain ⟨t | _ | _, after⟩ := attempt
    · exact ⟨_, rfl⟩
    · exact ⟨_, rfl⟩
    · contradiction
  | many =>
    refine manyAnswers arm.field (fun d inside => ?_) _ (List.suffix_refl _)
    exact within _ inside (fun other => absurd times other) more enough arm.rule rfl d rfl

theorem armsAnswer {levels : Nat} (enough : levels ≤ more) (arms : List (Arm g.size)) (c : Cursor)
    (within : g.ArmsWithin levels (arms.map g.armSpec) c.remaining) :
    ∃ out, reading (matchArms (matchAt g more) arms c) = some out := by
  induction arms generalizing c with
  | nil => exact ⟨_, rfl⟩
  | cons arm arms ih =>
    obtain ⟨out, answer⟩ := armAnswers enough arm c within.1
    have sound := armSound (ruleSound g more) arm c answer
    unfold matchArms
    generalize matchArm (matchAt g more) arm c = attempt at answer
    obtain ⟨fields | _ | _, after⟩ := attempt
    · cases Option.some.inj answer
      obtain ⟨others, later⟩ := ih after (within.2 _ _ ⟨arm, rfl, sound⟩)
      dsimp only
      generalize matchArms (matchAt g more) arms after = rest at later
      obtain ⟨rest | _ | _, last⟩ := rest
      · exact ⟨_, rfl⟩
      · exact ⟨_, rfl⟩
      · contradiction
    · exact ⟨_, rfl⟩
    · contradiction

theorem branchesAnswer {levels : Nat} (enough : levels ≤ more) (rule : String)
    (branches : List (Branch g.size)) (c : Cursor)
    (within : ∀ b ∈ branches, g.ArmsWithin levels (g.branchSpec b).arms c.remaining) :
    ∃ out, reading (matchBranches (matchAt g more) rule branches c) = some out := by
  induction branches generalizing c with
  | nil => exact ⟨_, rfl⟩
  | cons branch branches ih =>
    obtain ⟨here, later⟩ := List.forall_mem_cons.mp within
    obtain ⟨out, answer⟩ := armsAnswer enough branch.arms c here
    have keeps := armsConserve (ruleConserves g more) branch.arms c
    unfold matchBranches
    generalize matchArms (matchAt g more) branch.arms c = attempt at answer keeps
    obtain ⟨fields | _ | _, after⟩ := attempt
    · exact ⟨_, rfl⟩
    · have back : after.remaining = c.remaining := keeps
      exact ih after (back ▸ later)
    · contradiction

end Matching

namespace Grammar

variable {g : Grammar} {levels : Nat} {name : String} {tokens rest : List Token}

theorem withinTerminal {spec : TerminalSpec} (declared : g.DeclaresTerminal spec) :
    g.Within 1 spec.name tokens := by
  intro more enough id named c same
  obtain ⟨levels, rfl⟩ := Nat.exists_eq_succ_of_ne_zero (Nat.ne_of_gt enough)
  rw [Matching.matchAt, declared id named]
  exact Matching.terminalAnswers _ _ c

theorem withinChoice {spec : RuleSpec} (declared : g.Declares spec)
    (each : ∀ b ∈ spec.branches, g.ArmsWithin levels b.arms tokens) :
    g.Within (levels + 1) spec.name tokens := by
  intro more enough id named c same
  obtain ⟨below, rfl⟩ := Nat.exists_eq_add_of_le' (Nat.le_trans (Nat.le_add_left 1 levels) enough)
  obtain ⟨branches, body, specified⟩ := declared id named
  rw [Matching.matchAt, body]
  refine Matching.branchesAnswer (Nat.le_of_succ_le_succ enough) _ branches c fun b member => ?_
  rw [same]
  exact each _ (specified ▸ List.mem_map_of_mem member)

section Arms

variable {spec : ArmSpec} {specs : List ArmSpec}

theorem armsWithinMore {more : Nat} (le : levels ≤ more) (within : g.ArmsWithin levels specs tokens) :
    g.ArmsWithin more specs tokens := by
  induction specs generalizing tokens with
  | nil => trivial
  | cons spec specs ih =>
    exact ⟨fun later inside whole => withinMore (within.1 later inside whole) le,
      fun fields rest taken => ih (within.2 fields rest taken)⟩

theorem armWithinOnce {field rule : String} (within : g.Within levels rule tokens) :
    g.ArmWithin levels ⟨field, rule, .once⟩ tokens := fun _ _ whole =>
  whole nofun ▸ within

theorem lastArmWithin (within : g.ArmWithin levels spec tokens) : g.ArmsWithin levels [spec] tokens :=
  ⟨within, fun _ _ _ => trivial⟩

variable {composites : List RuleSpec} {terminals : List TerminalSpec}
  (linked : link composites terminals = .ok g)

include linked

theorem beginWithin {field rule : String} (within : g.Within levels rule tokens)
    (listed : rule ∈ declared composites terminals) (fails : g.Reads rule tokens none) :
    g.ArmsWithin levels (⟨field, rule, .once⟩ :: specs) tokens := by
  refine ⟨armWithinOnce within, fun fields rest taken => ?_⟩
  obtain ⟨t, -, read⟩ := armOnceTaken linked taken
  cases namedOnce linked listed fails read

theorem consArmWithin {field rule : String} (within : g.Within levels rule tokens)
    (others : ∀ t rest, g.Reads rule tokens (some (t, rest)) → g.ArmsWithin levels specs rest) :
    g.ArmsWithin levels (⟨field, rule, .once⟩ :: specs) tokens := by
  refine ⟨armWithinOnce within, fun fields rest taken => ?_⟩
  obtain ⟨t, -, read⟩ := armOnceTaken linked taken
  exact others t rest read

end Arms

theorem parseWithin {start : String} (within : g.Within levels start tokens) (enough : levels ≤ defaultDepth) :
    g.parse start tokens ≠ .error (.tooDeep defaultDepth) := by
  unfold parse matchRule
  cases named : g.id? start with
  | none => simp
  | some id =>
    obtain ⟨out, answer⟩ := within defaultDepth enough id (idNamed named) (.ofTokens tokens) rfl
    dsimp only
    generalize Matching.matchAt g defaultDepth id (Cursor.ofTokens tokens) = attempt at answer ⊢
    obtain ⟨t | _ | _, after⟩ := attempt
    · dsimp only
      split <;> simp
    · simp
    · contradiction

end Grammar
end Parlance
