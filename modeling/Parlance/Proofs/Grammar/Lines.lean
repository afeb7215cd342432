import Parlance.Grammar.Text
import Parlance.Proofs.Text.Split

/-! Rules and the lines that they are written on. A rule that was read from a line is regular: each of its names
stays one name where it is written between the marks. A regular rule is read back from its line. -/
namespace Parlance

def Repetition.mark : Repetition → String
  | .once => ""
  | .optional => "?"
  | .many => "*"

def ArmSpec.target (arm : ArmSpec) : String :=
  if arm.field = arm.rule then arm.rule else arm.field ++ ":::" ++ arm.rule

def ArmSpec.written (arm : ArmSpec) : String := arm.target ++ arm.times.mark

def BranchSpec.written (b : BranchSpec) : String :=
  b.name ++ " ==> " ++ " ".intercalate (b.arms.map ArmSpec.written)

def RuleSpec.written (spec : RuleSpec) : String :=
  spec.name ++ " === " ++ " ||| ".intercalate (spec.branches.map BranchSpec.written)

structure ArmSpec.Regular (arm : ArmSpec) : Prop where
  field : arm.field ≠ ""
  rule : arm.rule ≠ ""
  cut : (Text.splitOnce fieldMark arm.target.toList).getD (arm.target.toList, arm.target.toList) =
    (arm.field.toList, arm.rule.toList)
  ends : arm.times = .once → ∀ c ∈ arm.target.toList.getLast?, c ≠ '*' ∧ c ≠ '?'
  word : Text.IsWord arm.written.toList
  whole : ¬ branchMark <:+: arm.written.toList

structure BranchSpec.Regular (b : BranchSpec) : Prop where
  name : b.name ≠ ""
  trimmed : Text.Trimmed b.name.toList
  unarrowed : ¬ armsMark <:+: b.name.toList
  whole : ¬ branchMark <:+: b.name.toList
  arms : ∀ arm ∈ b.arms, arm.Regular

structure RuleSpec.Regular (spec : RuleSpec) : Prop where
  name : Text.IsWord spec.name.toList
  unmarked : ¬ ruleMark <:+: spec.name.toList
  some : spec.branches ≠ []
  branches : ∀ b ∈ spec.branches, b.Regular

section Arms

theorem armEnds (text : List Char) :
    text = (Repetition.ofArm text).1 ++ (Repetition.ofArm text).2.mark.toList ∧
      ((Repetition.ofArm text).2 = .once → ∀ c ∈ (Repetition.ofArm text).1.getLast?, c ≠ '*' ∧ c ≠ '?') := by
  have last : ∀ c, text.getLast? = some c → text = text.dropLast ++ [c] := fun c found =>
    (List.dropLast_append_getLast? c found).symm
  unfold Repetition.ofArm
  split
  · rename_i star
    exact ⟨by simpa [Repetition.mark] using last _ star, nofun⟩
  · rename_i question
    exact ⟨by simpa [Repetition.mark] using last _ question, nofun⟩
  · rename_i plain question
    refine ⟨by simp [Repetition.mark], fun _ c found => ⟨?_, ?_⟩⟩
    · rintro rfl
      exact plain found
    · rintro rfl
      exact question found

theorem armMarked {target : List Char} {times : Repetition}
    (ends : times = .once → ∀ c ∈ target.getLast?, c ≠ '*' ∧ c ≠ '?') :
    Repetition.ofArm (target ++ times.mark.toList) = (target, times) := by
  cases times with
  | optional => simp [Repetition.ofArm, Repetition.mark]
  | many => simp [Repetition.ofArm, Repetition.mark]
  | once =>
    have unmarked := ends rfl
    simp only [Repetition.mark, String.toList_empty, List.append_nil, Repetition.ofArm]
    split
    · rename_i star
      exact absurd rfl (unmarked _ star).1
    · rename_i question
      exact absurd rfl (unmarked _ question).2
    · rfl

theorem targetCut {text field rule : List Char}
    (cut : (Text.splitOnce fieldMark text).getD (text, text) = (field, rule)) :
    (if field = rule then rule else field ++ fieldMark ++ rule) <:+ text ∧
      (Text.splitOnce fieldMark (if field = rule then rule else field ++ fieldMark ++ rule)).getD
        (if field = rule then rule else field ++ fieldMark ++ rule,
          if field = rule then rule else field ++ fieldMark ++ rule) = (field, rule) := by
  cases found : Text.splitOnce fieldMark text with
  | none =>
    rw [found] at cut
    cases cut
    simp [found]
  | some parts =>
    rw [found] at cut
    cases cut
    have whole := Text.splitOnceJoin found
    by_cases same : field = rule
    -- The field stood before the first mark, so the name alone is not cut again.
    · subst same
      have free := Text.splitOnceFree (by decide) found
      rw [if_pos rfl, (Text.splitOnceNone (by decide)).mpr free]
      exact ⟨whole ▸ List.suffix_append _ _, rfl⟩
    · rw [if_neg same, ← whole, found]
      exact ⟨List.suffix_refl text, rfl⟩

theorem targetToList (arm : ArmSpec) : arm.target.toList =
    if arm.field.toList = arm.rule.toList then arm.rule.toList
    else arm.field.toList ++ fieldMark ++ arm.rule.toList := by
  unfold ArmSpec.target
  by_cases same : arm.field = arm.rule
  · simp [same]
  · rw [if_neg same, if_neg fun equal => same (String.toList_injective equal)]
    simp [fieldMark]

theorem armParts {text : List Char} {arm : ArmSpec} (h : ArmSpec.ofText text = .ok arm) :
    arm.field ≠ "" ∧ arm.rule ≠ "" ∧ ∃ target, text = target ++ arm.times.mark.toList ∧
      (arm.times = .once → ∀ c ∈ target.getLast?, c ≠ '*' ∧ c ≠ '?') ∧
      (Text.splitOnce fieldMark target).getD (target, target) = (arm.field.toList, arm.rule.toList) := by
  obtain ⟨whole, ends⟩ := armEnds text
  unfold ArmSpec.ofText at h
  generalize Repetition.ofArm text = parts at whole ends h
  obtain ⟨target, times⟩ := parts
  dsimp only at whole ends h
  generalize cut : (Text.splitOnce fieldMark target).getD (target, target) = names at h
  obtain ⟨field, rule⟩ := names
  dsimp only at h
  split at h
  · contradiction
  · rename_i filled
    cases h
    simp only [Bool.or_eq_true, List.isEmpty_iff, not_or] at filled
    exact ⟨by simpa using filled.1, by simpa using filled.2, target, whole, ends, by simpa using cut⟩

theorem armRegular {text : List Char} {arm : ArmSpec} (word : Text.IsWord text) (whole : ¬ branchMark <:+: text)
    (h : ArmSpec.ofText text = .ok arm) : arm.Regular := by
  obtain ⟨field, rule, target, rfl, ends, cut⟩ := armParts h
  obtain ⟨within, found⟩ := targetCut cut
  rw [← targetToList] at within found
  have filled : arm.target.toList ≠ [] := by
    intro nothing
    rw [nothing] at found
    exact rule (String.toList_eq_nil_iff.mp (Prod.mk.inj found).2.symm)
  have shorter : arm.written.toList <:+: target ++ arm.times.mark.toList := by
    rw [ArmSpec.written, String.toList_append]
    exact (List.suffix_append_self_iff.mpr within).isInfix
  refine ⟨field, rule, found, fun once => ?_, ⟨?_, fun c member => word.2 c (shorter.subset member)⟩,
    fun inside => whole (inside.trans shorter)⟩
  · obtain ⟨front, rfl⟩ := within
    rw [List.getLast?_append_of_ne_nil front filled] at ends
    exact ends once
  · rw [ArmSpec.written, String.toList_append]
    exact List.append_ne_nil_of_left_ne_nil filled _

theorem armRead {arm : ArmSpec} (regular : arm.Regular) : ArmSpec.ofText arm.written.toList = .ok arm := by
  have marked := armMarked regular.ends
  have field : arm.field.toList ≠ [] := mt String.toList_eq_nil_iff.mp regular.field
  have rule : arm.rule.toList ≠ [] := mt String.toList_eq_nil_iff.mp regular.rule
  rw [ArmSpec.written, String.toList_append]
  unfold ArmSpec.ofText
  rw [marked]
  dsimp only
  rw [regular.cut]
  simp [field, rule]

end Arms

section Branches

theorem marksUnblank : ∀ mark ∈ [ruleMark, branchMark, armsMark], Text.Unblank mark := by
  have visible : ∀ mark ∈ [ruleMark, branchMark, armsMark], mark.all (! Text.isBlank ·) = true := by decide
  intro mark member
  simpa only [Text.Unblank, List.all_eq_true, Bool.not_eq_true'] using visible mark member

theorem branchParts {rule : String} {text : List Char} {b : BranchSpec} (h : BranchSpec.ofText rule text = .ok b) :
    ∃ name arms, (Text.splitOnce armsMark text).getD (text, text) = (name, arms) ∧ b.name ≠ "" ∧
      b.name.toList = Text.trim name ∧ traverse ArmSpec.ofText (Text.words arms) = .ok b.arms := by
  unfold BranchSpec.ofText at h
  generalize cut : (Text.splitOnce armsMark text).getD (text, text) = parts at h
  obtain ⟨name, arms⟩ := parts
  dsimp only at h
  split at h
  · contradiction
  · rename_i filled
    obtain ⟨specs, walked, last⟩ := bindOk h
    cases last
    exact ⟨name, arms, rfl, by simpa using filled, by simp, walked⟩

theorem branchRegular {rule : String} {text : List Char} {b : BranchSpec} (whole : ¬ branchMark <:+: text)
    (h : BranchSpec.ofText rule text = .ok b) : b.Regular := by
  obtain ⟨name, arms, cut, filled, trimmed, walked⟩ := branchParts h
  have inside : name <:+: text ∧ arms <:+: text ∧ ¬ armsMark <:+: name := by
    cases found : Text.splitOnce armsMark text with
    | none =>
      rw [found] at cut
      cases cut
      exact ⟨List.infix_refl text, List.infix_refl text, (Text.splitOnceNone (by decide)).mp found⟩
    | some parts =>
      rw [found] at cut
      cases cut
      have joined := Text.splitOnceJoin found
      refine ⟨?_, ?_, Text.splitOnceFree (by decide) found⟩
      · rw [joined, List.append_assoc]
        exact (List.prefix_append name _).isInfix
      · rw [joined]
        exact (List.suffix_append _ arms).isInfix
  obtain ⟨named, listed, unarrowed⟩ := inside
  have within : b.name.toList <:+: name := trimmed ▸ Text.trimInfix name
  refine ⟨filled, trimmed ▸ Text.trimmedTrim name, fun mark => unarrowed (mark.trans within),
    fun mark => whole (mark.trans (within.trans named)), fun arm member => ?_⟩
  obtain ⟨word, listedWord, read⟩ := traverseMember walked member
  obtain ⟨run, isWord⟩ := Text.wordsRun listedWord
  exact armRegular isWord (fun mark => whole (mark.trans (run.trans listed))) read

theorem branchToList (b : BranchSpec) : b.written.toList =
    b.name.toList ++ ' ' :: (armsMark ++ ' ' :: Text.unwords (b.arms.map fun arm => arm.written.toList)) := by
  have spaced : " ".toList = [' '] := rfl
  simp [BranchSpec.written, String.toList_intercalate, Text.unwordsIntercalate, armsMark, Function.comp_def, spaced]

theorem branchWhole {b : BranchSpec} (regular : b.Regular) : ¬ branchMark <:+: b.written.toList := by
  have visible := marksUnblank branchMark (by decide)
  rw [branchToList]
  intro inside
  rcases Text.infixBesideSpace visible inside with name | later
  · exact regular.whole name
  rcases Text.infixBesideSpace visible later with arrow | arms
  · revert arrow
    decide
  · obtain ⟨word, member, inside⟩ := Text.infixInWord visible (by decide) arms
    obtain ⟨arm, listed, rfl⟩ := List.mem_map.mp member
    exact (regular.arms arm listed).whole inside

theorem branchRead {b : BranchSpec} (regular : b.Regular) (rule : String) (n : Nat) :
    BranchSpec.ofText rule (' ' :: (b.written.toList ++ List.replicate n ' ')) = .ok b := by
  have visible := marksUnblank armsMark (by decide)
  have unarrowed : ¬ armsMark <:+: ' ' :: b.name.toList := by
    intro inside
    rcases Text.infixBesideSpace (u := []) visible inside with nothing | name
    · exact absurd (List.infix_nil.mp nothing) (by decide)
    · exact regular.unarrowed name
  have cut := Text.splitOnceSpace visible (by decide) unarrowed
    (' ' :: (Text.unwords (b.arms.map fun arm => arm.written.toList) ++ List.replicate n ' '))
  have name : Text.trim (' ' :: b.name.toList ++ [' ']) = b.name.toList := Text.trimPadded regular.trimmed 1 1
  have filled : b.name.toList ≠ [] := mt String.toList_eq_nil_iff.mp regular.name
  have words : Text.words (' ' :: (Text.unwords (b.arms.map fun arm => arm.written.toList) ++
      List.replicate n ' ')) = b.arms.map fun arm => arm.written.toList := by
    rw [Text.wordsSpace]
    refine Text.wordsJoined (fun word member => ?_) n
    obtain ⟨arm, listed, rfl⟩ := List.mem_map.mp member
    exact (regular.arms arm listed).word
  have arms : traverse ArmSpec.ofText (b.arms.map fun arm => arm.written.toList) = .ok (b.arms.map id) :=
    traverseMap fun arm member => armRead (regular.arms arm member)
  have whole : ' ' :: (b.written.toList ++ List.replicate n ' ') = ' ' :: b.name.toList ++ ' ' :: (armsMark ++
      ' ' :: (Text.unwords (b.arms.map fun arm => arm.written.toList) ++ List.replicate n ' ')) := by
    rw [branchToList]
    simp
  unfold BranchSpec.ofText
  rw [whole, cut]
  dsimp only [Option.getD_some]
  rw [name, words, arms, if_neg (by simpa using filled)]
  simp [bind, Except.bind]

end Branches

section Rules

theorem ruleParts {line : List Char} {spec : RuleSpec} (h : RuleSpec.ofLine line = .ok spec) :
    ∃ name body, Text.splitOnce ruleMark line = some (name, body) ∧ Text.IsWord spec.name.toList ∧
      spec.name.toList = Text.trim name ∧
      traverse (BranchSpec.ofText spec.name) (Text.split branchMark body) = .ok spec.branches := by
  unfold RuleSpec.ofLine at h
  split at h
  · contradiction
  · rename_i name body found
    dsimp only at h
    split at h
    · contradiction
    · rename_i plain
      obtain ⟨branches, walked, last⟩ := bindOk h
      cases last
      simp only [Bool.or_eq_true, List.isEmpty_iff, not_or, List.any_eq_true, not_exists, not_and] at plain
      refine ⟨name, body, found, ⟨by simpa using plain.1, fun c member => ?_⟩, by simp, walked⟩
      simpa using plain.2 c (by simpa using member)

theorem ruleRegular {line : List Char} {spec : RuleSpec} (h : RuleSpec.ofLine line = .ok spec) :
    spec.Regular := by
  obtain ⟨name, body, found, word, trimmed, walked⟩ := ruleParts h
  have free := Text.splitOnceFree (by decide) found
  have within : spec.name.toList <:+: name := trimmed ▸ Text.trimInfix name
  refine ⟨word, fun mark => free (mark.trans within), fun none => ?_, fun b member => ?_⟩
  · have sizes := traverseLength walked
    rw [none, List.length_nil] at sizes
    exact Text.splitSome (by decide) body (List.length_eq_zero_iff.mp sizes.symm)
  · obtain ⟨piece, listed, read⟩ := traverseMember walked member
    exact branchRegular (Text.pieceFree (by decide) listed) read

theorem ruleToList (spec : RuleSpec) : spec.written.toList = spec.name.toList ++ ' ' :: (ruleMark ++
    ' ' :: (' ' :: (branchMark ++ [' '])).intercalate (spec.branches.map fun b => b.written.toList)) := by
  have spaced : " ||| ".toList = ' ' :: (branchMark ++ [' ']) := rfl
  simp [RuleSpec.written, String.toList_intercalate, ruleMark, Function.comp_def, spaced]

theorem ruleRead {spec : RuleSpec} (regular : spec.Regular) : RuleSpec.ofLine spec.written.toList = .ok spec := by
  have cut := Text.splitOnceSpace (marksUnblank ruleMark (by decide)) (by decide) regular.unmarked
    (' ' :: (' ' :: (branchMark ++ [' '])).intercalate (spec.branches.map fun b => b.written.toList))
  have name : Text.trim (spec.name.toList ++ [' ']) = spec.name.toList :=
    Text.trimPadded (Text.wordTrimmed regular.name.2) 0 1
  have branches := Text.splitJoined (by decide) (marksUnblank branchMark (by decide)) regular.some
    (fun b member => branchWhole (regular.branches b member))
    fun b member => branchRead (regular.branches b member) spec.name
  unfold RuleSpec.ofLine
  rw [ruleToList, cut]
  dsimp only
  rw [name, String.ofList_toList, branches, if_neg ?_]
  · rfl
  · have unblank := regular.name.2
    simp only [Bool.or_eq_true, List.isEmpty_iff, not_or, List.any_eq_true, not_exists, not_and]
    exact ⟨regular.name.1, fun c member => by simp [unblank c member]⟩

end Rules

/-- A rule that was read from a line has its names, and is read again from the line that it is written on. -/
theorem ruleLineReadsBack {number : Nat} {line : String} {spec : RuleSpec}
    (h : RuleSpec.ofNumberedLine number line.toList = .ok spec) :
    (spec.name ≠ "" ∧ ∀ c ∈ spec.name.toList, Text.isBlank c = false) ∧ spec.branches ≠ [] ∧
      (∀ b ∈ spec.branches, b.name ≠ "" ∧ ∀ arm ∈ b.arms, arm.field ≠ "" ∧ arm.rule ≠ "") ∧
      ∀ other, RuleSpec.ofNumberedLine other spec.written.toList = .ok spec := by
  have regular := ruleRegular (mapErrorOk h)
  refine ⟨⟨mt String.toList_eq_nil_iff.mpr regular.name.1, regular.name.2⟩, regular.some, fun b listed => ?_,
    fun other => ?_⟩
  · have branch := regular.branches b listed
    exact ⟨branch.name, fun arm member => ⟨(branch.arms arm member).field, (branch.arms arm member).rule⟩⟩
  · rw [RuleSpec.ofNumberedLine, ruleRead regular]
    rfl

def crowdedRule : RuleSpec :=
  ⟨"r=", [
    ⟨"pair one", [⟨"a:", "a:", .once⟩, ⟨"x?", "x?", .many⟩, ⟨"==>", "==>", .once⟩, ⟨"l", "i:::j", .optional⟩,
      ⟨"x*", "x*", .many⟩]⟩,
    ⟨"| b", [⟨"|", "|", .once⟩, ⟨"b", "b", .once⟩]⟩]⟩

theorem crowdedRuleReadsBack :
    RuleSpec.ofNumberedLine 3
        "r= === pair one ==> a: x?* ==> l:::i:::j? x*:::x** |||| b".toList = .ok crowdedRule ∧
      crowdedRule.written = "r= === pair one ==> a: x?* ==> l:::i:::j? x** ||| | b ==> | b" ∧
      ∀ other, RuleSpec.ofNumberedLine other crowdedRule.written.toList = .ok crowdedRule := by
  have read : RuleSpec.ofNumberedLine 3
      "r= === pair one ==> a: x?* ==> l:::i:::j? x*:::x** |||| b".toList = .ok crowdedRule := by decide +kernel
  exact ⟨read, by decide +kernel, (ruleLineReadsBack read).2.2.2⟩

end Parlance
