import Parlance.Proofs.Matching.Conservation

/-! Ordered choice as a relation on token lists. What a rule reads is told without a cursor, without a
limit and without giving tokens back; a left-recursive rule reads nothing, because no derivation of it is
finite. The matcher decides this relation: what it answers below its limit is the only derivable outcome,
and every derivable outcome is its answer from some limit on. -/
namespace Parlance

/-- What was matched and the tokens after it, or nothing where there is no match. -/
abbrev Reading (α : Type) := Option (α × List Token)

mutual
inductive RuleReads (g : Grammar) : Fin g.size → List Token → Reading Tree → Prop where
  | token {id d t rest} (body : (g.rule id).body = .terminal d) (accepted : d.accepts t = true) :
      RuleReads g id (t :: rest) (some (.terminal (g.rule id).name d.field t, rest))
  | refused {id d t rest} (body : (g.rule id).body = .terminal d) (refused : d.accepts t = false) :
      RuleReads g id (t :: rest) none
  | noToken {id d} (body : (g.rule id).body = .terminal d) : RuleReads g id [] none
  | choice {id branches tokens out} (body : (g.rule id).body = .composite branches)
      (chosen : BranchesRead g (g.rule id).name branches tokens out) : RuleReads g id tokens out

inductive BranchesRead (g : Grammar) :
    String → List (Branch g.size) → List Token → Reading Tree → Prop where
  | none {rule tokens} : BranchesRead g rule [] tokens none
  | here {rule branch branches tokens fields rest}
      (matched : ArmsRead g branch.arms tokens (some (fields, rest))) :
      BranchesRead g rule (branch :: branches) tokens
        (some (.composite rule branch.name fields, rest))
  | later {rule branch branches tokens out} (failed : ArmsRead g branch.arms tokens none)
      (others : BranchesRead g rule branches tokens out) :
      BranchesRead g rule (branch :: branches) tokens out

inductive ArmsRead (g : Grammar) :
    List (Arm g.size) → List Token → Reading (List (String × Tree)) → Prop where
  | nil {tokens} : ArmsRead g [] tokens (some ([], tokens))
  | cons {arm arms tokens fields middle more rest}
      (first : ArmReads g arm tokens (some (fields, middle)))
      (others : ArmsRead g arms middle (some (more, rest))) :
      ArmsRead g (arm :: arms) tokens (some (fields ++ more, rest))
  | firstFails {arm arms tokens} (first : ArmReads g arm tokens none) :
      ArmsRead g (arm :: arms) tokens none
  | laterFails {arm arms tokens fields middle}
      (first : ArmReads g arm tokens (some (fields, middle))) (others : ArmsRead g arms middle none) :
      ArmsRead g (arm :: arms) tokens none

inductive ArmReads (g : Grammar) :
    Arm g.size → List Token → Reading (List (String × Tree)) → Prop where
  | once {arm tokens t rest} (times : arm.times = .once)
      (matched : RuleReads g arm.rule tokens (some (t, rest))) :
      ArmReads g arm tokens (some ([(arm.field, t)], rest))
  | missing {arm tokens} (times : arm.times = .once) (fails : RuleReads g arm.rule tokens none) :
      ArmReads g arm tokens none
  | present {arm tokens t rest} (times : arm.times = .optional)
      (matched : RuleReads g arm.rule tokens (some (t, rest))) :
      ArmReads g arm tokens (some ([(arm.field, t)], rest))
  | absent {arm tokens} (times : arm.times = .optional) (fails : RuleReads g arm.rule tokens none) :
      ArmReads g arm tokens (some ([], tokens))
  | many {arm tokens fields rest} (times : arm.times = .many)
      (repeated : ManyRead g arm.rule arm.field tokens fields rest) :
      ArmReads g arm tokens (some (fields, rest))

inductive ManyRead (g : Grammar) :
    Fin g.size → String → List Token → List (String × Tree) → List Token → Prop where
  | stop {id field tokens} (fails : RuleReads g id tokens none) : ManyRead g id field tokens [] tokens
  | idle {id field tokens t} (nothing : RuleReads g id tokens (some (t, tokens))) :
      ManyRead g id field tokens [] tokens
  | more {id field tokens t middle fields rest}
      (matched : RuleReads g id tokens (some (t, middle))) (progress : middle ≠ tokens)
      (others : ManyRead g id field middle fields rest) :
      ManyRead g id field tokens ((field, t) :: fields) rest
end

namespace Matching

def reading {α : Type} : Outcome α → Option (Reading α)
  | (.matched a, c) => some (some (a, c.remaining))
  | (.failed, _) => some none
  | (.tooDeep, _) => none

theorem emptyLeavesAll {t : Tree} {before after : List Token} (h : before = t.tokens ++ after) :
    t.isEmpty = true ↔ after = before := by
  rw [Tree.emptyTokens, h]
  exact List.self_eq_append_left.symm

theorem takenShortens {t : Tree} {before after : List Token} (h : before = t.tokens ++ after)
    (full : ¬ t.isEmpty = true) : after.length < before.length := by
  have taken : t.tokens ≠ [] := fun none => full ((Tree.emptyTokens t).mpr none)
  have positive := List.length_pos_iff.mpr taken
  rw [h, List.length_append]
  omega

theorem roundsOutlast (c : Cursor) : c.remaining.length < c.buffer.length + c.source.length + 1 := by
  simp [Cursor.remaining]

section Sound

variable {g : Grammar} {levels : Nat}
  (ruleSound : ∀ id c o, reading (matchAt g levels id c) = some o → RuleReads g id c.remaining o)

include ruleSound

theorem manySound (id : Fin g.size) (field : String) {rounds : Nat} {c : Cursor}
    (enough : c.remaining.length < rounds) {o : Reading (List (String × Tree))}
    (h : reading (matchMany (matchAt g levels id) field rounds c) = some o) :
    ∃ fields rest, o = some (fields, rest) ∧ ManyRead g id field c.remaining fields rest := by
  -- Each recorded match takes a token, so the rounds outlast the tokens.
  induction rounds generalizing c o with
  | zero => omega
  | succ rounds ih =>
    have sound := ruleSound id c
    have keeps := ruleConserves g levels id c
    unfold matchMany at h
    generalize matchAt g levels id c = out at sound keeps h
    obtain ⟨t | _ | _, after⟩ := out
    · have read : c.remaining = t.tokens ++ after.remaining := keeps
      have matched := sound _ rfl
      dsimp only at h
      by_cases empty : t.isEmpty = true
      · have same := (emptyLeavesAll read).mp empty
        rw [if_pos empty] at h
        cases Option.some.inj h
        rw [same] at matched ⊢
        exact ⟨[], c.remaining, rfl, .idle matched⟩
      · have progress : after.remaining ≠ c.remaining := fun same => empty ((emptyLeavesAll read).mpr same)
        have shorter := takenShortens read empty
        rw [if_neg empty] at h
        have later := @ih after
        have going := manyNeverFails (matchAt g levels id) field rounds after
        generalize matchMany (matchAt g levels id) field rounds after = out at later going h
        obtain ⟨rest | _ | _, last⟩ := out
        · cases Option.some.inj h
          obtain ⟨fields, rest', same, others⟩ := later (by omega) rfl
          cases Option.some.inj same
          exact ⟨_, _, rfl, .more matched progress others⟩
        · exact absurd rfl going
        · contradiction
    · have back : after.remaining = c.remaining := keeps
      cases Option.some.inj h
      rw [back]
      exact ⟨[], c.remaining, rfl, .stop (sound none rfl)⟩
    · contradiction

theorem armSound (arm : Arm g.size) (c : Cursor) {o : Reading (List (String × Tree))}
    (h : reading (matchArm (matchAt g levels) arm c) = some o) : ArmReads g arm c.remaining o := by
  have sound := ruleSound arm.rule c
  have keeps := ruleConserves g levels arm.rule c
  unfold matchArm at h
  cases times : arm.times with
  | once =>
    simp only [times] at h
    generalize matchAt g levels arm.rule c = out at sound keeps h
    obtain ⟨t | _ | _, after⟩ := out
    · cases Option.some.inj h
      exact .once times (sound _ rfl)
    · cases Option.some.inj h
      exact .missing times (sound _ rfl)
    · contradiction
  | optional =>
    simp only [times] at h
    generalize matchAt g levels arm.rule c = out at sound keeps h
    obtain ⟨t | _ | _, after⟩ := out
    · cases Option.some.inj h
      exact .present times (sound _ rfl)
    · have back : after.remaining = c.remaining := keeps
      cases Option.some.inj h
      rw [back]
      exact .absent times (sound _ rfl)
    · contradiction
  | many =>
    simp only [times] at h
    obtain ⟨fields, rest, rfl, many⟩ := manySound ruleSound arm.rule arm.field (roundsOutlast c) h
    exact .many times many

theorem armsSound (arms : List (Arm g.size)) (c : Cursor) {o : Reading (List (String × Tree))}
    (h : reading (matchArms (matchAt g levels) arms c) = some o) : ArmsRead g arms c.remaining o := by
  induction arms generalizing c o with
  | nil =>
    cases Option.some.inj h
    exact .nil
  | cons arm arms ih =>
    have first := @armSound _ _ ruleSound arm c
    unfold matchArms at h
    generalize matchArm (matchAt g levels) arm c = out at first h
    obtain ⟨fields | _ | _, after⟩ := out
    · have others := @ih after
      dsimp only at h
      generalize matchArms (matchAt g levels) arms after = out at others h
      obtain ⟨rest | _ | _, last⟩ := out
      · cases Option.some.inj h
        exact .cons (first rfl) (others rfl)
      · cases Option.some.inj h
        exact .laterFails (first rfl) (others rfl)
      · contradiction
    · cases Option.some.inj h
      exact .firstFails (first rfl)
    · contradiction

theorem branchesSound (rule : String) (branches : List (Branch g.size)) (c : Cursor)
    {o : Reading Tree} (h : reading (matchBranches (matchAt g levels) rule branches c) = some o) :
    BranchesRead g rule branches c.remaining o := by
  induction branches generalizing c with
  | nil =>
    cases Option.some.inj h
    exact .none
  | cons branch branches ih =>
    have first := @armsSound _ _ ruleSound branch.arms c
    have keeps := armsConserve (ruleConserves g levels) branch.arms c
    unfold matchBranches at h
    generalize matchArms (matchAt g levels) branch.arms c = out at first keeps h
    obtain ⟨fields | _ | _, after⟩ := out
    · cases Option.some.inj h
      exact .here (first rfl)
    · have back : after.remaining = c.remaining := keeps
      have others := ih after h
      rw [back] at others
      exact .later (first rfl) others
    · contradiction

end Sound

theorem terminalSound {g : Grammar} {id : Fin g.size} {d : Detector}
    (body : (g.rule id).body = .terminal d) (c : Cursor) {o : Reading Tree}
    (h : reading (matchTerminal (g.rule id).name d c) = some o) : RuleReads g id c.remaining o := by
  have head := Cursor.nextHead c
  have tail := Cursor.nextTail c
  unfold matchTerminal at h
  generalize c.next = out at head tail h
  obtain ⟨_ | t, after⟩ := out
  · cases Option.some.inj h
    rw [List.head?_eq_none_iff.mp head.symm]
    exact .noToken body
  · obtain ⟨rest, hr⟩ := List.head?_eq_some_iff.mp head.symm
    rw [hr, List.tail_cons] at tail
    rw [hr]
    dsimp only at h
    cases accepts : d.accepts t with
    | true =>
      rw [if_pos accepts] at h
      cases Option.some.inj h
      rw [tail]
      exact .token body accepts
    | false =>
      rw [if_neg (by simp [accepts])] at h
      cases Option.some.inj h
      exact .refused body accepts

theorem ruleSound (g : Grammar) (levels : Nat) (id : Fin g.size) (c : Cursor) (o : Reading Tree)
    (h : reading (matchAt g levels id c) = some o) : RuleReads g id c.remaining o := by
  induction levels generalizing id c o with
  | zero => contradiction
  | succ levels ih =>
    unfold matchAt at h
    split at h
    · rename_i d body
      exact terminalSound body c h
    · rename_i branches body
      exact .choice body (branchesSound ih _ branches c h)

theorem readingMatched {α : Type} {out : Outcome α} {a : α} {rest : List Token}
    (h : reading out = some (some (a, rest))) : ∃ c, out = (.matched a, c) ∧ c.remaining = rest := by
  obtain ⟨b | _ | _, c⟩ := out
  · cases Option.some.inj h
    exact ⟨c, rfl, rfl⟩
  · cases Option.some.inj h
  · contradiction

theorem readingFailed {α : Type} {out : Outcome α} (h : reading out = some none) :
    ∃ c, out = (.failed, c) := by
  obtain ⟨b | _ | _, c⟩ := out
  · cases Option.some.inj h
  · exact ⟨c, rfl⟩
  · contradiction

def Settles {α : Type} (run : Nat → Cursor → Outcome α) (tokens : List Token) (o : Reading α) : Prop :=
  ∃ least, ∀ levels ≥ least, ∀ c, c.remaining = tokens → reading (run levels c) = some o

section Complete

variable {g : Grammar}

mutual
theorem ruleComplete {id : Fin g.size} {tokens : List Token} {o : Reading Tree}
    (h : RuleReads g id tokens o) : Settles (fun levels => matchAt g levels id) tokens o := by
  match h with
  | .token body accepted =>
    refine ⟨1, fun levels enough c same => ?_⟩
    obtain ⟨levels, rfl⟩ := Nat.exists_eq_add_of_le' enough
    have head := Cursor.nextHead c
    have tail := Cursor.nextTail c
    rw [same] at head tail
    simp only [matchAt, body, matchTerminal]
    generalize c.next = out at head tail
    obtain ⟨_ | t, after⟩ := out
    · contradiction
    · cases Option.some.inj head
      dsimp only at tail ⊢
      rw [if_pos accepted, reading, tail, List.tail_cons]
  | .refused body refused =>
    refine ⟨1, fun levels enough c same => ?_⟩
    obtain ⟨levels, rfl⟩ := Nat.exists_eq_add_of_le' enough
    have head := Cursor.nextHead c
    rw [same] at head
    simp only [matchAt, body, matchTerminal]
    generalize c.next = out at head
    obtain ⟨_ | t, after⟩ := out
    · contradiction
    · cases Option.some.inj head
      dsimp only
      rw [if_neg (by simp [refused]), reading]
  | .noToken body =>
    refine ⟨1, fun levels enough c same => ?_⟩
    obtain ⟨levels, rfl⟩ := Nat.exists_eq_add_of_le' enough
    have head := Cursor.nextHead c
    rw [same] at head
    simp only [matchAt, body, matchTerminal]
    generalize c.next = out at head
    obtain ⟨_ | t, after⟩ := out
    · rfl
    · contradiction
  | .choice body chosen =>
    obtain ⟨least, settled⟩ := branchesComplete chosen
    refine ⟨least + 1, fun levels enough c same => ?_⟩
    obtain ⟨levels, rfl⟩ := Nat.exists_eq_add_of_le' (Nat.le_of_add_left_le enough)
    simp only [matchAt, body]
    exact settled levels (by omega) c same

theorem branchesComplete {rule : String} {branches : List (Branch g.size)} {tokens : List Token}
    {o : Reading Tree} (h : BranchesRead g rule branches tokens o) :
    Settles (fun levels => matchBranches (matchAt g levels) rule branches) tokens o := by
  match h with
  | .none => exact ⟨0, fun _ _ _ _ => rfl⟩
  | .here matched =>
    obtain ⟨least, settled⟩ := armsComplete matched
    refine ⟨least, fun levels enough c same => ?_⟩
    obtain ⟨after, out, rest⟩ := readingMatched (settled levels enough c same)
    simp only [matchBranches, out, reading, rest]
  | @BranchesRead.later _ _ branch _ _ _ failed others =>
    obtain ⟨least, settled⟩ := armsComplete failed
    obtain ⟨least', settled'⟩ := branchesComplete others
    refine ⟨max least least', fun levels enough c same => ?_⟩
    obtain ⟨after, (out : matchArms _ branch.arms c = _)⟩ :=
      readingFailed (settled levels (by omega) c same)
    have keeps := armsConserve (ruleConserves g levels) branch.arms c
    rw [out] at keeps
    have back : after.remaining = c.remaining := keeps
    simp only [matchBranches, out]
    exact settled' levels (by omega) after (back.trans same)

theorem armsComplete {arms : List (Arm g.size)} {tokens : List Token}
    {o : Reading (List (String × Tree))} (h : ArmsRead g arms tokens o) :
    Settles (fun levels => matchArms (matchAt g levels) arms) tokens o := by
  match h with
  | .nil => exact ⟨0, fun _ _ _ same => by simp [matchArms, reading, same]⟩
  | .cons first others =>
    obtain ⟨least, settled⟩ := armComplete first
    obtain ⟨least', settled'⟩ := armsComplete others
    refine ⟨max least least', fun levels enough c same => ?_⟩
    obtain ⟨after, out, middle⟩ := readingMatched (settled levels (by omega) c same)
    obtain ⟨last, out', rest⟩ := readingMatched (settled' levels (by omega) after middle)
    simp only [matchArms, out, out', reading, rest]
  | .firstFails first =>
    obtain ⟨least, settled⟩ := armComplete first
    refine ⟨least, fun levels enough c same => ?_⟩
    obtain ⟨after, out⟩ := readingFailed (settled levels enough c same)
    simp only [matchArms, out, reading]
  | .laterFails first others =>
    obtain ⟨least, settled⟩ := armComplete first
    obtain ⟨least', settled'⟩ := armsComplete others
    refine ⟨max least least', fun levels enough c same => ?_⟩
    obtain ⟨after, out, middle⟩ := readingMatched (settled levels (by omega) c same)
    obtain ⟨last, out'⟩ := readingFailed (settled' levels (by omega) after middle)
    simp only [matchArms, out, out', reading]

theorem armComplete {arm : Arm g.size} {tokens : List Token} {o : Reading (List (String × Tree))}
    (h : ArmReads g arm tokens o) : Settles (fun levels => matchArm (matchAt g levels) arm) tokens o := by
  match h with
  | .once times matched =>
    obtain ⟨least, settled⟩ := ruleComplete matched
    refine ⟨least, fun levels enough c same => ?_⟩
    obtain ⟨after, out, rest⟩ := readingMatched (settled levels enough c same)
    simp only [matchArm, times, out, reading, rest]
  | .missing times fails =>
    obtain ⟨least, settled⟩ := ruleComplete fails
    refine ⟨least, fun levels enough c same => ?_⟩
    obtain ⟨after, out⟩ := readingFailed (settled levels enough c same)
    simp only [matchArm, times, out, reading]
  | .present times matched =>
    obtain ⟨least, settled⟩ := ruleComplete matched
    refine ⟨least, fun levels enough c same => ?_⟩
    obtain ⟨after, out, rest⟩ := readingMatched (settled levels enough c same)
    simp only [matchArm, times, out, reading, rest]
  | .absent times fails =>
    obtain ⟨least, settled⟩ := ruleComplete fails
    refine ⟨least, fun levels enough c same => ?_⟩
    obtain ⟨after, (out : matchAt g levels arm.rule c = _)⟩ :=
      readingFailed (settled levels enough c same)
    have keeps := ruleConserves g levels arm.rule c
    rw [out] at keeps
    have back : after.remaining = c.remaining := keeps
    simp only [matchArm, times, out, reading, back, same]
  | .many times repeated =>
    obtain ⟨least, settled⟩ := manyComplete repeated
    refine ⟨least, fun levels enough c same => ?_⟩
    simp only [matchArm, times]
    exact settled levels enough _ c same (roundsOutlast c)

theorem manyComplete {id : Fin g.size} {field : String} {tokens rest : List Token}
    {fields : List (String × Tree)} (h : ManyRead g id field tokens fields rest) :
    ∃ least, ∀ levels ≥ least, ∀ rounds c, c.remaining = tokens → c.remaining.length < rounds →
      reading (matchMany (matchAt g levels id) field rounds c) = some (some (fields, rest)) := by
  match h with
  | .stop fails =>
    obtain ⟨least, settled⟩ := ruleComplete fails
    refine ⟨least, fun levels enough rounds c same outlast => ?_⟩
    obtain ⟨rounds, rfl⟩ := Nat.exists_eq_add_of_le' (Nat.lt_of_le_of_lt (Nat.zero_le _) outlast)
    obtain ⟨after, (out : matchAt g levels id c = _)⟩ :=
      readingFailed (settled levels enough c same)
    have keeps := ruleConserves g levels id c
    rw [out] at keeps
    have back : after.remaining = c.remaining := keeps
    simp only [matchMany, out, reading, back, same]
  | .idle nothing =>
    obtain ⟨least, settled⟩ := ruleComplete nothing
    refine ⟨least, fun levels enough rounds c same outlast => ?_⟩
    obtain ⟨rounds, rfl⟩ := Nat.exists_eq_add_of_le' (Nat.lt_of_le_of_lt (Nat.zero_le _) outlast)
    obtain ⟨after, (out : matchAt g levels id c = _), rest⟩ :=
      readingMatched (settled levels enough c same)
    have keeps := ruleConserves g levels id c
    rw [out] at keeps
    have empty := (emptyLeavesAll keeps).mpr (rest.trans same.symm)
    simp only [matchMany, out, empty, if_true, reading, rest]
  | .more (t := t) matched progress others =>
    obtain ⟨least, settled⟩ := ruleComplete matched
    obtain ⟨least', settled'⟩ := manyComplete others
    refine ⟨max least least', fun levels enough rounds c same outlast => ?_⟩
    obtain ⟨rounds, rfl⟩ := Nat.exists_eq_add_of_le' (Nat.lt_of_le_of_lt (Nat.zero_le _) outlast)
    obtain ⟨after, (out : matchAt g levels id c = _), middle⟩ :=
      readingMatched (settled levels (by omega) c same)
    have keeps := ruleConserves g levels id c
    rw [out] at keeps
    have read : c.remaining = t.tokens ++ after.remaining := keeps
    have full : ¬ t.isEmpty = true := fun empty =>
      progress (middle.symm.trans (((emptyLeavesAll read).mp empty).trans same))
    have shorter := takenShortens read full
    obtain ⟨last, out', rest⟩ :=
      readingMatched (settled' levels (by omega) rounds after middle (by omega))
    simp only [matchMany, out, if_neg full, out', reading, rest]
end

end Complete

def answer : Except ParseError (Option Tree) × Cursor → Option (Reading Tree)
  | (.ok (some m), c) => some (some (m, c.remaining))
  | (.ok none, _) => some none
  | (.error _, _) => none

theorem answerReading (g : Grammar) (limit : Nat) (id : Fin g.size) (c : Cursor) :
    answer (g.matchRule limit id c) = reading (matchAt g limit id c) := by
  unfold Grammar.matchRule
  rcases matchAt g limit id c with ⟨m | _ | _, after⟩ <;> rfl

theorem answered {g : Grammar} {limit : Nat} {id : Fin g.size} {c : Cursor}
    (notCut : (g.matchRule limit id c).1 ≠ .error (.tooDeep limit)) :
    ∃ o, answer (g.matchRule limit id c) = some o := by
  unfold Grammar.matchRule at notCut ⊢
  generalize matchAt g limit id c = out at notCut ⊢
  obtain ⟨m | _ | _, after⟩ := out
  · exact ⟨_, rfl⟩
  · exact ⟨_, rfl⟩
  · exact (notCut rfl).elim

theorem readsOnce {g : Grammar} {id : Fin g.size} {tokens : List Token} {o p : Reading Tree}
    (left : RuleReads g id tokens o) (right : RuleReads g id tokens p) : p = o := by
  obtain ⟨least, settled⟩ := ruleComplete left
  obtain ⟨least', settled'⟩ := ruleComplete right
  have first := settled (max least least') (by omega) (Cursor.ofTokens tokens) rfl
  have second := settled' (max least least') (by omega) (Cursor.ofTokens tokens) rfl
  exact Option.some.inj (second.symm.trans first)

end Matching

theorem Grammar.parseReads {g : Grammar} {start : String} {tokens : List Token} {m : Tree}
    (parsed : g.parse start tokens = .ok m) :
    ∃ id, g.id? start = some id ∧ RuleReads g id tokens (some (m, [])) := by
  obtain ⟨id, after, named, out, empty⟩ := parseMatches parsed
  refine ⟨id, named, Matching.ruleSound g defaultDepth id (Cursor.ofTokens tokens) _ ?_⟩
  rw [out, Matching.reading, empty]

theorem Grammar.parseOfReads {g : Grammar} {start : String} {tokens : List Token} {m : Tree}
    {id : Fin g.size} (named : g.id? start = some id) (reads : RuleReads g id tokens (some (m, [])))
    (notCut : g.parse start tokens ≠ .error (.tooDeep defaultDepth)) : g.parse start tokens = .ok m := by
  have sound := Matching.ruleSound g defaultDepth id (Cursor.ofTokens tokens)
  unfold parse matchRule at notCut ⊢
  simp only [named] at notCut ⊢
  generalize Matching.matchAt g defaultDepth id (Cursor.ofTokens tokens) = out at sound notCut ⊢
  obtain ⟨t | _ | _, after⟩ := out
  · have head := Cursor.nextHead after
    have same := Matching.readsOnce (sound _ rfl) reads
    simp only [Option.some.injEq, Prod.mk.injEq] at same
    rw [← same.2] at head
    dsimp only
    split
    · rename_i next _ found
      rw [found] at head
      contradiction
    · rw [same.1]
  · have same := Matching.readsOnce (sound _ rfl) reads
    contradiction
  · exact absurd rfl notCut

/-- The matcher decides ordered choice: an answer that was not cut off is the one outcome that can be
derived, and what can be derived is the answer from some limit on. -/
theorem Grammar.matchDecidesReading (g : Grammar) (id : Fin g.size) (c : Cursor) :
    (∀ limit, (g.matchRule limit id c).1 ≠ .error (.tooDeep limit) →
      ∃ o, Matching.answer (g.matchRule limit id c) = some o ∧ RuleReads g id c.remaining o ∧
        ∀ p, RuleReads g id c.remaining p → p = o) ∧
    ∀ o, RuleReads g id c.remaining o →
      ∃ least, ∀ limit ≥ least, Matching.answer (g.matchRule limit id c) = some o := by
  constructor
  · intro limit notCut
    obtain ⟨o, ho⟩ := Matching.answered notCut
    have derived := Matching.ruleSound g limit id c o (Matching.answerReading g limit id c ▸ ho)
    exact ⟨o, ho, derived, fun p other => Matching.readsOnce derived other⟩
  · intro o derived
    obtain ⟨least, settled⟩ := Matching.ruleComplete derived
    refine ⟨least, fun limit enough => ?_⟩
    rw [Matching.answerReading]
    exact settled limit enough c rfl

end Parlance
