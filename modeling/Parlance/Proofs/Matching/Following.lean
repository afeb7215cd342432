import Parlance.Proofs.Matching.OrderedChoice

/-! What may stand after the tokens that a rule reads. Where no rule concerned can begin with a continuation,
the tokens before it are read with it as they are without it. A few terminals may take its first token; they
only ever begin a branch, and a branch that has begun with one of them fails at what comes next. -/
namespace Parlance.Matching

variable {g : Grammar}

def before {α : Type} (after : List Token) (o : Reading α) : Reading α :=
  o.map fun read => (read.1, read.2 ++ after)

theorem armSuffix {arm : Arm g.size} {tokens middle : List Token} {fields : List (String × Tree)}
    (h : ArmReads g arm tokens (some (fields, middle))) :
    tokens = Tree.fieldTokens fields ++ middle := by
  obtain ⟨least, settled⟩ := armComplete h
  obtain ⟨c, (out : matchArm _ arm _ = _), rest⟩ :=
    readingMatched (settled least (Nat.le_refl _) (Cursor.ofTokens tokens) rfl)
  have keeps := armConserves (ruleConserves g least) arm (Cursor.ofTokens tokens)
  rw [out] at keeps
  have whole : tokens = Tree.fieldTokens fields ++ c.remaining := keeps
  rw [whole, rest]

theorem ruleSuffix {id : Fin g.size} {tokens middle : List Token} {t : Tree}
    (h : RuleReads g id tokens (some (t, middle))) : tokens = t.tokens ++ middle := by
  obtain ⟨least, settled⟩ := ruleComplete h
  obtain ⟨c, (out : matchAt g _ id _ = _), rest⟩ :=
    readingMatched (settled least (Nat.le_refl _) (Cursor.ofTokens tokens) rfl)
  have keeps := ruleConserves g least id (Cursor.ofTokens tokens)
  rw [out] at keeps
  have whole : tokens = t.tokens ++ c.remaining := keeps
  rw [whole, rest]

structure Opens (inner leading : Fin g.size → Prop) (arms : List (Arm g.size)) : Prop where
  concerned : ∀ arm ∈ arms, inner arm.rule
  once : ∀ arm ∈ arms, leading arm.rule → arm.times = .once
  later : ∀ arm ∈ arms.tail, ¬ leading arm.rule

theorem opensTail {inner leading : Fin g.size → Prop} {arm : Arm g.size} {arms : List (Arm g.size)}
    (h : Opens inner leading (arm :: arms)) : Opens inner leading arms where
  concerned := fun other member => h.concerned other (List.mem_cons_of_mem _ member)
  once := fun other member => h.once other (List.mem_cons_of_mem _ member)
  later := fun other member => h.later other (List.mem_of_mem_tail member)

structure Follows (g : Grammar) (inner leading : Fin g.size → Prop) (plain : Token → Prop)
    (after : List Token) : Prop where
  fails : ∀ id, inner id → ¬ leading id → RuleReads g id [] none ∧ RuleReads g id after none
  opens : ∀ id branches, inner id → (g.rule id).body = .composite branches →
    (∀ b ∈ branches, Opens inner leading b.arms) ∨
      ∀ t rest, plain t → RuleReads g id (t :: rest) none

variable {inner leading : Fin g.size → Prop} {plain : Token → Prop} {after : List Token}

mutual

theorem ruleFollowed (follows : Follows g inner leading plain after) {id : Fin g.size}
    {tokens : List Token} {o : Reading Tree} (h : RuleReads g id tokens o) (concerned : inner id)
    (plainly : ∀ t ∈ tokens, plain t) (begun : tokens = [] → ¬ leading id) :
    RuleReads g id (tokens ++ after) (before after o) := by
  match h with
  | .token body accepted => exact .token body accepted
  | .refused body refused => exact .refused body refused
  | .noToken body => exact (follows.fails id concerned (begun rfl)).2
  | @RuleReads.choice _ _ branches [] _ body chosen =>
    have fails := follows.fails id concerned (begun rfl)
    cases readsOnce fails.1 (.choice body chosen)
    exact fails.2
  | @RuleReads.choice _ _ branches (t :: rest) _ body chosen =>
    rcases follows.opens id branches concerned body with opened | shut
    · exact .choice body (branchesFollowed follows chosen opened plainly (by simp))
    · have here := plainly t List.mem_cons_self
      cases readsOnce (shut t rest here) (.choice body chosen)
      exact shut t (rest ++ after) here

theorem branchesFollowed (follows : Follows g inner leading plain after) {rule : String}
    {branches : List (Branch g.size)} {tokens : List Token} {o : Reading Tree}
    (h : BranchesRead g rule branches tokens o) (opened : ∀ b ∈ branches, Opens inner leading b.arms)
    (plainly : ∀ t ∈ tokens, plain t) (begun : tokens ≠ []) :
    BranchesRead g rule branches (tokens ++ after) (before after o) := by
  match h with
  | .none => exact .none
  | .here matched =>
    have opens := opened _ List.mem_cons_self
    exact .here (armsFollowed follows matched opens plainly fun none => absurd none begun)
  | .later failed others =>
    have opens := opened _ List.mem_cons_self
    exact .later (armsFollowed follows failed opens plainly fun none => absurd none begun)
      (branchesFollowed follows others (fun b member => opened b (List.mem_cons_of_mem _ member))
        plainly begun)

theorem armsFollowed (follows : Follows g inner leading plain after) {arms : List (Arm g.size)}
    {tokens : List Token} {o : Reading (List (String × Tree))} (h : ArmsRead g arms tokens o)
    (opens : Opens inner leading arms) (plainly : ∀ t ∈ tokens, plain t)
    (begun : tokens = [] → ∀ arm ∈ arms, ¬ leading arm.rule) :
    ArmsRead g arms (tokens ++ after) (before after o) := by
  match h with
  | .nil => exact .nil
  | .cons first others =>
    have split := armSuffix first
    have here := armFollowed follows first (opens.concerned _ List.mem_cons_self)
      (opens.once _ List.mem_cons_self) plainly fun none => begun none _ List.mem_cons_self
    exact .cons here (armsFollowed follows others (opensTail opens)
      (fun t member => plainly t (split ▸ List.mem_append_right _ member)) fun _ => opens.later)
  | .firstFails first =>
    exact .firstFails (armFollowed follows first (opens.concerned _ List.mem_cons_self)
      (opens.once _ List.mem_cons_self) plainly fun none => begun none _ List.mem_cons_self)
  | .laterFails first others =>
    have split := armSuffix first
    have here := armFollowed follows first (opens.concerned _ List.mem_cons_self)
      (opens.once _ List.mem_cons_self) plainly fun none => begun none _ List.mem_cons_self
    exact .laterFails here (armsFollowed follows others (opensTail opens)
      (fun t member => plainly t (split ▸ List.mem_append_right _ member)) fun _ => opens.later)

theorem armFollowed (follows : Follows g inner leading plain after) {arm : Arm g.size}
    {tokens : List Token} {o : Reading (List (String × Tree))} (h : ArmReads g arm tokens o)
    (concerned : inner arm.rule) (once : leading arm.rule → arm.times = .once)
    (plainly : ∀ t ∈ tokens, plain t) (begun : tokens = [] → ¬ leading arm.rule) :
    ArmReads g arm (tokens ++ after) (before after o) := by
  match h with
  | .once times matched => exact .once times (ruleFollowed follows matched concerned plainly begun)
  | .missing times fails => exact .missing times (ruleFollowed follows fails concerned plainly begun)
  | .present times matched =>
    exact .present times (ruleFollowed follows matched concerned plainly begun)
  | .absent times fails => exact .absent times (ruleFollowed follows fails concerned plainly begun)
  | .many times repeated =>
    have inside : ¬ leading arm.rule := fun leads => by
      rw [once leads] at times
      contradiction
    exact .many times (manyFollowed follows repeated concerned inside plainly)

theorem manyFollowed (follows : Follows g inner leading plain after) {id : Fin g.size}
    {field : String} {tokens rest : List Token} {fields : List (String × Tree)}
    (h : ManyRead g id field tokens fields rest) (concerned : inner id) (inside : ¬ leading id)
    (plainly : ∀ t ∈ tokens, plain t) :
    ManyRead g id field (tokens ++ after) fields (rest ++ after) := by
  match h with
  | .stop fails => exact .stop (ruleFollowed follows fails concerned plainly fun _ => inside)
  | .idle nothing => exact .idle (ruleFollowed follows nothing concerned plainly fun _ => inside)
  | .more matched progress others =>
    have split := ruleSuffix matched
    have here := ruleFollowed follows matched concerned plainly fun _ => inside
    exact .more here (fun same => progress (List.append_cancel_right same))
      (manyFollowed follows others concerned inside fun t member =>
        plainly t (split ▸ List.mem_append_right _ member))

end

end Parlance.Matching
