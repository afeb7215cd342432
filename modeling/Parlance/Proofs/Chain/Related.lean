import Parlance.Proofs.Chain.Admissible

/-! Chains of related operators. Where every two operators of a chain are related by precedence, nothing but
chaining what may not be chained makes the chain meaningless. -/
namespace Parlance.Chain

variable {α : Type} {t : OperatorTable}

def Related (t : OperatorTable) (ops : List Operator) : Prop :=
  ∀ a ∈ ops, ∀ b ∈ ops, t.precedence a.id b.id ≠ .undefined

theorem closesRelated {q p : Operator} (related : t.precedence q.id p.id ≠ .undefined) {e : ResolveError}
    (h : closesBefore t q p = .error e) : e = .nonAssociative p.symbol := by
  unfold closesBefore at h
  split at h
  · contradiction
  · contradiction
  · split at h
    · contradiction
    · contradiction
    · exact (Except.error.inj h).symm
  · contradiction

theorem settleSuffix {next : Operator} {pending rest : Pending α} {right left : OperatorTree α}
    (h : settle t next pending right = .ok (rest, left)) : rest <:+ pending := by
  induction pending generalizing right with
  | nil =>
    cases h
    exact List.suffix_refl []
  | cons entry pending ih =>
    unfold settle at h
    split at h
    · contradiction
    · exact (ih h).trans (List.suffix_cons entry pending)
    · cases h
      exact List.suffix_refl _

theorem settleRelated {next : Operator} {pending : Pending α} {right : OperatorTree α}
    (related : ∀ entry ∈ pending, t.precedence entry.2.id next.id ≠ .undefined) {e : ResolveError}
    (h : settle t next pending right = .error e) : e = .nonAssociative next.symbol := by
  induction pending generalizing right with
  | nil => contradiction
  | cons entry pending ih =>
    obtain ⟨here, others⟩ := List.forall_mem_cons.mp related
    unfold settle at h
    split at h
    · rename_i wrong
      cases Except.error.inj h
      exact closesRelated here wrong
    · exact ih others h
    · contradiction

theorem arrangeFromRelated {ops : List Operator} (related : Related t ops) {pending : Pending α}
    {right : OperatorTree α} {links : List (Operator × α)} (waiting : ∀ entry ∈ pending, entry.2 ∈ ops)
    (coming : ∀ link ∈ links, link.1 ∈ ops) {e : ResolveError}
    (h : arrangeFrom t pending right links = .error e) : ∃ symbol, e = .nonAssociative symbol := by
  induction links generalizing pending right with
  | nil => contradiction
  | cons link links ih =>
    obtain ⟨here, later⟩ := List.forall_mem_cons.mp coming
    unfold arrangeFrom at h
    split at h
    · rename_i wrong
      cases Except.error.inj h
      exact ⟨_, settleRelated (fun entry member => related _ (waiting entry member) _ here) wrong⟩
    · rename_i rest left settled
      have kept : ∀ entry ∈ rest, entry.2 ∈ ops := fun entry member =>
        waiting entry ((settleSuffix settled).subset member)
      exact ih (List.forall_mem_cons.mpr ⟨here, kept⟩) later h

theorem reassociateRelated {operands : List Expr} {ops : List Operator} (related : Related t ops)
    (left right : String) : reassociate t operands ops ≠ .error (.precedenceConflict left right) := by
  intro h
  cases operands with
  | nil => cases Except.error.inj h
  | cons first rest =>
    by_cases same : rest.length = ops.length
    · rw [reassociateArranged same] at h
      split at h
      · rename_i found
        cases Except.error.inj h
        have within : ∀ link ∈ ops.zip rest, link.1 ∈ ops := fun link member => (List.of_mem_zip member).1
        obtain ⟨symbol, blamed⟩ := arrangeFromRelated related (by simp) within found
        contradiction
      · split at h
        · cases Except.error.inj h
        · contradiction
    · simp [reassociate, same] at h

end Parlance.Chain
