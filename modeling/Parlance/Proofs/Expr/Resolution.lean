import Parlance.Proofs.Matching.Parts

/-! Resolution looks at the parts of a syntax tree and nowhere else. So every match has one expression of its
own, whatever it is a part of, and a larger tree resolves to what its parts resolve to. -/
namespace Parlance

namespace Tree

theorem childHeight {m c : Tree} {name : String} (h : m.child? name = some c) :
    c.height < m.height := by
  cases m with
  | terminal rule field token => simp [child?] at h
  | composite rule branch fields => exact Nat.lt_succ_of_le (fieldHeight (lookupMember h))

theorem childrenHeight {m c : Tree} {name : String} (h : c ∈ m.children name) :
    c.height < m.height := by
  cases m with
  | terminal rule field token => simp [children] at h
  | composite rule branch fields =>
    simp only [children, List.mem_map, List.mem_filter] at h
    obtain ⟨entry, ⟨member, -⟩, rfl⟩ := h
    exact Nat.lt_succ_of_le (fieldHeight member)

end Tree

namespace Resolve

theorem childHeight {m c : Tree} {field : String} (h : child m field = .ok c) :
    c.height < m.height := by
  unfold child at h
  split at h
  · cases h
    exact Tree.childHeight (by assumption)
  · contradiction

def SameBelow (step step' : Tree → Except ResolveError Expr) (m : Tree) : Prop :=
  ∀ c : Tree, c.height < m.height → step c = step' c

section

variable {step step' : Tree → Except ResolveError Expr} {t : OperatorTable} {m : Tree}

theorem sameBelowOf {c : Tree} (same : SameBelow step step' m) (below : c.height < m.height) :
    SameBelow step step' c := fun d less => same d (Nat.lt_trans less below)

theorem nextStatementSame (same : SameBelow step step' m) :
    nextStatement step m = nextStatement step' m := by
  unfold nextStatement
  split
  · exact bindCongr fun c found => by rw [same c (childHeight found)]
  · rfl
  · rfl

theorem statementsSame (same : SameBelow step step' m) :
    statementsWith step m = statementsWith step' m := by
  unfold statementsWith
  split
  · rfl
  refine bindCongr fun c found => ?_
  have rest : traverse (nextStatement step) (m.children "rest") =
      traverse (nextStatement step') (m.children "rest") :=
    traverseCongr fun c member => nextStatementSame (sameBelowOf same (Tree.childrenHeight member))
  rw [same c (childHeight found), rest]

theorem linkSame (same : SameBelow step step' m) : link step t m = link step' t m := by
  unfold link
  refine bindCongr fun op _ => bindCongr fun c found => ?_
  rw [same c (childHeight found)]

theorem flattenSame (same : SameBelow step step' m) : flatten step t m = flatten step' t m := by
  unfold flatten
  split
  · rfl
  refine bindCongr fun c found => ?_
  have links : traverse (link step t) (m.children "link") = traverse (link step' t) (m.children "link") :=
    traverseCongr fun c member => linkSame (sameBelowOf same (Tree.childrenHeight member))
  rw [same c (childHeight found), links]

theorem enclosedSame (same : SameBelow step step' m) : enclosed step t m = enclosed step' t m := by
  unfold enclosed
  refine bindCongr fun op _ => bindCongr fun close _ => ?_
  split
  · rename_i found
    rw [statementsSame (sameBelowOf same (Tree.childHeight found))]
  · rename_i found
    rw [same _ (Tree.childHeight found)]
  · rfl

theorem guardSame (same : SameBelow step step' m) : guardOf step t m = guardOf step' t m := by
  unfold guardOf
  split
  · rfl
  · refine bindCongr fun op _ => bindCongr fun c found => ?_
    rw [flattenSame (sameBelowOf same (childHeight found))]
  · split
    · refine bindCongr fun op _ => bindCongr fun c found => ?_
      rw [flattenSame (sameBelowOf same (childHeight found))]
    · refine bindCongr fun c found => ?_
      rw [same c (childHeight found)]
  · rfl

theorem armSame (same : SameBelow step step' m) : armOf step t m = armOf step' t m := by
  unfold armOf
  refine bindCongr fun c found => ?_
  rw [guardSame (sameBelowOf same (childHeight found))]
  refine bindCongr fun guard _ => bindCongr fun c found => ?_
  rw [enclosedSame (sameBelowOf same (childHeight found))]

theorem conditionalSame (same : SameBelow step step' m) :
    conditional step t m = conditional step' t m := by
  have arms : traverse (armOf step t) (m.children "arm") = traverse (armOf step' t) (m.children "arm") :=
    traverseCongr fun c member => armSame (sameBelowOf same (Tree.childrenHeight member))
  unfold conditional
  rw [arms]
  split
  · rename_i found
    rw [same _ (Tree.childHeight found)]
  · rfl

theorem applyAllSame {groups : List Tree} (same : ∀ c ∈ groups, SameBelow step step' c) (callee : Expr) :
    applyAll step t callee groups = applyAll step' t callee groups := by
  induction groups generalizing callee with
  | nil => rfl
  | cons args rest ih =>
    simp only [applyAll]
    rw [enclosedSame (same args List.mem_cons_self)]
    exact bindCongr fun e _ => ih (fun c member => same c (List.mem_cons_of_mem _ member)) _

theorem exprSame (same : SameBelow step step' m) : exprWith step t m = exprWith step' t m := by
  have below : ∀ {field c}, child m field = .ok c → SameBelow step step' c := fun found =>
    sameBelowOf same (childHeight found)
  unfold exprWith
  split
  · rw [flattenSame same]
  · refine bindCongr fun op _ => bindCongr fun c found => ?_
    rw [same c (childHeight found)]
  · refine bindCongr fun c found => ?_
    rw [same c (childHeight found)]
    exact bindCongr fun callee _ =>
      applyAllSame (fun c member => sameBelowOf same (Tree.childrenHeight member)) callee
  · refine bindCongr fun params found => ?_
    rw [enclosedSame (below found)]
    refine bindCongr fun e _ => bindCongr fun body found => ?_
    rw [enclosedSame (below found)]
  · refine bindCongr fun c found => ?_
    rw [enclosedSame (below found)]
  · exact bindCongr fun c found => conditionalSame (below found)
  · rfl
  · exact conditionalSame same
  · exact enclosedSame same
  · exact enclosedSame same
  · exact enclosedSame same
  · rfl

end

theorem exprAtHeight {t : OperatorTable} {height : Nat} {m : Tree} (room : m.height ≤ height) :
    exprAt t height m = Expr.ofTree t m := by
  -- By induction on the height there is room for: every part of a match is lower than it.
  induction height using Nat.strongRecOn generalizing m with
  | ind height ih =>
    unfold Expr.ofTree
    have positive : 0 < m.height := by cases m <;> simp [Tree.height]
    obtain ⟨more, rfl⟩ : ∃ more, height = more + 1 := ⟨height - 1, by omega⟩
    obtain ⟨low, same⟩ : ∃ low, m.height = low + 1 := ⟨m.height - 1, by omega⟩
    rw [same]
    refine exprSame fun c below => ?_
    rw [ih more (by omega) (by omega)]
    by_cases equal : low = more
    · rw [equal, ih more (by omega) (by omega)]
    · rw [ih low (by omega) (by omega)]

end Resolve

namespace Expr

open Resolve

variable {t : OperatorTable} {m : Tree}

theorem ofTreeParts : ofTree t m = exprWith (ofTree t) t m := by
  obtain ⟨low, same⟩ : ∃ low, m.height = low + 1 := by
    cases m with
    | terminal => exact ⟨0, rfl⟩
    | composite rule branch fields => exact ⟨_, rfl⟩
  have unfolded : ofTree t m = exprWith (exprAt t low) t m := by
    unfold ofTree
    rw [same]
    rfl
  exact unfolded.trans (exprSame fun c below => exprAtHeight (by omega))

theorem statementsParts : statements t m = statementsWith (ofTree t) m :=
  statementsSame fun _ below => exprAtHeight (Nat.le_of_lt below)

theorem ofTreeChain (chain : m.rule = "expr") :
    ofTree t m = (do
      let (operands, ops) ← flatten (ofTree t) t m
      reassociate t operands ops) := by
  rw [ofTreeParts]
  unfold exprWith
  rw [chain]
  cases m.branch <;> rfl

theorem ofTreeBlock (block : m.rule = "block") : ofTree t m = Resolve.enclosed (ofTree t) t m := by
  rw [ofTreeParts]
  unfold exprWith
  rw [block]
  cases m.branch <;> rfl

theorem ofTreeApply (callee : Tree) :
    ofTree t (.composite "expr'" "apply" [("callee", callee)]) = ofTree t callee := by
  rw [ofTreeParts]
  change (ofTree t callee >>= Except.ok) = _
  cases ofTree t callee <;> rfl

theorem ofTreeSole (operand : Tree) :
    ofTree t (.composite "expr" "chain" [("head", operand)]) = ofTree t operand := by
  rw [ofTreeParts]
  change (do
    let (operands, ops) ← (do
      let head ← ofTree t operand
      Except.ok ([head], []))
    reassociate t operands ops) = _
  cases ofTree t operand <;> rfl

theorem ofTreeConditional (cond : Tree) :
    ofTree t (.composite "primary" "cond" [("cond", cond)]) = Resolve.conditional (ofTree t) t cond := by
  rw [ofTreeParts]
  rfl

theorem statementsSole (statement : Tree) :
    statements t (.composite "stmts" "seq" [("stmt", statement)]) = (do
      let e ← ofTree t statement
      .ok [e]) := by
  rw [statementsParts]
  rfl

end Expr
end Parlance
