import Parlance.Operator.Standard
import Parlance.Proofs.Evaluator.Limit
import Parlance.Proofs.Expr.Grouped

/-! Groups are transparent. A program with more groups around its values does what it does without them, to
every state: it gives the same data or a function that is the same up to groups, or fails in the same way, and
so it is with what the frames bind. -/
namespace Parlance

variable {H : Type}

/-- The natives of the host do not look into functions. Given values that groups in functions tell apart, they
ask for the same and give the same, up to groups again. -/
def Host.Blind (H : Type) [Host H] : Prop :=
  ∀ (h : H) ⦃args args' : List (Value H)⦄,
    List.Forall₂ (Value.Matched Instruction.SameUngrouped) args args' →
      (Host.run h args).Matched Instruction.SameUngrouped (Host.run h args')

theorem hostlessBlind : Host.Blind Empty := nofun

structure Evaluator.SameUngrouped (s t : Evaluator H) : Prop where
  frames : Evaluator.FramesMatched Instruction.SameUngrouped s.frames t.frames
  depth : t.depth = s.depth
  limit : t.maxDepth = s.maxDepth
  ids : t.nextId = s.nextId

def Outcome.SameUngrouped :
    Outcome EvalError (Evaluator H) (Value H) → Outcome EvalError (Evaluator H) (Value H) → Prop
  | .value v s, .value w t => v.Matched Instruction.SameUngrouped w ∧ s.SameUngrouped t
  | .error e s, .error d t => d = e ∧ s.SameUngrouped t
  | _, _ => False

variable [Host H]

def Tandem.ungrouping (blind : Host.Blind H) : Tandem H where
  codes := Instruction.SameUngrouped
  limits a b := b = a
  lost _ := False
  missed _ := False
  bounded := False
  shaped := by
    intro i j same
    obtain ⟨m, n, i', j', left, right, shaped⟩ := Instruction.sameShaped same
    exact ⟨m, n, i', j', left, right, False.elim, shaped⟩
  full := by
    rintro a _ depth rfl full
    exact .inr ⟨full, .inr rfl⟩
  roomy := by
    rintro a _ depth rfl room full
    exact room full
  hosts h _ _ given := blind h given

namespace Evaluator

variable {is js : List (Instruction H)} {s : Evaluator H}
  {o p : Outcome EvalError (Evaluator H) (Value H)}

theorem ungroupingMet {blind : Host.Blind H} {w : Unit}
    (met : (Tandem.ungrouping blind).Met w (Value.Matched Instruction.SameUngrouped) o p) :
    o.SameUngrouped p := by
  revert met
  cases o <;> cases p <;> intro met <;> try exact met.elim
  · exact ⟨met.1, met.2.frames, met.2.depth, met.2.limit, met.2.ids⟩
  · obtain missed | ⟨same, states⟩ := met
    · exact missed.elim
    · exact ⟨same, states.frames, states.depth, states.limit, states.ids⟩

theorem finishesUngrouped (blind : Host.Blind H) (same : List.Forall₂ Instruction.SameUngrouped is js)
    (ends : Finishes is s o) : ∃ p, Finishes js s p ∧ o.SameUngrouped p := by
  have self : ∀ i : Instruction H, i.SameUngrouped i := fun _ => rfl
  have start : (Tandem.ungrouping blind).States () s s := ⟨framesSelf self _, rfl, rfl, rfl, trivial⟩
  obtain lost | ⟨p, ends', met⟩ := Tandem.finishes same start ends
  · cases o with
    | value v after => exact lost.elim
    | error e after => exact lost.elim
    | outOfFuel => exact absurd rfl ends.1
  · exact ⟨p, ends', ungroupingMet met⟩

theorem finishesGrouped (blind : Host.Blind H) (same : List.Forall₂ Instruction.SameUngrouped is js)
    (ends : Finishes js s p) : ∃ o, Finishes is s o ∧ o.SameUngrouped p := by
  have back : List.Forall₂ Instruction.SameUngrouped js is := same.flip.imp fun _ _ same => same.symm
  obtain ⟨o, ends', -⟩ := finishesUngrouped blind back ends
  obtain ⟨q, again, related⟩ := finishesUngrouped blind same ends'
  exact ⟨o, ends', finishesOnce ends again ▸ related⟩

/-- Statements and the same statements with groups around any values in them, at any depth, do the same to
every state: one of the two ends if the other does, with the same error, the same data or the same function
up to groups, and the frames bind the same names to such values. -/
theorem groupsTransparent (blind : Host.Blind H) {t : OperatorTable} {sugar : Sugar} {es es' : List Expr}
    (grouped : List.Forall₂ (Expr.Grouped (sugar.roles t)) es es')
    (lowered : Instruction.ofStatements t sugar es = .ok is)
    (lowered' : Instruction.ofStatements t sugar es' = .ok js) (s : Evaluator H) :
    (∀ o, Finishes is s o → ∃ p, Finishes js s p ∧ o.SameUngrouped p) ∧
    (∀ p, Finishes js s p → ∃ o, Finishes is s o ∧ o.SameUngrouped p) ∧
    (eval is s ≠ .outOfFuel → eval js s ≠ .outOfFuel → (eval is s).SameUngrouped (eval js s)) := by
  have same := Instruction.statementsGrouped grouped lowered lowered'
  refine ⟨fun o => finishesUngrouped blind same, fun p => finishesGrouped blind same, fun ends ends' => ?_⟩
  obtain ⟨p, reached, related⟩ := finishesUngrouped blind same (evalFinishes ends)
  exact finishesOnce reached (evalFinishes ends') ▸ related

theorem groupedBodyBound :
    ∃ (es es' : List Expr) (is js : List (Instruction Empty)) (o p : Outcome EvalError _ _),
      List.Forall₂ (Expr.Grouped (Sugar.standard.roles standardOperators)) es es' ∧
      Instruction.ofStatements standardOperators .standard es = .ok is ∧
      Instruction.ofStatements standardOperators .standard es' = .ok js ∧
      o.SameUngrouped p ∧ Finishes is .empty o ∧ Finishes js .empty p := by
  let sign : Operator := ⟨5, "ass", "=", .infixOp, .right, none⟩
  let paren : Operator := ⟨13, "lparen", "(", .opener, .nonAssoc, some 14⟩
  let params : Expr := .enclosed ⟨17, "fnargdef", "[", .opener, .nonAssoc, some 18⟩ [.ident "x"]
  let block (e : Expr) : Expr := .enclosed ⟨15, "fnbody", "\x7b", .opener, .nonAssoc, some 16⟩ [e]
  let bare (e : Expr) : Expr := .binary sign (.ident "f") (.function params (block e))
  let wrapped (e : Expr) : Expr := .group (.enclosed paren [e])
  have opener : (Sugar.standard.roles standardOperators).group = some paren := by decide +kernel
  have assigns : (Sugar.standard.roles standardOperators).assign = some sign := by decide +kernel
  have other : (Sugar.standard.roles standardOperators).separator ≠ some sign := by decide +kernel
  have inner : Expr.Grouped (Sugar.standard.roles standardOperators) (.ident "x") (wrapped (.ident "x")) :=
    .wrap opener (by rintro ⟨_, _, _, ⟨⟩, _⟩) (.inside (.ident "x"))
  have grouped : Expr.Grouped (Sugar.standard.roles standardOperators) (bare (.ident "x"))
      (wrapped (bare (wrapped (.ident "x")))) := by
    refine .wrap opener ?_ (.inside (.assignment assigns (.inside (.function params (.enclosed _
      (.cons inner .nil))))))
    rintro ⟨_, _, _, ⟨⟩, role⟩
    exact other role
  have lowered : Instruction.ofStatements (H := Empty) standardOperators .standard [bare (.ident "x")] =
    .ok [.assign "f" (.function ["x"] [.lookup "x"])] := rfl
  have lowered' : Instruction.ofStatements (H := Empty) standardOperators .standard
      [wrapped (bare (wrapped (.ident "x")))] =
    .ok [.callNative .group [.assign "f" (.function ["x"] [.callNative .group [.lookup "x"]])]] := rfl
  have ends : Finishes [.assign "f" (.function ["x"] [.lookup "x"])] (.empty : Evaluator Empty)
      (.value (.function 0 (.user ["x"] [.lookup "x"]))
        ⟨[[("f", .function 0 (.user ["x"] [.lookup "x"]))]], 0, 256, 1⟩) := ⟨nofun, 2, rfl⟩
  obtain ⟨along, -, -⟩ := groupsTransparent hostlessBlind (.cons grouped .nil) lowered lowered' .empty
  obtain ⟨p, ends', same⟩ := along _ ends
  exact ⟨_, _, _, _, _, p, .cons grouped .nil, lowered, lowered', same, ends, ends'⟩

end Evaluator
end Parlance
