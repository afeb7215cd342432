import Parlance.Proofs.Expr.Tokens
import Parlance.Proofs.Instruction.Lowering

/-! Parameter lists. One that the lowering takes holds plain names between separators, whichever way those
associate, and the parameters of the function are these names in the order in which they are written. -/
namespace Parlance

def Token.texts (tokens : List Token) : List String := (tokens.filter isText).map content

namespace Lower

open Token

theorem separatedTexts (t : OperatorTable) (separator : Option Operator) (e : Expr) :
    texts (e.tokens t) = (separated separator e).flatMap fun item => texts (item.tokens t) := by
  fun_induction separated separator e with
  | case1 op lhs rhs same ihl ihr =>
    rw [List.flatMap_append, ← ihl, ← ihr]
    simp [texts, Expr.tokens, isText]
  | case2 op lhs rhs other => simp
  | case3 e other => simp

theorem enclosedTexts (t : OperatorTable) (op : Operator) (items : List Expr) :
    texts ((Expr.enclosed op items).tokens t) = items.flatMap fun item => texts (item.tokens t) := by
  have closing : texts (t.closingSign op) = [] := by
    unfold OperatorTable.closingSign
    cases t.closing? op <;> rfl
  have body : texts (Expr.allTokens t items) = items.flatMap fun item => texts (item.tokens t) := by
    rw [Expr.allTokensEach]
    simp [texts, List.filter_flatMap, List.map_flatMap]
  have parts : texts ((Expr.enclosed op items).tokens t) =
      texts (Expr.allTokens t items) ++ texts (t.closingSign op) := by
    simp [texts, Expr.tokens, isText]
  rw [parts, closing, body, List.append_nil]

theorem parametersRead {r : Roles} {params : Expr} {names : List String} :
    parameters r params = .ok names ↔ ∃ op items, params = .enclosed op items ∧ r.params = some op ∧
      items.flatMap (separated r.separator) = names.map .ident ∧ ∀ name ∈ names, isName name = true := by
  constructor
  · intro h
    obtain ⟨items, found, walked⟩ := bindOk h
    obtain ⟨op, enclosed, role⟩ := enclosedByOk.mp found
    have listed : names.map Expr.ident = (items.flatMap (separated r.separator)).map id :=
      traverseMapped (fun _ _ read => (parameterOk.mp read).1.symm) walked
    refine ⟨op, items, enclosed, role, (listed.trans (List.map_id _)).symm, fun name member => ?_⟩
    obtain ⟨item, -, read⟩ := traverseMember walked member
    exact (parameterOk.mp read).2
  · rintro ⟨op, items, enclosed, role, listed, plain⟩
    have found : enclosedBy r.params params = .ok items := enclosedByOk.mpr ⟨op, enclosed, role⟩
    have walked : traverse parameter (names.map .ident) = .ok (names.map id) :=
      traverseMap fun name member => parameterOk.mpr ⟨rfl, plain name member⟩
    rw [parameters, found, ← List.map_id names, ← walked, ← listed]
    rfl

theorem parametersTexts {r : Roles} {params : Expr} {names : List String}
    (h : parameters r params = .ok names) (t : OperatorTable) : texts (params.tokens t) = names := by
  obtain ⟨op, items, rfl, -, listed, -⟩ := parametersRead.mp h
  have single : ∀ name, texts ((Expr.ident name).tokens t) = [name] := by
    intro name
    rw [Expr.tokens]
    rfl
  have leaves : items.flatMap (fun item => texts (item.tokens t)) =
      (items.flatMap (separated r.separator)).flatMap fun item => texts (item.tokens t) := by
    rw [List.flatMap_assoc]
    exact congrArg (List.flatMap · items) (funext fun item => separatedTexts t r.separator item)
  rw [enclosedTexts, leaves, listed, List.flatMap_map]
  simp only [single, List.flatMap_singleton']

theorem functionLowered {H : Type} {r : Roles} {levels : Nat} {captured : Bool} {params block : Expr}
    {i : Instruction H} (compiled : lowerAt r (levels + 1) captured (.function params block) = .ok i) :
    ∃ names code, parameters r params = .ok names ∧
      Lower.block (lowerAt r levels) r block = .ok code ∧ i = .function names code := by
  obtain ⟨names, read, rest⟩ := bindOk compiled
  obtain ⟨code, lowered, last⟩ := bindOk rest
  exact ⟨names, code, read, lowered, (Except.ok.inj last).symm⟩

end Lower

end Parlance
