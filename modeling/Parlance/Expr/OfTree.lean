import Parlance.Expr.Chain
import Parlance.Sequence
import Parlance.Tree

/-! Expressions of syntax trees, by the rule, branch and field names of the standard grammar. A chain is
resolved operand by operand before it becomes a tree, and a guard that leaves an operand out gets the
scrutinee into its chain first. -/
namespace Parlance.Resolve

def unexpected (m : Tree) : ResolveError := .unexpectedNode m.tag

def child (m : Tree) (field : String) : Except ResolveError Tree :=
  match m.child? field with
  | some t => .ok t
  | none => .error (.missingField m.tag field)

def token (m : Tree) (field : String) : Except ResolveError Token :=
  match m.token? field with
  | some t => .ok t
  | none => .error (.missingField m.tag field)

def operator (t : OperatorTable) (m : Tree) (field : String) (category : Category) :
    Except ResolveError Operator := do
  let sign ← token m field
  match t.find? sign.content category with
  | some op => .ok op
  | none => .error (.unknownOperator sign.content category)

def isMatch (m : Tree) (rule branch : String) : Bool := m.rule == rule && m.branch == some branch

section

variable (step : Tree → Except ResolveError Expr)

def nextStatement (m : Tree) : Except ResolveError (List Expr) :=
  match m.branch with
  | some "more" => do
    let e ← step (← child m "stmt")
    .ok [e]
  | some "last" => .ok []
  | _ => .error (unexpected m)

def statementsWith (m : Tree) : Except ResolveError (List Expr) := do
  if !isMatch m "stmts" "seq" then .error (unexpected m)
  let first ← step (← child m "stmt")
  let rest ← traverse (nextStatement step) (m.children "rest")
  .ok (first :: rest.flatten)

def link (t : OperatorTable) (m : Tree) : Except ResolveError (Operator × Expr) := do
  let op ← operator t m "binop" .infixOp
  let rhs ← step (← child m "rhs")
  .ok (op, rhs)

def flatten (t : OperatorTable) (m : Tree) : Except ResolveError (List Expr × List Operator) := do
  if !isMatch m "expr" "chain" then .error (unexpected m)
  let head ← step (← child m "head")
  let links ← traverse (link step t) (m.children "link")
  .ok (head :: links.map Prod.snd, links.map Prod.fst)

def enclosed (t : OperatorTable) (m : Tree) : Except ResolveError Expr := do
  let op ← operator t m "opener" .opener
  let close ← operator t m "closer" .closer
  if op.partner != some close.id then
    .error (.mismatchedEncloser op.symbol close.symbol)
  match m.child? "stmts", m.child? "expr" with
  | some stmts, _ => do
    let body ← statementsWith step stmts
    .ok (.enclosed op body)
  | none, some expr => do
    let e ← step expr
    .ok (.enclosed op [e])
  | none, none => .ok (.enclosed op [])

def guardOf (t : OperatorTable) (g : Tree) : Except ResolveError (Guard Expr) :=
  match g.branch with
  | some "catch-all" => .ok .catchAll
  | some "left" => do
    let op ← operator t g "binop" .infixOp
    let (operands, ops) ← flatten step t (← child g "rhs")
    let e ← reassociate t (.capture :: operands) (op :: ops)
    .ok (.test e)
  | some "test" =>
    if (g.field? "op").isSome then do
      let op ← operator t g "op" .infixOp
      let (operands, ops) ← flatten step t (← child g "expr")
      let e ← reassociate t (operands ++ [.capture]) (ops ++ [op])
      .ok (.test e)
    else do
      let e ← step (← child g "expr")
      .ok (.test e)
  | _ => .error (unexpected g)

def armOf (t : OperatorTable) (m : Tree) : Except ResolveError (CondArm Expr) := do
  let guard ← guardOf step t (← child m "guard")
  let body ← enclosed step t (← child m "body")
  .ok ⟨guard, body⟩

def conditional (t : OperatorTable) (m : Tree) : Except ResolveError Expr := do
  if m.rule != "cond" then .error (unexpected m)
  match m.child? "scrutinee" with
  | some s => do
    let scrutinee ← step s
    let arms ← traverse (armOf step t) (m.children "arm")
    .ok (.conditional (some scrutinee) arms)
  | none => do
    let arms ← traverse (armOf step t) (m.children "arm")
    .ok (.conditional none arms)

def applyAll (t : OperatorTable) : Expr → List Tree → Except ResolveError Expr
  | callee, [] => .ok callee
  | callee, args :: rest => do
    let args ← enclosed step t args
    applyAll t (.call callee args) rest

def exprWith (t : OperatorTable) (m : Tree) : Except ResolveError Expr :=
  match m.rule, m.branch with
  | "expr", _ => do
    let (operands, ops) ← flatten step t m
    reassociate t operands ops
  | "expr'", some "unop" => do
    let op ← operator t m "unop" .prefixOp
    let operand ← step (← child m "operand")
    .ok (.unary op operand)
  | "expr'", some "apply" => do
    let callee ← step (← child m "callee")
    applyAll step t callee (m.children "args")
  | "primary", some "function" => do
    let params ← enclosed step t (← child m "params")
    let body ← enclosed step t (← child m "body")
    .ok (.function params body)
  | "primary", some "group" => do
    let args ← enclosed step t (← child m "group")
    .ok (.group args)
  | "primary", some "cond" => do
    conditional step t (← child m "cond")
  | "primary", some "ident" => do
    let name ← token m "ident"
    .ok (.ident name.content)
  | "cond", _ => conditional step t m
  | "group", _ => enclosed step t m
  | "params", _ => enclosed step t m
  | "block", _ => enclosed step t m
  | _, _ => .error (unexpected m)

end

def exprAt (t : OperatorTable) : Nat → Tree → Except ResolveError Expr
  | 0, m => .error (unexpected m)
  | height + 1, m => exprWith (exprAt t height) t m

end Resolve

def Expr.ofTree (t : OperatorTable) (m : Tree) : Except ResolveError Expr :=
  Resolve.exprAt t m.height m

def Expr.statements (t : OperatorTable) (m : Tree) : Except ResolveError (List Expr) :=
  Resolve.statementsWith (Resolve.exprAt t m.height) m

end Parlance
