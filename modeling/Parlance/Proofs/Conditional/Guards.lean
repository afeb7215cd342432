import Parlance.Proofs.Expr.Resolution
import Parlance.Proofs.Language.Continuation

/-! Guards by the forms they are written in. A guard that is an expression is read as that expression, and
one that ends in an operator has the scrutinee as the right operand of that operator. An expression that
begins with a sign that is an infix operator too is neither: as a guard it lacks its left operand. -/
namespace Parlance

def chainTokens (scrutinee guard block : List Token) : List Token :=
  .glyph "?" :: (scrutinee ++ .glyph "|" :: (guard ++ .glyph "=>" :: block))

def signField (op : Operator) : List (String × Tree) :=
  [("op", .terminal "binop" "op" (.glyph op.symbol))]

def guardTree (guard : Tree) (op : List (String × Tree)) : Tree :=
  .composite "arm-guard" "test" (("expr", guard) :: op)

def armTree (guard block : Tree) : Tree :=
  .composite "arm" "arm" [("sep", .terminal "arm-sep" "op" (.glyph "|")), ("guard", guard),
    ("arrow", .terminal "arrow" "op" (.glyph "=>")), ("body", block)]

def condTree (scrutinee : List (String × Tree)) (arm : Tree) : Tree :=
  .composite "cond" "chain"
    (("open", .terminal "cond-open" "op" (.glyph "?")) :: (scrutinee ++ [("arm", arm)]))

def soleTree (cond : Tree) : Tree :=
  .composite "stmts" "seq" [("stmt", .composite "expr" "chain" [("head",
    .composite "expr'" "apply" [("callee", .composite "primary" "cond" [("cond", cond)])])])]

namespace Language.StandardParts

open Grammar

variable {l : Language} (standard : StandardParts l) {tokens rest after : List Token} {t : Token} {m : Tree}

include standard

theorem readsOrFails {read : Tree × List Token} (matched : l.grammar.Reads "expr" tokens (some read)) :
    ¬ l.grammar.Reads "expr" tokens none := by
  intro fails
  have listed : "expr" ∈ declared standardRules (terminals standardOperators) := by decide
  obtain ⟨id, found⟩ := linkedId standard.grammar listed
  have same := Matching.readsOnce (matched id (idNamed found)) (fails id (idNamed found))
  contradiction

theorem headTaken (read : l.grammar.Reads "expr" (t :: rest) (some (m, after))) :
    ¬ ∀ name ∈ "unop" :: marks, Refused t name := by
  intro refused
  have unsigned : l.grammar.Reads "unop" (t :: rest) none :=
    standard.refusedFails (refused "unop" List.mem_cons_self)
  exact standard.readsOrFails read (standard.operandsFail
    (fun name listed => standard.refusedFails (refused name (List.mem_cons_of_mem _ listed)))
    (beginFails unsigned) "expr" (by decide))

theorem guardBegins (read : l.grammar.Reads "expr" (t :: rest) (some (m, after)))
    (unsigned : t ≠ .glyph "-") :
    l.grammar.Reads "ellipsis" (t :: rest) none ∧ l.grammar.Reads "binop" (t :: rest) none := by
  have others : ∀ s ∈ "..." :: standardOperators.symbols .infixOp, s ≠ "-" →
      ∀ name ∈ "unop" :: marks, Refused (.glyph s) name := by decide +kernel
  have fails : ∀ {name symbols}, glyphTerminal name symbols ∈ terminals standardOperators →
      (∀ s ∈ symbols, s ∈ "..." :: standardOperators.symbols .infixOp) →
        l.grammar.Reads name (t :: rest) none := by
    intro name symbols listed known
    refine readsRefused (standard.declaresTerminal listed) ?_
    cases accepted : (glyphTerminal name symbols).detector.accepts t with
    | false => rfl
    | true =>
      obtain ⟨s, member, rfl⟩ := glyphAccepted accepted
      exact absurd (others s (known s member) fun same => unsigned (by rw [same]))
        (standard.headTaken read)
  constructor
  · exact fails (markListed (by decide : ("ellipsis", "...") ∈ punctuation)) (by simp)
  · exact fails (by simp [terminals] : glyphTerminal "binop" (standardOperators.symbols .infixOp) ∈ _)
      fun s member => List.mem_cons_of_mem _ member

theorem guardReads {guard : List Token} {op : List (String × Tree)}
    (read : l.grammar.Reads "expr" guard (some (m, []))) (plain : ∀ t ∈ guard, t ≠ .glyph "?")
    (unsigned : guard.head? ≠ some (.glyph "-")) (closed : Closed l after)
    (ends : l.grammar.ReadsArm (optionalArm "op" "binop") after (some (op, rest))) :
    l.grammar.Reads "arm-guard" (guard ++ after) (some (guardTree m op, rest)) := by
  have whole := standard.chainFollowed read plain closed
  cases guard with
  | nil =>
    have ended := standard.closedFails standard.closedEnd "expr" (by decide)
    exact absurd ended (standard.readsOrFails read)
  | cons t guard =>
    obtain ⟨dots, sign⟩ := standard.guardBegins whole fun same => unsigned (by rw [same]; rfl)
    have test : l.grammar.ReadsArms [bareArm "expr", optionalArm "op" "binop"] (t :: guard ++ after)
        (some ([("expr", m)] ++ (op ++ []), rest)) :=
      consArm (armOnce rfl whole) (consArm ends noArm)
    rw [List.append_nil] at test
    exact readsChoice standard.declaresGuard
      (branchLater (beginFails dots) (branchLater (beginFails sign) (branchHere test)))

theorem armReads {guard block : List Token} {g b : Tree}
    (test : l.grammar.Reads "arm-guard" (guard ++ .glyph "=>" :: block) (some (g, .glyph "=>" :: block)))
    (body : l.grammar.Reads "block" block (some (b, rest))) :
    l.grammar.Reads "arm" (.glyph "|" :: (guard ++ .glyph "=>" :: block))
      (some (armTree g b, rest)) :=
  readsChoice standard.declaresArm (branchHere
    (consArm (armOnce rfl (standard.markReads (by decide))) (consArm (armOnce rfl test)
      (consArm (armOnce rfl (standard.markReads (by decide))) (consArm (armOnce rfl body) noArm)))))

theorem soleReads {cond : Tree} (read : l.grammar.Reads "cond" (.glyph "?" :: tokens) (some (cond, []))) :
    l.grammar.Reads "stmts" (.glyph "?" :: tokens) (some (soleTree cond, [])) := by
  have ended := standard.closedFails standard.closedEnd
  have shut : ∀ name ∈ ["unop", "fnargdef-open"], Refused (.glyph "?") name := by decide +kernel
  have params : l.grammar.Reads "params" (.glyph "?" :: tokens) none :=
    soleFails (standard.declaresEnclosure paramsEnclose)
      (standard.refusedFails (shut "fnargdef-open" (by decide)))
  have unsigned : l.grammar.Reads "unop" (.glyph "?" :: tokens) none :=
    standard.refusedFails (shut "unop" (by decide))
  have primary := readsChoice standard.declaresPrimary
    (branchLater (beginFails params) (branchHere (consArm (armOnce rfl read) noArm)))
  have operand := readsChoice standard.declaresOperand
    (branchLater (beginFails unsigned) (branchHere
      (consArm (armOnce rfl primary) (consArm (armNever rfl (ended "group" (by decide))) noArm))))
  have chain := readsChoice standard.declaresChain (branchHere
    (consArm (armOnce rfl operand) (consArm (armNever rfl (ended "link" (by decide))) noArm)))
  exact readsChoice standard.declaresStatements (branchHere
    (consArm (armOnce rfl chain) (consArm (armNever rfl (ended "next-stmt" (by decide))) noArm)))

theorem chainReads {scrutinee guard block : List Token} {s : List (String × Tree)} {g b : Tree}
    (first : l.grammar.ReadsArm (optionalArm "scrutinee" "expr")
      (scrutinee ++ .glyph "|" :: (guard ++ .glyph "=>" :: block))
      (some (s, .glyph "|" :: (guard ++ .glyph "=>" :: block))))
    (test : l.grammar.Reads "arm-guard" (guard ++ .glyph "=>" :: block) (some (g, .glyph "=>" :: block)))
    (body : l.grammar.Reads "block" block (some (b, []))) :
    l.grammar.Reads "stmts" (chainTokens scrutinee guard block)
      (some (soleTree (condTree s (armTree g b)), [])) := by
  have bar : glyphTerminal "arm-sep" ["|"] ∈ terminals standardOperators := markListed (by decide)
  have noArms : l.grammar.Reads "arm" [] none :=
    soleFails standard.declaresArm (readsNoToken (standard.declaresTerminal bar))
  exact standard.soleReads (readsChoice standard.declaresConditional (branchHere
    (consArm (armOnce rfl (standard.markReads (by decide))) (consArm first
      (consArm (armOnce rfl (standard.armReads test body)) (consArm (armNever rfl noArms) noArm))))))

end Language.StandardParts

namespace Resolve

variable {t : OperatorTable} {step : Tree → Except ResolveError Expr} {s g b arm : Tree}

theorem oneArm : traverse (armOf step t) [arm] = (do
    let a ← armOf step t arm
    .ok [a]) := by
  simp only [traverse]
  cases armOf step t arm <;> rfl

theorem conditionalBare : conditional step t (condTree [] arm) = (do
    let a ← armOf step t arm
    .ok (.conditional none [a])) := by
  change (do
    let arms ← traverse (armOf step t) [arm]
    .ok (Expr.conditional none arms)) = _
  simp only [oneArm, bind_assoc]
  rfl

theorem conditionalOn : conditional step t (condTree [("scrutinee", s)] arm) = (do
    let scrutinee ← step s
    let a ← armOf step t arm
    .ok (.conditional (some scrutinee) [a])) := by
  change (do
    let scrutinee ← step s
    let arms ← traverse (armOf step t) [arm]
    .ok (Expr.conditional (some scrutinee) arms)) = _
  simp only [oneArm, bind_assoc]
  rfl

theorem soleResolves (cond : Tree) :
    Expr.statements t (soleTree cond) = (do
      let e ← conditional (Expr.ofTree t) t cond
      .ok [e]) := by
  unfold soleTree
  rw [Expr.statementsSole, Expr.ofTreeSole, Expr.ofTreeApply, Expr.ofTreeConditional]

theorem armResolves (block : b.rule = "block") :
    armOf (Expr.ofTree t) t (armTree g b) = (do
      let guard ← guardOf (Expr.ofTree t) t g
      let body ← Expr.ofTree t b
      .ok ⟨guard, body⟩) := by
  rw [Expr.ofTreeBlock block]
  rfl

theorem guardAlone : guardOf step t (guardTree g []) = (do
    let e ← step g
    .ok (.test e)) :=
  rfl

theorem guardOpen {op : Operator} (known : t.find? op.symbol .infixOp = some op) :
    guardOf step t (guardTree g (signField op)) = (do
      let (operands, ops) ← flatten step t g
      let e ← reassociate t (operands ++ [.capture]) (ops ++ [op])
      .ok (.test e)) := by
  have found : operator t (guardTree g (signField op)) "op" .infixOp = .ok op := by
    have sign : token (guardTree g (signField op)) "op" = .ok (.glyph op.symbol) := rfl
    simp only [operator, sign, bind, Except.bind, Token.content, known]
  change (operator t _ "op" .infixOp >>= _) = _
  rw [found]
  rfl

def bareChain (t : OperatorTable) (guard block : Tree) : Except ResolveError (List Expr) := do
  let test ← Expr.ofTree t guard
  let body ← Expr.ofTree t block
  .ok [.conditional none [⟨.test test, body⟩]]

def openChain (t : OperatorTable) (op : Operator) (scrutinee guard block : Tree) :
    Except ResolveError (List Expr) := do
  let scrutinee ← Expr.ofTree t scrutinee
  let (operands, ops) ← flatten (Expr.ofTree t) t guard
  let test ← reassociate t (operands ++ [.capture]) (ops ++ [op])
  let body ← Expr.ofTree t block
  .ok [.conditional (some scrutinee) [⟨.test test, body⟩]]

theorem bareResolves (block : b.rule = "block") :
    Expr.statements t (soleTree (condTree [] (armTree (guardTree g []) b))) = bareChain t g b := by
  rw [soleResolves, conditionalBare, armResolves block, guardAlone]
  simp only [bind_assoc]
  rfl

theorem openResolves {op : Operator} (known : t.find? op.symbol .infixOp = some op)
    (block : b.rule = "block") :
    Expr.statements t (soleTree (condTree [("scrutinee", s)] (armTree (guardTree g (signField op)) b))) =
      openChain t op s g b := by
  rw [soleResolves, conditionalOn, armResolves block, guardOpen known]
  simp only [bind_assoc]
  rfl

end Resolve

namespace Conditional

open Grammar Language.StandardParts

variable {l : Language} {guard block : List Token} {g b : Tree}

/-- Tokens that are read as an expression up to the mark of the arm that comes after them, and no further. -/
def Scrutinee (l : Language) (tokens after : List Token) (m : Tree) : Prop :=
  ∃ id, l.grammar.id? "expr" = some id ∧
    RuleReads l.grammar id (tokens ++ .glyph "|" :: after) (some (m, .glyph "|" :: after))

def TooDeep (l : Language) (tokens : List Token) : Prop :=
  l.grammar.parse l.start tokens = .error (.tooDeep defaultDepth)

theorem infixFound : ∀ op ∈ standardOperators.operators, op.category = .infixOp →
    standardOperators.find? op.symbol .infixOp = some op := by decide +kernel

section

variable (standard : l.StandardParts)

include standard

theorem startListed : l.start ∈ declared standardRules (terminals standardOperators) := by
  rw [standard.start]
  decide

theorem plainScrutinee {scrutinee after : List Token} {s : Tree}
    (parsed : l.grammar.parse "expr" scrutinee = .ok s) (plain : ∀ t ∈ scrutinee, t ≠ .glyph "?") :
    Scrutinee l scrutinee after s := by
  have bar : Closed l (.glyph "|" :: after) := standard.closedMark barRefused
  have listed : "expr" ∈ declared standardRules (terminals standardOperators) := by decide
  obtain ⟨id, named⟩ := linkedId standard.grammar listed
  have upTo := standard.chainFollowed (standard.parsedReads parsed) plain bar
  exact ⟨id, named, upTo id (idNamed named)⟩

variable (test : l.grammar.parse "expr" guard = .ok g) (plain : ∀ t ∈ guard, t ≠ .glyph "?")
  (unsigned : guard.head? ≠ some (.glyph "-")) (body : l.grammar.parse "block" block = .ok b)

include test plain unsigned body

theorem bareForm (shallow : ¬ TooDeep l (chainTokens [] guard block)) :
    ∃ m, l.grammar.parse l.start (chainTokens [] guard block) = .ok m ∧
      Expr.statements l.operators m = Resolve.bareChain l.operators g b := by
  have arrow : Closed l (.glyph "=>" :: block) := standard.closedMark arrowRefused
  have noOperator : l.grammar.ReadsArm (optionalArm "op" "binop") (.glyph "=>" :: block)
      (some ([], .glyph "=>" :: block)) :=
    armAbsent rfl (standard.refusedFails (arrowRefused "binop" (by decide)))
  have bar : Closed l (.glyph "|" :: (guard ++ .glyph "=>" :: block)) :=
    standard.closedMark barRefused
  have noScrutinee : l.grammar.ReadsArm (optionalArm "scrutinee" "expr")
      ([] ++ .glyph "|" :: (guard ++ .glyph "=>" :: block))
      (some ([], .glyph "|" :: (guard ++ .glyph "=>" :: block))) :=
    armAbsent rfl (standard.closedFails bar "expr" (by decide))
  have reads := standard.chainReads noScrutinee
    (standard.guardReads (standard.parsedReads test) plain unsigned arrow noOperator)
    (standard.parsedReads body)
  exact ⟨_, standard.readsParsed (startListed standard) (standard.start ▸ reads) shallow,
    Resolve.bareResolves (parsedRule body)⟩

theorem openForm {op : Operator} (member : op ∈ l.operators.operators) (binary : op.category = .infixOp)
    {scrutinee : List Token} {s : Tree}
    (ends : Scrutinee l scrutinee (guard ++ .glyph op.symbol :: .glyph "=>" :: block) s)
    (shallow : ¬ TooDeep l (chainTokens scrutinee (guard ++ [.glyph op.symbol]) block)) :
    ∃ m, l.grammar.parse l.start (chainTokens scrutinee (guard ++ [.glyph op.symbol]) block) = .ok m ∧
      Expr.statements l.operators m = Resolve.openChain l.operators op s g b := by
  rw [standard.operators] at member ⊢
  have found := infixFound op member binary
  have sign : op.symbol ∈ standardOperators.symbols .infixOp :=
    List.mem_map_of_mem (List.mem_filter.mpr ⟨member, beq_iff_eq.mpr binary⟩)
  have operator : l.grammar.ReadsArm (optionalArm "op" "binop")
      (.glyph op.symbol :: .glyph "=>" :: block) (some (signField op, .glyph "=>" :: block)) :=
    armPresent rfl (standard.signReads sign)
  -- an operator before an arrow has no right operand, so the chain before it does not take it
  have closed : Closed l (.glyph op.symbol :: .glyph "=>" :: block) :=
    standard.closedSign (infixRefused op member binary) (standard.closedMark arrowRefused)
  have guarded := standard.guardReads (standard.parsedReads test) plain unsigned closed operator
  rw [List.append_cons] at guarded ends
  obtain ⟨id, named, upTo⟩ := ends
  have first : l.grammar.ReadsArm (optionalArm "scrutinee" "expr") _ (some ([("scrutinee", s)], _)) :=
    armPresent rfl (standard.namedReads named upTo)
  have reads := standard.chainReads first guarded (standard.parsedReads body)
  exact ⟨_, standard.readsParsed (startListed standard) (standard.start ▸ reads) shallow,
    Resolve.openResolves found (parsedRule body)⟩

end

theorem parsesShallow {tokens : List Token} (h : parses l.start tokens l = true) : ¬ TooDeep l tokens := by
  obtain ⟨m, parsed⟩ := parsesMatch h
  intro deep
  cases parsed.symm.trans deep

def oneBlock : List Token := [.glyph "\x7b", .text "1", .glyph "\x7d"]

-- Whether an expression begins with a sign, and whether the only guard lacks its left operand.

def signed : Except ResolveError Expr → Bool
  | .ok (.unary _ _) => true
  | _ => false

def leftOut : Except ResolveError (List Expr) → Bool
  | .ok [.conditional none [⟨.test (.binary _ .capture _), _⟩]] => true
  | _ => false

theorem signedUnary {e : Except ResolveError Expr} (h : signed e = true) :
    ∃ op operand, e = .ok (.unary op operand) := by
  unfold signed at h
  split at h
  · exact ⟨_, _, rfl⟩
  · contradiction

theorem leftOutTest {es : Except ResolveError (List Expr)} (h : leftOut es = true) :
    ∃ op rhs body, es = .ok [.conditional none [⟨.test (.binary op .capture rhs), body⟩]] := by
  unfold leftOut at h
  split at h
  · exact ⟨_, _, _, rfl⟩
  · contradiction

/-- A guard that is an expression tests what the expression resolves to. A guard that is an expression and an
operator tests what the chain of the two and the scrutinee is reassociated to, with the same error if it is
not. -/
theorem guardForms (h : Language.standard = .ok l) (test : l.grammar.parse "expr" guard = .ok g)
    (plain : ∀ t ∈ guard, t ≠ .glyph "?") (unsigned : guard.head? ≠ some (.glyph "-"))
    (body : l.grammar.parse "block" block = .ok b) :
    (¬ TooDeep l (chainTokens [] guard block) →
      ∃ m, l.grammar.parse l.start (chainTokens [] guard block) = .ok m ∧
        Expr.statements l.operators m = Resolve.bareChain l.operators g b) ∧
    (∀ op ∈ l.operators.operators, op.category = .infixOp → ∀ scrutinee s,
      Scrutinee l scrutinee (guard ++ .glyph op.symbol :: .glyph "=>" :: block) s →
      ¬ TooDeep l (chainTokens scrutinee (guard ++ [.glyph op.symbol]) block) →
      ∃ m, l.grammar.parse l.start (chainTokens scrutinee (guard ++ [.glyph op.symbol]) block) = .ok m ∧
        Expr.statements l.operators m = Resolve.openChain l.operators op s g b) ∧
    (Expr.ofTree l.operators g = (do
      let (operands, ops) ← Resolve.flatten (Expr.ofTree l.operators) l.operators g
      reassociate l.operators operands ops)) ∧
    ∀ scrutinee s after, l.grammar.parse "expr" scrutinee = .ok s →
      (∀ t ∈ scrutinee, t ≠ .glyph "?") → Scrutinee l scrutinee after s := by
  have standard := Language.standardParts h
  exact ⟨bareForm standard test plain unsigned body,
    fun _ member binary _ _ => openForm standard test plain unsigned body member binary,
    Expr.ofTreeChain (parsedRule test), fun _ _ _ => plainScrutinee standard⟩

theorem guardFormsHold : ∃ (l : Language) (op : Operator) (g b s bare ended : Tree),
    Language.standard = .ok l ∧ op ∈ l.operators.operators ∧ op.symbol = "<" ∧
    l.grammar.parse "expr" [.text "10"] = .ok g ∧ l.grammar.parse "block" oneBlock = .ok b ∧
    l.grammar.parse "expr" [.text "x"] = .ok s ∧
    l.grammar.parse l.start (chainTokens [] [.text "10"] oneBlock) = .ok bare ∧
    Expr.statements l.operators bare = Resolve.bareChain l.operators g b ∧
    l.grammar.parse l.start (chainTokens [.text "x"] [.text "10", .glyph "<"] oneBlock) = .ok ended ∧
    Expr.statements l.operators ended = Resolve.openChain l.operators op s g b := by
  have run : standardTest (fun l => parses "expr" [.text "10"] l && parses "block" oneBlock l &&
      parses "expr" [.text "x"] l && parses l.start (chainTokens [] [.text "10"] oneBlock) l &&
      parses l.start (chainTokens [.text "x"] [.text "10", .glyph "<"] oneBlock) l) = true := by
    decide +kernel
  obtain ⟨l, standard, tested⟩ := standardTested run
  simp only [Bool.and_eq_true] at tested
  obtain ⟨⟨⟨⟨test, body⟩, operand⟩, alone⟩, signed⟩ := tested
  obtain ⟨g, test⟩ := parsesMatch test
  obtain ⟨b, body⟩ := parsesMatch body
  obtain ⟨s, operand⟩ := parsesMatch operand
  have less : ∃ op ∈ standardOperators.operators, op.category = .infixOp ∧ op.symbol = "<" := by decide
  rw [← (Language.standardParts standard).operators] at less
  obtain ⟨op, member, binary, symbol⟩ := less
  obtain ⟨bareForm, openForm, -, plainly⟩ :=
    guardForms standard test (by decide) (by decide) body
  obtain ⟨bare, read, resolved⟩ := bareForm (parsesShallow alone)
  have ends := plainly _ _ ([.text "10"] ++ .glyph op.symbol :: .glyph "=>" :: oneBlock) operand (by decide)
  have shallow : ¬ TooDeep l (chainTokens [.text "x"] ([.text "10"] ++ [.glyph op.symbol]) oneBlock) :=
    symbol ▸ parsesShallow signed
  obtain ⟨ended, read', resolved'⟩ := openForm op member binary _ s ends shallow
  exact ⟨l, op, g, b, s, bare, ended, standard, member, symbol, test, body, operand, read, resolved,
    symbol ▸ read', resolved'⟩

theorem guardFormsFail : ∃ l : Language, Language.standard = .ok l ∧
    (∃ b, l.grammar.parse "block" oneBlock = .ok b) ∧
    (∃ g m op operand sign rhs body, l.grammar.parse "expr" [.glyph "-", .text "1"] = .ok g ∧
      Expr.ofTree l.operators g = .ok (.unary op operand) ∧
      l.grammar.parse l.start (chainTokens [] [.glyph "-", .text "1"] oneBlock) = .ok m ∧
      Expr.statements l.operators m =
        .ok [.conditional none [⟨.test (.binary sign .capture rhs), body⟩]]) ∧
    ∃ g s, l.grammar.parse "expr" [.text "1"] = .ok g ∧
      l.grammar.parse "expr" (chainTokens [] [.text "1"] oneBlock) = .ok s ∧
      l.grammar.parse l.start (chainTokens (chainTokens [] [.text "1"] oneBlock)
        [.text "1", .glyph "<"] oneBlock) = .error (.noMatch l.start) := by
  have run : standardTest (fun l => parses "block" oneBlock l &&
      parsesTo "expr" [.glyph "-", .text "1"] (fun g => signed (Expr.ofTree l.operators g)) l &&
      parsesTo l.start (chainTokens [] [.glyph "-", .text "1"] oneBlock)
        (fun m => leftOut (Expr.statements l.operators m)) l &&
      parses "expr" [.text "1"] l && parses "expr" (chainTokens [] [.text "1"] oneBlock) l &&
      unmatched l.start (chainTokens (chainTokens [] [.text "1"] oneBlock)
        [.text "1", .glyph "<"] oneBlock) l) = true := by
    decide +kernel
  obtain ⟨l, standard, tested⟩ := standardTested run
  simp only [Bool.and_eq_true] at tested
  obtain ⟨⟨⟨⟨⟨block, minus⟩, chain⟩, one⟩, scrutinee⟩, fails⟩ := tested
  obtain ⟨g, read, minus⟩ := parsesToMatch minus
  obtain ⟨op, operand, whole⟩ := signedUnary minus
  obtain ⟨m, read', chain⟩ := parsesToMatch chain
  obtain ⟨sign, rhs, body, resolved⟩ := leftOutTest chain
  obtain ⟨one, oneRead⟩ := parsesMatch one
  obtain ⟨s, scrutineeRead⟩ := parsesMatch scrutinee
  exact ⟨l, standard, parsesMatch block,
    ⟨g, m, op, operand, sign, rhs, body, read, whole, read', resolved⟩,
    one, s, oneRead, scrutineeRead, unmatchedError fails⟩

end Conditional
end Parlance
