import Parlance.Proofs.Language.Continuation

/-! The standard grammar without conditional chains. One token tells what comes after the tokens of a rule from
what goes on with the rule, so ordered choice takes the branches of a derivation tree, and repetitions end
where its do. So the parser accepts what the context-free grammar derives, and there is one tree of it. -/
namespace Parlance

namespace Tree

def Chainless (m : Tree) : Prop := ∀ t ∈ m.tokens, t ≠ .glyph "?"

theorem chainlessField {rule branch name : String} {fields : List (String × Tree)} {c : Tree}
    (chainless : (composite rule branch fields).Chainless) (member : (name, c) ∈ fields) : c.Chainless :=
  fun t inside => chainless t (fieldTokensMember member inside)

end Tree

namespace Language.StandardParts

open Grammar
open Parlance.Tree (under)

def Beyond (names : List String) (tokens : List Token) : Prop :=
  ∀ t ∈ tokens.head?, ∀ name ∈ names, Refused t name

def barred : String → List String
  | "stmts" => "endstmt" :: "binop" :: "unop" :: begins
  | "next-stmt" => "binop" :: "unop" :: begins
  | "expr" => ["binop", "lparen-open"]
  | "link" => ["lparen-open"]
  | "expr'" => ["lparen-open"]
  | _ => []

def chainlessRules : List String :=
  ["stmts", "next-stmt", "expr", "link", "expr'", "primary", "group", "params", "block"]

section Refusals

variable {names : List String} {t : Token} {rest : List Token}

theorem beyondEnd : Beyond names [] := by simp [Beyond]

theorem beyondBegin (refused : ∀ name ∈ names, Refused t name) : Beyond names (t :: rest) := by
  simpa [Beyond] using refused

theorem beyondFewer {few tokens : List _} (far : Beyond names tokens) (fewer : ∀ name ∈ few, name ∈ names) :
    Beyond few tokens := fun t first name listed => far t first name (fewer name listed)

end Refusals

section Terminals

variable {l : Language} (standard : StandardParts l) {tokens : List Token} {m : Tree}

include standard

theorem once : (declared standardRules (terminals standardOperators)).Nodup :=
  (linkAssembled standard.grammar).1

theorem beyondFails {names : List String} {name : String} (far : Beyond names tokens) (listed : name ∈ names)
    (terminal : name ∈ signs ++ marks) : l.grammar.Reads name tokens none := by
  cases tokens with
  | nil => exact standard.endFails name terminal
  | cons t rest => exact standard.refusedFails (far t rfl name listed)

theorem expressionFails (far : Beyond (barred "next-stmt") tokens) :
    ∀ name ∈ expressionRules, l.grammar.Reads name tokens none := by
  have known : ∀ name ∈ begins, name ∈ barred "next-stmt" ∧ name ∈ signs ++ marks := by decide
  refine standard.expressionsFail (fun name listed => ?_) (beginFails ?_)
  · exact standard.beyondFails far (known name listed).1 (known name listed).2
  · exact standard.beyondFails far (by decide : "unop" ∈ _) (by decide)

theorem terminalRead {name : String} (terminal : name ∈ signs ++ marks)
    (h : Derived standardOperators name m) (after : List Token) :
    l.grammar.Reads name (m.tokens ++ after) (some (m, after)) := by
  obtain ⟨spec, listed, rfl⟩ := List.mem_map.mp (marksTerminal name terminal)
  obtain ⟨t, rfl, accepted⟩ := tokenDerived standard.once listed h
  exact readsToken (standard.declaresTerminal listed) accepted

end Terminals

section Begins

variable {l : Language} (standard : StandardParts l) {m : Tree}

include standard

theorem linkBegins (h : Derived standardOperators "link" m) :
    m.tokens ≠ [] ∧ ∀ more, Beyond (barred "link") (m.tokens ++ more) := by
  obtain ⟨sign, rhs, rfl, glyph, -⟩ := linkShape standard.once h
  obtain ⟨s, listed, rfl⟩ := infixShape standard.once glyph
  have refused := allRefused (infixAccepted listed) (by decide : ∀ name ∈ barred "link", _)
  exact ⟨by simp [Tree.tokens, Tree.fieldTokens], fun _ => beyondBegin refused⟩

theorem nextBegins (h : Derived standardOperators "next-stmt" m) :
    m.tokens ≠ [] ∧ ∀ more, Beyond (barred "next-stmt") (m.tokens ++ more) := by
  have refused : ∀ name ∈ barred "next-stmt", Refused (.glyph ";") name :=
    allRefused (markAccepted (by decide : ("endstmt", ";") ∈ punctuation)) (by decide)
  rcases nextShape standard.once h with ⟨mark, e, rfl, ended, -⟩ | ⟨mark, rfl, ended⟩
  · cases markShape standard.once (by decide : ("endstmt", ";") ∈ punctuation) ended
    exact ⟨by simp [Tree.tokens, Tree.fieldTokens], fun _ => beyondBegin refused⟩
  · cases markShape standard.once (by decide : ("endstmt", ";") ∈ punctuation) ended
    exact ⟨by simp [Tree.tokens, Tree.fieldTokens], fun _ => beyondBegin refused⟩

omit standard in
theorem closerBegins {name : String} (closer : name ∈ closers) (h : Derived standardOperators name m)
    (more : List Token) : Beyond (barred "stmts") (m.tokens ++ more) := by
  obtain ⟨pair, listed, named, rfl⟩ := closeShape closer h
  have apart : ∀ closer ∈ closers, ∀ name ∈ barred "stmts", name ∈ signs ++ marks ∧ Apart closer name := by
    decide
  exact beyondBegin (allRefused (named ▸ (halvesAccepted listed).2) (apart name closer))

theorem enclosedBegins {name opener content closer : String}
    (listed : (name, opener, content, closer) ∈ enclosures) (h : Derived standardOperators name m)
    {others : List String}
    (apart : ∀ other ∈ others, other ∈ "unop" :: "cond-open" :: openers ∧ other ≠ opener) :
    m.tokens ≠ [] ∧ ∀ more, Beyond others (m.tokens ++ more) := by
  obtain ⟨o, c, opens, -, shape⟩ := enclosedShape standard.once listed h
  have half : ∀ e ∈ enclosures, e.2.1 ∈ openers ∧ e.2.1 ∉ signs := by decide
  have known : ∀ name ∈ "unop" :: "cond-open" :: openers, name ∈ signs ++ marks := by decide
  obtain ⟨front, unsigned⟩ := half _ listed
  obtain ⟨pair, inside, named, rfl⟩ := openShape front opens
  replace named : pair.1.name ++ "-open" = opener := named
  have far : ∀ name ∈ others, Refused (.glyph pair.1.symbol) name :=
    allRefused (named ▸ (halvesAccepted inside).1) fun name member =>
      ⟨known name (apart name member).1, Ne.symm (apart name member).2, fun sign => absurd sign unsigned⟩
  rcases shape with rfl | ⟨e, -, rfl⟩
  · exact ⟨by simp [Tree.tokens, Tree.fieldTokens], fun _ => beyondBegin far⟩
  · exact ⟨by simp [Tree.tokens, Tree.fieldTokens], fun _ => beyondBegin far⟩

theorem groupBegins (h : Derived standardOperators "group" m) :
    m.tokens ≠ [] ∧ ∀ more, Beyond ["unop", "cond-open", "fnargdef-open"] (m.tokens ++ more) :=
  standard.enclosedBegins groupEncloses h (by decide)

theorem paramsBegin (h : Derived standardOperators "params" m) (more : List Token) :
    Beyond ["unop"] (m.tokens ++ more) :=
  (standard.enclosedBegins paramsEnclose h (by decide)).2 more

omit standard in
theorem textBegins {names : List String} (apart : ∀ name ∈ names, name ∈ signs ++ marks ∧ Apart "ident" name)
    (s : String) (more : List Token) : Beyond names (.text s :: more) :=
  beyondBegin (allRefused (textAccepted s) apart)

theorem primaryBegins (h : Derived standardOperators "primary" m) (more : List Token) :
    Beyond ["unop"] (m.tokens ++ more) := by
  cases primaryShape standard.once h with
  | @function params body left right =>
    simpa [Tree.tokens, Tree.fieldTokens] using standard.paramsBegin left (body.tokens ++ more)
  | @cond chain inside =>
    obtain ⟨scrutinee, first, arms, rfl, -, -⟩ := condShape standard.once inside
    exact beyondBegin (allRefused (markAccepted (by decide : ("cond-open", "?") ∈ punctuation)) (by decide))
  | @group args inside =>
    have far : Beyond ["unop"] (args.tokens ++ more) :=
      beyondFewer ((standard.groupBegins inside).2 more) (by decide)
    simpa [Tree.tokens, Tree.fieldTokens] using far
  | ident => exact textBegins (by decide) _ more

end Begins

section Fails

variable {l : Language} (standard : StandardParts l) {tokens : List Token}

include standard

theorem linkFails (far : Beyond ["binop"] tokens) : l.grammar.Reads "link" tokens none :=
  soleFails standard.declaresLink (standard.beyondFails far List.mem_cons_self (by decide))

theorem nextFails (far : Beyond ["endstmt"] tokens) : l.grammar.Reads "next-stmt" tokens none :=
  standard.nextUnended (standard.beyondFails far List.mem_cons_self (by decide))

theorem condFails (far : Beyond ["cond-open"] tokens) : l.grammar.Reads "cond" tokens none :=
  soleFails standard.declaresConditional (standard.beyondFails far List.mem_cons_self (by decide))

theorem enclosedFails {name opener content closer : String}
    (listed : (name, opener, content, closer) ∈ enclosures) (far : Beyond [opener] tokens) :
    l.grammar.Reads name tokens none := by
  have terminal : ∀ e ∈ enclosures, e.2.1 ∈ signs ++ marks := by decide
  exact soleFails (standard.declaresEnclosure listed)
    (standard.beyondFails far List.mem_cons_self (terminal _ listed))

theorem groupFails (far : Beyond ["lparen-open"] tokens) : l.grammar.Reads "group" tokens none :=
  standard.enclosedFails groupEncloses far

theorem paramsFail (far : Beyond ["fnargdef-open"] tokens) : l.grammar.Reads "params" tokens none :=
  standard.enclosedFails paramsEnclose far

end Fails

def ReadsBack (l : Language) (rule : String) (m : Tree) : Prop :=
  ∀ after, Beyond (barred rule) after → l.grammar.Reads rule (m.tokens ++ after) (some (m, after))

def PartsRead (l : Language) : Tree → Prop
  | .terminal _ _ _ => True
  | .composite _ _ fields => ∀ entry ∈ fields, ∀ rule ∈ chainlessRules,
      Derived standardOperators rule entry.2 → ReadsBack l rule entry.2

section Parts

variable {l : Language} {rule branch field : String} {after : List Token}

theorem pairRead {name one other : String} {a b : Tree}
    (first : l.grammar.Reads one (a.tokens ++ (b.tokens ++ after)) (some (a, b.tokens ++ after)))
    (last : l.grammar.Reads other (b.tokens ++ after) (some (b, after))) :
    l.grammar.ReadsArms [fieldArm name one, fieldArm field other]
      ((Tree.composite rule branch [(name, a), (field, b)]).tokens ++ after)
      (some ([(name, a), (field, b)], after)) := by
  simp only [Tree.tokens, Tree.fieldTokens, List.append_nil, List.append_assoc]
  exact consArm (armOnce rfl first) (lastArm (armOnce rfl last))

theorem repeatedRead {name one many : String} {head : Tree} {trees : List Tree}
    (parts : PartsRead l (.composite rule branch ((name, head) :: under field trees)))
    (known : one ∈ chainlessRules ∧ many ∈ chainlessRules ∧ ∀ n ∈ barred one, n ∈ barred many)
    (first : Derived standardOperators one head) (others : ∀ n ∈ trees, Derived standardOperators many n)
    (begins : ∀ n ∈ trees, n.tokens ≠ [] ∧ ∀ more, Beyond (barred many) (n.tokens ++ more))
    (far : Beyond (barred many) after) (fails : l.grammar.Reads many after none) :
    l.grammar.ReadsArms [fieldArm name one, manyArm field many]
      ((Tree.composite rule branch ((name, head) :: under field trees)).tokens ++ after)
      (some ((name, head) :: under field trees, after)) := by
  obtain ⟨single, several, fewer⟩ := known
  have back := parts (name, head) List.mem_cons_self one single first
  have each : ∀ n ∈ trees, ReadsBack l many n := fun n member =>
    parts (field, n) (List.mem_cons_of_mem _ (Tree.underMember member)) many several (others n member)
  have repeated : _ ∧ l.grammar.ReadsArm (manyArm field many) _ _ := armMany rfl begins each far fails
  rw [Tree.headUnderTokens]
  exact consArm (armOnce rfl (back _ (beyondFewer repeated.1 fewer))) (lastArm repeated.2)

end Parts

section Reads

variable {l : Language} (standard : StandardParts l) {m : Tree} (parts : PartsRead l m)

include standard parts

theorem statementsRead (h : Derived standardOperators "stmts" m) : ReadsBack l "stmts" m := by
  obtain ⟨first, rest, rfl, statement, others⟩ := statementsShape standard.once h
  intro after far
  have ended := standard.nextFails (beyondFewer far (by decide))
  exact readsChoice standard.declaresStatements (branchHere
    (repeatedRead parts (by decide) statement others (fun n member => standard.nextBegins (others n member))
      (beyondFewer far (by decide)) ended))

theorem nextRead (h : Derived standardOperators "next-stmt" m) : ReadsBack l "next-stmt" m := by
  intro after far
  rcases nextShape standard.once h with ⟨mark, e, rfl, ended, statement⟩ | ⟨mark, rfl, ended⟩
  · have sign := standard.terminalRead (by decide) ended (e.tokens ++ after)
    have back := parts ("stmt", e) (by simp) "expr" (by decide) statement after (beyondFewer far (by decide))
    exact readsChoice standard.declaresNext (branchHere (pairRead sign back))
  · have sign := standard.terminalRead (by decide) ended after
    have fails := standard.expressionFails far "expr" (by decide)
    simp only [Tree.tokens, Tree.fieldTokens, List.append_nil]
    exact readsChoice standard.declaresNext (branchLater (laterFails (armOnce rfl sign) (beginFails fails))
      (branchHere (lastArm (armOnce rfl sign))))

theorem chainRead (h : Derived standardOperators "expr" m) : ReadsBack l "expr" m := by
  obtain ⟨head, links, rfl, operand, others⟩ := chainShape standard.once h
  intro after far
  have unlinked := standard.linkFails (beyondFewer far (by decide))
  exact readsChoice standard.declaresChain (branchHere
    (repeatedRead parts (by decide) operand others (fun n member => standard.linkBegins (others n member))
      (beyondFewer far (by decide)) unlinked))

theorem linkRead (h : Derived standardOperators "link" m) : ReadsBack l "link" m := by
  obtain ⟨sign, rhs, rfl, glyph, operand⟩ := linkShape standard.once h
  intro after far
  have first := standard.terminalRead (by decide) glyph (rhs.tokens ++ after)
  have back := parts ("rhs", rhs) (by simp) "expr'" (by decide) operand after far
  exact readsChoice standard.declaresLink (branchHere (pairRead first back))

theorem operandRead (h : Derived standardOperators "expr'" m) : ReadsBack l "expr'" m := by
  intro after far
  rcases operandShape standard.once h with ⟨sign, operand, rfl, glyph, inside⟩ |
    ⟨callee, args, rfl, primary, others⟩
  · have first := standard.terminalRead (by decide) glyph (operand.tokens ++ after)
    have back := parts ("operand", operand) (by simp) "expr'" (by decide) inside after far
    exact readsChoice standard.declaresOperand (branchHere (pairRead first back))
  · have begins : ∀ n ∈ args, n.tokens ≠ [] ∧ ∀ more, Beyond (barred "group") (n.tokens ++ more) :=
      fun n member => ⟨(standard.groupBegins (others n member)).1, fun more =>
        beyondFewer ((standard.groupBegins (others n member)).2 more) (by decide)⟩
    have unsigned := standard.beyondFails (standard.primaryBegins primary (args.flatMap Tree.tokens ++ after))
      List.mem_cons_self (by decide)
    rw [← Tree.headUnderTokens "expr'" "apply" "callee" "args"] at unsigned
    exact readsChoice standard.declaresOperand (branchLater (beginFails unsigned) (branchHere
      (repeatedRead parts (by decide) primary others begins (beyondFewer far (by decide))
        (standard.groupFails far))))

theorem enclosedRead {name opener content closer : String}
    (listed : (name, opener, content, closer) ∈ enclosures) (h : Derived standardOperators name m)
    (after : List Token) : l.grammar.Reads name (m.tokens ++ after) (some (m, after)) := by
  obtain ⟨o, c, opens, closes, shape⟩ := enclosedShape standard.once listed h
  have known : ∀ e ∈ enclosures, e.2.1 ∈ signs ++ marks ∧ e.2.2.2 ∈ signs ++ marks ∧ e.2.2.2 ∈ closers ∧
      e.2.2.1 ∈ chainlessRules ∧ (∀ name ∈ barred e.2.2.1, name ∈ barred "stmts") ∧
        (e.2.2.1 = "expr" ∨ e.2.2.1 = "stmts") := by decide
  obtain ⟨opening, closing, half, inner, fewer, kinds⟩ := known _ listed
  have far := closerBegins half closes after
  have first := standard.terminalRead opening opens
  have last := standard.terminalRead closing closes after
  rcases shape with rfl | ⟨e, inside, rfl⟩
  · have expr := standard.expressionFails (beyondFewer far (by decide)) "expr" (by decide)
    have fails : l.grammar.Reads content (c.tokens ++ after) none := by
      rcases kinds with rfl | rfl
      · exact expr
      · exact soleFails standard.declaresStatements expr
    simp only [Tree.tokens, Tree.fieldTokens, List.append_nil, List.append_assoc]
    exact readsChoice (standard.declaresEnclosure listed) (branchHere
      (consArm (armOnce rfl (first _)) (consArm (armAbsent rfl fails) (lastArm (armOnce rfl last)))))
  · have back := parts (content, e) (by simp) content inner inside _ (beyondFewer far fewer)
    simp only [Tree.tokens, Tree.fieldTokens, List.append_nil, List.append_assoc]
    exact readsChoice (standard.declaresEnclosure listed) (branchHere
      (consArm (armOnce rfl (first _)) (consArm (armPresent rfl back) (lastArm (armOnce rfl last)))))

theorem primaryRead (chainless : m.Chainless) (h : Derived standardOperators "primary" m)
    (after : List Token) : l.grammar.Reads "primary" (m.tokens ++ after) (some (m, after)) := by
  cases primaryShape standard.once h with
  | @function params body left right =>
    have first := parts ("params", params) (by simp) "params" (by decide) left (body.tokens ++ after)
      (by simp [Beyond, barred])
    have last := parts ("body", body) (by simp) "block" (by decide) right after (by simp [Beyond, barred])
    exact readsChoice standard.declaresPrimary (branchHere (pairRead first last))
  | @cond chain inside =>
    obtain ⟨scrutinee, first, arms, rfl, -, -⟩ := condShape standard.once inside
    exact absurd rfl (chainless (.glyph "?") (by simp [chainTree, Tree.tokens, Tree.fieldTokens]))
  | @group args inside =>
    have back := parts ("group", args) (by simp) "group" (by decide) inside after (by simp [Beyond, barred])
    have begins := (standard.groupBegins inside).2 after
    simp only [Tree.tokens, Tree.fieldTokens, List.append_nil]
    exact readsChoice standard.declaresPrimary
      (branchLater (beginFails (standard.paramsFail (beyondFewer begins (by decide))))
        (branchLater (beginFails (standard.condFails (beyondFewer begins (by decide))))
          (branchHere (lastArm (armOnce rfl back)))))
  | @ident text =>
    have begins : Beyond ["fnargdef-open", "cond-open", "lparen-open"] (.text text :: after) :=
      textBegins (by decide) text after
    have back : l.grammar.Reads "ident" (.text text :: after)
        (some (.terminal "ident" "ident" (.text text), after)) :=
      readsToken (standard.declaresTerminal List.mem_cons_self) rfl
    exact readsChoice standard.declaresPrimary
      (branchLater (beginFails (standard.paramsFail (beyondFewer begins (by decide))))
        (branchLater (beginFails (standard.condFails (beyondFewer begins (by decide))))
          (branchLater (beginFails (standard.groupFails (beyondFewer begins (by decide))))
            (branchHere (lastArm (armOnce rfl back))))))

end Reads

theorem derivedRead {l : Language} (standard : StandardParts l) {height : Nat} {rule : String} {m : Tree}
    (listed : rule ∈ chainlessRules) (h : Derived standardOperators rule m) (low : m.height ≤ height)
    (chainless : m.Chainless) : ReadsBack l rule m := by
  induction height generalizing rule m with
  | zero => cases m <;> simp [Tree.height] at low
  | succ height ih =>
    have parts : PartsRead l m := by
      cases m with
      | terminal => trivial
      | composite name branch fields =>
        intro entry member rule listed derived
        exact ih listed derived (Nat.le_of_lt_succ (Tree.fieldWithin low member))
          (Tree.chainlessField chainless member)
    simp only [chainlessRules, List.mem_cons, List.not_mem_nil, or_false] at listed
    rcases listed with rfl | rfl | rfl | rfl | rfl | rfl | rfl | rfl | rfl
    · exact standard.statementsRead parts h
    · exact standard.nextRead parts h
    · exact standard.chainRead parts h
    · exact standard.linkRead parts h
    · exact standard.operandRead parts h
    · exact fun after _ => standard.primaryRead parts chainless h after
    · exact fun after _ => standard.enclosedRead parts groupEncloses h after
    · exact fun after _ => standard.enclosedRead parts paramsEnclose h after
    · exact fun after _ => standard.enclosedRead parts blockEncloses h after

theorem programRead {l : Language} (standard : StandardParts l) {m : Tree}
    (h : Derived standardOperators standardStart m) (chainless : m.Chainless) :
    l.grammar.Reads standardStart m.tokens (some (m, [])) := by
  have read := standard.derivedRead (by decide) h (Nat.le_refl _) chainless [] beyondEnd
  rwa [List.append_nil] at read

end Language.StandardParts

namespace Language

open StandardParts

/-- Without conditional chains the parser accepts what the rules derive as a context-free grammar, unless that
nests too deep, and it finds the derivation tree, of which there is only one. -/
theorem derivationParsed {l : Language} (h : Language.standard = .ok l) {tokens : List Token}
    (chainless : ∀ t ∈ tokens, t ≠ .glyph "?")
    (shallow : l.grammar.parse standardStart tokens ≠ .error (.tooDeep Grammar.defaultDepth)) :
    (∀ m, l.grammar.parse standardStart tokens = .ok m ↔
      Derived standardOperators standardStart m ∧ m.tokens = tokens) ∧
    ∀ m n, Derived standardOperators standardStart m → m.tokens = tokens →
      Derived standardOperators standardStart n → n.tokens = tokens → m = n := by
  have standard := standardParts h
  have listed : standardStart ∈ Grammar.declared standardRules (terminals standardOperators) := by decide
  have found : ∀ m, Derived standardOperators standardStart m → m.tokens = tokens →
      l.grammar.parse standardStart tokens = .ok m := by
    rintro m derived rfl
    exact standard.readsParsed listed (standard.programRead derived chainless) shallow
  refine ⟨fun m => ⟨fun parsed => ?_, fun ⟨derived, same⟩ => found m derived same⟩, ?_⟩
  · exact ⟨Grammar.parseDerives standard.grammar parsed, Grammar.parseTokens parsed⟩
  · intro m n left leftSame right rightSame
    exact Except.ok.inj ((found m left leftSame).symm.trans (found n right rightSame))

def minusTwice : List Token :=
  [.text "f", .glyph "=", .glyph "[", .text "a", .glyph "]", .glyph "\x7b", .glyph "-", .text "a",
    .glyph "-", .text "1", .glyph ";", .glyph ";", .glyph "\x7d", .glyph ";", .text "f", .glyph "(",
    .text "2", .glyph ")", .glyph "(", .glyph ")", .glyph ";"]

theorem minusTwiceParsed : ∃ l m, Language.standard = .ok l ∧ (∀ t ∈ minusTwice, t ≠ .glyph "?") ∧
    l.grammar.parse standardStart minusTwice ≠ .error (.tooDeep Grammar.defaultDepth) ∧
    l.grammar.parse standardStart minusTwice = .ok m ∧
    Derived standardOperators standardStart m ∧ m.tokens = minusTwice ∧
    ∀ n, Derived standardOperators standardStart n → n.tokens = minusTwice → n = m := by
  have run : standardTest (parses standardStart minusTwice) = true := by decide +kernel
  obtain ⟨l, standard, tested⟩ := standardTested run
  obtain ⟨m, parsed⟩ := parsesMatch tested
  have chainless : ∀ t ∈ minusTwice, t ≠ .glyph "?" := by decide
  have shallow : l.grammar.parse standardStart minusTwice ≠ .error (.tooDeep Grammar.defaultDepth) := by
    rw [parsed]
    exact nofun
  obtain ⟨accepts, unique⟩ := derivationParsed standard chainless shallow
  obtain ⟨derived, same⟩ := (accepts m).mp parsed
  exact ⟨l, m, standard, chainless, shallow, parsed, derived, same,
    fun n other covers => unique n m other covers derived same⟩

end Language
end Parlance
