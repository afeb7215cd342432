import Parlance.Proofs.Language.Openings

/-! Readings that last. What a rule of the standard grammar reads it reads as well where more tokens follow, if the
rules that were tried in vain where it ends fail there still. No attempt within a reading depends on the tokens
running out: what comes next in the reading begins with a token that the rules tried before do not take. -/
namespace Parlance.Language.StandardParts

open Grammar

section

variable (l : Language) (after : List Token)

def Still (name : String) (tokens : List Token) : Prop :=
  l.grammar.Reads name tokens none → l.grammar.Reads name (tokens ++ after) none

def watched : String → List String
  | "stmts" => ["next-stmt", "expr", "link", "group", "arm"]
  | "next-stmt" => ["expr", "link", "group", "arm"]
  | "expr" => ["link", "group", "arm"]
  | "link" | "expr'" => ["group", "arm"]
  | "primary" | "cond" => ["arm"]
  | "arm-guard" => ["binop", "expr'", "link", "group", "arm"]
  | _ => []

def Lasts (name : String) (m : Tree) : Prop :=
  ∀ tokens rest, l.grammar.Reads name tokens (some (m, rest)) →
    (∀ n ∈ watched name, Still l after n rest) →
    l.grammar.Reads name (tokens ++ after) (some (m, rest ++ after))

def FieldsLast (fields : List (String × Tree)) : Prop :=
  ∀ entry ∈ fields, ∀ name ∈ declaredNames, Lasts l after name entry.2

def PartsLast : Tree → Prop
  | .terminal _ _ _ => True
  | .composite _ _ fields => FieldsLast l after fields

end

variable {l : Language} (standard : StandardParts l) {after tokens middle rest : List Token} {name : String}
  {m : Tree}

section Terminals

include standard

theorem terminalLasts (terminal : name ∈ terminalNames)
    (read : l.grammar.Reads name tokens (some (m, rest))) (after : List Token) :
    l.grammar.Reads name (tokens ++ after) (some (m, rest ++ after)) := by
  obtain ⟨spec, listed, rfl⟩ := List.mem_map.mp terminal
  obtain ⟨t, rfl, accepted, rfl⟩ := terminalTaken standard.grammar listed read
  exact readsToken (standard.declaresTerminal listed) accepted

theorem terminalStill (terminal : name ∈ terminalNames) (filled : tokens ≠ []) (after : List Token) :
    Still l after name tokens := by
  obtain ⟨spec, listed, rfl⟩ := List.mem_map.mp terminal
  obtain ⟨t, more, rfl⟩ := List.exists_cons_of_ne_nil filled
  have declares := standard.declaresTerminal listed
  intro none
  cases accepted : spec.detector.accepts t with
  | false => exact readsRefused declares accepted
  | true =>
    have known : spec.name ∈ declared standardRules (terminals standardOperators) :=
      List.mem_append_right _ terminal
    cases namedOnce standard.grammar known none (readsToken declares accepted)

end Terminals

section Arms

variable {fields : List (String × Tree)}

include standard

theorem apartStill {other : String} (read : l.grammar.Reads name tokens (some (m, rest)))
    (told : (name, other) ∈ toldApart) : Still l after other tokens := fun _ => standard.apartFails read told after

theorem armLasts {field rule : String} (known : rule ∈ declaredNames) (last : FieldsLast l after fields)
    (taken : l.grammar.ArmTaken ⟨field, rule, .once⟩ tokens (some (fields, rest)))
    (still : ∀ n ∈ watched rule, Still l after n rest) :
    l.grammar.ReadsArm ⟨field, rule, .once⟩ (tokens ++ after) (some (fields, rest ++ after)) := by
  obtain ⟨m, rfl, read⟩ := armOnceTaken standard.grammar taken
  exact armOnce rfl (last _ List.mem_cons_self _ known _ _ read still)

omit standard in
theorem fieldsSplit {more : List (String × Tree)} (last : FieldsLast l after (fields ++ more)) :
    FieldsLast l after fields ∧ FieldsLast l after more := List.forall_mem_append.mp last

theorem pairLasts {field one other two : String} (known : one ∈ declaredNames ∧ two ∈ declaredNames)
    (quiet : watched one = []) (last : FieldsLast l after fields)
    (taken : l.grammar.ArmsTaken [⟨field, one, .once⟩, ⟨other, two, .once⟩] tokens (some (fields, rest)))
    (still : ∀ n ∈ watched two, Still l after n rest) :
    l.grammar.ReadsArms [⟨field, one, .once⟩, ⟨other, two, .once⟩] (tokens ++ after)
      (some (fields, rest ++ after)) := by
  obtain ⟨front, middle, back, rfl, opening, closing⟩ := armsTaken taken
  obtain ⟨frontLasts, backLasts⟩ := fieldsSplit last
  have here := standard.armLasts known.1 frontLasts opening (by simp [quiet])
  exact consArm here (lastArm (standard.armLasts known.2 backLasts (lastArmTaken closing) still))

theorem seriesLasts {many : String} {names : List String} {trees : List Tree}
    (told : ∀ n ∈ names, (many, n) ∈ toldApart)
    (watches : ∀ n ∈ watched many, n ∈ names) (each : ∀ c ∈ trees, Lasts l after many c)
    (series : Series l.grammar many tokens trees rest) (still : ∀ n ∈ names, Still l after n rest) :
    (∀ n ∈ names, Still l after n tokens) ∧
      Series l.grammar many (tokens ++ after) trees (rest ++ after) := by
  induction series with
  | nil => exact ⟨still, .nil⟩
  | cons first progress _ ih =>
    obtain ⟨here, others⟩ := List.forall_mem_cons.mp each
    obtain ⟨between, series⟩ := ih others still
    refine ⟨fun n member => standard.apartStill first (told n member), ?_⟩
    have lasting := here _ _ first fun n member => between n (watches n member)
    exact .cons lasting (fun same => progress (List.append_cancel_right same)) series

theorem repetitionEnds {field many : String} (known : many ∈ declaredNames)
    (taken : l.grammar.ArmTaken (manyArm field many) tokens (some (fields, rest))) :
    ∃ trees, fields = trees.map (fun t => (field, t)) ∧ Series l.grammar many tokens trees rest ∧
      l.grammar.Reads many rest none := by
  obtain ⟨trees, covers, series, fails | ⟨t, idle⟩⟩ := armManyTaken standard.grammar rfl taken
  · exact ⟨trees, covers, series, fails⟩
  · have none : t.tokens = [] := List.self_eq_append_left.mp (namedSuffix standard.grammar known idle)
    exact absurd none (standard.openingTaken known idle).1

theorem repeatedLasts {field one repeats many : String} (names : List String)
    (told : ∀ n ∈ names, (many, n) ∈ toldApart) (known : one ∈ declaredNames ∧ many ∈ declaredNames)
    (watches : (∀ n ∈ watched one, n ∈ names) ∧ ∀ n ∈ watched many, n ∈ names)
    (last : FieldsLast l after fields)
    (taken : l.grammar.ArmsTaken [fieldArm field one, manyArm repeats many] tokens (some (fields, rest)))
    (still : ∀ n ∈ names, Still l after n rest) (ends : Still l after many rest) :
    l.grammar.ReadsArms [fieldArm field one, manyArm repeats many] (tokens ++ after)
      (some (fields, rest ++ after)) := by
  obtain ⟨front, middle, back, rfl, opening, closing⟩ := armsTaken taken
  obtain ⟨trees, rfl, series, fails⟩ := standard.repetitionEnds known.2 (lastArmTaken closing)
  obtain ⟨frontLasts, backLasts⟩ := fieldsSplit last
  have each : ∀ c ∈ trees, Lasts l after many c := fun c member =>
    backLasts _ (List.mem_map_of_mem member) many known.2
  obtain ⟨between, series⟩ := standard.seriesLasts told watches.2 each series still
  have here := standard.armLasts known.1 frontLasts opening fun n member =>
    between n (watches.1 n member)
  exact consArm here (lastArm (armSeries series (ends fails)))

end Arms

section Rules

variable (last : PartsLast l after m)

include standard last

theorem statementsLast : Lasts l after "stmts" m := by
  intro tokens rest read still
  obtain ⟨fields, rfl, taken⟩ := soleBranchTaken
    (choiceTaken standard.grammar standard.declaresStatements (by decide) read)
  refine readsChoice standard.declaresStatements (branchHere ?_)
  exact standard.repeatedLasts (watched "next-stmt") (by decide) (by decide) (by decide) last
    taken (fun n member => still n (List.mem_cons_of_mem _ member)) (still "next-stmt" (by decide))

theorem nextLasts : Lasts l after "next-stmt" m := by
  intro tokens rest read still
  refine readsChoice standard.declaresNext ?_
  rcases branchTaken (choiceTaken standard.grammar standard.declaresNext (by decide) read) with
    ⟨fields, rfl, taken⟩ | ⟨refused, later⟩
  · refine branchHere (standard.pairLasts (by decide) rfl last taken fun n member => ?_)
    exact still n (List.mem_cons_of_mem _ member)
  · obtain ⟨fields, rfl, taken⟩ := soleBranchTaken later
    have mark := standard.armLasts (by decide) last (lastArmTaken taken) nofun
    obtain ⟨sign, rfl, ended⟩ := armOnceTaken standard.grammar
      (lastArmTaken taken)
    have fails := pairRefused standard.grammar (by decide) ended refused
    exact branchLater (laterFails mark (beginFails (still "expr" (by decide) fails))) (branchHere (lastArm mark))

theorem chainLasts : Lasts l after "expr" m := by
  intro tokens rest read still
  obtain ⟨fields, rfl, taken⟩ := soleBranchTaken
    (choiceTaken standard.grammar standard.declaresChain (by decide) read)
  refine readsChoice standard.declaresChain (branchHere ?_)
  exact standard.repeatedLasts (watched "link") (by decide) (by decide) (by decide) last
    taken (fun n member => still n (List.mem_cons_of_mem _ member)) (still "link" (by decide))

theorem linkLasts : Lasts l after "link" m := by
  intro tokens rest read still
  obtain ⟨fields, rfl, taken⟩ := soleBranchTaken
    (choiceTaken standard.grammar standard.declaresLink (by decide) read)
  exact readsChoice standard.declaresLink (branchHere
    (standard.pairLasts (by decide) rfl last taken still))

theorem operandLasts : Lasts l after "expr'" m := by
  intro tokens rest read still
  refine readsChoice standard.declaresOperand ?_
  rcases branchTaken (choiceTaken standard.grammar standard.declaresOperand (by decide) read) with
    ⟨fields, rfl, taken⟩ | ⟨-, later⟩
  · exact branchHere (standard.pairLasts (by decide) rfl last taken still)
  · obtain ⟨fields, rfl, taken⟩ := soleBranchTaken later
    obtain ⟨_, middle, _, -, opening, -⟩ := armsTaken taken
    obtain ⟨callee, -, primary⟩ := armOnceTaken standard.grammar opening
    have unsigned := standard.apartFails primary (by decide : ("primary", "unop") ∈ toldApart) after
    refine branchLater (beginFails unsigned) (branchHere ?_)
    exact standard.repeatedLasts ["arm"] (by decide) (by decide) (by decide) last taken
      (fun n member => still n (List.mem_cons_of_mem _ member)) (still "group" (by decide))

theorem enclosedLasts {opener content closer : String}
    (listed : (name, opener, content, closer) ∈ enclosures) : Lasts l after name m := by
  have known : ∀ e ∈ enclosures, e.1 ∈ declaredNames ∧ watched e.2.1 = [] ∧ watched e.2.2.2 = [] ∧
      e.2.1 ∈ declaredNames ∧ e.2.2.1 ∈ declaredNames ∧ e.2.2.2 ∈ declaredNames ∧
      (e.2.2.2, e.2.2.1) ∈ toldApart ∧ ∀ n ∈ watched e.2.2.1, (e.2.2.2, n) ∈ toldApart := by decide
  obtain ⟨own, openQuiet, closeQuiet, openKnown, contentKnown, closeKnown, told, watches⟩ := known _ listed
  have declares := standard.declaresEnclosure listed
  intro tokens rest read _
  obtain ⟨fields, rfl, taken⟩ := soleBranchTaken (choiceTaken standard.grammar declares own read)
  refine readsChoice declares (branchHere ?_)
  obtain ⟨front, _, others, rfl, opening, taken⟩ := armsTaken taken
  obtain ⟨inner, middle, back, rfl, optional, closing⟩ := armsTaken taken
  have closing := lastArmTaken closing
  obtain ⟨frontLasts, othersLast⟩ := fieldsSplit last
  obtain ⟨innerLasts, backLasts⟩ := fieldsSplit othersLast
  obtain ⟨c, -, closes⟩ := armOnceTaken standard.grammar closing
  have first := standard.armLasts openKnown frontLasts opening (by simp [openQuiet])
  have final := standard.armLasts closeKnown backLasts closing (by simp [closeQuiet])
  refine consArm first (consArm ?_ (lastArm final))
  rcases armOptionalTaken standard.grammar rfl optional with ⟨e, rfl, inside⟩ | ⟨rfl, rfl, -⟩
  · exact armPresent rfl (innerLasts _ List.mem_cons_self _ contentKnown _ _ inside fun n member =>
      standard.apartStill closes (watches n member))
  · exact armAbsent rfl (standard.apartFails closes told after)

theorem primaryLasts : Lasts l after "primary" m := by
  intro tokens rest read still
  refine readsChoice standard.declaresPrimary ?_
  rcases branchTaken (choiceTaken standard.grammar standard.declaresPrimary (by decide) read) with
    ⟨fields, rfl, taken⟩ | ⟨-, later⟩
  · exact branchHere (standard.pairLasts (by decide) rfl last taken nofun)
  rcases branchTaken later with ⟨fields, rfl, taken⟩ | ⟨-, later⟩
  · obtain ⟨c, -, here⟩ := armOnceTaken standard.grammar (lastArmTaken taken)
    exact branchLater (beginFails (standard.apartFails here (by decide) after)) (branchHere
      (lastArm (standard.armLasts (by decide) last (lastArmTaken taken) still)))
  rcases branchTaken later with ⟨fields, rfl, taken⟩ | ⟨-, later⟩
  · obtain ⟨c, -, here⟩ := armOnceTaken standard.grammar (lastArmTaken taken)
    exact branchLater (beginFails (standard.apartFails here (by decide) after))
      (branchLater (beginFails (standard.apartFails here (by decide) after)) (branchHere
        (lastArm (standard.armLasts (by decide) last (lastArmTaken taken) nofun))))
  · obtain ⟨fields, rfl, taken⟩ := soleBranchTaken later
    obtain ⟨c, -, here⟩ := armOnceTaken standard.grammar (lastArmTaken taken)
    exact branchLater (beginFails (standard.apartFails here (by decide) after))
      (branchLater (beginFails (standard.apartFails here (by decide) after))
        (branchLater (beginFails (standard.apartFails here (by decide) after)) (branchHere
          (lastArm (standard.armLasts (by decide) last (lastArmTaken taken) nofun)))))

theorem condLasts : Lasts l after "cond" m := by
  intro tokens rest read still
  obtain ⟨fields, rfl, taken⟩ := soleBranchTaken
    (choiceTaken standard.grammar standard.declaresConditional (by decide) read)
  refine readsChoice standard.declaresConditional (branchHere ?_)
  obtain ⟨front, _, others, rfl, opening, taken⟩ := armsTaken taken
  obtain ⟨inner, middle, arms, rfl, optional, taken⟩ := armsTaken taken
  obtain ⟨frontLasts, othersLast⟩ := fieldsSplit last
  obtain ⟨innerLasts, armsLast⟩ := fieldsSplit othersLast
  obtain ⟨_, _, _, -, first, -⟩ := armsTaken taken
  obtain ⟨arm, -, here⟩ := armOnceTaken standard.grammar first
  have mark := standard.armLasts (by decide) frontLasts opening nofun
  have chain := standard.repeatedLasts [] nofun (by decide) (by decide) armsLast taken nofun
    (still "arm" (by decide))
  refine consArm mark (consArm ?_ chain)
  rcases armOptionalTaken standard.grammar rfl optional with ⟨e, rfl, scrutinee⟩ | ⟨rfl, rfl, -⟩
  · refine armPresent rfl (innerLasts _ List.mem_cons_self _ (by decide) _ _ scrutinee fun n member => ?_)
    -- An arm does begin where the scrutinee ends; the rest of a chain of operands does not.
    simp only [optionalArm, watched, List.mem_cons, List.not_mem_nil, or_false] at member
    rcases member with rfl | rfl | rfl
    · exact standard.apartStill here (by decide)
    · exact standard.apartStill here (by decide)
    · intro fails
      cases namedOnce standard.grammar (by decide) fails here
  · exact armAbsent rfl (standard.apartFails here (by decide) after)

theorem armRuleLasts : Lasts l after "arm" m := by
  intro tokens rest read _
  obtain ⟨fields, rfl, taken⟩ := soleBranchTaken
    (choiceTaken standard.grammar standard.declaresArm (by decide) read)
  refine readsChoice standard.declaresArm (branchHere ?_)
  obtain ⟨sep, _, others, rfl, opening, taken⟩ := armsTaken taken
  obtain ⟨guard, middle, others, rfl, guarded, taken⟩ := armsTaken taken
  obtain ⟨arrow, _, body, rfl, pointed, closing⟩ := armsTaken taken
  obtain ⟨sepLasts, othersLast⟩ := fieldsSplit last
  obtain ⟨guardLasts, othersLast⟩ := fieldsSplit othersLast
  obtain ⟨arrowLasts, bodyLasts⟩ := fieldsSplit othersLast
  obtain ⟨sign, -, here⟩ := armOnceTaken standard.grammar pointed
  have told : ∀ n ∈ watched "arm-guard", ("arrow", n) ∈ toldApart := by decide
  have first := standard.armLasts (by decide) sepLasts opening nofun
  have second := standard.armLasts (by decide) guardLasts guarded
    fun n member => standard.apartStill here (told n member)
  have third := standard.armLasts (by decide) arrowLasts pointed nofun
  have fourth := standard.armLasts (by decide) bodyLasts (lastArmTaken closing) nofun
  exact consArm first (consArm second (consArm third (lastArm fourth)))

end Rules

section Guards

include standard

theorem chainRefused (fails : l.grammar.Reads "expr" tokens none) : l.grammar.Reads "expr'" tokens none := by
  rcases armsRefused (branchRefused
    (choiceTaken standard.grammar standard.declaresChain (by decide) fails)) with refused | ⟨_, _, -, refused⟩
  · exact armRefused standard.grammar refused
  · rcases armsRefused refused with refused | ⟨_, _, -, refused⟩
    · cases armRefusedOnce refused
    · exact (noArmsRefused refused).elim

theorem signedOperand {sign : Tree} (first : l.grammar.Reads "binop" tokens (some (sign, middle)))
    (read : l.grammar.Reads "expr'" tokens (some (m, rest))) :
    ∃ e others, l.grammar.Reads "expr'" middle (some (e, others)) := by
  have signTerminals : glyphTerminal "unop" (standardOperators.symbols .prefixOp) ∈ terminals standardOperators ∧
      glyphTerminal "binop" (standardOperators.symbols .infixOp) ∈ terminals standardOperators := by
    simp [terminals]
  rcases branchTaken (choiceTaken standard.grammar standard.declaresOperand (by decide) read) with
    ⟨_, -, taken⟩ | ⟨-, later⟩
  · obtain ⟨_, _, _, -, opening, closing⟩ := armsTaken taken
    obtain ⟨unop, -, signed⟩ := armOnceTaken standard.grammar opening
    obtain ⟨e, -, inside⟩ := armOnceTaken standard.grammar (lastArmTaken closing)
    obtain ⟨t, rfl, -, -⟩ := terminalTaken standard.grammar signTerminals.2 first
    obtain ⟨_, same, -, -⟩ := terminalTaken standard.grammar signTerminals.1 signed
    cases same
    exact ⟨e, _, inside⟩
  · obtain ⟨_, -, taken⟩ := soleBranchTaken later
    obtain ⟨_, _, _, -, opening, -⟩ := armsTaken taken
    obtain ⟨callee, -, primary⟩ := armOnceTaken standard.grammar opening
    have shut := standard.apartFails first (by decide : ("binop", "primary") ∈ toldApart) []
    rw [List.append_nil] at shut
    cases namedOnce standard.grammar (by decide) shut primary

theorem signedChain {sign : Tree} (first : l.grammar.Reads "binop" tokens (some (sign, middle)))
    (read : l.grammar.Reads "expr" tokens (some (m, rest))) : ¬ l.grammar.Reads "expr" middle none := by
  intro fails
  obtain ⟨_, -, chained⟩ := soleBranchTaken
    (choiceTaken standard.grammar standard.declaresChain (by decide) read)
  obtain ⟨_, _, _, -, opening, -⟩ := armsTaken chained
  obtain ⟨head, -, operand⟩ := armOnceTaken standard.grammar opening
  obtain ⟨e, others, inside⟩ := standard.signedOperand first operand
  cases namedOnce standard.grammar (by decide) (standard.chainRefused fails) inside

theorem leftStillFails (read : l.grammar.Reads "expr" tokens (some (m, rest)))
    (refused : l.grammar.ArmsTaken [bareArm "binop", fieldArm "rhs" "expr"] tokens none) :
    l.grammar.ReadsArms [bareArm "binop", fieldArm "rhs" "expr"] (tokens ++ after) none := by
  rcases armsRefused refused with missing | ⟨_, middle, sign, missing⟩
  · obtain ⟨-, o, -, t, more, rfl, -⟩ := standard.openingTaken (by decide) read
    have still := standard.terminalStill (by decide : "binop" ∈ terminalNames) (List.cons_ne_nil t more)
      after
    exact beginFails (still (armRefused standard.grammar missing))
  · obtain ⟨sign, -, signed⟩ := armOnceTaken standard.grammar sign
    exact absurd (pairRefused standard.grammar (by decide) signed refused)
      (standard.signedChain signed read)

theorem linkStill {sign : Tree} (first : l.grammar.Reads "binop" tokens (some (sign, rest)))
    (operand : Still l after "expr'" rest) : Still l after "link" tokens := by
  intro fails
  have refused := branchRefused (choiceTaken standard.grammar standard.declaresLink (by decide) fails)
  have alone := operand (pairRefused standard.grammar (by decide) first refused)
  have lasting := standard.terminalLasts (by decide) first after
  exact choiceFails standard.declaresLink (List.forall_mem_singleton.mpr
    (laterFails (armOnce rfl lasting) (beginFails alone)))

theorem guardLasts (last : PartsLast l after m) : Lasts l after "arm-guard" m := by
  intro tokens rest read still
  refine readsChoice standard.declaresGuard ?_
  rcases branchTaken (choiceTaken standard.grammar standard.declaresGuard (by decide) read) with
    ⟨fields, rfl, taken⟩ | ⟨-, later⟩
  · exact branchHere (lastArm (standard.armLasts (by decide) last (lastArmTaken taken) nofun))
  rcases branchTaken later with ⟨fields, rfl, taken⟩ | ⟨refused, later⟩
  · obtain ⟨_, _, _, -, opening, -⟩ := armsTaken taken
    obtain ⟨sign, -, signed⟩ := armOnceTaken standard.grammar opening
    refine branchLater (beginFails (standard.apartFails signed (by decide) after)) (branchHere ?_)
    refine standard.pairLasts (by decide) rfl last taken fun n member => still n ?_
    exact List.mem_cons_of_mem _ (List.mem_cons_of_mem _ member)
  obtain ⟨fields, rfl, taken⟩ := soleBranchTaken later
  obtain ⟨front, middle, back, rfl, opening, optional⟩ := armsTaken taken
  obtain ⟨frontLasts, backLasts⟩ := fieldsSplit last
  obtain ⟨e, -, chain⟩ := armOnceTaken standard.grammar opening
  refine branchLater (beginFails (standard.apartFails chain (by decide) after))
    (branchLater (standard.leftStillFails chain refused) (branchHere ?_))
  rcases armOptionalTaken standard.grammar rfl (lastArmTaken optional) with
    ⟨sign, rfl, signed⟩ | ⟨rfl, rfl, none⟩
  · have told : ∀ n ∈ ["group", "arm"], ("binop", n) ∈ toldApart := by decide
    have between : ∀ n ∈ watched "expr", Still l after n middle := by
      intro n member
      rcases List.mem_cons.mp member with rfl | later
      · exact standard.linkStill signed (still "expr'" (by decide))
      · exact standard.apartStill signed (told n later)
    have here := standard.armLasts (by decide) frontLasts opening between
    have lasting := standard.terminalLasts (by decide) signed after
    exact consArm here (lastArm (armPresent rfl lasting))
  · have here := standard.armLasts (by decide) frontLasts opening fun n member =>
      still n (List.mem_cons_of_mem _ (List.mem_cons_of_mem _ member))
    exact consArm here (lastArm (armAbsent rfl (still "binop" (by decide) none)))

end Guards

include standard in
theorem readingLasts {height : Nat} (low : m.height ≤ height) (listed : name ∈ declaredNames) :
    Lasts l after name m := by
  induction height generalizing name m with
  | zero => cases m <;> simp [Tree.height] at low
  | succ height ih =>
    have last : PartsLast l after m := by
      cases m with
      | terminal => trivial
      | composite rule branch fields =>
        intro entry member name listed
        exact ih (Nat.le_of_lt_succ (Tree.fieldWithin low member)) listed
    rcases List.mem_append.mp listed with rule | terminal
    · simp only [standardRules, List.map_cons, List.map_nil, List.mem_cons, List.not_mem_nil, or_false] at rule
      rcases rule with rfl | rfl | rfl | rfl | rfl | rfl | rfl | rfl | rfl | rfl | rfl | rfl
      · exact standard.statementsLast last
      · exact standard.nextLasts last
      · exact standard.chainLasts last
      · exact standard.linkLasts last
      · exact standard.operandLasts last
      · exact standard.primaryLasts last
      · exact standard.enclosedLasts last groupEncloses
      · exact standard.enclosedLasts last paramsEnclose
      · exact standard.enclosedLasts last blockEncloses
      · exact standard.condLasts last
      · exact standard.armRuleLasts last
      · exact standard.guardLasts last
    · exact fun tokens rest read _ => standard.terminalLasts terminal read after

end Parlance.Language.StandardParts
