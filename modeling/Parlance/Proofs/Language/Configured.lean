import Parlance.Language
import Parlance.Proofs.Grammar.Linking
import Parlance.Proofs.Language.Shapes
import Parlance.Proofs.Operator.Configured

/-! Languages of the standard grammar over a configured table. Every pair of the table gives rise to two terminals
that are named after its opening half, and the grammar needs those of three pairs. No other choice of names stands in
the way, but for one: an opening half that is named `cond` claims a name that the punctuation has taken. -/
namespace Parlance

namespace OperatorConfig

variable {c : OperatorConfig} {t : OperatorTable}

theorem entriesEncloseNone (start : Nat) (entries : List OperatorEntry) :
    ∀ op ∈ entriesFrom start entries, t.closing? op = none := by
  induction entries generalizing start with
  | nil => simp [entriesFrom]
  | cons entry entries ih =>
    have here : t.closing? (entry.toOperator start) = none := by
      unfold OperatorEntry.toOperator
      cases entry.category <;> rfl
    exact List.forall_mem_cons.mpr ⟨here, ih (start + 1)⟩

theorem pairsEnclose {before : List Operator} {pairs : List EncloserEntry}
    (split : t.operators = before ++ pairsFrom before.length pairs) :
    ((pairsFrom before.length pairs).filterMap fun op => (t.closing? op).map fun close => (op, close)).map
      (fun pair => pair.1.name) = pairs.map fun pair => pair.opening.name := by
  induction pairs generalizing before with
  | nil => rfl
  | cons pair pairs ih =>
    have closes : t.closing? (pair.opener before.length) = some (pair.closer before.length) := by
      change t.operators[before.length + 1]? = _
      rw [split, List.getElem?_append_right (Nat.le_add_right _ _), Nat.add_sub_cancel_left]
      rfl
    have closed : t.closing? (pair.closer before.length) = none := rfl
    have later := @ih (before ++ [pair.opener before.length, pair.closer before.length]) (by
      rw [split]
      simp [pairsFrom])
    rw [List.length_append] at later
    simp only [pairsFrom, List.filterMap_cons, closes, closed, Option.map_some, Option.map_none, List.map_cons]
    rw [← later]
    rfl

theorem listedOpenings (same : t.operators = c.listed) :
    (t.enclosers.map fun pair => pair.1.name) = c.openings := by
  have none : (entriesFrom 0 c.operators).filterMap
      (fun op => (t.closing? op).map fun close => (op, close)) = [] :=
    List.filterMap_eq_nil_iff.mpr fun op member => by rw [entriesEncloseNone 0 c.operators op member]; rfl
  have split : t.operators = entriesFrom 0 c.operators ++
      pairsFrom (entriesFrom 0 c.operators).length c.enclosers := by rw [same, entriesLength]; rfl
  have pairs := pairsEnclose split
  unfold OperatorTable.enclosers
  rw [split, List.filterMap_append, none, List.nil_append]
  exact pairs

theorem openingsOnce (once : c.names.Nodup) : c.openings.Nodup := by
  have within : ∀ pairs : List EncloserEntry, (pairs.map fun pair => pair.opening.name).Sublist
      (pairs.flatMap fun pair => [pair.opening.name, pair.closing.name]) := by
    intro pairs
    induction pairs with
    | nil => exact .slnil
    | cons pair pairs ih => exact .cons_cons _ (.cons _ ih)
  exact ((within c.enclosers).trans (List.sublist_append_right _ _)).nodup once

end OperatorConfig

namespace Language

def halves (names : List String) : List String := names.flatMap fun name => [name ++ "-open", name ++ "-close"]

def takenNames : List String :=
  standardRules.map RuleSpec.name ++ (["ident", "unop", "binop"] ++ punctuation.map Prod.fst)

def neededPairs : List String := ["lparen", "fnargdef", "fnbody"]

section Names

variable {t : OperatorTable} {names : List String}

theorem declaredNames (t : OperatorTable) : Grammar.declared standardRules (terminals t) =
    takenNames ++ halves (t.enclosers.map fun pair => pair.1.name) := by
  simp [Grammar.declared, terminals, takenNames, halves, encloserTerminals, glyphTerminal, List.map_flatMap,
    List.flatMap_map, Function.comp_def]

theorem halfMember {name : String} (member : name ∈ halves names) :
    ∃ base ∈ names, name = base ++ "-open" ∨ name = base ++ "-close" := by
  simpa [halves] using member

theorem halvesOnce (once : names.Nodup) : (halves names).Nodup := by
  induction names with
  | nil => exact .nil
  | cons name names ih =>
    obtain ⟨fresh, once⟩ := List.nodup_cons.mp once
    have pair : [name ++ "-open", name ++ "-close"].Nodup := by simp
    refine List.nodup_append.mpr ⟨pair, ih once, fun half here other there same => ?_⟩
    obtain ⟨base, inside, ends⟩ := halfMember there
    have different : name ≠ base := fun equal => fresh (equal ▸ inside)
    rw [List.mem_pair, same] at here
    rcases here with rfl | rfl <;> rcases ends with ends | ends
    · exact different ((String.append_left_inj _).mp ends)
    · exact halvesApart _ _ ends
    · exact halvesApart _ _ ends.symm
    · exact different ((String.append_left_inj _).mp ends)

theorem takenHalf {name : String} (taken : name ∈ takenNames) (half : name ∈ halves names) :
    name = "cond-open" ∧ "cond" ∈ names := by
  have sole : ∀ name ∈ takenNames, name ≠ "cond-open" →
      ¬ "-open".toList <:+ name.toList ∧ ¬ "-close".toList <:+ name.toList := by decide
  obtain ⟨base, inside, ends⟩ := halfMember half
  by_cases cond : name = "cond-open"
  · refine ⟨cond, ?_⟩
    rcases ends with ends | ends
    · have same : "cond" ++ "-open" = base ++ "-open" := cond.symm.trans ends
      rwa [(String.append_left_inj _).mp same]
    · exact absurd (cond.symm.trans ends) (halvesApart "cond" base)
  · obtain ⟨opens, closes⟩ := sole name taken cond
    rcases ends with rfl | rfl
    · exact absurd (by simp) opens
    · exact absurd (by simp) closes

theorem takenOnceEach : takenNames.Nodup := by decide

theorem namesOnce (once : names.Nodup) (free : "cond" ∉ names) : (takenNames ++ halves names).Nodup :=
  List.nodup_append.mpr ⟨takenOnceEach, halvesOnce once, fun _ taken _ half same =>
    free (takenHalf taken (same ▸ half)).2⟩

theorem condRepeats (once : names.Nodup) (named : "cond" ∈ names) :
    FirstRepeat (takenNames ++ halves names) "cond-open" := by
  obtain ⟨before, after, rfl⟩ := List.append_of_mem named
  have free : "cond" ∉ before := fun inside =>
    (List.nodup_append.mp once).2.2 "cond" inside "cond" List.mem_cons_self rfl
  refine ⟨takenNames ++ halves before, "cond-close" :: halves after, ?_,
    namesOnce (List.nodup_append.mp once).1 free, List.mem_append_left _ (by decide)⟩
  have split : halves (before ++ "cond" :: after) =
      halves before ++ "cond-open" :: "cond-close" :: halves after := by
    unfold halves
    rw [List.flatMap_append, List.flatMap_cons]
    rfl
  rw [split, List.append_assoc]

theorem targetsNeeded (needed : ∀ name ∈ neededPairs, name ∈ names) :
    Grammar.TargetsListed standardRules (takenNames ++ halves names) := by
  have reached : ∀ spec ∈ standardRules, ∀ b ∈ spec.branches, ∀ arm ∈ b.arms,
      arm.rule ∈ takenNames ∨ arm.rule ∈ halves neededPairs := by decide
  intro spec listed b branch arm inside
  rcases reached spec listed b branch arm inside with taken | half
  · exact List.mem_append_left _ taken
  · obtain ⟨base, member, same⟩ := List.mem_flatMap.mp half
    exact List.mem_append_right _ (List.mem_flatMap.mpr ⟨base, needed base member, same⟩)

end Names

section Build

variable {c : OperatorConfig} {t : OperatorTable}

theorem configNames (made : c.toTable = .ok t) :
    Grammar.declared standardRules (terminals t) = takenNames ++ halves c.openings := by
  rw [declaredNames, OperatorConfig.listedOpenings (OperatorConfig.tableDeclared made).operators]

theorem condFree (made : c.toTable = .ok t) (needed : ∀ name ∈ neededPairs, name ∈ c.openings)
    (free : "cond" ∉ c.openings) : ∃ l, Definition.build { operators := t } = .ok l := by
  have once := OperatorConfig.openingsOnce (OperatorConfig.tableCalls made).1
  obtain ⟨g, linked⟩ := @Grammar.linkFound standardRules (terminals t)
    (configNames made ▸ namesOnce once free) (configNames made ▸ targetsNeeded needed)
  exact ⟨_, by simp only [Definition.build, linked]; rfl⟩

theorem condTaken (made : c.toTable = .ok t) (named : "cond" ∈ c.openings) :
    Definition.build { operators := t } = .error (.grammar (.duplicateRule "cond-open")) := by
  have once := OperatorConfig.openingsOnce (OperatorConfig.tableCalls made).1
  have failed : Grammar.link standardRules (terminals t) = .error (.duplicateRule "cond-open") :=
    (Grammar.linkError _).mpr (.inl ⟨"cond-open", rfl, configNames made ▸ condRepeats once named⟩)
  simp only [Definition.build, failed]

end Build

/-- A configured table with the needed pairs makes a language of the standard grammar, whatever else it holds, unless
an opening half is named `cond`: then the name of its terminal is reported as declared twice. -/
theorem configuredLanguage (c : OperatorConfig) (t : OperatorTable) (made : c.toTable = .ok t)
    (needed : ∀ name ∈ neededPairs, name ∈ c.openings) :
    ("cond" ∉ c.openings → ∃ l, Definition.build { operators := t } = .ok l) ∧
    ("cond" ∈ c.openings → Definition.build { operators := t } = .error (.grammar (.duplicateRule "cond-open"))) :=
  ⟨condFree made needed, condTaken made⟩

def withPair (opening closing : String) : OperatorConfig where
  operators := [⟨"stmts", "+", .infixOp, none⟩, ⟨"lparen-open", "!", .prefixOp, none⟩]
  enclosers := [⟨⟨"lparen", "("⟩, ⟨"rparen", ")"⟩⟩, ⟨⟨"fnargdef", "["⟩, ⟨"fnargdefc", "]"⟩⟩,
    ⟨⟨"fnbody", "\x7b"⟩, ⟨"fnbodyc", "\x7d"⟩⟩, ⟨⟨opening, "<"⟩, ⟨closing, ">"⟩⟩]
  equal := []
  greater := []

theorem condClosingServes : ∃ t, (withPair "ident" "cond").toTable = .ok t ∧
    (∀ name ∈ neededPairs, name ∈ (withPair "ident" "cond").openings) ∧
    "cond" ∉ (withPair "ident" "cond").openings ∧ ∃ l, Definition.build { operators := t } = .ok l := by
  obtain ⟨t, made⟩ := (OperatorConfig.tableFound (withPair "ident" "cond")).mpr ⟨by decide, by decide⟩
  have needed : ∀ name ∈ neededPairs, name ∈ (withPair "ident" "cond").openings := by decide
  have free : "cond" ∉ (withPair "ident" "cond").openings := by decide
  exact ⟨t, made, needed, free, (configuredLanguage _ t made needed).1 free⟩

theorem condOpeningRefused : ∃ t, (withPair "cond" "condc").toTable = .ok t ∧
    (∀ name ∈ neededPairs, name ∈ (withPair "cond" "condc").openings) ∧
    Definition.build { operators := t } = .error (.grammar (.duplicateRule "cond-open")) := by
  obtain ⟨t, made⟩ := (OperatorConfig.tableFound (withPair "cond" "condc")).mpr ⟨by decide, by decide⟩
  exact ⟨t, made, by decide, condTaken made (by decide)⟩

end Language
end Parlance
