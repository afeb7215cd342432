import Mathlib.Data.List.Forall2
import Parlance.Json.Codec

/-! What is relied on in a library for JSON: it reads what it printed, and derives codecs as it is documented to.
A value whose parts are kept by their codecs is then kept by the codec of the whole. -/
namespace Parlance.Json

/-- Made of texts, lists and objects that name each field once. -/
inductive Plain : Json → Prop where
  | text (s : String) : Plain (.ofString s)
  | list {vs : List Json} (each : ∀ v ∈ vs, Plain v) : Plain (.list vs)
  | named {parts : List (String × Json)} (once : (parts.map Prod.fst).Nodup)
    (each : ∀ part ∈ parts, Plain part.2) : Plain (.named parts)

theorem plainGiven {v : Json} (plain : v.Plain) : v ≠ .null := by
  rintro rfl
  cases plain

open Library (parse print text option words record)

class LawfulLibrary [Library] : Prop where
  parsePrint {v : Json} (plain : v.Plain) : parse (print v) = some v
  textWrite (s : String) : text.write s = .ofString s
  textRead (s : String) : text.read (.ofString s) = some s
  listWrite {α : Type} (codec : Codec α) (as : List α) : (Library.list codec).write as = .list (as.map codec.write)
  listRead {α : Type} (codec : Codec α) {vs : List Json} {as : List α}
    (each : List.Forall₂ (fun v a => codec.read v = some a) vs as) : (Library.list codec).read (.list vs) = some as
  optionWrite {α : Type} (codec : Codec α) (a : α) : (option codec).write (some a) = codec.write a
  optionRead {α : Type} (codec : Codec α) {v : Json} (given : v ≠ .null) :
    (option codec).read v = (codec.read v).map some
  wordsWrite {α : Type} {word : α → String} {values : List α} {a : α} (listed : a ∈ values) :
    (words word values).write a = .ofString (word a)
  wordsRead {α : Type} {word : α → String} {values : List α} {a : α} (listed : a ∈ values)
    (once : (values.map word).Nodup) : (words word values).read (.ofString (word a)) = some a
  recordWrite {β : Type} (fields : Fields β) (b : β) : (record fields).write b = .named (fields.written b)
  /-- Fields are found by their names, in any order and among others. -/
  recordRead {β : Type} (fields : Fields β) {parts : List (String × Json)} (once : (parts.map Prod.fst).Nodup) :
    (record fields).read (.named parts) = fields.read fun name => parts.lookup name

structure Codec.Keeps {α : Type} (codec : Codec α) (a : α) : Prop where
  plain : (codec.write a).Plain
  reads : codec.read (codec.write a) = some a

theorem Codec.alongKeeps {α β : Type} {codec : Codec β} {parts : α → β} {whole : β → α} {a : α}
    (keeps : codec.Keeps (parts a)) (same : whole (parts a) = a) : (codec.along parts whole).Keeps a := by
  refine ⟨keeps.plain, ?_⟩
  simp only [Codec.along, keeps.reads, Option.map_some, same]

namespace Fields

def Keeps {β : Type} : Fields β → β → Prop
  | .done, _ => True
  | .required _ codec others, (a, b) => codec.Keeps a ∧ others.Keeps b
  | .optional _ codec default hides others, (a, b) =>
    (if hides a then a = default else codec.Keeps a) ∧ others.Keeps b

theorem readCongr {β : Type} {fields : Fields β} {found found' : String → Option Json}
    (same : ∀ name ∈ fields.names, found name = found' name) : fields.read found = fields.read found' := by
  induction fields with
  | done => rfl
  | required name codec others ih | optional name codec default hides others ih =>
    obtain ⟨here, later⟩ := List.forall_mem_cons.mp same
    simp only [read, here, ih later]

theorem writtenNames {β : Type} (fields : Fields β) (b : β) :
    List.Sublist ((fields.written b).map Prod.fst) fields.names := by
  induction fields with
  | done => exact .slnil
  | required name codec others ih => exact (ih b.2).cons_cons name
  | optional name codec default hides others ih =>
    simp only [written]
    split
    · exact (ih b.2).cons name
    · exact (ih b.2).cons_cons name

theorem writtenPlain {β : Type} {fields : Fields β} {b : β} (keeps : fields.Keeps b) :
    ∀ part ∈ fields.written b, part.2.Plain := by
  induction fields with
  | done => exact fun _ => nofun
  | required name codec others ih => exact List.forall_mem_cons.mpr ⟨keeps.1.plain, ih keeps.2⟩
  | optional name codec default hides others ih =>
    obtain ⟨kept, later⟩ := keeps
    simp only [written]
    split
    · exact ih later
    · rename_i shown
      rw [if_neg shown] at kept
      exact List.forall_mem_cons.mpr ⟨kept.plain, ih later⟩

theorem findsOthers {names : List String} {name : String} (fresh : name ∉ names) {found : String → Option Json}
    {v : Json} {parts : List (String × Json)}
    (finds : ∀ other ∈ names, found other = ((name, v) :: parts).lookup other) :
    ∀ other ∈ names, found other = parts.lookup other := by
  intro other member
  have apart : other ≠ name := fun same => fresh (same ▸ member)
  rw [finds other member, List.lookup_cons, beq_eq_false_iff_ne.mpr apart]

theorem readWritten {β : Type} {fields : Fields β} (once : fields.names.Nodup) {b : β} (keeps : fields.Keeps b)
    {found : String → Option Json} (finds : ∀ name ∈ fields.names, found name = (fields.written b).lookup name) :
    fields.read found = some b := by
  -- By induction on the fields; what is found may be more than they write, as it is for all but the first.
  induction fields with
  | done => rfl
  | required name codec others ih =>
    obtain ⟨fresh, once⟩ := List.nodup_cons.mp once
    obtain ⟨here, later⟩ := List.forall_mem_cons.mp finds
    have found' : found name = some (codec.write b.1) := here.trans List.lookup_cons_self
    have rest := ih once keeps.2 (findsOthers fresh later)
    simp only [read, found', rest, keeps.1.reads, Option.bind_eq_bind, Option.bind_some]
  | optional name codec default hides others ih =>
    obtain ⟨fresh, once⟩ := List.nodup_cons.mp once
    obtain ⟨here, later⟩ := List.forall_mem_cons.mp finds
    obtain ⟨kept, keeps⟩ := keeps
    by_cases hidden : hides b.1 = true
    · simp only [written, hidden, if_true] at here later kept
      have absent : (others.written b.2).lookup name = none := by
        refine List.lookup_eq_none_iff.mpr fun part member => bne_iff_ne.mpr fun same => fresh ?_
        exact (writtenNames others b.2).subset (same ▸ List.mem_map_of_mem member)
      simp only [read, here.trans absent, ih once keeps later, Option.bind_eq_bind, Option.bind_some, ← kept]
    · simp only [written, if_neg hidden] at here later kept
      have found' : found name = some (codec.write b.1) := here.trans List.lookup_cons_self
      have rest := ih once keeps (findsOthers fresh later)
      simp only [read, found', rest, kept.reads, Option.bind_eq_bind, Option.bind_some]

end Fields

section Derived

variable [Library] [LawfulLibrary]

open LawfulLibrary

theorem textKeeps (s : String) : text.Keeps s := by
  refine ⟨?_, ?_⟩ <;> rw [textWrite]
  · exact .text s
  · exact textRead s

theorem listKeeps {α : Type} {codec : Codec α} {as : List α} (each : ∀ a ∈ as, codec.Keeps a) :
    (Library.list codec).Keeps as := by
  refine ⟨?_, ?_⟩ <;> rw [listWrite]
  · refine .list fun v member => ?_
    obtain ⟨a, inside, rfl⟩ := List.mem_map.mp member
    exact (each a inside).plain
  · refine listRead codec (List.forall₂_map_left_iff.mpr (List.forall₂_same.mpr fun a member => ?_))
    exact (each a member).reads

theorem wordsKeep {α : Type} {word : α → String} {values : List α} {a : α} (listed : a ∈ values)
    (once : (values.map word).Nodup) : (words word values).Keeps a := by
  refine ⟨?_, ?_⟩ <;> rw [wordsWrite listed]
  · exact .text (word a)
  · exact wordsRead listed once

theorem optionKeeps {α : Type} {codec : Codec α} {a : α} (keeps : codec.Keeps a) :
    (option codec).Keeps (some a) := by
  refine ⟨?_, ?_⟩ <;> rw [optionWrite]
  · exact keeps.plain
  · rw [optionRead codec (plainGiven keeps.plain), keeps.reads, Option.map_some]

theorem recordKeeps {β : Type} {fields : Fields β} (once : fields.names.Nodup) {b : β} (keeps : fields.Keeps b) :
    (record fields).Keeps b := by
  have onceWritten := once.sublist (Fields.writtenNames fields b)
  refine ⟨?_, ?_⟩ <;> rw [recordWrite]
  · exact .named onceWritten (Fields.writtenPlain keeps)
  · rw [recordRead fields onceWritten]
    exact Fields.readWritten once keeps fun _ _ => rfl

end Derived

end Parlance.Json
