import Parlance.Json.Strict
import Parlance.Proofs.Json.Written

/-! The library that programs are run with does what is relied on in one. -/
namespace Parlance.Json

theorem eachRead {α : Type} {read : Json → Option α} {vs : List Json} {as : List α}
    (each : List.Forall₂ (fun v a => read v = some a) vs as) : readEach read vs = some as := by
  induction each with
  | nil => rfl
  | cons here _ ih => simp only [readEach, here, ih, Option.bind_eq_bind, Option.bind_some]

theorem wordFound {α : Type} {word : α → String} {values : List α} {a : α} (listed : a ∈ values)
    (once : (values.map word).Nodup) : (values.find? fun b => word b == word a) = some a := by
  induction values with
  | nil => contradiction
  | cons b values ih =>
    obtain ⟨fresh, once⟩ := List.nodup_cons.mp once
    rcases List.mem_cons.mp listed with rfl | later
    · exact List.find?_cons_of_pos (beq_self_eq_true _)
    · have apart : word b ≠ word a := fun same => fresh (same ▸ List.mem_map_of_mem later)
      rw [List.find?_cons_of_neg (by simp [apart])]
      exact ih later once

theorem knownNamed (names : List String) {parts : List (String × Json)} (once : (parts.map Prod.fst).Nodup) :
    knownFields names (parts.map keyed) = some (parts.filter fun part => names.contains part.1) := by
  induction parts with
  | nil => rfl
  | cons part parts ih =>
    obtain ⟨name, v⟩ := part
    obtain ⟨fresh, once⟩ := List.nodup_cons.mp once
    have later := ih once
    have absent : ((parts.filter fun part => names.contains part.1).any fun part => part.1 == name) = false := by
      refine List.any_eq_false.mpr fun part member => ?_
      have inside : part.1 ∈ parts.map Prod.fst := List.mem_map_of_mem (List.mem_of_mem_filter member)
      simpa using fun same : part.1 = name => fresh (same ▸ inside)
    simp only [List.map_cons, keyed] at later ⊢
    simp only [knownFields, later, absent, Option.bind_eq_bind, Option.bind_some, List.filter_cons]
    split <;> simp_all

theorem lookupFiltered {names : List String} {name : String} (known : name ∈ names)
    (parts : List (String × Json)) :
    (parts.filter fun part => names.contains part.1).lookup name = parts.lookup name := by
  induction parts with
  | nil => rfl
  | cons part parts ih =>
    obtain ⟨other, v⟩ := part
    by_cases same : name = other
    · subst same
      rw [List.filter_cons_of_pos (by simpa using known), List.lookup_cons_self, List.lookup_cons_self]
    · have apart : (name == other) = false := beq_eq_false_iff_ne.mpr same
      rw [List.filter_cons]
      split <;> simpa only [List.lookup_cons, apart] using ih

instance : LawfulLibrary where
  parsePrint := readRender
  textWrite _ := rfl
  textRead _ := rfl
  listWrite _ _ := rfl
  listRead _ := eachRead
  optionWrite _ _ := rfl
  optionRead {_} _ {v} given := by
    cases v with
    | null => exact absurd rfl given
    | _ => rfl
  wordsWrite _ := rfl
  wordsRead := wordFound
  recordWrite _ _ := rfl
  recordRead {β} fields {parts} once := by
    have known := knownNamed fields.names once
    change ((partsOf fields.names (.named parts)).bind fun found => fields.read fun name => found.lookup name) = _
    rw [named, partsOf, known, Option.bind_some]
    exact Fields.readCongr fun name member => lookupFiltered member parts

end Parlance.Json
