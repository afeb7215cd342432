import Parlance.Operator.ConfigJson
import Parlance.Proofs.Json.Strict

/-! Configurations as JSON that reads back. Each type declares words that are told apart and fields that are named
apart, and hides a field only where leaving it out means the same; so any library that does what is documented of it
reads a configuration from what it prints for it. -/
namespace Parlance.OperatorConfig

open Json
open Json.Library (text list option)

section Declared

variable [Library] [LawfulLibrary]

theorem fixityKeeps (f : Fixity) : fixity.Keeps f :=
  wordsKeep (by cases f <;> decide) (by decide)

theorem associativityKeeps (a : Associativity) : associativity.Keeps a :=
  wordsKeep (by cases a <;> decide) (by decide)

theorem textsKeep (names : List String) : (list text).Keeps names := listKeeps fun s _ => textKeeps s

theorem operatorEntryKeeps (e : OperatorEntry) : operatorEntry.Keeps e := by
  refine Codec.alongKeeps (recordKeeps (by simp [Fields.names])
    ⟨textKeeps _, textKeeps _, fixityKeeps _, ?_, trivial⟩) rfl
  cases e.assoc with
  | none => rfl
  | some a => exact optionKeeps (associativityKeeps a)

theorem namedSymbolKeeps (s : NamedSymbol) : namedSymbol.Keeps s :=
  Codec.alongKeeps (recordKeeps (by simp [Fields.names]) ⟨textKeeps _, textKeeps _, trivial⟩) rfl

theorem encloserEntryKeeps (e : EncloserEntry) : encloserEntry.Keeps e :=
  Codec.alongKeeps (recordKeeps (by simp [Fields.names]) ⟨namedSymbolKeeps _, namedSymbolKeeps _, trivial⟩) rfl

theorem greaterEntryKeeps (e : GreaterEntry) : greaterEntry.Keeps e :=
  Codec.alongKeeps (recordKeeps (by simp [Fields.names]) ⟨textsKeep _, textsKeep _, trivial⟩) rfl

theorem configKeeps (c : OperatorConfig) : config.Keeps c := by
  have operators := listKeeps fun e (_ : e ∈ c.operators) => operatorEntryKeeps e
  have enclosers := listKeeps fun e (_ : e ∈ c.enclosers) => encloserEntryKeeps e
  have equal := listKeeps fun names (_ : names ∈ c.equal) => textsKeep names
  have greater := listKeeps fun e (_ : e ∈ c.greater) => greaterEntryKeeps e
  exact Codec.alongKeeps (recordKeeps (by simp [Fields.names]) ⟨operators, enclosers, equal, greater, trivial⟩) rfl

theorem readWritten (c : OperatorConfig) : ofJson c.toJson = .ok c := by
  have keeps := configKeeps c
  rw [ofJson, toJson, LawfulLibrary.parsePrint keeps.plain, Option.bind_some, keeps.reads]

/-- With any library for JSON that is lawful, a configuration is read from what is written for it, so whatever text
it was first read from, writing it and reading that gives it again. -/
theorem configReadsBack : (∀ c : OperatorConfig, ofJson c.toJson = .ok c) ∧
    ∀ (source : String) (c : OperatorConfig), ofJson source = .ok c → ofJson c.toJson = .ok c :=
  ⟨readWritten, fun _ c _ => readWritten c⟩

end Declared

def looseText : String :=
  "\x7b \"use\": [1.5, \x7b\"y\": null\x7d], \"greater\": [[[\"neg\"], [\"\\u0061dd\"]]],
    \"operators\": [[\"add\", \"\\uD83D\\uDE00\", \"infix\", \"non-assoc\"],
      \x7b\"assoc\": null, \"symbol\": \"\\t\\u0001\\\"\",
        \"category\": \x7b\"prefix\": null\x7d, \"name\": \"neg\"\x7d],
    \"enclosers\": [\x7b\"close\": [\"paren-end\", \")\"],
      \"open\": \x7b\"symbol\": \"(\", \"name\": \"paren\"\x7d\x7d] \x7d"

def looseConfig : OperatorConfig where
  operators := [⟨"add", "😀", .infixOp, some .nonAssoc⟩, ⟨"neg", "\t\x01\"", .prefixOp, none⟩]
  enclosers := [⟨⟨"paren", "("⟩, ⟨"paren-end", ")"⟩⟩]
  equal := []
  greater := [⟨["neg"], ["add"]⟩]

set_option maxRecDepth 2000 in
theorem looseReadsBack : ofJson looseText = .ok looseConfig ∧ looseText ≠ looseConfig.toJson ∧
    ofJson looseConfig.toJson = .ok looseConfig := by
  have chars : looseText.toList = _ := String.toList_ofList
  have value : (Library.parse looseText).bind config.read = some looseConfig := by
    change (Json.read looseText).bind config.read = _
    rw [Json.read, chars]
    decide +kernel
  have found : ofJson looseText = .ok looseConfig := by rw [ofJson, value]
  exact ⟨found, by decide +kernel, configReadsBack.2 _ _ found⟩

end Parlance.OperatorConfig
