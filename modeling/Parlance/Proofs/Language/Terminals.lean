import Parlance.Proofs.Language.Shapes
import Parlance.Proofs.Operator.Built

/-! The terminals of the standard grammar and the tokens that they take. No two of them take the same token, but
for the two that share the minus; so whatever one terminal takes the others refuse. -/
namespace Parlance

def Accepted (t : Token) (name : String) : Prop :=
  ∃ spec ∈ terminals standardOperators, spec.name = name ∧ spec.detector.accepts t = true

def Refused (t : Token) (name : String) : Prop :=
  ∃ spec ∈ terminals standardOperators, spec.name = name ∧ spec.detector.accepts t = false

instance (t : Token) (name : String) : Decidable (Refused t name) :=
  inferInstanceAs (Decidable (∃ spec ∈ terminals standardOperators, _))

namespace Language.StandardParts

def signs : List String := ["unop", "binop"]

def terminalNames : List String := (terminals standardOperators).map TerminalSpec.name

section Accepts

variable {t : Token} {s name symbol : String}

theorem textAccepted (s : String) : Accepted (.text s) "ident" := ⟨_, List.mem_cons_self, rfl, rfl⟩

theorem markAccepted (listed : (name, symbol) ∈ punctuation) : Accepted (.glyph symbol) name :=
  ⟨_, markListed listed, rfl, by simp [glyphTerminal]⟩

theorem infixAccepted (listed : s ∈ standardOperators.symbols .infixOp) : Accepted (.glyph s) "binop" :=
  ⟨glyphTerminal "binop" (standardOperators.symbols .infixOp), by simp [terminals], rfl,
    by simpa [glyphTerminal] using listed⟩

theorem halvesAccepted {pair : Operator × Operator} (listed : pair ∈ standardOperators.enclosers) :
    Accepted (.glyph pair.1.symbol) (pair.1.name ++ "-open") ∧
      Accepted (.glyph pair.2.symbol) (pair.1.name ++ "-close") := by
  have inside : ∀ spec ∈ encloserTerminals pair, spec ∈ terminals standardOperators := fun spec member =>
    List.mem_append_right _ (List.mem_flatMap.mpr ⟨pair, listed, member⟩)
  exact ⟨⟨_, inside _ List.mem_cons_self, rfl, by simp [glyphTerminal]⟩,
    ⟨_, inside _ (List.mem_cons_of_mem _ List.mem_cons_self), rfl, by simp [glyphTerminal]⟩⟩

def symbolsListed : List String :=
  standardOperators.operators.map Operator.symbol ++ punctuation.map Prod.snd

theorem acceptedListed {spec : TerminalSpec} (listed : spec ∈ terminals standardOperators)
    (accepts : spec.detector.accepts t = true) :
    (t.isText = true ∧ spec.detector.accepts (.text "") = true) ∨ ∃ s ∈ symbolsListed, t = .glyph s := by
  have known : ∀ {category s}, s ∈ standardOperators.symbols category → s ∈ symbolsListed := by
    intro category s member
    obtain ⟨op, inside, rfl⟩ := List.mem_map.mp member
    exact List.mem_append_left _ (List.mem_map_of_mem (List.mem_filter.mp inside).1)
  rcases List.mem_append.mp listed with fixed | half
  · rcases List.mem_append.mp fixed with kind | mark
    · simp only [List.mem_cons, List.not_mem_nil, or_false] at kind
      rcases kind with rfl | rfl | rfl
      · exact .inl ⟨accepts, rfl⟩
      · obtain ⟨s, member, rfl⟩ := glyphAccepted accepts
        exact .inr ⟨s, known member, rfl⟩
      · obtain ⟨s, member, rfl⟩ := glyphAccepted accepts
        exact .inr ⟨s, known member, rfl⟩
    · obtain ⟨entry, inside, rfl⟩ := List.mem_map.mp mark
      obtain ⟨s, only, rfl⟩ := glyphAccepted accepts
      rw [List.mem_singleton.mp only]
      exact .inr ⟨_, List.mem_append_right _ (List.mem_map_of_mem inside), rfl⟩
  · obtain ⟨pair, inside, member⟩ := List.mem_flatMap.mp half
    obtain ⟨opens, closes⟩ := OperatorTable.enclosersListed
      (OperatorTable.builtFormed OperatorTable.standardBuilt) inside
    simp only [encloserTerminals, List.mem_cons, List.not_mem_nil, or_false] at member
    rcases member with rfl | rfl
    · obtain ⟨s, only, rfl⟩ := glyphAccepted accepts
      exact .inr ⟨_, known opens, by rw [List.mem_singleton.mp only]⟩
    · obtain ⟨s, only, rfl⟩ := glyphAccepted accepts
      exact .inr ⟨_, known closes, by rw [List.mem_singleton.mp only]⟩

end Accepts

section Apart

variable {t : Token} {name other : String}

def takers (t : Token) : List String :=
  ((terminals standardOperators).filter fun spec => spec.detector.accepts t).map TerminalSpec.name

def Apart (name other : String) : Prop := name ≠ other ∧ (name ∈ signs → other ∉ signs)

instance : Decidable (Apart name other) := inferInstanceAs (Decidable (_ ∧ _))

theorem takersTogether : ∀ t ∈ .text "" :: symbolsListed.map .glyph, ∀ name ∈ takers t, ∀ other ∈ takers t,
    ¬ Apart name other := by decide +kernel

theorem takenOnce (first : Accepted t name) (second : Accepted t other) : ¬ Apart name other := by
  obtain ⟨one, listed, rfl, accepts⟩ := first
  obtain ⟨two, listed', rfl, accepts'⟩ := second
  have among : ∀ {spec t}, spec ∈ terminals standardOperators → spec.detector.accepts t = true →
      spec.name ∈ takers t := fun listed accepts =>
    List.mem_map_of_mem (List.mem_filter.mpr ⟨listed, accepts⟩)
  rcases acceptedListed listed accepts with ⟨text, left⟩ | ⟨s, known, rfl⟩
  · rcases acceptedListed listed' accepts' with ⟨-, right⟩ | ⟨s, known, rfl⟩
    · exact takersTogether _ List.mem_cons_self _ (among listed left) _ (among listed' right)
    · contradiction
  · exact takersTogether _ (List.mem_cons_of_mem _ (List.mem_map_of_mem known)) _ (among listed accepts) _
      (among listed' accepts')

theorem apartRefused (accepted : Accepted t name) (listed : other ∈ terminalNames)
    (apart : Apart name other) : Refused t other := by
  obtain ⟨spec, member, rfl⟩ := List.mem_map.mp listed
  cases accepts : spec.detector.accepts t with
  | false => exact ⟨spec, member, rfl, accepts⟩
  | true => exact absurd apart (takenOnce accepted ⟨spec, member, rfl, accepts⟩)

end Apart

end Language.StandardParts
end Parlance
