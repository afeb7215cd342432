import Mathlib.Data.List.Forall2
import Parlance.Proofs.Evaluator.Calls

/-! Values and frames that match. Where pieces of code are related, values match if they are the same data or
the same function with related bodies, and frames match if they bind the same names in the same order to
matching values. What is looked up, bound or computed in matching frames and of matching values matches. -/
namespace Parlance

variable {H : Type}

section

variable (codes : Instruction H → Instruction H → Prop)

inductive Instruction.Shaped : Instruction H → Instruction H → Prop where
  | literal (value) : Shaped (.literal value) (.literal value)
  | lookup (name) : Shaped (.lookup name) (.lookup name)
  | assign (name) {i j} (part : codes i j) : Shaped (.assign name i) (.assign name j)
  | function (params) {is js} (body : List.Forall₂ codes is js) :
      Shaped (.function params is) (.function params js)
  | call (name) {is js} (args : List.Forall₂ codes is js) : Shaped (.call name is) (.call name js)
  | callFunction (params) {body body' is js} (inner : List.Forall₂ codes body body')
      (args : List.Forall₂ codes is js) :
      Shaped (.callFunction params body is) (.callFunction params body' js)
  | callNative (n) {is js} (args : List.Forall₂ codes is js) :
      Shaped (.callNative n is) (.callNative n js)

inductive Function.Matched : Function H → Function H → Prop where
  | user (params) {is js} (body : List.Forall₂ codes is js) : Matched (.user params is) (.user params js)
  | native (n) : Matched (.native n) (.native n)

inductive Value.Matched : Value H → Value H → Prop where
  | nil : Matched .nil .nil
  | integer (n) : Matched (.integer n) (.integer n)
  | float (x) : Matched (.float x) (.float x)
  | function (id) {f g} (same : f.Matched codes g) : Matched (.function id f) (.function id g)

abbrev Frame.Matched : Frame H → Frame H → Prop :=
  List.Forall₂ fun entry other => other.1 = entry.1 ∧ entry.2.Matched codes other.2

abbrev Evaluator.FramesMatched : List (Frame H) → List (Frame H) → Prop :=
  List.Forall₂ (Frame.Matched codes)

inductive Script.Matched : Script H → Script H → Prop where
  | done {v w} (result : v.Matched codes w) : Matched (.done v) (.done w)
  | fail (e) : Matched (.fail e) (.fail e)
  | call {f g args args' next next'} (callee : f.Matched codes g)
      (given : List.Forall₂ (Value.Matched codes) args args')
      (later : ∀ v w, v.Matched codes w → Matched (next v) (next' w)) :
      Matched (.call f args next) (.call g args' next')
  | lookup (name) {next next'} (later : ∀ v w, v.Matched codes w → Matched (next v) (next' w)) :
      Matched (.lookup name next) (.lookup name next')
  | define (name) {v w next next'} (given : v.Matched codes w) (later : Matched next next') :
      Matched (.define name v next) (.define name w next')
  | assign (name) {v w next next'} (given : v.Matched codes w) (later : Matched next next') :
      Matched (.assign name v next) (.assign name w next')
  | frameCount {next next'} (later : ∀ n, Matched (next n) (next' n)) :
      Matched (.frameCount next) (.frameCount next')

end

variable {codes : Instruction H → Instruction H → Prop}

theorem dataMatched {v : Value H} (data : v.IsData) : v.Matched codes v := by
  cases v with
  | nil => exact .nil
  | integer n => exact .integer n
  | float x => exact .float x
  | function id f => contradiction

theorem truthMatched {v w : Value H} (same : v.Matched codes w) : w.isTruthy = v.isTruthy := by
  cases same <;> rfl

namespace Operation

variable {a a' b b' : Value H} (left : a.Matched codes a') (right : b.Matched codes b')

include left

theorem negateMatched : negate a' = negate a := by
  cases left <;> rfl

include right

theorem arithmeticMatched (op : Arithmetic) : arithmetic op a' b' = arithmetic op a b := by
  cases left <;> cases right <;> rfl

theorem comparisonMatched (op : Comparison) : comparison op a' b' = comparison op a b := by
  cases left <;> cases right <;> rfl

end Operation

namespace Frame

variable {f g : Frame H} {v w : Value H}

theorem lookupMatched (same : f.Matched codes g) (name : String) :
    Option.Rel (Value.Matched codes) (f.lookup name) (g.lookup name) := by
  induction same with
  | nil => exact .none
  | @cons entry other f g first _ ih =>
    obtain ⟨name', v⟩ := entry
    obtain ⟨_, w⟩ := other
    obtain ⟨rfl, same⟩ := first
    simp only [List.lookup_cons]
    split
    · exact .some same
    · exact ih

theorem bindsMatched (same : f.Matched codes g) (name : String) : g.binds name = f.binds name := by
  induction same with
  | nil => rfl
  | cons first _ ih =>
    unfold binds at ih ⊢
    rw [List.any_cons, List.any_cons, first.1, ih]

theorem bindMatched (same : f.Matched codes g) (value : v.Matched codes w) (name : String) :
    (f.bind name v).Matched codes (g.bind name w) := by
  induction same with
  | nil => exact .cons ⟨rfl, value⟩ .nil
  | @cons entry other f g first others ih =>
    obtain ⟨name', u⟩ := entry
    obtain ⟨_, u'⟩ := other
    obtain ⟨rfl, same⟩ := first
    simp only [bind]
    split
    · exact .cons ⟨rfl, value⟩ others
    · exact .cons ⟨rfl, same⟩ ih

theorem bindAllMatched {vs ws : List (Value H)} (values : List.Forall₂ (Value.Matched codes) vs ws)
    (names : List String) (same : f.Matched codes g) :
    (f.bindAll names vs).Matched codes (g.bindAll names ws) := by
  induction names generalizing vs ws f g with
  | nil => simpa only [bindAll] using same
  | cons name names ih =>
    cases values with
    | nil => simpa only [bindAll] using same
    | cons first others => exact ih others (bindMatched same first name)

end Frame

namespace Evaluator

variable {fs gs : List (Frame H)} {v w : Value H}

theorem findMatched (same : FramesMatched codes fs gs) (name : String) :
    Option.Rel (Value.Matched codes) (find? name fs) (find? name gs) := by
  induction same with
  | nil => exact .none
  | @cons f g fs gs first _ ih =>
    have here := Frame.lookupMatched first name
    simp only [find?]
    revert here
    cases f.lookup name <;> cases g.lookup name <;> intro here <;> try cases here
    · exact ih
    · rename_i same
      exact .some same

theorem rebindMatched (same : FramesMatched codes fs gs) (value : v.Matched codes w) (name : String) :
    Option.Rel (FramesMatched codes) (rebind name v fs) (rebind name w gs) := by
  induction same with
  | nil => exact .none
  | @cons f g fs gs first others ih =>
    simp only [rebind, Frame.bindsMatched first name]
    split
    · exact .some (.cons (Frame.bindMatched first value name) others)
    · revert ih
      cases rebind name v fs <;> cases rebind name w gs <;> intro ih <;> cases ih
      · exact .none
      · rename_i same
        exact .some (.cons first same)

theorem bindInnermostMatched (same : FramesMatched codes fs gs) (value : v.Matched codes w)
    (name : String) : FramesMatched codes (bindInnermost name v fs) (bindInnermost name w gs) := by
  cases same with
  | nil => exact .cons (.cons ⟨rfl, value⟩ .nil) .nil
  | cons first others => exact .cons (Frame.bindMatched first value name) others

theorem tailMatched (same : FramesMatched codes fs gs) : FramesMatched codes fs.tail gs.tail := by
  cases same with
  | nil => exact .nil
  | cons _ others => exact others

end Evaluator

section Self

variable (self : ∀ i, codes i i)

include self

theorem shapedSelf (i : Instruction H) : i.Shaped codes i := by
  have each : ∀ is, List.Forall₂ codes is is := fun is => List.forall₂_same.mpr fun i _ => self i
  cases i with
  | literal value => exact .literal value
  | lookup name => exact .lookup name
  | assign name value => exact .assign name (self value)
  | function params body => exact .function params (each body)
  | call name args => exact .call name (each args)
  | callFunction params body args => exact .callFunction params (each body) (each args)
  | callNative n args => exact .callNative n (each args)

theorem matchedSelf (v : Value H) : v.Matched codes v := by
  cases v with
  | nil => exact .nil
  | integer n => exact .integer n
  | float x => exact .float x
  | function id f =>
    cases f with
    | user params body => exact .function id (.user params (List.forall₂_same.mpr fun i _ => self i))
    | native n => exact .function id (.native n)

theorem framesSelf (fs : List (Frame H)) : Evaluator.FramesMatched codes fs fs :=
  List.forall₂_same.mpr fun _ _ => List.forall₂_same.mpr fun entry _ => ⟨rfl, matchedSelf self entry.2⟩

end Self

/-! Where code is related to itself alone, so is everything that is made of it. -/

section Equal

theorem matchedEqual {v w : Value H} (same : v.Matched Eq w) : w = v := by
  cases same with
  | nil => rfl
  | integer n => rfl
  | float x => rfl
  | function id same =>
    cases same with
    | user params body =>
      rw [List.forall₂_eq_eq_eq] at body
      rw [body]
    | native n => rfl

theorem valuesEqual {vs ws : List (Value H)} (same : List.Forall₂ (Value.Matched Eq) vs ws) : ws = vs := by
  induction same with
  | nil => rfl
  | cons first _ ih => rw [matchedEqual first, ih]

theorem frameEqual {f g : Frame H} (same : f.Matched Eq g) : g = f := by
  induction same with
  | nil => rfl
  | cons first _ ih => rw [ih, Prod.ext first.1 (matchedEqual first.2)]

theorem framesEqual {fs gs : List (Frame H)} (same : Evaluator.FramesMatched Eq fs gs) : gs = fs := by
  induction same with
  | nil => rfl
  | cons first _ ih => rw [frameEqual first, ih]

theorem scriptSelf (script : Script H) : script.Matched Eq script := by
  have self : ∀ v : Value H, v.Matched Eq v := matchedSelf fun _ => rfl
  induction script with
  | done v => exact .done (self v)
  | fail e => exact .fail e
  | call f args next ih =>
    refine .call (self f) (List.forall₂_same.mpr fun v _ => self v) fun v w same => ?_
    exact matchedEqual same ▸ ih v
  | lookup name next ih => exact .lookup name fun v w same => matchedEqual same ▸ ih v
  | define name v next ih => exact .define name (self v) ih
  | assign name v next ih => exact .assign name (self v) ih
  | frameCount next ih => exact .frameCount ih

end Equal

end Parlance
