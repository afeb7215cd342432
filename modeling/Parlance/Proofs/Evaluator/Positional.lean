import Parlance.Proofs.Evaluator.Isolation
import Parlance.Proofs.Instruction.Parameters

/-! Parameters are bound by position. The body of a function starts in a frame of its own, which binds the names of
the parameter list and no others, each to the argument in its place. A frame is a map, so of places with one name
the last one counts. -/
namespace Parlance

namespace Frame

variable {H : Type} {p : String} {names : List String} {vs : List (Value H)}

theorem bindAllPasses (f : Frame H) (absent : p ∉ names) :
    (f.bindAll names vs).lookup p = f.lookup p := by
  induction names generalizing f vs with
  | nil => simp only [bindAll]
  | cons name names ih =>
    cases vs with
    | nil => simp only [bindAll]
    | cons v vs =>
      have other : p ≠ name := fun same => absent (same ▸ List.mem_cons_self)
      have later : p ∉ names := fun member => absent (List.mem_cons_of_mem _ member)
      rw [bindAll, ih (f.bind name v) later, lookupBind, if_neg other]

theorem bindAllPlace (f : Frame H) {k : Nat} {v : Value H} (named : names[k]? = some p)
    (given : vs[k]? = some v) (last : p ∉ names.drop (k + 1)) :
    (f.bindAll names vs).lookup p = some v := by
  -- By induction on the names: the place itself, and no later one, binds the name.
  induction names generalizing f vs k with
  | nil => simp at named
  | cons name names ih =>
    cases vs with
    | nil => simp at given
    | cons w vs =>
      cases k with
      | zero =>
        cases named
        cases given
        have absent : p ∉ names := last
        rw [bindAll, bindAllPasses _ absent, lookupBind, if_pos rfl]
      | succ k => exact ih (f.bind name w) named given last

theorem bindAllNames (given : vs.length = names.length) (name : String) :
    (Frame.bindAll names vs []).binds name = true ↔ name ∈ names := by
  refine ⟨fun bound => ?_, bindAllBinds given⟩
  by_contra absent
  rw [bindsLookup, bindAllPasses [] absent] at bound
  contradiction

end Frame

theorem Outcome.leavingTwice {H α : Type} (first second : Evaluator H → Evaluator H)
    (o : Outcome EvalError (Evaluator H) α) :
    (o.leaving first).leaving second = o.leaving (second ∘ first) := by
  cases o <;> rfl

namespace Evaluator

variable {H : Type}

/-- The body of a call from `s` starts in `start`: in one more frame, which binds the names, each to the argument
in the last place that has it. -/
structure Starts (names : List String) (args : List (Value H)) (byName : Bool) (s start : Evaluator H) :
    Prop where
  frame : ∃ f : Frame H, start.frames = f :: s.frames ∧ ∀ name, f.binds name = true ↔ name ∈ names
  depth : start.depth = s.depth + byName.toNat
  limit : start.maxDepth = s.maxDepth
  ids : start.nextId = s.nextId
  bound : ∀ k name v, names[k]? = some name → args[k]? = some v → name ∉ names.drop (k + 1) →
    lookup name start = .value v start

def returned (byName : Bool) (s : Evaluator H) : Evaluator H := if byName then s.pop.leave else s.pop

def begun (names : List String) (args : List (Value H)) (byName : Bool) (s : Evaluator H) : Evaluator H :=
  (if byName then s.enter else s).push (Frame.bindAll names args [])

theorem begunStarts {names : List String} {args : List (Value H)} (given : args.length = names.length)
    (byName : Bool) (s : Evaluator H) : Starts names args byName s (begun names args byName s) where
  frame := by cases byName <;> exact ⟨_, rfl, Frame.bindAllNames given⟩
  depth := by cases byName <;> rfl
  limit := by cases byName <;> rfl
  ids := by cases byName <;> rfl
  bound := by
    intro k name v named placed last
    have found := Frame.bindAllPlace [] named placed last
    simp only [lookup, begun, push, find?, found]

theorem runBodyBegins (names : List String) (args : List (Value H)) (byName : Bool) (body : Eval H (Value H))
    (s : Evaluator H) : runBody byName (Frame.bindAll names args []) body s =
      if byName = true ∧ s.maxDepth ≤ s.depth then .error (.callDepthExceeded s.maxDepth) s
      else (body (begun names args byName s)).leaving (returned byName) := by
  cases byName with
  | false =>
    simp only [runBody, Bool.false_eq_true, if_false, false_and]
    exact inFrameRun _ body s
  | true =>
    simp only [runBody, if_true, true_and]
    by_cases full : s.depth ≥ s.maxDepth
    · rw [counted, if_pos full, if_pos full]
    · rw [countedRun _ full, inFrameRun, Outcome.leavingTwice, if_neg full]
      rfl

variable [Host H]

/-- How calls of a function end. The flag tells those by name; the arguments are there in the given state, and the
body runs with the given fuel. -/
inductive Calls (f : Function H) (args : List (Value H)) :
    Bool → Nat → Evaluator H → Outcome EvalError (Evaluator H) (Value H) → Prop where
  | named {name id parts fuel s middle} (found : find? name s.frames = some (.function id f))
      (given : evalEach (evalInstruction fuel) parts s = .value args middle) :
      Calls f args true fuel middle (evalInstruction (fuel + 1) (.call name parts) s)
  -- from a native, and from outside of the evaluator
  | back {id fuel s} : Calls f args false fuel s (callValue (fuel + 1) (.function id f) args s)
  | host {id fuel s} (fueled : s.fuelFor = fuel + 1) :
      Calls f args false fuel s (call (.function id f) args s)

theorem callsInvoke {f : Function H} {args : List (Value H)} {byName : Bool} {fuel : Nat} {s : Evaluator H}
    {o : Outcome EvalError (Evaluator H) (Value H)} (calls : Calls f args byName fuel s o) :
    ∃ label, o = invoke (runWith (evalInstruction fuel)) (callValue fuel) label byName f args s := by
  cases calls with
  | @named name id parts _ s _ found given =>
    have looked : lookup name s = .value (.function id f) s := by simp only [lookup, found]
    refine ⟨name, ?_⟩
    simp only [evalLevel, evalWith, Bind.bind, Eval.bind, looked, given, invokeValue]
  | back => exact ⟨anonymous, by simp only [callValue, invokeValue]⟩
  | host fueled => exact ⟨anonymous, by simp only [call, fueled, callValue, invokeValue]⟩

theorem callStarts {names : List String} {code : List (Instruction H)} {args : List (Value H)} {byName : Bool}
    {fuel : Nat} {s : Evaluator H} {o : Outcome EvalError (Evaluator H) (Value H)}
    (calls : Calls (.user names code) args byName fuel s o) (given : args.length = names.length) :
    byName = true ∧ s.maxDepth ≤ s.depth ∧ o = .error (.callDepthExceeded s.maxDepth) s ∨
      ∃ start, Starts names args byName s start ∧
        o = (runWith (evalInstruction fuel) code start).leaving (returned byName) := by
  obtain ⟨label, rfl⟩ := callsInvoke calls
  have entered : invoke (runWith (evalInstruction fuel)) (callValue fuel) label byName (.user names code) args =
      runBody byName (Frame.bindAll names args []) (runWith (evalInstruction fuel) code) := by
    simp [invoke, Function.arity, Function.params, given]
  rw [entered, runBodyBegins]
  by_cases full : byName = true ∧ s.maxDepth ≤ s.depth
  · exact .inl ⟨full.1, full.2, if_pos full⟩
  · exact .inr ⟨begun names args byName s, begunStarts given byName s, if_neg full⟩

/-- A function literal has the texts of its parameter list as its parameters, in the order in which they are
written. However it is called with as many arguments, by name unless the depth is at its limit, its body starts
where each name that no later place repeats has the argument in its place. -/
theorem positionalBinding {r : Roles} {levels : Nat} {captured : Bool} {params block : Expr} {i : Instruction H}
    (compiled : Lower.lowerAt r (levels + 1) captured (.function params block) = .ok i) :
    ∃ names code, i = .function names code ∧ (∀ t, Token.texts (params.tokens t) = names) ∧
      Lower.block (Lower.lowerAt r levels) r block = .ok code ∧
      (∀ fuel s, evalInstruction (fuel + 1) i s =
        .value (.function s.nextId (.user names code)) { s with nextId := s.nextId + 1 }) ∧
      ∀ args byName fuel s o, Calls (.user names code) args byName fuel s o → args.length = names.length →
        byName = true ∧ s.maxDepth ≤ s.depth ∧ o = .error (.callDepthExceeded s.maxDepth) s ∨
          ∃ start, Starts names args byName s start ∧
            o = (runWith (evalInstruction fuel) code start).leaving (returned byName) := by
  obtain ⟨names, code, read, lowered, rfl⟩ := Lower.functionLowered compiled
  have made : ∀ fuel s, evalInstruction (fuel + 1) (.function names code) s =
      .value (.function s.nextId (.user names code)) { s with nextId := s.nextId + 1 } := fun _ _ => rfl
  exact ⟨names, code, rfl, Lower.parametersTexts read, lowered, made, fun _ _ _ _ _ => callStarts⟩

def secondOf (first second : String) : Expr :=
  let comma : Operator := ⟨12, "comma", ",", .infixOp, .right, none⟩
  let bracket : Operator := ⟨17, "fnargdef", "[", .opener, .nonAssoc, some 18⟩
  let brace : Operator := ⟨15, "fnbody", "\x7b", .opener, .nonAssoc, some 16⟩
  .function (.enclosed bracket [.binary comma (.ident first) (.ident second)])
    (.enclosed brace [.ident second])

def holding (f : Function Empty) : Evaluator Empty := ⟨[[("f", .function 0 f)]], 0, 9, 1⟩

theorem holdingCalls (f : Function Empty) (a b : Int64) :
    Calls f [.integer a, .integer b] true 1 (holding f)
      (evalInstruction 2 (.call "f" [.literal (.integer a), .literal (.integer b)]) (holding f)) :=
  .named rfl rfl

theorem secondParameterSecondArgument :
    ∃ (i : Instruction Empty) (f : Function Empty) (start : Evaluator Empty)
      (o : Outcome EvalError (Evaluator Empty) (Value Empty)),
      Lower.lowerAt (Sugar.standard.roles standardOperators) 2 false (secondOf "a" "b") = .ok i ∧
      f = .user ["a", "b"] [.lookup "b"] ∧ Calls f [.integer 9, .integer 2] true 1 (holding f) o ∧
      Starts ["a", "b"] [.integer 9, .integer 2] true (holding f) start ∧
      lookup "b" start = .value (.integer 2) start ∧
      o = (runWith (evalInstruction 1) [.lookup "b"] start).leaving (returned true) := by
  have compiled : Lower.lowerAt (Sugar.standard.roles standardOperators) 2 false (secondOf "a" "b") =
      .ok (.function ["a", "b"] [.lookup "b"] : Instruction Empty) := by rfl
  have calls := holdingCalls (.user ["a", "b"] [.lookup "b"]) 9 2
  obtain ⟨names, code, same, -, -, -, starts⟩ := positionalBinding compiled
  cases same
  obtain ⟨-, full, -⟩ | ⟨start, begins, ended⟩ := starts _ _ _ _ _ calls rfl
  · exact absurd full (by decide)
  · exact ⟨_, _, start, _, compiled, rfl, calls, begins, begins.bound 1 "b" _ rfl rfl (by simp), ended⟩

theorem repeatedParameterLast :
    (∃ (l : Language) (after : Evaluator Empty), Language.standard = .ok l ∧
      l.run "f = [x, x]\x7b x \x7d; f(1, 2)" = .value (.integer 2) after) ∧
    ∃ (f : Function Empty) (start : Evaluator Empty) (o : Outcome EvalError (Evaluator Empty) (Value Empty)),
      Lower.lowerAt (Sugar.standard.roles standardOperators) 2 false (secondOf "x" "x") =
        .ok (.function ["x", "x"] [.lookup "x"] : Instruction Empty) ∧
      f = .user ["x", "x"] [.lookup "x"] ∧ Calls f [.integer 1, .integer 2] true 1 (holding f) o ∧
      o = (runWith (evalInstruction 1) [.lookup "x"] start).leaving (returned true) ∧
      Starts ["x", "x"] [.integer 1, .integer 2] true (holding f) start ∧
      ¬ ∀ (k : Nat) (name : String) (v : Value Empty), ["x", "x"][k]? = some name →
        [Value.integer 1, .integer 2][k]? = some v → lookup name start = .value v start := by
  constructor
  · have run : standardTest (answersWith "f = [x, x]\x7b x \x7d; f(1, 2)" 2) = true := by decide +kernel
    obtain ⟨l, standard, tested⟩ := standardTested run
    obtain ⟨program, after, compiled, value⟩ := answersRun tested
    refine ⟨l, after, standard, ?_⟩
    simp only [Language.run, Language.runIn, compiled, value, Outcome.mapError]
  · have calls := holdingCalls (.user ["x", "x"] [.lookup "x"]) 1 2
    obtain ⟨-, full, -⟩ | ⟨start, begins, ended⟩ := callStarts calls rfl
    · exact absurd full (by decide)
    have second : lookup "x" start = .value (.integer 2) start := begins.bound 1 "x" _ rfl rfl (by simp)
    refine ⟨_, start, _, by rfl, rfl, calls, ended, begins, fun places => ?_⟩
    have first := places 0 "x" _ rfl rfl
    rw [second] at first
    simp at first

end Evaluator
end Parlance
