import Parlance.Proofs.Conditional.Meaning
import Parlance.Proofs.Evaluator.Isolation

/-! Where the names that arguments assign are bound. The arguments of a call by name are evaluated in the
frame of the caller, and new names stay bound there. A callee that is no plain name is first bound to a
name of its own, in a frame around the arguments; what they newly assign is gone with that frame. -/
namespace Parlance

variable {H α β : Type}

theorem Eval.bindValue {x : Eval H α} {f : α → Eval H β} {s after : Evaluator H} {b : β}
    (h : (x >>= f) s = .value b after) :
    ∃ a middle, x s = .value a middle ∧ f a middle = .value b after := by
  simp only [Bind.bind, Eval.bind] at h
  split at h
  · rename_i a middle found
    exact ⟨a, middle, found, h⟩
  · contradiction
  · contradiction

namespace Evaluator

def Binds (fs : List (Frame H)) (name : String) : Prop := ∃ f ∈ fs, f.binds name = true

theorem sameNamesBinds {fs gs : List (Frame H)} (same : SameNames fs gs) {name : String} :
    Binds gs name ↔ Binds fs name := by
  induction same with
  | nil => rfl
  | cons here _ ih => simpa [Binds, here name] using or_congr_right ih

theorem grownBinds {fs gs : List (Frame H)} (grown : Grown fs gs) {name : String}
    (bound : Binds fs name) : Binds gs name := by
  match fs, gs with
  | f :: fs, g :: gs =>
    obtain ⟨inside, member, binds⟩ := bound
    rcases List.mem_cons.mp member with rfl | member
    · exact ⟨g, List.mem_cons_self, grown.1 name binds⟩
    · obtain ⟨h, member', binds'⟩ := (sameNamesBinds grown.2).mpr ⟨inside, member, binds⟩
      exact ⟨h, List.mem_cons_of_mem _ member', binds'⟩

theorem grownInnermost {fs gs : List (Frame H)} (grown : Grown fs gs) {name : String}
    (unbound : ¬ Binds fs name) (bound : Binds gs name) :
    ∃ g, gs.head? = some g ∧ g.binds name = true := by
  match fs, gs with
  | f :: fs, g :: gs =>
    obtain ⟨inside, member, binds⟩ := bound
    rcases List.mem_cons.mp member with rfl | member
    · exact ⟨inside, rfl, binds⟩
    · obtain ⟨h, member', binds'⟩ := (sameNamesBinds grown.2).mp ⟨inside, member, binds⟩
      exact absurd ⟨h, List.mem_cons_of_mem _ member', binds'⟩ unbound

theorem rebindBinds {name : String} {v : Value H} {fs gs : List (Frame H)}
    (h : rebind name v fs = some gs) : Binds gs name := by
  induction fs generalizing gs with
  | nil => simp [rebind] at h
  | cons f fs ih =>
    simp only [rebind] at h
    split at h
    · cases h
      exact ⟨_, List.mem_cons_self, by simp [Frame.bindsBind]⟩
    · obtain ⟨hs, found, rfl⟩ := Option.map_eq_some_iff.mp h
      obtain ⟨g, member, binds⟩ := ih found
      exact ⟨g, List.mem_cons_of_mem _ member, binds⟩

theorem assignBinds {name : String} {v w : Value H} {s after : Evaluator H}
    (h : assign name v s = .value w after) : Binds after.frames name := by
  cases h
  dsimp only
  cases found : rebind name v s.frames with
  | some gs => exact rebindBinds found
  | none =>
    cases s.frames with
    | nil => exact ⟨_, List.mem_cons_self, by simp [Frame.binds]⟩
    | cons f fs => exact ⟨_, List.mem_cons_self, by simp [Frame.bindsBind]⟩

theorem tailUnbound {fs gs : List (Frame H)} (grown : Grown fs gs) {name : String} (unbound : ¬ Binds fs name) :
    ¬ Binds gs.tail name := by
  match fs, gs with
  | f :: fs, g :: gs =>
    intro bound
    obtain ⟨h, member, binds⟩ := (sameNamesBinds grown.2).mp bound
    exact unbound ⟨h, List.mem_cons_of_mem _ member, binds⟩

def BoundHere (s : Evaluator H) (name : String) (v : Value H) : Prop :=
  ∃ f, s.frames.head? = some f ∧ f.lookup name = some v

theorem assignHere {name : String} {v w : Value H} {s after : Evaluator H} (apart : ¬ Binds s.frames.tail name)
    (h : assign name v s = .value w after) : BoundHere after name w := by
  cases h
  unfold BoundHere
  dsimp only
  generalize s.frames = fs at apart
  cases fs with
  | nil => exact ⟨_, rfl, by simp⟩
  | cons f fs =>
    have bound : (f.bind name v).lookup name = some v := by rw [Frame.lookupBind, if_pos rfl]
    simp only [rebind]
    split
    · exact ⟨_, rfl, bound⟩
    · cases found : rebind name v fs with
      | none => exact ⟨_, rfl, bound⟩
      | some gs => exact absurd ((sameNamesBinds (rebindSame found)).mp (rebindBinds found)) apart

theorem assignApart {name other : String} (apart : name ≠ other) {v w u : Value H} {s after : Evaluator H}
    (h : assign other w s = .value u after) (here : BoundHere s name v) : BoundHere after name v := by
  cases h
  unfold BoundHere at here ⊢
  dsimp only
  generalize s.frames = fs at here
  obtain ⟨f, first, found⟩ := here
  cases fs with
  | nil => contradiction
  | cons g fs =>
    cases first
    have kept : (f.bind other w).lookup name = some v := by rw [Frame.lookupBind, if_neg apart, found]
    simp only [rebind]
    split
    · exact ⟨_, rfl, kept⟩
    · cases rebind other w fs with
      | none => exact ⟨_, rfl, kept⟩
      | some gs => exact ⟨_, rfl, found⟩

theorem answeringFind {name : String} {fs gs : List (Frame H)} (answering : Answering (· = name) fs gs) :
    find? name gs = find? name fs := by
  induction answering with
  | nil => rfl
  | cons here _ ih => simp only [find?, here name rfl, ih]

theorem findApart {name other : String} (apart : name ≠ other) {v u : Value H} {s after : Evaluator H}
    (h : assign other v s = .value u after) : find? name after.frames = find? name s.frames := by
  cases h
  dsimp only
  cases found : rebind other v s.frames with
  | some gs => exact answeringFind (rebindOther apart.symm found)
  | none =>
    cases s.frames with
    | nil => simp [bindInnermost, find?, Frame.lookupEntries, apart]
    | cons f fs => simp only [Option.getD_none, bindInnermost, find?, Frame.lookupBind, if_neg apart]

def QuietName (s : Evaluator H) (name : String) : Prop :=
  ∃ id n, find? name s.frames = some (.function id (.native n)) ∧ n.Quiet

/-- Leaves a name as it is: it is not assigned, and where something is called it is a native that looks at nothing
but its arguments. -/
inductive Leaves (quiet : String → Prop) (name : String) : Instruction H → Prop where
  | literal (value) : Leaves quiet name (.literal value)
  | lookup (other) : Leaves quiet name (.lookup other)
  | assign {other value} (apart : name ≠ other) (loud : ¬ quiet other) (leaves : Leaves quiet name value) :
      Leaves quiet name (.assign other value)
  | function (params body) : Leaves quiet name (.function params body)
  | call {callee args} (named : quiet callee) (leaves : ∀ i ∈ args, Leaves quiet name i) :
      Leaves quiet name (.call callee args)
  | native {n args} (quietly : n.Quiet) (leaves : ∀ i ∈ args, Leaves quiet name i) :
      Leaves quiet name (.callNative n args)

structure Left (quiet : String → Prop) (name : String) (v : Value H) (s : Evaluator H) : Prop where
  here : BoundHere s name v
  natives : ∀ other, quiet other → s.QuietName other

theorem leftAssigned {quiet : String → Prop} {name other : String} (apart : name ≠ other) (loud : ¬ quiet other)
    {v w u : Value H} {s after : Evaluator H} (h : assign other w s = .value u after)
    (left : Left quiet name v s) : Left quiet name v after where
  here := assignApart apart h left.here
  natives := by
    intro native named
    obtain ⟨id, n, found, quietly⟩ := left.natives native named
    have same : native ≠ other := fun same => loud (same ▸ named)
    exact ⟨id, n, (findApart same h).trans found, quietly⟩

section Arguments

variable {step : Instruction H → Eval H (Value H)} {s after : Evaluator H}

theorem evalEachSplit {before rest : List (Instruction H)} {vs : List (Value H)}
    (run : evalEach step (before ++ rest) s = .value vs after) :
    ∃ us ws middle, evalEach step before s = .value us middle ∧ evalEach step rest middle = .value ws after ∧
      vs = us ++ ws ∧ us.length = before.length := by
  induction before generalizing s vs with
  | nil => exact ⟨[], vs, s, rfl, run, rfl, rfl⟩
  | cons i before ih =>
    obtain ⟨v, next, first, run⟩ := Eval.bindValue run
    obtain ⟨ts, last, later, run⟩ := Eval.bindValue run
    cases run
    obtain ⟨us, ws, middle, left, right, rfl, sizes⟩ := ih later
    refine ⟨v :: us, ws, middle, ?_, right, rfl, congrArg (· + 1) sizes⟩
    simp only [evalEach, Bind.bind, Eval.bind, first, left]
    rfl

theorem evalEachKeeps {K : Evaluator H → Prop} {args : List (Instruction H)}
    (each : ∀ i ∈ args, ∀ s v after, step i s = .value v after → K s → K after) {vs : List (Value H)}
    (run : evalEach step args s = .value vs after) (start : K s) : K after := by
  induction args generalizing s vs with
  | nil =>
    cases run
    exact start
  | cons i args ih =>
    obtain ⟨w, next, first, run⟩ := Eval.bindValue run
    obtain ⟨ws, last, later, run⟩ := Eval.bindValue run
    cases run
    obtain ⟨head, tail⟩ := List.forall_mem_cons.mp each
    exact ih tail later (head s w next first start)

end Arguments

variable [Host H]

theorem quietInvoke {run : List (Instruction H) → Eval H (Value H)}
    {callBack : Value H → List (Value H) → Eval H (Value H)} {label : String} {byName : Bool} {n : Native H}
    (quiet : n.Quiet) {args : List (Value H)} {s after : Evaluator H} {v : Value H}
    (h : invoke run callBack label byName (.native n) args s = .value v after) : after = s := by
  obtain ⟨r, -, same⟩ := Alike.quietResult quiet args
  simp only [invoke, same, Alike.inFrameExcept] at h
  split at h
  · contradiction
  · cases r <;> cases h
    rfl

theorem leavesLeft {quiet : String → Prop} {name : String} {i : Instruction H} (leaves : Leaves quiet name i)
    {fuel : Nat} {s after : Evaluator H} {v w : Value H} (run : evalInstruction fuel i s = .value w after)
    (left : Left quiet name v s) : Left quiet name v after := by
  induction leaves generalizing fuel s after w with
  | literal value =>
    cases fuel <;> cases run
    exact left
  | function params body =>
    cases fuel <;> cases run
    exact ⟨left.here, left.natives⟩
  | lookup other =>
    cases fuel with
    | zero => contradiction
    | succ fuel =>
      simp only [evalInstruction, Evaluator.lookup] at run
      split at run <;> cases run
      exact left
  | @assign other value apart loud leaves ih =>
    cases fuel with
    | zero => contradiction
    | succ fuel =>
      obtain ⟨u, middle, first, last⟩ := Eval.bindValue run
      exact leftAssigned apart loud last (ih first left)
  | @call callee args named leaves ih =>
    cases fuel with
    | zero => contradiction
    | succ fuel =>
      obtain ⟨f, found, look, run⟩ := Eval.bindValue run
      obtain ⟨vs, middle, evaluated, called⟩ := Eval.bindValue run
      obtain ⟨id, n, bound, quietly⟩ := left.natives callee named
      simp only [Evaluator.lookup, bound] at look
      cases look
      simp only [invokeValue] at called
      cases quietInvoke quietly called
      exact evalEachKeeps (fun i member s v after run start => ih i member run start) evaluated left
  | @native n args quietly leaves ih =>
    cases fuel with
    | zero => contradiction
    | succ fuel =>
      obtain ⟨vs, middle, evaluated, called⟩ := Eval.bindValue run
      cases quietInvoke quietly called
      exact evalEachKeeps (fun i member s v after run start => ih i member run start) evaluated left

theorem evaluated {fuel : Nat} {i : Instruction H} {s after : Evaluator H} {v : Value H}
    (framed : s.frames ≠ []) (within : s.depth ≤ s.maxDepth)
    (run : evalInstruction fuel i s = .value v after) : Balanced Grown s after := by
  have ends := ((Kept.evaluation .divisionByZero fuel).1 i s (balancedSelf framed within)).2
  rw [run] at ends
  exact ends.2

theorem assignedBinds {fuel : Nat} {name : String} {value : Instruction H} {s after : Evaluator H}
    {v : Value H} (run : evalInstruction fuel (.assign name value) s = .value v after) :
    Binds after.frames name := by
  cases fuel with
  | zero => contradiction
  | succ fuel =>
    obtain ⟨w, middle, -, last⟩ := Eval.bindValue run
    exact assignBinds last

theorem argumentsBind {fuel : Nat} {args : List (Instruction H)} {s after : Evaluator H}
    {vs : List (Value H)} (framed : s.frames ≠ []) (within : s.depth ≤ s.maxDepth)
    (run : evalEach (evalInstruction fuel) args s = .value vs after) :
    Balanced Grown s after ∧
      ∀ name value, .assign name value ∈ args → Binds after.frames name := by
  induction args generalizing s vs with
  | nil =>
    cases run
    exact ⟨balancedSelf framed within, by simp⟩
  | cons i args ih =>
    obtain ⟨v, middle, first, run⟩ := Eval.bindValue run
    obtain ⟨ws, last, later, run⟩ := Eval.bindValue run
    cases run
    have here := evaluated framed within first
    have onward := balancedComposes.onward here
    obtain ⟨rest, bound⟩ := ih onward.framed onward.within later
    refine ⟨balancedComposes.trans here rest, fun name value member => ?_⟩
    rcases List.mem_cons.mp member with rfl | member
    · exact grownBinds rest.frames (assignedBinds first)
    · exact bound name value member

theorem calledNames {fuel : Nat} {label : String} {byName : Bool} {callee : Value H}
    {args : List (Value H)} {s after : Evaluator H} {v : Value H} (start : Balanced Grown s s)
    (run : invokeValue (runWith (evalInstruction fuel)) (callValue fuel) label byName callee args s =
      .value v after) : SameNames s.frames after.frames := by
  obtain ⟨steps, calls⟩ := Kept.evaluation (H := H) .divisionByZero fuel
  have kept := Kept.invokeValue (fun callee args => (calls callee args).grown) (Kept.body steps) label
    byName callee args
  have ends := (kept s (balancedSame start)).2
  rw [run] at ends
  exact ends.2.frames

/-- Of a new name: the argument that assigns it binds it in the innermost frame, to the value that it passes on,
and it has that value when all arguments are evaluated unless one after it changes it. -/
def NewNamesHeld (fuel : Nat) (args : List (Instruction H)) (s : Evaluator H) (vs : List (Value H))
    (entry : Evaluator H) : Prop :=
  ∀ before x value rest, args = before ++ .assign x value :: rest → ¬ Binds s.frames x →
    ∃ us w ws bound, vs = us ++ w :: ws ∧ us.length = before.length ∧ BoundHere bound x w ∧
      evalEach (evalInstruction fuel) rest bound = .value ws entry ∧
      ((∀ i ∈ rest, Leaves bound.QuietName x i) → BoundHere entry x w)

theorem argumentsHold {fuel : Nat} {args : List (Instruction H)} {s entry : Evaluator H} {vs : List (Value H)}
    (framed : s.frames ≠ []) (within : s.depth ≤ s.maxDepth)
    (run : evalEach (evalInstruction fuel) args s = .value vs entry) : NewNamesHeld fuel args s vs entry := by
  rintro before x value rest rfl unbound
  obtain ⟨us, ts, middle, first, last, rfl, sizes⟩ := evalEachSplit run
  have grown := (argumentsBind framed within first).1
  obtain ⟨w, bound, assigned, last⟩ := Eval.bindValue last
  obtain ⟨ws, reached, later, last⟩ := Eval.bindValue last
  cases last
  have onward := balancedComposes.onward grown
  have here : BoundHere bound x w := by
    cases fuel with
    | zero => contradiction
    | succ fuel =>
      obtain ⟨u, valued, inner, last⟩ := Eval.bindValue assigned
      have inside := evaluated onward.framed onward.within inner
      exact assignHere (tailUnbound (grownTrans grown.frames inside.frames) unbound) last
  refine ⟨us, w, ws, bound, rfl, sizes, here, later, fun leaves => ?_⟩
  have left : Left bound.QuietName x w bound := ⟨here, fun _ named => named⟩
  exact (evalEachKeeps (fun i member s v after run left => leavesLeft (leaves i member) run left) later left).here

theorem namedCallEnters {fuel : Nat} {callee : String} {args : List (Instruction H)}
    {s after : Evaluator H} {v : Value H}
    (run : evalInstruction fuel (.call callee args) s = .value v after) :
    ∃ less f vs entry, find? callee s.frames = some f ∧
      evalEach (evalInstruction less) args s = .value vs entry ∧
      invokeValue (runWith (evalInstruction less)) (callValue less) callee true f vs entry = .value v after := by
  cases fuel with
  | zero => contradiction
  | succ less =>
    obtain ⟨f, found, look, run⟩ := Eval.bindValue run
    obtain ⟨vs, entry, evaluated, called⟩ := Eval.bindValue run
    unfold lookup at look
    split at look <;> cases look
    rename_i bound
    exact ⟨less, f, vs, entry, bound, evaluated, called⟩

theorem computedCallNames {fuel : Nat} {callee body : Instruction H} {s after : Evaluator H}
    {v : Value H} (framed : s.frames ≠ []) (within : s.depth ≤ s.maxDepth)
    (run : evalInstruction fuel (.callFunction [Lower.calleeName] [body] [callee]) s = .value v after) :
    ∃ less f middle, evalInstruction less callee s = .value f middle ∧
      SameNames middle.frames after.frames := by
  cases fuel with
  | zero => contradiction
  | succ less =>
    rw [← Conditional.evalAsNone, Conditional.computedRun, Conditional.evalAsNone] at run
    obtain ⟨f, middle, first, run⟩ := Eval.bindValue run
    have start := balancedComposes.onward (evaluated framed within first)
    have steps := (Kept.evaluation (H := H) .divisionByZero less).1
    have kept := Kept.inFrame [(Lower.calleeName, f)] (Kept.body steps [body])
    have ends := (kept middle (balancedSame start)).2
    rw [run] at ends
    exact ⟨less, f, middle, first, ends.2.frames⟩

/-- A call of a name evaluates its arguments in the frame of the caller, and what they newly assign is bound there
when the callee is entered, to what was assigned, and still when it has returned. Any other call leaves the names
that were bound when its callee had been evaluated: what its arguments newly assign is bound nowhere. -/
theorem callNames {r : Roles} {levels : Nat} {captured : Bool} {callee args : Expr}
    {i : Instruction H}
    (compiled : Lower.lowerAt r (levels + 1) captured (.call callee args) = .ok i) {fuel : Nat}
    {s after : Evaluator H} {v : Value H} (framed : s.frames ≠ []) (within : s.depth ≤ s.maxDepth)
    (run : evalInstruction fuel i s = .value v after) :
    ∃ parts : List (Instruction H),
      Lower.arguments (Lower.lowerAt r levels) r captured args = .ok parts ∧
      ((∃ name, callee = .ident name ∧ Lower.isName name = true ∧
          (∃ less f vs entry, find? name s.frames = some f ∧
            evalEach (evalInstruction less) parts s = .value vs entry ∧
            invokeValue (runWith (evalInstruction less)) (callValue less) name true f vs entry =
              .value v after ∧
            NewNamesHeld less parts s vs entry) ∧
          ∀ x value, Instruction.assign x value ∈ parts → ¬ Binds s.frames x →
            ∃ f, after.frames.head? = some f ∧ f.binds x = true) ∨
        (∀ name, callee = .ident name → Lower.isName name = false) ∧
          ∃ first less f middle, Lower.lowerAt r levels captured callee = .ok first ∧
            evalInstruction less first s = .value f middle ∧
            ∀ x, Binds after.frames x ↔ Binds middle.frames x) := by
  obtain ⟨parts, lowered, last⟩ := bindOk compiled
  refine ⟨parts, lowered, ?_⟩
  have computed : Lower.computedCall (Lower.lowerAt r levels) captured callee parts = .ok i →
      ∃ first less f middle, Lower.lowerAt r levels captured callee = .ok first ∧
        evalInstruction less first s = .value f middle ∧
        ∀ x, Binds after.frames x ↔ Binds middle.frames x := by
    intro wrapped
    obtain ⟨first, made, last⟩ := bindOk wrapped
    cases last
    obtain ⟨less, f, middle, evaluated, same⟩ := computedCallNames framed within run
    exact ⟨first, less, f, middle, made, evaluated, fun x => sameNamesBinds same⟩
  split at last
  · rename_i name
    split at last
    · rename_i named
      cases last
      obtain ⟨less, f, vs, entry, found, evaluated, called⟩ := namedCallEnters run
      have kept := (argumentsBind framed within evaluated).1
      have same := calledNames (balancedComposes.onward kept) called
      have held := argumentsHold framed within evaluated
      refine .inl ⟨name, rfl, named, ⟨less, f, vs, entry, found, evaluated, called, held⟩,
        fun x value member unbound => ?_⟩
      have bound := (argumentsBind framed within evaluated).2 x value member
      have grown := sameNamesGrown (grownFramed kept.frames) same
      exact grownInnermost (grownTrans kept.frames grown) unbound (grownBinds grown bound)
    · rename_i named
      exact .inr ⟨fun other same => by cases same; simpa using named, computed last⟩
  · rename_i other
    exact .inr ⟨fun name same => absurd same (other name), computed last⟩

theorem newNameStaysBound :
    ∃ (r : Roles) (args : Expr) (i : Instruction Empty) (parts : List (Instruction Empty)) (less : Nat)
      (s entry after : Evaluator Empty) (f : Frame Empty),
      Lower.lowerAt r 3 false (.call (.ident "add") args) = .ok i ∧
      Lower.arguments (Lower.lowerAt r 2) r false args = .ok parts ∧ ¬ Binds s.frames "x" ∧
      evalEach (evalInstruction less) parts s = .value [.integer 1, .integer 2] entry ∧
      BoundHere entry "x" (.integer 1) ∧ evalInstruction 3 i s = .value (.integer 3) after ∧
      after.frames.head? = some f ∧ f.binds "x" = true := by
  let assign : Operator := ⟨5, "ass", "=", .infixOp, .right, none⟩
  let comma : Operator := ⟨12, "comma", ",", .infixOp, .right, none⟩
  let paren : Operator := ⟨13, "lparen", "(", .opener, .left, some 14⟩
  let r : Roles := ⟨some assign, some comma, some paren, none, none⟩
  let args : Expr := .enclosed paren [.binary comma (.binary assign (.ident "x") (.ident "1")) (.ident "2")]
  let parts : List (Instruction Empty) := [.assign "x" (.literal (.integer 1)), .literal (.integer 2)]
  let s : Evaluator Empty := ⟨[[("add", .function 0 (.native (.arithmetic .add)))]], 0, 1, 1⟩
  have arguments : Lower.arguments (Lower.lowerAt r 2) r false args = .ok parts := by rfl
  have compiled : Lower.lowerAt r 3 false (.call (.ident "add") args) =
      .ok (Instruction.call "add" parts) := by rfl
  have fresh : ¬ Binds s.frames "x" := by simp [s, Binds, Frame.binds]
  have run : ∃ after, evalInstruction 3 (.call "add" parts) s = .value (.integer 3) after := ⟨_, rfl⟩
  obtain ⟨after, run⟩ := run
  obtain ⟨parts, lowered, named' | ⟨unnamed, -⟩⟩ := callNames compiled (by simp [s]) (by simp [s]) run
  · obtain ⟨name, -, -, ⟨less, -, vs, entry, -, evaluated, -, held⟩, stays⟩ := named'
    cases arguments.symm.trans lowered
    obtain ⟨f, here, bound⟩ := stays "x" _ List.mem_cons_self fresh
    obtain ⟨us, w, ws, first, rfl, none, -, -, last⟩ := held [] "x" _ [.literal (.integer 2)] rfl fresh
    cases List.eq_nil_of_length_eq_zero none
    have entered := last fun i member => List.mem_singleton.mp member ▸ .literal _
    have computed : w :: ws = [.integer 1, .integer 2] := by
      cases less with
      | zero => contradiction
      | succ less =>
        cases less <;> cases evaluated
        rfl
    cases computed
    exact ⟨r, args, _, _, less, s, entry, after, f, compiled, arguments, fresh, evaluated, entered, run, here, bound⟩
  · exact absurd (unnamed "add" rfl) (by decide)

def boundBy (source name : String) : Option (Option Int64) :=
  match Language.standard with
  | .error _ => none
  | .ok l =>
    match l.compile source with
    | .error _ => none
    | .ok program => some (Conditional.boundAfter name (eval program standard))

theorem computedCalleeHidesNewName :
    boundBy "t = [y]\x7b y \x7d; t(x = 1)" "x" = some (some 1) ∧
      boundBy "[y]\x7b y \x7d(x = 1)" "x" = some none := by
  constructor <;> decide +kernel

end Evaluator
end Parlance
