import Parlance.Evaluator.StandardLibrary

/-! Where the entries of frames come from. Binding a name brings in the one entry it binds and keeps others,
and what is found is an entry of some frame. -/
namespace Parlance

variable {H : Type}

namespace Frame

theorem bindEntry {name : String} {v : Value H} {f : Frame H} {entry : String × Value H}
    (h : entry ∈ f.bind name v) : entry = (name, v) ∨ entry ∈ f := by
  induction f with
  | nil => exact .inl (List.mem_singleton.mp h)
  | cons other f ih =>
    simp only [bind] at h
    split at h
    · rcases List.mem_cons.mp h with here | member
      · exact .inl here
      · exact .inr (List.mem_cons_of_mem _ member)
    · rcases List.mem_cons.mp h with rfl | member
      · exact .inr List.mem_cons_self
      · exact (ih member).imp_right (List.mem_cons_of_mem _)

theorem bindAllEntry {names : List String} {vs : List (Value H)} {f : Frame H}
    {entry : String × Value H} (h : entry ∈ f.bindAll names vs) :
    (entry.1 ∈ names ∧ entry.2 ∈ vs) ∨ entry ∈ f := by
  induction names generalizing vs f with
  | nil => exact .inr (by simpa only [bindAll] using h)
  | cons name names ih =>
    cases vs with
    | nil => exact .inr (by simpa only [bindAll] using h)
    | cons v vs =>
      rcases ih h with later | member
      · exact .inl ⟨List.mem_cons_of_mem _ later.1, List.mem_cons_of_mem _ later.2⟩
      · rcases bindEntry member with rfl | member
        · exact .inl ⟨List.mem_cons_self, List.mem_cons_self⟩
        · exact .inr member

theorem lookupEntry {f : Frame H} {name : String} {v : Value H} (found : f.lookup name = some v) :
    (name, v) ∈ f := by
  obtain ⟨before, after, rfl, -⟩ := List.lookup_eq_some_iff.mp found
  simp

end Frame

namespace Evaluator

def Bound (fs : List (Frame H)) (entry : String × Value H) : Prop := ∃ f ∈ fs, entry ∈ f

theorem findEntry {name : String} {v : Value H} {fs : List (Frame H)}
    (found : find? name fs = some v) : Bound fs (name, v) := by
  induction fs with
  | nil => simp [find?] at found
  | cons f fs ih =>
    simp only [find?] at found
    split at found
    · rename_i w here
      cases found
      exact ⟨f, List.mem_cons_self, Frame.lookupEntry here⟩
    · obtain ⟨g, member, inside⟩ := ih found
      exact ⟨g, List.mem_cons_of_mem _ member, inside⟩

theorem boundCons {f : Frame H} {fs : List (Frame H)} {entry : String × Value H} :
    Bound (f :: fs) entry ↔ entry ∈ f ∨ Bound fs entry := by
  simp [Bound]

theorem rebindEntry {name : String} {v : Value H} {fs gs : List (Frame H)}
    (h : rebind name v fs = some gs) {entry : String × Value H} (bound : Bound gs entry) :
    entry = (name, v) ∨ Bound fs entry := by
  induction fs generalizing gs with
  | nil => simp [rebind] at h
  | cons f fs ih =>
    simp only [rebind] at h
    split at h
    · cases h
      rcases boundCons.mp bound with here | later
      · exact (Frame.bindEntry here).imp_right fun member => boundCons.mpr (.inl member)
      · exact .inr (boundCons.mpr (.inr later))
    · obtain ⟨hs, found, rfl⟩ := Option.map_eq_some_iff.mp h
      rcases boundCons.mp bound with here | later
      · exact .inr (boundCons.mpr (.inl here))
      · exact (ih found later).imp_right fun member => boundCons.mpr (.inr member)

theorem rebindLength {name : String} {v : Value H} {fs gs : List (Frame H)}
    (h : rebind name v fs = some gs) : gs.length = fs.length := by
  induction fs generalizing gs with
  | nil => simp [rebind] at h
  | cons f fs ih =>
    simp only [rebind] at h
    split at h
    · cases h
      simp
    · obtain ⟨hs, found, rfl⟩ := Option.map_eq_some_iff.mp h
      simp [ih found]

theorem bindInnermostEntry {name : String} {v : Value H} {fs : List (Frame H)}
    {entry : String × Value H} (bound : Bound (bindInnermost name v fs) entry) :
    entry = (name, v) ∨ Bound fs entry := by
  cases fs with
  | nil => simpa [bindInnermost, Bound] using bound
  | cons f fs =>
    rcases boundCons.mp bound with here | later
    · exact (Frame.bindEntry here).imp_right fun member => boundCons.mpr (.inl member)
    · exact .inr (boundCons.mpr (.inr later))

theorem assignEntry {name : String} {v : Value H} {fs : List (Frame H)} {entry : String × Value H}
    (bound : Bound ((rebind name v fs).getD (bindInnermost name v fs)) entry) :
    entry = (name, v) ∨ Bound fs entry := by
  cases found : rebind name v fs with
  | none =>
    rw [found] at bound
    exact bindInnermostEntry bound
  | some gs =>
    rw [found] at bound
    exact rebindEntry found bound

theorem defineAllEntry (entries : List (String × Native H)) (s : Evaluator H) :
    ∃ after : Evaluator H, defineAll entries s = .value () after ∧
      (s.frames ≠ [] → after.frames ≠ []) ∧
      ∀ entry, Bound after.frames entry → Bound s.frames entry ∨
        ∃ n id, (entry.1, n) ∈ entries ∧ entry.2 = .function id (.native n) := by
  induction entries generalizing s with
  | nil => exact ⟨s, rfl, id, fun entry bound => .inl bound⟩
  | cons first entries ih =>
    obtain ⟨name, n⟩ := first
    let v : Value H := .function s.nextId (.native n)
    obtain ⟨after, run, framed, source⟩ :=
      ih ⟨bindInnermost name v s.frames, s.depth, s.maxDepth, s.nextId + 1⟩
    refine ⟨after, run, fun _ => framed (by cases s.frames <;> simp [bindInnermost]), ?_⟩
    intro entry bound
    rcases source entry bound with here | ⟨m, id, member, same⟩
    · rcases bindInnermostEntry here with rfl | earlier
      · exact .inr ⟨n, s.nextId, List.mem_cons_self, rfl⟩
      · exact .inl earlier
    · exact .inr ⟨m, id, List.mem_cons_of_mem _ member, same⟩

theorem standardEntry : (standard : Evaluator H).frames ≠ [] ∧
    ∀ entry, Bound (standard : Evaluator H).frames entry →
      ∃ n id, (entry.1, n) ∈ standardLibrary ∧ entry.2 = .function id (.native n) := by
  obtain ⟨after, run, framed, source⟩ := defineAllEntry standardLibrary empty
  have same : (standard : Evaluator H) = after := by
    unfold standard install
    rw [run]
  rw [same]
  refine ⟨framed (by simp [empty, withFrames]), fun entry bound => ?_⟩
  refine (source entry bound).resolve_left ?_
  simp [empty, withFrames, Bound]

end Evaluator
end Parlance
