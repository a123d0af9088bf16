import Dbvm.TreeWatch.Names

/-!
# What the watcher has in view

The invariants of a watcher. `Orderly` is about watches, descriptors and the queue, and holds
always. What a directory needs is a watch that knows its path (`Watched`), or that something on the
way to it will be walked (`Found`): `Covered`. A change that has been seen is recorded, queued for a
directory whose watch knows its path, or below what will be walked (`Told`); one of an entry that
has been known may also be queued for a directory that has gone meanwhile (`ToldOld`). All of this
is given up where the watcher will say that everything may have changed, or a walk has followed a
link (`Doomed`).
-/

namespace Dbvm.Watcher

open Lib Lib.NameTree

variable {s s' : Sys} {t t' : DirTree Str} {p q d r : List Str} {x y : Str} {i j wd : ℕ} {e : Event}
  {es b : List Event}

/-! ## What is in view -/

/-- An event is queued, and the watch is not over before it. -/
def Live (es : List Event) (wd : ℕ) (e : Event) : Prop := ∃ a b, es = a ++ e :: b ∧ .ignored wd ∉ a

/-- There is a directory at a path, and a watch on it that knows the path. -/
def Watched (s : Sys) (p : List Str) (wd : ℕ) : Prop :=
  ∃ i, s.tree.IsDir p i ∧ s.kernel.active.get? wd = some i ∧ s.w.dirs.get? wd = some (pathOf p)

/-- A walk comes to what is at a path. -/
inductive ComesTo (t : DirTree Str) : Walk → List Str → Prop
  /-- It begins there. -/
  | start {m : Bool} {q : List Str} {st : List Frame} : ComesTo t ⟨m, .start q, st⟩ q
  /-- It is there. -/
  | opening {m : Bool} {q : List Str} {st : List Frame} : ComesTo t ⟨m, .opening q, st⟩ q
  /-- It has opened the directory there. -/
  | visit {m : Bool} {q : List Str} {st : List Frame} {i : ℕ} : t.IsDir q i →
      ComesTo t ⟨m, .visit q (some i), st⟩ q
  /-- It reads the directory and finds the entry. -/
  | entry {m : Bool} {sg : Stage} {st : List Frame} {f : Frame} {i : ℕ} {x : Str}
      {e : NameTree.Entry} : f ∈ st → f.handle = some i →
      t.IsDir f.path i → t.entry (f.path ++ [x]) = some e → e.since ≤ f.opened → x ∉ f.yielded →
      ComesTo t ⟨m, sg, st⟩ (f.path ++ [x])

/-- A directory has not been opened. -/
def Walk.Fails (wk : Walk) : Prop := (∃ q, wk.stage = .visit q none) ∨ ∃ f ∈ wk.stack,
  f.handle = none

/-- What is at a path will be walked: a directory has appeared there, or a walk comes to it. -/
inductive Found (s : Sys) : List Str → Prop
  /-- The event is queued. -/
  | event {d : List Str} {x : Str} {wd : ℕ} {what : What} : Watched s d wd →
      .entry wd what true x ∈ s.kernel.queue →
      what = .created ∨ what = .movedTo → Found s (d ++ [x])
  /-- A walk has begun. -/
  | walk {wk : Walk} {q : List Str} : s.walk = some wk → ComesTo s.tree wk q → Found s q

/-- Something on the way to a path will be walked. -/
def Due (s : Sys) (p : List Str) : Prop := ∃ q, q <+: p ∧ Found s q

/-- A directory is watched or will be. -/
def Covered (s : Sys) (p : List Str) : Prop := (∃ wd, Watched s p wd) ∨ Due s p

/-- A change at a path is in the change set or will be. -/
def Told (s : Sys) (p : List Str) : Prop := pathOf p ∈ s.w.paths ∨
  (∃ d x wd what isDir, p = d ++ [x] ∧ Watched s d wd ∧ .entry wd what isDir x ∈ s.kernel.queue) ∨
  Due s p

/-- The directory of a watch has not moved and does not. -/
def Fast (s : Sys) (d : List Str) (wd : ℕ) : Prop := ∀ i, s.kernel.active.get? wd = some i →
  (s.tree.IsDir d i ∧ s.tree.Held s.known.since d) ∨ ∀ q, ¬ s.tree.IsDir q i

/-- The same for a change at a path that has been known. -/
def ToldOld (s : Sys) (p : List Str) : Prop := pathOf p ∈ s.w.paths ∨ ∃ d x wd what isDir,
  p = d ++ [x] ∧
  Live s.kernel.queue wd (.entry wd what isDir x) ∧ s.w.dirs.get? wd = some (pathOf d) ∧ Fast s d wd

/-- Nothing is promised: the watcher will say that everything may have changed, or a walk has
followed a link. -/
def Doomed (s : Sys) : Prop := s.w.full = true ∨ .overflow ∈ s.kernel.queue ∨
  (∃ wd v, s.w.dirs.get? wd = some v ∧ Live s.kernel.queue wd (.moveSelf wd)) ∨
  (∃ wk, s.walk = some wk ∧ wk.Fails) ∨ s.followed = true

/-- An entry has been known, with names from before that. -/
def Known.Has (k : Known) (p : List Str) : Prop := ∀ q, q <+: p → ∃ e, k.entry q = some e ∧
  e.since ≤ k.since

/-! ## Watches, descriptors and events -/

/-- What always holds. -/
structure Orderly (s : Sys) : Prop where
  /-- The tree is one. -/
  grown : s.tree.Grown
  /-- The watcher knows its watches. -/
  listed : ∀ wd i, s.kernel.active.get? wd = some i → ∃ v, s.w.dirs.get? wd = some v
  /-- A watch is not over. -/
  goes : ∀ wd i, s.kernel.active.get? wd = some i → .ignored wd ∉ s.kernel.queue
  /-- A directory has one watch. -/
  one : ∀ wd wd' i, s.kernel.active.get? wd = some i → s.kernel.active.get? wd' = some i → wd = wd'
  /-- Watched directories have numbers. -/
  ids : ∀ wd i, s.kernel.active.get? wd = some i → i < s.tree.next
  /-- Known descriptors have been given. -/
  dirs : ∀ wd v, s.w.dirs.get? wd = some v → wd < s.kernel.nextWd
  /-- So have those of events. -/
  events : ∀ e wd, e ∈ s.kernel.queue → e.wd? = some wd → wd < s.kernel.nextWd
  /-- Who takes the changes walks what appears and records it; the whole tree is walked in its time.
  -/
  walks : ∀ wk, s.walk = some wk → s.mode = .scan ∨ s.mode = .drain ∧ wk.mark = true
  /-- The watches that are given up are all there are. -/
  unwatches : ∀ wds, s.mode = .unwatch wds → ∀ wd i, s.kernel.active.get? wd = some i → wd ∈ wds
  /-- After that there are none. -/
  cleared : s.mode = .redrain → ∀ wd, s.kernel.active.get? wd = none ∧ s.w.dirs.get? wd = none
  /-- Nothing known is from the future. -/
  since : s.known.since ≤ s.tree.clock
  /-- Neither is this. -/
  upto : s.known.upto ≤ s.tree.clock

/-! ### Queues -/

/-- An event is live when its watch does not end in the queue. -/
theorem Live.of_mem (h : e ∈ es) (hwd : .ignored wd ∉ es) : Live es wd e := by
  obtain ⟨a, b, rfl⟩ := List.append_of_mem h
  exact ⟨a, b, rfl, fun hmem => hwd (List.mem_append_left _ hmem)⟩

/-- What is queued behind a live event leaves it live. -/
theorem Live.extend {es' : List Event} (h : Live es wd e) (hes : es <+: es') : Live es' wd e := by
  obtain ⟨a, c, rfl, hwd⟩ := h
  obtain ⟨b, rfl⟩ := hes
  exact ⟨a, c ++ b, by simp, hwd⟩

/-- An event is the first one, or is left after it. -/
theorem Live.cons {e₀ : Event} (h : Live (e₀ :: es) wd e) :
    e₀ = e ∨ (Live es wd e ∧ e₀ ≠ .ignored wd) := by
  obtain ⟨a, b, heq, hwd⟩ := h
  cases a with
  | nil => exact Or.inl (List.cons.inj heq).1
  | cons e₁ a =>
    obtain ⟨rfl, rfl⟩ := List.cons.inj heq
    exact Or.inr ⟨⟨a, b, rfl, fun hmem => hwd (List.mem_cons_of_mem _ hmem)⟩,
      fun hi => hwd (by rw [hi]; exact List.mem_cons_self)⟩

/-- Events come at the end. -/
theorem Queues.append {es' : List Event} (h : Queues es b es') :
    ∃ c, es' = es ++ c ∧ ∀ e ∈ c, e ∈ b ∨ e = .overflow := by
  induction h with
  | nil q => exact ⟨[], by simp, by simp⟩
  | @push q b q' e _ ih =>
    obtain ⟨c, rfl, hc⟩ := ih
    refine ⟨e :: c, by simp, fun e' he' => ?_⟩
    rcases List.mem_cons.1 he' with rfl | he'
    · simp
    · exact (hc e' he').imp_left fun hb => List.mem_cons_of_mem _ hb
  | merge _ _ ih =>
    obtain ⟨c, rfl, hc⟩ := ih
    exact ⟨c, rfl, fun e' he' => (hc e' he').imp_left fun hb => List.mem_cons_of_mem _ hb⟩
  | lose _ ih =>
    obtain ⟨c, rfl, hc⟩ := ih
    refine ⟨.overflow :: c, by simp, fun e' he' => ?_⟩
    rcases List.mem_cons.1 he' with rfl | he'
    · simp
    · exact (hc e' he').imp_left fun hb => List.mem_cons_of_mem _ hb

/-- The queue only grows at its end. -/
theorem Queues.keeps {es' : List Event} (h : Queues es b es') : es <+: es' := by
  obtain ⟨c, rfl, -⟩ := h.append
  exact List.prefix_append _ _

/-- An event is queued, unless the queue overflows. -/
theorem Queues.mem {es' : List Event} (h : Queues es b es') (he : e ∈ b) (hover : .overflow ∉ es') :
    e ∈ es' := by
  induction h with
  | nil q => cases he
  | push hq ih =>
    rcases List.mem_cons.1 he with rfl | he
    · exact hq.keeps.subset (by simp)
    · exact ih he hover
  | merge hlast hq ih =>
    rcases List.mem_cons.1 he with rfl | he
    · exact hq.keeps.subset (List.mem_of_getLast? hlast)
    · exact ih he hover
  | lose hq _ => exact absurd (hq.keeps.subset (by simp)) hover

/-! ### Watches -/

/-- A directory has one watch at a time. -/
theorem Orderly.wdOf (h : Orderly s) (hwd : s.kernel.active.get? wd = some i) :
    s.kernel.wdOf i = some wd := by
  have hmem : (wd, i) ∈ s.kernel.active.rows := Table.get?_eq_some_iff.1 hwd
  obtain ⟨r, hr⟩ : ∃ r, s.kernel.active.rows.find? (fun r => r.2 = i) = some r := by
    rw [← Option.isSome_iff_exists, List.find?_isSome]
    exact ⟨_, hmem, by simp⟩
  have hri : r.2 = i := by simpa using List.find?_some hr
  have hget : s.kernel.active.get? r.1 = some i := by
    rw [Table.get?_eq_some_iff, ← hri]
    exact List.mem_of_find?_eq_some hr
  rw [Kernel.wdOf, hr, Option.map_some, h.one r.1 wd i hget hwd]

/-- An unwatched directory has no descriptor. -/
theorem Kernel.wdOf_spec {k : Kernel} (h : k.wdOf i = some wd) : k.active.get? wd = some i := by
  obtain ⟨r, hr, rfl⟩ := Option.map_eq_some_iff.1 h
  have hri : r.2 = i := by simpa using List.find?_some hr
  rw [Table.get?_eq_some_iff, ← hri]
  exact List.mem_of_find?_eq_some hr

/-- A directory without a number has no watch. -/
theorem Kernel.wdOf_eq_none {k : Kernel} (h : k.wdOf i = none) (wd : ℕ) :
    k.active.get? wd ≠ some i := by
  intro hwd
  rw [Kernel.wdOf, Option.map_eq_none_iff, List.find?_eq_none] at h
  exact h _ (Table.get?_eq_some_iff.1 hwd) (by simp)

/-- A watch that is asked for is on the directory, and the other ones stay. -/
theorem Kernel.active_addWatch (k : Kernel) (i : ℕ) :
    (k.addWatch i).2.active.get? (k.addWatch i).1 = some i ∧
    ∀ wd, wd ≠ (k.addWatch i).1 → (k.addWatch i).2.active.get? wd = k.active.get? wd := by
  unfold Kernel.addWatch
  split
  · next wd hwd => exact ⟨Kernel.wdOf_spec hwd, fun _ _ => rfl⟩
  · refine ⟨?_, fun wd hwd => ?_⟩
    · rw [Table.get?_put, if_pos rfl]
    · rw [Table.get?_put, if_neg hwd]

/-- The directory was watched under the descriptor, or the descriptor is new. -/
theorem Kernel.addWatch_cases (k : Kernel) (i : ℕ) :
    (k.active.get? (k.addWatch i).1 = some i ∧ (k.addWatch i).2 = k) ∨
    ((k.addWatch i).1 = k.nextWd ∧ (k.addWatch i).2.nextWd = k.nextWd + 1 ∧
      ∀ wd, k.active.get? wd ≠ some i) := by
  unfold Kernel.addWatch
  split
  · next wd hwd => exact Or.inl ⟨Kernel.wdOf_spec hwd, rfl⟩
  · next hnone => exact Or.inr ⟨rfl, rfl, Kernel.wdOf_eq_none hnone⟩

/-- A new watch queues nothing. -/
theorem Kernel.queue_addWatch (k : Kernel) (i : ℕ) : (k.addWatch i).2.queue = k.queue := by
  unfold Kernel.addWatch
  split
  · rfl
  · rfl

end Dbvm.Watcher
