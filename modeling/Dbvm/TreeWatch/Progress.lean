import Dbvm.TreeWatch.Sight

/-!
# The watcher goes on

What the watcher's own steps do to what is in sight. A watch that ends was on a directory that is no
more. An event that is read is recorded, or begins a walk. A walk that comes to an entry comes to
something else on the way to it, or has recorded the entry and watches it (`WalkStep.progress`);
where it cannot, the watcher will say so (`WalkStep.fails`).
-/

namespace Dbvm.Watcher

open Lib Lib.NameTree

variable {s s' : Sys} {t : DirTree Str} {p q d : List Str} {x y : Str} {i j wd : ℕ} {e : Event}
  {es b : List Event}

/-! ## A watch ends -/

/-- The state after the watch of a directory that is no more has ended. -/
def Sys.reaped (s : Sys) (wd : ℕ) (es : List Event) : Sys :=
  {
    s with kernel :=
    { s.kernel with active := s.kernel.active.deleteWhere fun wd' _ => wd' = wd, queue := es } }

section Reaped

variable (hwd : s.kernel.active.get? wd = some i) (hgone : ∀ p, ¬ s.tree.IsDir p i)
  (hes : s.kernel.queue <+: es)

/-- The kernel drops the watch of a directory that is gone; the others stay. -/
theorem Sys.active_reaped (s : Sys) (wd : ℕ) (es : List Event) (wd' : ℕ) :
    (s.reaped wd es).kernel.active.get?
    wd' = if wd' = wd then none else s.kernel.active.get? wd' := by
  rw [Sys.reaped, Table.get?_deleteWhere_key]
  by_cases heq : wd' = wd
  · rw [if_pos heq, if_pos (by simpa using heq)]
  · rw [if_neg heq, if_neg (by simpa using heq)]

include hwd hgone hes

/-- A watch that ends takes nothing out of sight: no path leads to its directory. -/
theorem stays_reaped (p : List Str) : Stays s (s.reaped wd es) p := by
  refine ⟨?_, hes.subset, fun q wk _ hwk hcomes => ⟨wk, hwk, hcomes⟩, List.Subset.refl _⟩
  rintro d wd' hd ⟨i', hi', hwd', hpath⟩
  refine ⟨i', hi', ?_, hpath⟩
  rw [Sys.active_reaped, if_neg, hwd']
  rintro rfl
  rw [hwd] at hwd'
  obtain rfl := Option.some.inj hwd'
  exact hgone d hi'

/-- Every directory stays covered when a watch of one that is gone ends. -/
theorem Covers.reaped (h : Covers s) :
    Covers (s.reaped wd es) := fun p i hp hi => (stays_reaped hwd hgone hes p).covered (h p i hp hi)

/-- What is due to be told stays so when a watch ends. -/
theorem TellsAll.reaped (h : TellsAll s) : TellsAll (s.reaped wd es) :=
  fun p hp hne hthere htouched => (stays_reaped hwd hgone hes p).told (h p hp hne hthere htouched)

/-- What is remembered stays so when a watch ends. -/
theorem Remembers.reaped (h : Remembers s) : Remembers (s.reaped wd es) := by
  refine ⟨h.kept, fun p hp hhas htouched hne => ?_, fun p i hp hdir hheld => ?_⟩
  · rcases h.told p hp hhas htouched hne with hpath | ⟨d, x, wd', what,
      isDir, rfl, hlive, hpath, hfast⟩
    · exact Or.inl hpath
    · refine Or.inr ⟨d, x, wd', what, isDir, rfl, hlive.extend hes, hpath, fun j hj => hfast j ?_⟩
      rw [Sys.active_reaped] at hj
      split_ifs at hj
      exact hj
  · obtain ⟨wd', hw⟩ := h.held p i hp hdir hheld
    exact ⟨wd', (stays_reaped hwd hgone hes p).watched p wd' (List.prefix_refl p) hw⟩

end Reaped

/-! ## An event is read -/

section Event

variable {w : TreeWatch} {v : Str}

/-- An event adds paths to what will be told and takes none away. -/
theorem TreeWatch.event_grows (w : TreeWatch) (e : Event) :
    w.paths ⊆ (w.event e).1.paths ∧ (w.full = true → (w.event e).1.full = true) := by
  -- One case for each kind of event. Each puts paths in and takes none out.
  cases e with
  | overflow => exact ⟨List.Subset.refl _, fun _ => rfl⟩
  | ignored wd => exact ⟨List.Subset.refl _, id⟩
  | deleteSelf wd =>
    unfold TreeWatch.event
    dsimp only
    split
    · exact ⟨List.Subset.refl _, id⟩
    · exact ⟨List.subset_cons_self _ _, id⟩
  | moveSelf wd =>
    unfold TreeWatch.event
    dsimp only
    split
    · exact ⟨List.Subset.refl _, id⟩
    · exact ⟨List.subset_cons_self _ _, fun _ => rfl⟩
  | entry wd what isDir name =>
    cases hdir : w.dirs.get? wd with
    | none =>
      rw [TreeWatch.event_of_none hdir]
      exact ⟨List.Subset.refl _, id⟩
    | some dir =>
      rw [TreeWatch.event_of_some hdir]
      by_cases hres : isReservedVmPath (entryPath dir name) = true
      · rw [if_pos hres]
        exact ⟨List.Subset.refl _, id⟩
      · rw [if_neg hres]
        exact ⟨List.subset_cons_self _ _, fun hfull => by rw [hfull, Bool.true_or]⟩

/-- The path of an event of an entry that a sync takes. -/
theorem Synced.entryPath (h : Synced (d ++ [x])) : entryPath (pathOf d) x = pathOf (d ++ [x]) := by
  rw [Watcher.entryPath, if_neg (h.plain x (by simp)).1.ne_nil, h.plain.child]

/-- It is recorded, and walked when it is a directory that has appeared. -/
theorem Synced.event (h : Synced (d ++ [x])) (hv : w.dirs.get? wd = some (pathOf d)) (what : What)
    (isDir : Bool) :
    pathOf (d ++ [x]) ∈ (w.event (.entry wd what isDir x)).1.paths ∧
      (isDir = true → what = .created ∨ what = .movedTo →
      (w.event (.entry wd what isDir x)).2 = some (pathOf (d ++ [x]))) := by
  rw [TreeWatch.event_of_some hv, h.entryPath,
    if_neg (by rw [h.free _ (List.prefix_refl _) (by simp)]; simp)]
  refine ⟨List.mem_cons_self, fun hdir hwhat => if_pos ?_⟩
  rw [hdir, Bool.true_and, Bool.or_eq_true, decide_eq_true_eq, decide_eq_true_eq]
  exact hwhat

end Event

/-- The state after the first event has been read. -/
def Sys.read (s : Sys) (e : Event) (es : List Event) : Sys :=
  { s with kernel := { s.kernel with queue := es }, w := (s.w.event e).1,
           walk := (s.w.event e).2.map fun d => ⟨true, .start (hostNames d), []⟩ }

section Read

variable (ho : Orderly s) (hq : s.kernel.queue = e :: es) (hwalk : s.walk = none)

include ho hq

/-- A watch outlives every event but its own end. -/
theorem Watched.read (h : Watched s d wd) : Watched (s.read e es) d wd := by
  obtain ⟨i, hi, hwd, hpath⟩ := h
  refine ⟨i, hi, hwd, (s.w.get?_dirs_event e).2 ⟨hpath, fun heq => ho.goes wd i hwd ?_⟩⟩
  rw [hq, heq]
  exact List.mem_cons_self

include hwalk

/-- What will be walked is walked or found by the event. -/
theorem Due.read (hp : Synced p) (h : Due s p) : Due (s.read e es) p := by
  obtain ⟨q, hqp, hf⟩ := h
  refine ⟨q, hqp, ?_⟩
  cases hf with
  | @event d x wd what hw he hwhat =>
    rw [hq] at he
    rcases List.mem_cons.1 he with rfl | he
    · -- the walk begins
      obtain ⟨-, -, -, hpath⟩ := hw
      have hd := hp.upTo hqp
      have hbegins : (s.read (.entry wd what true x) es).walk = some ⟨true,
        .start (d ++ [x]), []⟩ := by
        rw [Sys.read, (hd.event hpath what true).2 rfl hwhat, Option.map_some,
          hostNames_pathOf hd.plain.names]
      exact .walk hbegins .start
    · exact .event (hw.read ho hq) he hwhat
  | walk hwk _ =>
    rw [hwalk] at hwk
    cases hwk

/-- Reading an event keeps every directory covered. -/
theorem Covers.read (h : Covers s) : Covers (s.read e es) :=
  fun p i hp hi => (h p i hp hi).imp (fun ⟨wd, hw⟩ => ⟨wd, hw.read ho hq⟩) fun hd =>
  hd.read ho hq hwalk hp

/-- Reading an event keeps what is due to be told: it is taken into the paths. -/
theorem TellsAll.read (h : TellsAll s) : TellsAll (s.read e es) := by
  intro p hp hne hthere htouched
  rcases h p hp hne hthere htouched with hpath | ⟨d, x, wd, what, isDir, rfl, hw, he⟩ | hd
  · exact Or.inl ((s.w.event_grows e).1 hpath)
  · rw [hq] at he
    rcases List.mem_cons.1 he with rfl | he
    · obtain ⟨-, -, -, hpath⟩ := hw
      exact Or.inl (hp.event hpath what isDir).1
    · exact Or.inr (Or.inl ⟨d, x, wd, what, isDir, rfl, hw.read ho hq, he⟩)
  · exact Or.inr (Or.inr (hd.read ho hq hwalk hp))

omit hwalk in
/-- Reading an event keeps what is remembered. -/
theorem Remembers.read (h : Remembers s) : Remembers (s.read e es) := by
  refine ⟨h.kept, fun p hp hhas htouched hne => ?_, fun p i hp hdir hheld => ?_⟩
  · rcases h.told p hp hhas htouched hne with hpath | ⟨d, x, wd, what, isDir, rfl, hlive,
      hpath, hfast⟩
    · exact Or.inl ((s.w.event_grows e).1 hpath)
    · rw [hq] at hlive
      rcases hlive.cons with rfl | ⟨hlive, hne⟩
      · exact Or.inl (hp.event hpath what isDir).1
      · exact Or.inr ⟨d, x, wd, what, isDir, rfl, hlive, (s.w.get?_dirs_event e).2 ⟨hpath, hne⟩,
          hfast⟩
  · obtain ⟨wd, hw⟩ := h.held p i hp hdir hheld
    exact ⟨wd, hw.read ho hq⟩

omit ho in
/-- An overflow that is queued is an overflow that is told. -/
theorem Doomed.read (h : Doomed s) : Doomed (s.read e es) := by
  rcases h with hfull | hover | ⟨wd, v, hv, hlive⟩ | ⟨wk, hwk, -⟩ | hfollowed
  · exact Or.inl ((s.w.event_grows e).2 hfull)
  · rw [hq] at hover
    rcases List.mem_cons.1 hover with rfl | hover
    · exact Or.inl rfl
    · exact Or.inr (Or.inl hover)
  · rw [hq] at hlive
    rcases hlive.cons with rfl | ⟨hlive, hne⟩
    · left
      show (s.w.event (.moveSelf wd)).1.full = true
      simp only [TreeWatch.event, hv]
    · exact Or.inr (Or.inr (Or.inl ⟨wd, v, (s.w.get?_dirs_event e).2 ⟨hv, hne⟩, hlive⟩))
  · rw [hwalk] at hwk
    cases hwk
  · exact Or.inr (Or.inr (Or.inr (Or.inr hfollowed)))

end Read

/-! ## A walk goes on -/

section Walk

variable {k k' : Kernel} {w w' : TreeWatch} {wk : Walk} {wk' : Option Walk}

/-- What has not been opened is not forgotten. -/
theorem WalkStep.fails (h : WalkStep t k w wk k' w' wk') (hf : wk.Fails) :
    w'.full = true ∨ ∃ wk'', wk' = some wk'' ∧ wk''.Fails := by
  have hstack : ∀ {m sg sg' st st'}, wk = ⟨m, sg, st⟩ → (∀ q, sg ≠ .visit q none) →
      (∀ f ∈ st, f.handle = none → ∃ f' ∈ st', f'.handle = none) →
      ∃ wk'', some (⟨m, sg', st'⟩ : Walk) = some wk'' ∧ wk''.Fails := by
    rintro m sg sg' st st' rfl hsg hst
    rcases hf with ⟨q, hq⟩ | ⟨f, hf, hnone⟩
    · exact absurd hq (hsg q)
    · exact ⟨_, rfl, Or.inr (hst f hf hnone)⟩
  -- A directory that could not be opened stays on the stack until it is met, and then the watcher
  -- gives up.
  cases h with
  | missing => exact Or.inl rfl
  | file _ =>
    rcases hf with ⟨q, hq⟩ | ⟨f, hf, -⟩
    · cases hq
    · cases hf
  | dir _ => exact Or.inr (hstack rfl (by simp) fun f hf hnone => ⟨f, hf, hnone⟩)
  | opened _ => exact Or.inr (hstack rfl (by simp) fun f hf hnone => ⟨f, hf, hnone⟩)
  | unopened => exact Or.inr ⟨_, rfl, Or.inl ⟨_, rfl⟩⟩
  | @skip m q h st _ =>
    refine Or.inr ⟨_, rfl, Or.inr ?_⟩
    rcases hf with ⟨r, hr⟩ | ⟨f, hf, hnone⟩
    · injection hr with _ hh
      exact ⟨_, List.mem_cons_self, hh⟩
    · exact ⟨f, List.mem_cons_of_mem _ hf, hnone⟩
  | @watch m q h st i since _ _ =>
    refine Or.inr ⟨_, rfl, Or.inr ?_⟩
    rcases hf with ⟨r, hr⟩ | ⟨f, hf, hnone⟩
    · injection hr with _ hh
      exact ⟨_, List.mem_cons_self, hh⟩
    · exact ⟨f, List.mem_cons_of_mem _ hf, hnone⟩
  | unwatched _ => exact Or.inl rfl
  | unread => exact Or.inl rfl
  | lost _ => exact Or.inl rfl
  | @foundDir m f st x _ hfinds =>
    obtain ⟨i, hi, -⟩ := hfinds
    refine Or.inr (hstack rfl (by simp) fun f' hf' hnone => ?_)
    rcases List.mem_cons.1 hf' with rfl | hf'
    · rw [hi] at hnone
      cases hnone
    · exact ⟨f', List.mem_cons_of_mem _ hf', hnone⟩
  | @foundFile m f st x _ hfinds =>
    obtain ⟨i, hi, -⟩ := hfinds
    refine Or.inr (hstack rfl (by simp) fun f' hf' hnone => ?_)
    rcases List.mem_cons.1 hf' with rfl | hf'
    · rw [hi] at hnone
      cases hnone
    · exact ⟨f', List.mem_cons_of_mem _ hf', hnone⟩
  | @leave m f st hdone =>
    obtain ⟨i, hi, -⟩ := hdone
    refine Or.inr (hstack rfl (by simp) fun f' hf' hnone => ?_)
    rcases List.mem_cons.1 hf' with rfl | hf'
    · rw [hi] at hnone
      cases hnone
    · exact ⟨f', hf', hnone⟩
  | done =>
    rcases hf with ⟨q, hq⟩ | ⟨f, hf, -⟩
    · cases hq
    · cases hf

/-- An entry that is a file is the end of the way. -/
theorem eq_of_file (hg : t.Grown) (hthere : t.entry p ≠ none) (hq : q <+: p)
    (hfile : ∀ i, ¬ t.IsDir q i) : p = q := by
  by_contra hne
  obtain ⟨i, hi⟩ := hg.isDir_above hthere hq (Ne.symm hne)
  exact hfile i hi

/-- What is found on a walk is recorded. -/
theorem Synced.recorded (hp : Synced p) (w : TreeWatch) {m : Bool} (hm : m = true) :
    pathOf p ∈ (w.record m p).paths := by
  subst hm
  rw [TreeWatch.record, if_pos rfl, hp.plain.vmPathOf]
  exact List.mem_cons_self

/-- A walk that comes to something on the way to an entry still does after a step, or has recorded
the entry and watches it. -/
theorem WalkStep.progress (h : WalkStep t k w wk k' w' wk') (hg : t.Grown) (hp : Synced p)
    (hthere : t.entry p ≠ none) (hq : q <+: p) (hcomes : ComesTo t wk q) (hfull : w'.full ≠ true)
    (hok : ∀ wk'', wk' = some wk'' → ¬ wk''.Fails) :
    (∃ wk'' r, wk' = some wk'' ∧ r <+: p ∧ ComesTo t wk'' r) ∨
      ((wk.mark = true → pathOf p ∈ w'.paths) ∧
        ∀ i, t.IsDir p i → ∃ wd, k'.active.get? wd = some i ∧
        w'.dirs.get? wd = some (pathOf p)) := by
  -- a file is recorded when it is what the way leads to
  have hrecord : ∀ m, (∀ i, ¬ t.IsDir q i) →
      (m = true → pathOf p ∈ (if skips q then w else w.record m q).paths) ∧
      ∀ i, t.IsDir p i → ∃ wd, k.active.get? wd = some i ∧
      (if skips q then w else w.record m q).dirs.get? wd = some (pathOf p) := by
    intro m hfile
    obtain rfl := eq_of_file hg hthere hq hfile
    rw [hp.skips]
    exact ⟨fun hm => hp.recorded w hm, fun i hi => absurd hi (hfile i)⟩
  cases h with
  | missing => exact absurd rfl hfull
  | @file m q' since hfile =>
    cases hcomes with
    | start =>
      refine Or.inr (hrecord m fun i hi => ?_)
      obtain ⟨since', hi⟩ := hi
      rw [hfile] at hi
      cases hi
    | entry hf => cases hf
  | dir _ =>
    cases hcomes with
    | start => exact Or.inl ⟨_, _, rfl, hq, .opening⟩
    | entry hf => cases hf
  | opened hdir =>
    cases hcomes with
    | opening => exact Or.inl ⟨_, _, rfl, hq, .visit ⟨_, hdir⟩⟩
    | entry hf hhandle hat he hsince hnot =>
        exact Or.inl ⟨_, _, rfl, hq, .entry hf hhandle hat he hsince hnot⟩
  | unopened => exact absurd (Or.inl ⟨_, rfl⟩) (hok _ rfl)
  | skip hskip =>
    cases hcomes with
    | visit hdir =>
      rw [(hp.upTo hq).skips] at hskip
      cases hskip
    | entry hf hhandle hat he hsince hnot =>
      exact Or.inl ⟨_, _, rfl, hq, .entry (List.mem_cons_of_mem _ hf) hhandle hat he hsince hnot⟩
  | @watch m q' h' st i since _ hdir =>
    cases hcomes with
    | @visit _ _ _ i' hi' =>
      obtain rfl : i' = i := hi'.unique ⟨since, hdir⟩
      by_cases hpq : p = q
      · subst hpq
        refine Or.inr ⟨fun hm => hp.recorded w hm, fun j hj => ⟨(k.addWatch i').1, ?_, ?_⟩⟩
        · obtain rfl := hj.unique hi'
          exact (Kernel.active_addWatch k j).1
        · dsimp only
          rw [Table.get?_put, if_pos rfl, hp.plain.vmPathOf]
      · -- what is below it is there, and will be read
        obtain ⟨l, rfl⟩ := hq
        cases l with
        | nil => simp at hpq
        | cons y l =>
          have hpre : q ++ [y] <+: q ++ y :: l := ⟨l, by simp⟩
          obtain ⟨e, he⟩ := Option.ne_none_iff_exists'.1 (hg.exists_above hthere hpre)
          exact Or.inl ⟨_, _, rfl, hpre, .entry (f := ⟨q, some i', t.clock, []⟩) List.mem_cons_self
            rfl hi' he (hg.since _ e he)
            List.not_mem_nil⟩
    | entry hf hhandle hat he hsince hnot =>
      exact Or.inl ⟨_, _, rfl, hq, .entry (List.mem_cons_of_mem _ hf) hhandle hat he hsince hnot⟩
  | unwatched _ => exact absurd rfl hfull
  | unread => exact absurd rfl hfull
  | lost _ => exact absurd rfl hfull
  | @foundDir m f st x hnew hfinds =>
    cases hcomes with
    | @entry _ _ _ f' i x' e hf hhandle hat he hsince hnot =>
      rcases List.mem_cons.1 hf with rfl | hf
      · by_cases hx : x' = x
        · subst hx
          exact Or.inl ⟨_, _, rfl, hq, .opening⟩
        · exact Or.inl ⟨_, _, rfl, hq, .entry (f := { f' with yielded := x :: f'.yielded })
            List.mem_cons_self hhandle hat he hsince
            (by simp [hx, hnot])⟩
      · exact Or.inl ⟨_, _, rfl, hq, .entry (List.mem_cons_of_mem _ hf) hhandle hat he hsince hnot⟩
  | @foundFile m f st x hnew hfinds =>
    cases hcomes with
    | @entry _ _ _ f' i x' e hf hhandle hat he hsince hnot =>
      rcases List.mem_cons.1 hf with rfl | hf
      · by_cases hx : x' = x
        · subst hx
          refine Or.inr (hrecord m fun j hj => ?_)
          obtain ⟨i', hi', hkind⟩ := hfinds
          rw [hhandle] at hi'
          obtain rfl := Option.some.inj hi'
          obtain ⟨since, hj⟩ := hj
          have hdir := (hkind _ e hat he hsince).2 ⟨j, by rw [he] at hj; rw [Option.some.inj hj]⟩
          cases hdir
        · exact Or.inl ⟨_, _, rfl, hq, .entry (f := { f' with yielded := x :: f'.yielded })
            List.mem_cons_self hhandle hat he hsince
            (by simp [hx, hnot])⟩
      · exact Or.inl ⟨_, _, rfl, hq, .entry (List.mem_cons_of_mem _ hf) hhandle hat he hsince hnot⟩
  | @leave m f st hdone =>
    cases hcomes with
    | @entry _ _ _ f' i x' e hf hhandle hat he hsince hnot =>
      rcases List.mem_cons.1 hf with rfl | hf
      · obtain ⟨i', hi', hall⟩ := hdone
        rw [hhandle] at hi'
        obtain rfl := Option.some.inj hi'
        exact absurd (hall _ x' e hat he hsince) hnot
      · exact Or.inl ⟨_, _, rfl, hq, .entry hf hhandle hat he hsince hnot⟩
  | done =>
    cases hcomes with
    | entry hf => cases hf

end Walk

/-! ## The walk of the system -/

/-- The state after a step of the walk. -/
def Sys.walked (s : Sys) (k : Kernel) (w : TreeWatch) (wk' : Option Walk) : Sys :=
  { s with kernel := k, w := w, walk := wk' }

section Walked

variable {k : Kernel} {w : TreeWatch} {wk : Walk} {wk' : Option Walk} (ho : Orderly s)
  (hwk : s.walk = some wk)
  (hstep : WalkStep s.tree s.kernel s.w wk k w wk')

include ho hstep

/-- A step of a walk keeps the watches of other directories. -/
theorem Watched.walked (hd : Synced d) (h : Watched s d wd) : Watched (s.walked k w wk') d wd := by
  obtain ⟨hw, -⟩ := hstep.frame
  obtain ⟨i, hi, hwd, hpath⟩ := h
  refine ⟨i, hi, hw.active ho hwd, hw.dirs ho hpath fun q j hj hq => ?_⟩
  rw [hwd] at hj
  obtain rfl := Option.some.inj hj
  rw [ho.grown.inj q d _ hq hi, hd.plain.vmPathOf]

include hwk

omit ho in
/-- A step of a walk takes back no overflow and no link that was followed. -/
theorem Doomed.walked (h : Doomed s) : Doomed (s.walked k w wk') := by
  obtain ⟨hw, -, hfull', -⟩ := hstep.frame
  rcases h with hfull | hover | ⟨wd, v, hv, hlive⟩ | ⟨wk₀, hwk₀, hf⟩ | hfollowed
  · exact Or.inl (hfull' hfull)
  · exact Or.inr (Or.inl (by rw [Sys.walked, hw.queue]; exact hover))
  · obtain ⟨v', hv'⟩ := hw.listed ⟨v, hv⟩
    exact Or.inr (Or.inr (Or.inl ⟨wd, v', hv', by rw [Sys.walked, hw.queue]; exact hlive⟩))
  · rw [hwk] at hwk₀
    obtain rfl := Option.some.inj hwk₀
    rcases hstep.fails hf with hfull | ⟨wk'', hwk'', hf'⟩
    · exact Or.inl hfull
    · exact Or.inr (Or.inr (Or.inr (Or.inl ⟨wk'', hwk'', hf'⟩)))
  · exact Or.inr (Or.inr (Or.inr (Or.inr hfollowed)))

variable (hnot : ¬ Doomed (s.walked k w wk'))

include hnot

/-- What will be walked still will be, or has been recorded and is watched. -/
theorem Due.walked (hp : Synced p) (hthere : s.tree.entry p ≠ none) (h : Due s p) :
    Due (s.walked k w wk') p ∨
    ((wk.mark = true → pathOf p ∈ w.paths) ∧ ∀ i, s.tree.IsDir p i →
      ∃ wd, Watched (s.walked k w wk') p wd) := by
  obtain ⟨q, hq, hf⟩ := h
  -- What waits for an event goes on waiting; what waits for the walk is reached by it or is found
  -- further down.
  cases hf with
  | @event d x wd what hw he hwhat =>
    left
    refine ⟨d ++ [x], hq, .event (hw.walked ho hstep ((hp.upTo hq).upTo (List.prefix_append _ _)))
      ?_ hwhat⟩
    rw [Sys.walked, hstep.frame.1.queue]
    exact he
  | @walk wk₀ q hwk₀ hcomes =>
    rw [hwk] at hwk₀
    obtain rfl := Option.some.inj hwk₀
    have hfull : w.full ≠ true := fun hfull => hnot (Or.inl hfull)
    have hok : ∀ wk'', wk' = some wk'' → ¬ wk''.Fails :=
      fun wk'' hwk'' hf => hnot (Or.inr (Or.inr (Or.inr (Or.inl ⟨wk'', hwk'', hf⟩))))
    rcases hstep.progress ho.grown hp hthere hq hcomes hfull hok with ⟨wk'', r, hwk'', hr,
      hcomes'⟩ | ⟨hmark, hwatch⟩
    · exact Or.inl ⟨r, hr, .walk hwk'' hcomes'⟩
    · refine Or.inr ⟨hmark, fun i hi => ?_⟩
      obtain ⟨wd, hwd, hpath⟩ := hwatch i hi
      exact ⟨wd, i, hi, hwd, hpath⟩

/-- A step of a walk keeps every directory covered: what it finds gets its watch or is walked on. -/
theorem Covers.walked (h : Covers s) : Covers (s.walked k w wk') := by
  intro p i hp hi
  rcases h p i hp hi with ⟨wd, hw⟩ | hd
  · exact Or.inl ⟨wd, hw.walked ho hstep hp⟩
  · rcases hd.walked ho hwk hstep hnot hp hi.ne_none with hd | ⟨-, hwatch⟩
    · exact Or.inr hd
    · exact Or.inl (hwatch i hi)

/-- A step of a walk that marks what it finds keeps what is due to be told. -/
theorem TellsAll.walked (hmark : wk.mark = true) (h : TellsAll s) :
    TellsAll (s.walked k w wk') := by
  intro p hp hne hthere htouched
  rcases h p hp hne hthere htouched with hpath | ⟨d, x, wd, what, isDir, rfl, hw, he⟩ | hd
  · exact Or.inl (hstep.frame.2.1 hpath)
  · refine Or.inr
      (Or.inl ⟨d, x, wd, what, isDir, rfl, hw.walked ho hstep (hp.upTo (List.prefix_append _ _)),
        ?_⟩)
    rw [Sys.walked, hstep.frame.1.queue]
    exact he
  · rcases hd.walked ho hwk hstep hnot hp hthere with hd | ⟨hrecord, -⟩
    · exact Or.inr (Or.inr hd)
    · exact Or.inl (hrecord hmark)

omit hwk hnot in
/-- A step of a walk keeps what is remembered. -/
theorem Remembers.walked (h : Remembers s) : Remembers (s.walked k w wk') := by
  obtain ⟨hw, hpaths, -⟩ := hstep.frame
  refine ⟨h.kept, fun p hp hhas htouched hne => ?_, fun p i hp hdir hheld => ?_⟩
  · rcases h.told p hp hhas htouched hne with hpath | ⟨d, x, wd, what, isDir, rfl, hlive,
      hpath, hfast⟩
    · exact Or.inl (hpaths hpath)
    · have hd : Synced d := hp.upTo (List.prefix_append _ _)
      refine Or.inr ⟨d, x, wd, what, isDir,
        rfl, by rw [Sys.walked, hw.queue]; exact hlive, ?_, fun i hi => ?_⟩
      · refine hw.dirs ho hpath fun q j hj hq => ?_
        rcases hfast j hj with ⟨hdj, -⟩ | hnone
        · rw [ho.grown.inj q d j hq hdj, hd.plain.vmPathOf]
        · exact absurd hq (hnone q)
      · rcases hw.active_back hi with hi | ⟨rfl, -⟩
        · exact hfast i hi
        · exact absurd (ho.dirs _ _ hpath) (lt_irrefl _)
  · obtain ⟨wd, hwd⟩ := h.held p i hp hdir hheld
    exact ⟨wd, hwd.walked ho hstep hp⟩

end Walked

end Dbvm.Watcher
