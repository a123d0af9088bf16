import Dbvm.TreeWatch.Progress

/-!
# The watcher misses nothing

The invariant of a watcher (`Sighted`) holds when `new` begins and is kept by every step: what a
sync takes is covered from then on, and once the first scan is over every change is told. While the
whole tree is scanned the events that are left are about entries with new names (`Young`), so what
has kept its names is watched when the scan ends. An answer that is not "everything" holds every
change since what has been seen before.
-/

namespace Dbvm.Watcher

open Lib Lib.NameTree

variable {s s' : Sys} {p : List Str} {c : Option Changes} {es : List Event} {i wd : ℕ}

/-- A directory that has appeared in a scan has got its name in it. -/
def Young (s : Sys) : Prop := ∀ wd i d x what e, s.kernel.active.get? wd = some i →
  s.tree.IsDir d i →
  .entry wd what true x ∈ s.kernel.queue → what = .created ∨ what = .movedTo →
  s.tree.entry (d ++ [x]) = some e →
  s.known.since < e.since

/-- What holds of a watcher in every state. -/
structure Sighted (s : Sys) : Prop where
  /-- Its watches. -/
  orderly : Orderly s
  /-- What is watched, but while watches are given up. -/
  covers : s.mode = .idle ∨ s.mode = .drain ∨ s.mode = .scan → ¬ Doomed s → Covers s
  /-- What is told. -/
  tells : s.mode = .idle ∨ s.mode = .drain → ¬ Doomed s → TellsAll s ∧ Remembers s
  /-- What appears in a scan. -/
  young : s.mode = .scan → Young s

/-! ## Steps -/

/-- A doomed watcher stays so when something else goes on. -/
theorem Doomed.alters (h : Doomed s) (hw : s'.w = s.w) (hwalk : s'.walk = s.walk)
    (hfollowed : s'.followed = s.followed) (hes : s.kernel.queue <+: s'.kernel.queue) :
    Doomed s' := by
  rcases h with hfull | hover | ⟨wd, v, hv, hlive⟩ | ⟨wk, hwk, hf⟩ | hlink
  · exact Or.inl (by rw [hw, hfull])
  · exact Or.inr (Or.inl (hes.subset hover))
  · exact Or.inr (Or.inr (Or.inl ⟨wd, v, by rw [hw, hv], hlive.extend hes⟩))
  · exact Or.inr (Or.inr (Or.inr (Or.inl ⟨wk, by rw [hwalk, hwk], hf⟩)))
  · exact Or.inr (Or.inr (Or.inr (Or.inr (by rw [hfollowed, hlink]))))

/-- A change of the tree keeps what is new in sight. -/
theorem Young.change {c : Change Str} (h : Young s) (ho : Orderly s) (hc : c.May s.tree)
    (hq : Queues s.kernel.queue (s.kernel.notify (notices s.tree c)) es) :
    Young { s with tree := c.after s.tree, kernel := { s.kernel with queue := es } } := by
  intro wd i d x what e hwd hd he hwhat hentry
  have hsince := ho.since
  dsimp only at hwd hd he hentry ⊢
  obtain ⟨b, rfl, hb⟩ := hq.append
  rcases List.mem_append.1 he with he | he
  · -- an old event: the directory was somewhere, and the entry was in it
    obtain ⟨d', hd', hback⟩ := hc.entry_back ho.grown (ho.ids wd i hwd) hd
    rcases hback x e hentry with hnew | hold
    · omega
    · exact h wd i d' x what e hwd hd' he hwhat hold
  · rcases hb _ he with he | hover
    · obtain ⟨n, hn, wd', hwd', heq⟩ := of_mem_notify he
      have hfor := (wd?_of_mem_notices hn wd').1
      rw [← heq] at hfor
      obtain rfl := Option.some.inj hfor
      rw [hwd] at hwd'
      obtain rfl := Option.some.inj hwd'
      have hnew := since_of_mem_notices hn hc ho.grown heq.symm hwhat hd hentry
      omega
    · cases hover

/-- A watch that ends keeps what is new in sight. -/
theorem Young.reaped (h : Young s) (hq : Queues s.kernel.queue [.deleteSelf wd, .ignored wd] es) :
    Young (s.reaped wd es) := by
  intro wd' i d x what e hwd' hd he hwhat hentry
  rw [Sys.active_reaped] at hwd'
  split_ifs at hwd'
  obtain ⟨b, rfl, hb⟩ := hq.append
  rcases List.mem_append.1 he with he | he
  · exact h wd' i d x what e hwd' hd he hwhat hentry
  · have hnew := hb _ he
    simp at hnew

/-- A watch that comes in a walk has no events yet. -/
theorem Young.walked {At : List Str → ℕ → Prop} {k : Kernel} {w : TreeWatch} (h : Young s)
    (ho : Orderly s) (hw : Watches At s.kernel s.w k w) (wk' : Option Walk) (b : Bool) :
    Young { s with kernel := k, w := w, walk := wk', followed := b } := by
  intro wd i d x what e hwd hd he hwhat hentry
  rw [show k.queue = s.kernel.queue from hw.queue] at he
  rcases hw.active_back hwd with hwd | ⟨rfl, -⟩
  · exact h wd i d x what e hwd hd he hwhat hentry
  · exact absurd (ho.events _ _ he rfl) (lt_irrefl _)

/-- A change of the tree keeps the invariant. -/
theorem Sighted.change {c : Change Str} (h : Sighted s) (hc : c.May s.tree)
    (hq : Queues s.kernel.queue (s.kernel.notify (notices s.tree c)) es) :
    Sighted { s with tree := c.after s.tree, kernel := { s.kernel with queue := es } } := by
  have ho' := h.orderly.change hc hq
  have ha : Alters s { s with tree := c.after s.tree, kernel := { s.kernel with queue := es } } :=
    ⟨rfl, rfl, rfl, hq.keeps, rfl⟩
  have hbefore :
    ¬ Doomed { s with tree := c.after s.tree, kernel := { s.kernel with queue := es } } →
    ¬ Doomed s :=
    fun hnot hd => hnot (hd.alters rfl rfl rfl hq.keeps)
  have hhappens :
      ¬ Doomed { s with tree := c.after s.tree, kernel := { s.kernel with queue := es } } →
      Happens s { s with tree := c.after s.tree, kernel := { s.kernel with queue := es } } :=
    fun hnot => h.orderly.happens hc hq fun hover => hnot (Or.inr (Or.inl hover))
  refine ⟨ho', fun hmode hnot => ?_, fun hmode hnot => ?_,
    fun hmode => (h.young hmode).change h.orderly hc hq⟩
  · exact (h.covers hmode (hbefore hnot)).change h.orderly ha (hhappens hnot)
  · have hcov := h.covers (hmode.imp_right Or.inl) (hbefore hnot)
    obtain ⟨htells, hrem⟩ := h.tells hmode (hbefore hnot)
    exact ⟨htells.change h.orderly ha (hhappens hnot) hcov,
      hrem.change h.orderly ho' ha (hhappens hnot) hnot⟩

/-- The end of a watch keeps the invariant. -/
theorem Sighted.reaped (h : Sighted s) (hwd : s.kernel.active.get? wd = some i)
    (hgone : ∀ p, ¬ s.tree.IsDir p i)
    (hq : Queues s.kernel.queue [.deleteSelf wd, .ignored wd] es) : Sighted (s.reaped wd es) := by
  have hbefore : ¬ Doomed (s.reaped wd es) → ¬ Doomed s :=
    fun hnot hd => hnot (hd.alters rfl rfl rfl hq.keeps)
  refine ⟨h.orderly.step (.reap hwd hgone hq), fun hmode hnot => ?_, fun hmode hnot => ?_,
    fun hmode => (h.young hmode).reaped hq⟩
  · exact (h.covers hmode (hbefore hnot)).reaped hwd hgone hq.keeps
  · obtain ⟨htells, hrem⟩ := h.tells hmode (hbefore hnot)
    exact ⟨htells.reaped hwd hgone hq.keeps, hrem.reaped hwd hgone hq.keeps⟩

/-- Reading an event keeps the invariant. -/
theorem Sighted.read {e : Event} (h : Sighted s) (hmode : s.mode = .drain ∨ s.mode = .redrain)
    (hwalk : s.walk = none) (hq : s.kernel.queue = e :: es) : Sighted (s.read e es) := by
  have hbefore : ¬ Doomed (s.read e es) → ¬ Doomed s :=
    fun hnot hd => hnot (hd.read hq hwalk)
  refine ⟨h.orderly.event hmode hq, fun hmode' hnot => ?_, fun hmode' hnot => ?_, fun hmode' => ?_⟩
  · exact (h.covers hmode' (hbefore hnot)).read h.orderly hq hwalk
  · obtain ⟨htells, hrem⟩ := h.tells hmode' (hbefore hnot)
    exact ⟨htells.read h.orderly hq hwalk, hrem.read h.orderly hq⟩
  · rw [show s.mode = .scan from hmode'] at hmode
    rcases hmode with hdrain | hredrain
    · cases hdrain
    · cases hredrain

/-- A step of a walk keeps the invariant. -/
theorem Sighted.walked {k : Kernel} {w : TreeWatch} {wk : Walk} {wk' : Option Walk}
    (h : Sighted s) (hwk : s.walk = some wk) (hstep : WalkStep s.tree s.kernel s.w wk k w wk') :
    Sighted (s.walked k w wk') := by
  have hbefore : ¬ Doomed (s.walked k w wk') → ¬ Doomed s :=
    fun hnot hd => hnot (hd.walked hwk hstep)
  refine ⟨h.orderly.step (.walk hwk hstep), fun hmode hnot => ?_, fun hmode hnot => ?_,
    fun hmode => (h.young hmode).walked h.orderly hstep.frame.1 wk' s.followed⟩
  · exact (h.covers hmode (hbefore hnot)).walked h.orderly hwk hstep hnot
  · obtain ⟨htells, hrem⟩ := h.tells hmode (hbefore hnot)
    have hmark : wk.mark = true := by
      rcases h.orderly.walks wk hwk with hscan | ⟨-, hmark⟩
      · have hbusy : s.mode = .idle ∨ s.mode = .drain := hmode
        rw [hscan] at hbusy
        rcases hbusy with hidle | hdrain
        · cases hidle
        · cases hdrain
      · exact hmark
    exact ⟨htells.walked h.orderly hwk hstep hnot hmark, hrem.walked h.orderly hstep⟩

/-- When nothing is left to be read or walked, what is covered is watched. -/
theorem Covered.watched (h : Covered s p) (hq : s.kernel.queue = []) (hwalk : s.walk = none) :
    ∃ wd, Watched s p wd := by
  rcases h with hw | ⟨q, -, hf⟩
  · exact hw
  · cases hf with
    | event _ he _ =>
      rw [hq] at he
      cases he
    | walk hwk _ =>
      rw [hwalk] at hwk
      cases hwk

/-- A watcher that has followed a link promises nothing; the events of a scan are what they were. -/
theorem Sighted.followed {k : Kernel} {w : TreeWatch} {wk : Walk} {wk' : Option Walk}
    (h : Sighted s) (hwk : s.walk = some wk) (hstep : FollowStep s.tree s.kernel s.w wk k w wk') :
    Sighted { s with kernel := k, w := w, walk := wk', followed := true } := by
  have hdoomed : Doomed { s with kernel := k, w := w, walk := wk', followed := true } :=
    Or.inr (Or.inr (Or.inr (Or.inr rfl)))
  exact ⟨h.orderly.step (.follow hwk hstep), fun _ hnot => absurd hdoomed hnot,
    fun _ hnot => absurd hdoomed hnot,
    fun hmode => (h.young hmode).walked h.orderly hstep.frame.1 wk' true⟩

/-- The event of a directory that is nowhere in the tree is not about an entry of it. -/
theorem Young.outside {e : Event} (h : Young s) (hwd : s.kernel.active.get? wd = some i)
    (hgone : ∀ p, ¬ s.tree.IsDir p i) (hfor : e.wd? = some wd) (hq : Queues s.kernel.queue [e] es) :
    Young { s with kernel := { s.kernel with queue := es } } := by
  intro wd' j d x what e' hwd' hd he hwhat hentry
  obtain ⟨b, rfl, hb⟩ := hq.append
  rcases List.mem_append.1 he with he | he
  · exact h wd' j d x what e' hwd' hd he hwhat hentry
  · rcases hb _ he with he | hover
    · rw [← List.mem_singleton.1 he] at hfor
      obtain rfl : wd' = wd := Option.some.inj hfor
      obtain rfl : i = j := Option.some.inj (hwd.symm.trans hwd')
      exact absurd hd (hgone d)
    · cases hover

/-- A watcher that promises something has followed no link. -/
theorem not_followed (h : ¬ Doomed s) : s.followed = false := by
  rw [← Bool.not_eq_true]
  exact fun hlink => h (Or.inr (Or.inr (Or.inr (Or.inr hlink))))

/-- When nothing is left to be read or walked, only the flags say that something may be missed. -/
theorem not_doomed (hq : s.kernel.queue = []) (hwalk : s.walk = none) (hfull : s.w.full = false)
    (hfollowed : s.followed = false) : ¬ Doomed s := by
  rintro (hdoomed | hover | ⟨wd, v, -, a, b, heq, -⟩ | ⟨wk, hwk, -⟩ | hlink)
  · rw [hfull] at hdoomed
    cases hdoomed
  · rw [hq] at hover
    cases hover
  · rw [hq] at heq
    simp at heq
  · rw [hwalk] at hwk
    cases hwk
  · rw [hfollowed] at hlink
    cases hlink

/-- What has just been looked at is known: nothing has changed since, and directories that are
watched are. -/
theorem remembers_of_now {since : ℕ} (hg : s.tree.Grown)
    (hknown : s.known = ⟨since, s.tree.clock, s.tree.entry⟩)
    (hheld : ∀ p i, Synced p → s.tree.IsDir p i → s.tree.Held since p → ∃ wd, Watched s p wd) :
    TellsAll s ∧ Remembers s := by
  have hnow : ∀ p, ¬ s.known.upto < s.tree.touched p := by
    intro p hlt
    have hpast := hg.past p
    rw [hknown] at hlt
    dsimp only at hlt
    omega
  refine ⟨fun p _ _ _ htouched => absurd htouched (hnow p), fun p _ hhas _ => ?_,
    fun p _ _ htouched => absurd htouched (hnow p), ?_⟩
  · rw [hknown] at hhas ⊢
    exact hhas
  · rw [hknown]
    exact hheld

/-- What is in sight does not depend on who asks. -/
theorem stays_mode (s : Sys) (m : Mode) (k : Known) (p : List Str) :
    Stays s { s with mode := m, known := k } p :=
  ⟨fun _ _ _ hw => hw, List.Subset.refl _, fun _ wk _ hwk hcomes => ⟨wk, hwk, hcomes⟩,
    List.Subset.refl _⟩

/-- Every step keeps the invariant, by cases on the step. -/
theorem Sighted.step {c : Option Changes} (h : Sighted s) (hstep : Step s c s') : Sighted s' := by
  have ho' := h.orderly.step hstep
  -- A doomed state promises nothing, so only the steps that end a drain or a scan have something
  -- to show: that nothing is left to be found.
  cases hstep with
  | change hc hq => exact h.change hc hq
  | reap hwd hgone hq => exact h.reaped hwd hgone hq
  | take hmode =>
    have hstays := fun p => stays_mode s .drain s.known p
    refine ⟨ho', fun _ hnot p i hp hi => ?_, fun _ hnot => ?_, fun hm => (by cases hm)⟩
    · exact (hstays p).covered (h.covers (Or.inl hmode) hnot p i hp hi)
    · obtain ⟨htells, hrem⟩ := h.tells (Or.inl hmode) hnot
      exact ⟨fun p hp hne hthere htouched => (hstays p).told (htells p hp hne hthere htouched),
        hrem.kept, hrem.told, hrem.held⟩
  | event hmode hwalk hq => exact h.read hmode hwalk hq
  | walk hwk hstep => exact h.walked hwk hstep
  | follow hwk hstep => exact h.followed hwk hstep
  | @outside e wd i q hlink hwd hgone hfor _ hq =>
    have hdoomed : Doomed { s with kernel := { s.kernel with queue := q } } :=
    Or.inr (Or.inr (Or.inr (Or.inr hlink)))
    exact ⟨ho', fun _ hnot => absurd hdoomed hnot, fun _ hnot => absurd hdoomed hnot,
      fun hmode => (h.young hmode).outside hwd hgone hfor hq⟩
  | drained hmode hwalk hq =>
    by_cases hfull : s.w.full = true
    · -- the watches are given up
      simp only [hfull, if_true] at ho' ⊢
      refine ⟨ho', fun hm => ?_, fun hm => ?_, fun hm => (by cases hm)⟩
      · rcases hm with hm | hm | hm
        · cases hm
        · cases hm
        · cases hm
      · rcases hm with hm | hm
        · cases hm
        · cases hm
    · simp only [Bool.not_eq_true] at hfull
      have hwatched : s.followed = false → ∀ p i, Synced p → s.tree.IsDir p i →
        ∃ wd, Watched s p wd :=
        fun hlink p i hp hi => (h.covers (Or.inr (Or.inl hmode))
          (not_doomed hq hwalk hfull hlink) p i hp hi).watched hq hwalk
      simp only [hfull, Bool.false_eq_true, if_false] at ho' ⊢
      refine ⟨ho', fun _ hnot p i hp hi => ?_, fun _ hnot => ?_, fun hm => (by cases hm)⟩
      · have hlink := not_followed hnot
        exact Or.inl (hwatched hlink p i hp hi)
      · have hlink := not_followed hnot
        exact remembers_of_now h.orderly.grown rfl fun p i hp hi _ => hwatched hlink p i hp hi
  | unwatch hmode hq =>
    refine ⟨ho', fun hm => ?_, fun hm => ?_, fun hm => (by cases hm)⟩
    · rcases hm with hm | hm | hm
      · cases hm
      · cases hm
      · cases hm
    · rcases hm with hm | hm
      · cases hm
      · cases hm
  | cleared hmode =>
    refine ⟨ho', fun hm => ?_, fun hm => ?_, fun hm => (by cases hm)⟩
    · rcases hm with hm | hm | hm
      · cases hm
      · cases hm
      · cases hm
    · rcases hm with hm | hm
      · cases hm
      · cases hm
  | redrained hmode hwalk hq =>
    refine ⟨ho', fun _ _ p i _ _ => Or.inr ⟨[], List.nil_prefix, .walk rfl .start⟩, fun hm => ?_,
      fun _ => ?_⟩
    · rcases hm with hm | hm
      · cases hm
      · cases hm
    · intro wd i d x what e _ _ he
      rw [show s.kernel.queue = [] from hq] at he
      cases he
  | scanned hmode hwalk =>
    have hcov : ¬ Doomed s → Covers s := h.covers (Or.inr (Or.inr hmode))
    refine ⟨ho', fun _ hnot p i hp hi => (stays_mode s _ _ p).covered (hcov hnot p i hp hi),
      fun _ hnot => ?_, fun hm => (by cases hm)⟩
    have hcov : Covers s := hcov hnot
    refine remembers_of_now h.orderly.grown rfl fun p i hp hi hheld => ?_
    rcases hcov p i hp hi with hw | ⟨q, hq, hf⟩
    · exact hw
    · -- what is still to be walked has a new name
      cases hf with
      | @event d x wd what hw he hwhat =>
        obtain ⟨j, hj, hwd, -⟩ := hw
        obtain ⟨e, hentry, hsince⟩ := hheld _ hq
        have hyoung := h.young hmode wd j d x what e hwd hj he hwhat hentry
        omega
      | walk hwk _ =>
        rw [hwalk] at hwk
        cases hwk

/-! ## Runs -/

/-- The invariant holds at the beginning: the first walk is due. -/
theorem Begins.sighted (h : Begins s) : Sighted s := by
  have hactive : ∀ wd, s.kernel.active.get? wd = none :=
    fun wd => by rw [h.kernel, Table.get?_empty]
  have hqueue : s.kernel.queue = [] := by rw [h.kernel]
  have hdirs : ∀ wd, s.w.dirs.get? wd = none := fun wd => by rw [h.w, Table.get?_empty]
  have hnone : ∀ {wd i}, s.kernel.active.get? wd ≠ some i :=
    fun {wd i} hsome => by rw [hactive wd] at hsome; cases hsome
  refine ⟨⟨h.grown, fun wd i hi => absurd hi hnone, fun wd i hi => absurd hi hnone,
    fun wd _ i hi => absurd hi hnone,
    fun wd i hi => absurd hi hnone, fun wd v hv => ?_, fun e wd he => ?_, fun _ _ => Or.inl h.mode,
    fun wds hm => ?_, fun hm => ?_,
    h.known.le, h.upto⟩, fun _ _ p i _ _ => ?_, fun hm => ?_, fun _ wd i d x what e hwd =>
    absurd hwd hnone⟩
  · rw [hdirs wd] at hv
    cases hv
  · rw [hqueue] at he
    cases he
  · rw [h.mode] at hm
    cases hm
  · rw [h.mode] at hm
    cases hm
  · exact Or.inr ⟨[], List.nil_prefix, .walk h.walk .start⟩
  · rw [h.mode] at hm
    rcases hm with hm | hm
    · cases hm
    · cases hm

/-- The invariant holds along every run. -/
theorem Sighted.run (h : Sighted s) (hrun : Runs s s') : Sighted s' := by
  induction hrun with
  | refl => exact h
  | tail _ hstep ih =>
    obtain ⟨c, hstep⟩ := hstep
    exact ih.step hstep

/-- An answer that does not say that everything may have changed, of a watcher whose walks have
followed no link since its watches were last made, has every path at which an entry that is there
now, or that was known before, has changed since. -/
theorem watcher_misses_nothing {s₀ s s' : Sys} (hbegins : Begins s₀) (hrun : Runs s₀ s)
    {c : Changes} (hstep : Step s (some c) s') (hfull : c.full = false)
    (hfollowed : s.followed = false) {p : List Str} (hplain : Plain p) (hne : p ≠ [])
    (hfree : isReservedVmPath (pathOf p) = false) (htouched : s.known.upto < s.tree.touched p)
    (hthere : s.tree.entry p ≠ none ∨ s.known.Has p) :
    pathOf p ∈ c.paths := by
  have h := hbegins.sighted.run hrun
  have hp : Synced p := synced_of_free hplain (Or.inr hfree)
  -- Only the end of a drain answers with changes. The queue is empty then, so what is told has no
  -- event left to wait for.
  cases hstep with
  | drained hmode hwalk hq =>
    have hnot : ¬ Doomed s := not_doomed hq hwalk hfull hfollowed
    obtain ⟨htells, hrem⟩ := h.tells (Or.inr hmode) hnot
    rcases hthere with hthere | hhas
    · rcases htells p hp hne hthere htouched with hpath | ⟨d, x, wd, what, isDir, -, -,
        he⟩ | ⟨q, -, hf⟩
      · exact hpath
      · rw [hq] at he
        cases he
      · cases hf with
        | event _ he _ =>
          rw [hq] at he
          cases he
        | walk hwk _ =>
          rw [hwalk] at hwk
          cases hwk
    · rcases hrem.told p hp hhas htouched hne with hpath | ⟨d, x, wd, what, isDir, -,
        ⟨a, b, heq, -⟩, -⟩
      · exact hpath
      · rw [hq] at heq
        simp at heq

/-! ### A run -/

/-- A tree with nothing in it. -/
def emptyTree : DirTree Str :=
  ⟨fun p => if p = [] then some ⟨.dir 0, 0⟩ else none, fun _ => 0, 0, 1⟩

/-- A watcher of it that begins. -/
def beginning : Sys :=
  ⟨emptyTree, ⟨Table.empty, 0, []⟩, ⟨Table.empty, [], false⟩, .scan,
    some ⟨false, .start (hostNames root), []⟩,
    ⟨0, 0, fun _ => none⟩, false⟩

/-- The watcher when it has looked at the tree. -/
def looked : Sys :=
  ⟨emptyTree, ⟨Table.empty.put 0 0, 1, []⟩,
    ⟨Table.empty.put 0 (vmPathOf (hostNames root)), [], false⟩, .idle, none,
    ⟨0, 0, emptyTree.entry⟩, false⟩

/-- A file has been made, and the event has been read. -/
def told : Sys :=
  { looked with
    tree := (Change.make [] "a".toList false).after emptyTree
    w := (looked.w.event (.entry 0 .created false "a".toList)).1
    mode := .drain }

/-- The empty tree has no entry. -/
theorem entry_emptyTree {p : List Str} {x : Str} :
    emptyTree.entry (p ++ [x]) = none := if_neg (by simp)

/-- The empty tree is grown from its root. -/
theorem grown_emptyTree : emptyTree.Grown where
  top := ⟨0, 0, rfl⟩
  parent p x h := absurd entry_emptyTree h
  inj := by
    rintro p q i ⟨_, hp⟩ ⟨_, hq⟩
    have hnil : ∀ {r : List Str} {e}, emptyTree.entry r = some e → r = [] := by
      intro r e hr
      by_contra hne
      rw [show emptyTree.entry r = none from if_neg hne] at hr
      cases hr
    rw [hnil hp, hnil hq]
  fresh := by
    rintro p i ⟨since, hp⟩
    unfold emptyTree at hp
    dsimp only at hp
    split_ifs at hp
    cases hp
    exact Nat.zero_lt_one
  since := by
    intro p e hp
    unfold emptyTree at hp
    dsimp only at hp
    split_ifs at hp
    cases hp
    exact le_refl _
  past _ := le_refl _

/-- The example begins as a watcher does. -/
theorem begins_beginning :
    Begins beginning := ⟨grown_emptyTree, rfl, rfl, rfl, rfl, rfl, le_refl _, rfl⟩

/-- The example's watcher walks the empty tree. -/
theorem runs_looked : Runs beginning looked := by
  have hroot : emptyTree.entry (hostNames root) = some ⟨.dir 0, 0⟩ := by decide
  refine .head ⟨none, .walk rfl (.dir hroot)⟩ (.head ⟨none, .walk rfl (.opened hroot)⟩
    (.head ⟨none, .walk rfl (.watch (by decide) hroot)⟩
      (.head ⟨none, .walk rfl (.leave ⟨0, rfl, fun p x e _ he => ?_⟩)⟩
      (.head ⟨none, .walk rfl .done⟩ (.single ⟨none, .scanned rfl rfl⟩)))))
  have hsome : emptyTree.entry (p ++ [x]) = some e := he
  rw [entry_emptyTree] at hsome
  cases hsome

/-- Then a directory is made, and the watcher is told. -/
theorem runs_told : Runs looked told := by
  have hmay : (Change.make [] "a".toList false).May emptyTree :=
    ⟨⟨0, 0, rfl⟩, entry_emptyTree (p := [])⟩
  have hwalk : (looked.w.event (.entry 0 .created false "a".toList)).2 = none := by decide +kernel
  refine .head ⟨none, .change hmay (.push (.nil _))⟩ (.head ⟨none, .take rfl⟩ (.single ⟨none, ?_⟩))
  have hevent := Step.event (s := { looked with
    tree := (Change.make [] "a".toList false).after emptyTree
    kernel := { looked.kernel with queue := [.entry 0 .created false "a".toList] }
    mode := .drain }) (Or.inl rfl) rfl rfl
  rw [hwalk] at hevent
  exact hevent

/-- The next answer of the example names the new directory. -/
theorem watcher_misses_nothing_told :
    ∃ c s', Step told (some c) s' ∧ pathOf ["a".toList] ∈ c.paths := by
  have hstep := Step.drained (s := told) rfl rfl rfl
  refine ⟨_, _, hstep, watcher_misses_nothing begins_beginning (runs_looked.trans runs_told) hstep
    (by decide +kernel) rfl ?_ (by simp)
    (by decide +kernel) ?_ (Or.inl ?_)⟩
  · intro x hx
    obtain rfl := List.mem_singleton.1 hx
    refine ⟨by decide, ?_⟩
    rintro ⟨c, hc, hblank⟩
    obtain rfl := Option.some.inj (Option.mem_def.1 hc)
    exact absurd hblank (by decide)
  · show 0 < Function.update emptyTree.touched ["a".toList] 1 ["a".toList]
    rw [Function.update_self]
    exact Nat.zero_lt_one
  · show Function.update emptyTree.entry ["a".toList] _ ["a".toList] ≠ none
    rw [Function.update_self]
    exact Option.some_ne_none _

end Dbvm.Watcher
