import Mathlib.Algebra.BigOperators.Group.List.Basic
import Dbvm.BundleCache

/-!
# The limit of the cache of bundle libraries

What `enforce_bundle_limit` (`src/bundle_cache.rs`) has done when it returns, whatever the other
processes did meanwhile. The books of its loop (`Evict.Balanced`) are kept by every step, and an
entry that it gives up as held was held in the state in which it was tried (`Books`). The last
theorem puts this together with what is known of the guards.
-/

namespace Dbvm.BundleCache

open Lib

variable {w w' : World} {p : ℕ} {proc proc' : Proc}

/-! ## The limit -/

/-- What the entries that were tried and not removed have in total. -/
def Evict.kept (ev : Evict) : ℕ :=
  ((ev.tried.filter fun r => r.2 ≠ .removed).map fun r => r.1.size).sum

/-- The books of the loop: `now` are the entries at hand. -/
structure Evict.Balanced (ev : Evict) (now : List Item) : Prop where
  /-- The total is that of the entries that were not removed. -/
  total : ev.total = ev.kept + (now.map Item.size).sum + (ev.todo.map Item.size).sum
  /-- Every listed entry was tried, is at hand or is to come. -/
  items : (ev.tried.map Prod.fst ++ now ++ ev.todo).Perm ev.items

/-- The books of the loop, at each of its calls. -/
def Task.Balanced : Task → Prop
  | .evicting ev => ev.Balanced []
  | .trying ev item => ev.Balanced [item]
  | .grabbing ev item => ev.Balanced [item]
  | .removing ev item => ev.Balanced [item]
  | .closing ev => ev.Balanced []
  | .returned ev => ev.Balanced [] ∧ (ev.total ≤ ev.maxBytes ∨ ev.todo = [])
  | _ => True

/-- The books balance before the first entry is tried. -/
theorem balanced_start (maxBytes : ℕ) (items : List Item) :
    (Evict.start maxBytes items).Balanced [] := by
  have hperm : (items.insertionSort fun a b => a.mtime ≤ b.mtime).Perm items :=
    List.perm_insertionSort _ _
  refine ⟨?_, ?_⟩
  · simp only [Evict.start, Evict.kept, List.filter_nil, List.map_nil, List.sum_nil, Nat.zero_add]
    exact (hperm.map Item.size).sum_eq.symm
  · simpa [Evict.start] using hperm

/-- An entry that is tried and stays. -/
theorem Evict.Balanced.skip {ev : Evict} {item : Item} (h : ev.Balanced [item]) {v : Verdict}
    (hv : v ≠ .removed) :
    (ev.skip item v).Balanced [] := by
  refine ⟨?_, ?_⟩
  · have htotal := h.total
    simp only [Evict.skip, Evict.kept, List.filter_append, List.map_append,
      List.sum_append] at htotal ⊢
    simp [hv] at htotal ⊢
    omega
  · simpa [Evict.skip] using h.items

/-- Dropping an entry that was being tried keeps the books balanced. -/
theorem Evict.Balanced.drop {ev : Evict} {item : Item} (h : ev.Balanced [item]) :
    (ev.drop item).Balanced [] := by
  refine ⟨?_, ?_⟩
  · have htotal := h.total
    simp only [Evict.drop, Evict.kept, List.filter_append, List.map_append,
      List.sum_append] at htotal ⊢
    simp at htotal ⊢
    omega
  · simpa [Evict.drop] using h.items

/-- The entries that were tried. -/
def Task.tried : Task → List (Item × Verdict)
  | .evicting ev => ev.tried
  | .trying ev _ => ev.tried
  | .grabbing ev _ => ev.tried
  | .removing ev _ => ev.tried
  | .closing ev => ev.tried
  | .returned ev => ev.tried
  | _ => []

/-- A process tries to lock an entry on which there is another lock. -/
def World.Blocks (w : World) (p : ℕ) (item : Item) : Prop :=
  ∃ proc ev x, w.procs.get? p = some proc ∧ proc.task = .grabbing ev item ∧
    w.files.desc.get? (p, none) = some x ∧ w.files.blocked (p, none) .exclusive x.ino = true

/-- What a step does to the loop of a process. -/
structure Looped (w : World) (p : ℕ) (task task' : Task) : Prop where
  /-- The books are kept. -/
  balanced : task.Balanced → task'.Balanced
  /-- An entry that is given up as held is held. -/
  tried : ∀ item, (item, Verdict.held) ∈ task'.tried → (item, Verdict.held) ∈ task.tried ∨
    w.Blocks p item

/-- A step that leaves the task alone. -/
theorem Looped.refl (task : Task) : Looped w p task task := ⟨id, fun _ h => Or.inl h⟩

/-- A task that is not in the loop has no books to keep. -/
theorem Looped.out {task task' : Task} (hb : task'.Balanced) (ht : task'.tried = []) :
    Looped w p task task' := by
  refine ⟨fun _ => hb, ?_⟩
  intro item h
  rw [ht] at h
  cases h

/-- A job that goes on has not touched the loop. -/
theorem Looped.continue (job : Job) (written : ℕ) (task : Task) :
    Looped w p task (job.continue written) := by
  unfold Job.continue
  split
  · exact Looped.out trivial rfl
  · split_ifs
    · exact Looped.out trivial rfl
    · exact Looped.out trivial rfl

/-- What follows a hold is no part of a loop under way. -/
theorem Looped.afterHold (job : Option Job) (task : Task) :
    Looped w p task (BundleCache.afterHold job) := by
  cases job with
  | none => exact Looped.out trivial rfl
  | some j => exact Looped.out trivial rfl

/-- An entry stays for another reason than a lock. -/
theorem Looped.skip (ev : Evict) (item : Item) {task : Task} {v : Verdict}
    (hb : task.Balanced → ev.Balanced [item]) (ht : task.tried = ev.tried) (hv : v ≠ .removed)
    (hheld : v ≠ .held) {task' : Task} (hb' : (ev.skip item v).Balanced [] → task'.Balanced)
    (ht' : task'.tried = (ev.skip item v).tried) :
    Looped w p task task' := by
  refine ⟨fun h => hb' ((hb h).skip hv), ?_⟩
  intro i hi
  rw [ht', Evict.skip] at hi
  obtain hi | hi := List.mem_append.1 hi
  · exact Or.inl (ht ▸ hi)
  · exact absurd (Prod.mk.inj (List.mem_singleton.1 hi)).2.symm hheld

/-- A process goes on with its new task. -/
@[simp] theorem World.procs_goto (w : World) (p : ℕ) (proc : Proc) (task : Task) :
    (w.goto p proc task).procs.get? p = some { proc with task := task } := by
  simp [World.goto]

/-- A process goes on with its new task when the files change. -/
@[simp] theorem World.procs_withFiles (w : World) (files : FileDir Str Fd) (p : ℕ) (proc : Proc)
    (task : Task) :
    (w.withFiles files p proc task).procs.get? p = some { proc with task := task } := by
  simp [World.withFiles]

/-- A call of a process keeps the books of its loop. -/
theorem looped_call {now : ℤ} (hp : w.procs.get? p = some proc) (hw : w.call p now = some w')
    (hp' : w'.procs.get? p = some proc') : Looped w p proc.task proc'.task := by
  unfold World.call at hw
  rw [hp, Option.bind_some] at hw
  have hgoto : ∀ {v : World} {q : Proc} {task : Task}, v.goto p q task = w' →
    proc'.task = task := by
    rintro v q task rfl
    rw [World.procs_goto] at hp'
    exact congrArg Proc.task (Option.some.inj hp').symm
  have hfiles : ∀ {files : FileDir Str Fd} {q : Proc} {task : Task},
      w.withFiles files p q task = w' →
      proc'.task = task := by
    rintro files q task rfl
    rw [World.procs_withFiles] at hp'
    exact congrArg Proc.task (Option.some.inj hp').symm
  cases ht : proc.task with
  | idle =>
    rw [ht] at hw
    cases hw
  | opening entry job =>
    rw [ht] at hw
    dsimp only at hw
    split at hw
    · rw [hfiles (Option.some.inj hw)]
      exact Looped.out trivial rfl
    · rw [hgoto (Option.some.inj hw)]
      exact Looped.afterHold job _
  | locking entry job =>
    rw [ht] at hw
    obtain ⟨files, -, hw⟩ := Option.map_eq_some_iff.1 hw
    rw [hfiles hw]
    exact Looped.afterHold job _
  | stat job =>
    rw [ht] at hw
    rw [hgoto (Option.some.inj hw)]
    split_ifs
    · exact Looped.out trivial rfl
    · exact Looped.out trivial rfl
  | writing job =>
    rw [ht] at hw
    dsimp only at hw
    split at hw
    · rw [hgoto (Option.some.inj hw)]
      exact Looped.out trivial rfl
    · rw [hgoto (Option.some.inj hw)]
      exact Looped.continue job _ _
  | moving job =>
    rw [ht] at hw
    dsimp only at hw
    split at hw
    · rw [hfiles (Option.some.inj hw)]
      exact Looped.out trivial rfl
    · rw [hgoto (Option.some.inj hw)]
      exact Looped.out trivial rfl
  | cleanup job ok =>
    rw [ht] at hw
    dsimp only at hw
    split at hw
    · rw [hfiles (Option.some.inj hw)]
      split_ifs
      · exact Looped.out trivial rfl
      · exact Looped.continue job _ _
    · rw [hgoto (Option.some.inj hw)]
      split_ifs
      · exact Looped.out trivial rfl
      · exact Looped.continue job _ _
  | linking job =>
    rw [ht] at hw
    dsimp only at hw
    split_ifs at hw
    · rw [hgoto (Option.some.inj hw)]
      exact Looped.continue job _ _
    · rw [hgoto (Option.some.inj hw)]
      exact Looped.out trivial rfl
  | aliasing job =>
    rw [ht] at hw
    dsimp only at hw
    split_ifs at hw
    · rw [hgoto (Option.some.inj hw)]
      exact Looped.continue job _ _
    · rw [hgoto (Option.some.inj hw)]
      exact Looped.continue job _ _
  | listing maxBytes items =>
    rw [ht] at hw
    rw [hgoto (Option.some.inj hw)]
    exact Looped.out (balanced_start maxBytes items) rfl
  | listed maxBytes items n =>
    rw [ht] at hw
    dsimp only at hw
    split at hw
    · rw [hgoto (Option.some.inj hw)]
      exact Looped.out trivial rfl
    · rw [hgoto (Option.some.inj hw)]
      exact Looped.out trivial rfl
  | evicting ev =>
    rw [ht] at hw
    dsimp only at hw
    split at hw
    next item todo htodo =>
      rw [hgoto (Option.some.inj hw)]
      split_ifs with hle
      · exact ⟨fun hb => ⟨hb, Or.inl hle⟩, fun i hi => Or.inl hi⟩
      · refine ⟨fun hb => ⟨?_, ?_⟩, fun i hi => Or.inl hi⟩
        · have htotal := hb.total
          rw [htodo] at htotal
          simpa [Evict.kept, Nat.add_assoc] using htotal
        · have hitems := hb.items
          rw [htodo] at hitems
          simpa using hitems
    next htodo =>
      rw [hgoto (Option.some.inj hw)]
      exact ⟨fun hb => ⟨hb, Or.inr htodo⟩, fun i hi => Or.inl hi⟩
  | trying ev item =>
    rw [ht] at hw
    dsimp only at hw
    split at hw
    · rw [hfiles (Option.some.inj hw)]
      exact ⟨fun hb => hb, fun i hi => Or.inl hi⟩
    · rw [hgoto (Option.some.inj hw)]
      refine Looped.skip ev item ?_ rfl (by simp) (by simp) ?_ rfl
      · exact fun hb => hb
      · exact fun hb => hb
  | grabbing ev item =>
    rw [ht] at hw
    obtain ⟨x, hx, hw⟩ := Option.bind_eq_some_iff.1 hw
    split at hw
    · rw [hfiles (Option.some.inj hw)]
      exact ⟨fun hb => hb, fun i hi => Or.inl hi⟩
    next hnone =>
      -- the lock is refused because there is another one
      rw [hfiles (Option.some.inj hw)]
      refine ⟨fun hb => Evict.Balanced.skip hb (by simp), ?_⟩
      intro i hi
      obtain hi | hi := List.mem_append.1 hi
      · exact Or.inl hi
      · obtain rfl := (Prod.mk.inj (List.mem_singleton.1 hi)).1
        refine Or.inr ⟨proc, ev, x, hp, ht, hx, ?_⟩
        unfold FileDir.flock? at hnone
        rw [hx] at hnone
        by_contra hb
        dsimp only at hnone
        rw [if_neg hb] at hnone
        cases hnone
  | removing ev item =>
    rw [ht] at hw
    dsimp only at hw
    split at hw
    · rw [hfiles (Option.some.inj hw)]
      refine ⟨fun hb => Evict.Balanced.drop hb, ?_⟩
      intro i hi
      obtain hi | hi := List.mem_append.1 hi
      · exact Or.inl hi
      · cases (Prod.mk.inj (List.mem_singleton.1 hi)).2
    · rw [hgoto (Option.some.inj hw)]
      refine Looped.skip ev item ?_ rfl (by simp) (by simp) ?_ rfl
      · exact fun hb => hb
      · exact fun hb => hb
  | closing ev =>
    rw [ht] at hw
    rw [hfiles (Option.some.inj hw)]
    exact ⟨fun hb => hb, fun i hi => Or.inl hi⟩
  | returned ev =>
    rw [ht] at hw
    rw [hgoto (Option.some.inj hw)]
    exact Looped.out trivial rfl

/-- A call that fails and the loop of its process. -/
theorem looped_fails (hp : w.procs.get? p = some proc) (hw : w.fails p = some w')
    (hp' : w'.procs.get? p = some proc') : Looped w p proc.task proc'.task := by
  unfold World.fails at hw
  rw [hp, Option.bind_some] at hw
  have hgoto : ∀ {q : Proc} {task : Task}, w.goto p q task = w' → proc'.task = task := by
    rintro q task rfl
    rw [World.procs_goto] at hp'
    exact congrArg Proc.task (Option.some.inj hp').symm
  -- A call that fails goes on as the source does, and skips the entry at hand in the loop.
  cases ht : proc.task with
  | opening entry job =>
    rw [ht] at hw
    rw [hgoto (Option.some.inj hw)]
    exact Looped.afterHold job _
  | locking entry job =>
    rw [ht] at hw
    obtain rfl := Option.some.inj hw
    rw [World.procs_withFiles] at hp'
    rw [← Option.some.inj hp']
    exact Looped.afterHold job _
  | stat job =>
    rw [ht] at hw
    rw [hgoto (Option.some.inj hw)]
    exact Looped.out trivial rfl
  | writing job =>
    rw [ht] at hw
    rw [hgoto (Option.some.inj hw)]
    exact Looped.out trivial rfl
  | moving job =>
    rw [ht] at hw
    rw [hgoto (Option.some.inj hw)]
    exact Looped.out trivial rfl
  | cleanup job ok =>
    rw [ht] at hw
    rw [hgoto (Option.some.inj hw)]
    split_ifs
    · exact Looped.out trivial rfl
    · exact Looped.continue job _ _
  | linking job =>
    rw [ht] at hw
    rw [hgoto (Option.some.inj hw)]
    exact Looped.out trivial rfl
  | aliasing job =>
    rw [ht] at hw
    rw [hgoto (Option.some.inj hw)]
    exact Looped.continue job _ _
  | listing maxBytes items =>
    rw [ht] at hw
    rw [hgoto (Option.some.inj hw)]
    exact Looped.out trivial rfl
  | listed maxBytes items n =>
    rw [ht] at hw
    rw [hgoto (Option.some.inj hw)]
    exact Looped.out trivial rfl
  | trying ev item =>
    rw [ht] at hw
    rw [hgoto (Option.some.inj hw)]
    refine Looped.skip ev item ?_ rfl (by simp) (by simp) ?_ rfl
    · exact fun hb => hb
    · exact fun hb => hb
  | removing ev item =>
    rw [ht] at hw
    rw [hgoto (Option.some.inj hw)]
    refine Looped.skip ev item ?_ rfl (by simp) (by simp) ?_ rfl
    · exact fun hb => hb
    · exact fun hb => hb
  | _ =>
    rw [ht] at hw
    cases hw

/-! ## Processes do not touch each other's descriptions -/

/-- A process changes its own descriptions only, and its own state. -/
structure Own (p : ℕ) (w w' : World) : Prop where
  /-- The descriptions of the others. -/
  desc : ∀ d : Fd, d.1 ≠ p → w'.files.desc.get? d = w.files.desc.get? d
  /-- The others. -/
  procs : ∀ q, q ≠ p → w'.procs.get? q = w.procs.get? q

/-- Going on is a process's own business. -/
theorem own_goto (w : World) (p : ℕ) (proc : Proc) (task : Task) : Own p w (w.goto p proc task) :=
  ⟨fun _ _ => rfl, fun q hq => by simp [World.goto, hq]⟩

/-- A change of the files is the process's own when the other descriptors stay. -/
theorem own_withFiles {files : FileDir Str Fd} (proc : Proc) (task : Task)
    (h : ∀ d : Fd, d.1 ≠ p → files.desc.get? d = w.files.desc.get? d) :
    Own p w (w.withFiles files p proc task) :=
  ⟨h, fun q hq => by simp [World.withFiles, hq]⟩

/-- An open adds a descriptor of the process. -/
theorem own_open {files : FileDir Str Fd} {k : Option ℕ} {n : Str}
    (hfiles : w.files.open? (p, k) n = some files) (proc : Proc) (task : Task) :
    Own p w (w.withFiles files p proc task) := by
  obtain ⟨ino, -, rfl⟩ := FileDir.open?_ok hfiles
  refine own_withFiles proc task fun d hd => ?_
  have hne : d ≠ (p, k) := fun he => hd (he ▸ rfl)
  simp [hne]

/-- A lock is put at a descriptor of the process. -/
theorem own_flock {files : FileDir Str Fd} {k : Option ℕ} {l : Lock}
    (hfiles : w.files.flock? (p, k) l = some files) (proc : Proc) (task : Task) :
    Own p w (w.withFiles files p proc task) := by
  obtain ⟨x, -, -, rfl⟩ := FileDir.flock?_ok hfiles
  refine own_withFiles proc task fun d hd => ?_
  have hne : d ≠ (p, k) := fun he => hd (he ▸ rfl)
  simp [hne]

/-- A close drops a descriptor of the process. -/
theorem own_close (k : Option ℕ) (proc : Proc) (task : Task) :
    Own p w (w.withFiles (w.files.close (p, k)) p proc task) := by
  refine own_withFiles proc task fun d hd => ?_
  have hne : d ≠ (p, k) := fun he => hd (he ▸ rfl)
  simp [FileDir.close, hne]

/-- An unlink changes no descriptor. -/
theorem own_unlink {files : FileDir Str Fd} {n : Str} (hfiles : w.files.unlink? n = some files)
    (proc : Proc) (task : Task) : Own p w (w.withFiles files p proc task) := by
  obtain rfl := FileDir.unlink?_ok hfiles
  exact own_withFiles proc task fun _ _ => rfl

/-- Every call changes the descriptors of its own process only. -/
theorem own_call {now : ℤ} (hw : w.call p now = some w') : Own p w w' := by
  unfold World.call at hw
  obtain ⟨proc, hp, hw⟩ := Option.bind_eq_some_iff.1 hw
  -- In the order of the tasks; only opens, locks, closes and removals touch descriptors.
  split at hw
  · cases hw
  · split at hw
    next files hfiles =>
      obtain rfl := Option.some.inj hw
      exact own_open hfiles _ _
    · obtain rfl := Option.some.inj hw
      exact own_goto ..
  · obtain ⟨files, hfiles, rfl⟩ := Option.map_eq_some_iff.1 hw
    exact own_flock hfiles _ _
  · obtain rfl := Option.some.inj hw
    exact own_goto ..
  · split at hw
    · obtain rfl := Option.some.inj hw
      refine ⟨?_, ?_⟩
      · intro d _
        unfold World.write
        split <;> rfl
      · intro q hq
        unfold World.write
        split <;> simp [World.goto, hq]
    · obtain rfl := Option.some.inj hw
      exact own_goto ..
  · split at hw
    next files hfiles =>
      obtain rfl := Option.some.inj hw
      obtain ⟨ino, -, rfl⟩ := FileDir.rename?_ok hfiles
      exact own_withFiles _ _ fun _ _ => rfl
    · obtain rfl := Option.some.inj hw
      exact own_goto ..
  · dsimp only at hw
    split at hw
    next files hfiles =>
      obtain rfl := Option.some.inj hw
      exact own_unlink hfiles _ _
    · obtain rfl := Option.some.inj hw
      exact own_goto ..
  · split_ifs at hw
    · obtain rfl := Option.some.inj hw
      exact own_goto ..
    · obtain rfl := Option.some.inj hw
      exact own_goto ..
  · dsimp only at hw
    split_ifs at hw
    · obtain rfl := Option.some.inj hw
      exact own_goto ..
    · obtain rfl := Option.some.inj hw
      exact own_goto ..
  · obtain rfl := Option.some.inj hw
    exact own_goto ..
  · split at hw
    · obtain rfl := Option.some.inj hw
      exact own_goto ..
    · obtain rfl := Option.some.inj hw
      exact own_goto ..
  · split at hw
    · obtain rfl := Option.some.inj hw
      exact own_goto ..
    · obtain rfl := Option.some.inj hw
      exact own_goto ..
  · split at hw
    next files hfiles =>
      obtain rfl := Option.some.inj hw
      exact own_open hfiles _ _
    · obtain rfl := Option.some.inj hw
      exact own_goto ..
  · obtain ⟨x, -, hw⟩ := Option.bind_eq_some_iff.1 hw
    split at hw
    next files hfiles =>
      obtain rfl := Option.some.inj hw
      exact own_flock hfiles _ _
    · obtain rfl := Option.some.inj hw
      exact own_close ..
  · split at hw
    next files hfiles =>
      obtain rfl := Option.some.inj hw
      exact own_unlink hfiles _ _
    · obtain rfl := Option.some.inj hw
      exact own_goto ..
  · obtain rfl := Option.some.inj hw
    exact own_close ..
  · obtain rfl := Option.some.inj hw
    exact own_goto ..

/-- A call that fails changes no descriptor. -/
theorem own_fails (hw : w.fails p = some w') : Own p w w' := by
  unfold World.fails at hw
  obtain ⟨proc, hp, hw⟩ := Option.bind_eq_some_iff.1 hw
  split at hw <;> first
    | cases hw
      exact own_goto ..
    | cases hw
      exact own_close ..
    | cases hw

/-- The process an event is about. -/
def Event.pid : Event → ℕ
  | .start p => p
  | .hold p _ => p
  | .drop p _ => p
  | .extract p _ _ _ => p
  | .enforce p _ => p
  | .call p _ => p
  | .name p _ => p
  | .fails p => p
  | .kill p => p

/-- A task begins with what the process has. -/
theorem own_begin {task : Task} (hw : w.begin p task = some w') : Own p w w' := by
  unfold World.begin at hw
  obtain ⟨proc, hp, hw⟩ := Option.bind_eq_some_iff.1 hw
  split_ifs at hw
  obtain rfl := Option.some.inj hw
  exact own_goto ..

/-- Every step changes the descriptors of its own process only. -/
theorem own_step {e : Event} (hw : w.step e = some w') : Own e.pid w w' := by
  -- One case for each event; a call has a lemma of its own.
  cases e with
  | start p =>
    unfold World.step at hw
    dsimp only at hw
    split_ifs at hw
    obtain rfl := Option.some.inj hw
    exact ⟨fun _ _ => rfl, fun q hq => by simp [show q ≠ p from hq]⟩
  | hold p entry => exact own_begin hw
  | drop p n =>
    obtain ⟨proc, hp, hw⟩ := Option.bind_eq_some_iff.1 hw
    split_ifs at hw
    obtain rfl := Option.some.inj hw
    exact own_close ..
  | extract p obj rest maxBytes => exact own_begin hw
  | enforce p maxBytes => exact own_begin hw
  | call p now => exact own_call hw
  | name p n =>
    obtain ⟨proc, hp, hw⟩ := Option.bind_eq_some_iff.1 hw
    split at hw
    next =>
      obtain rfl := Option.some.inj hw
      exact own_goto ..
    next => cases hw
  | fails p => exact own_fails hw
  | kill p =>
    obtain rfl := Option.some.inj hw
    refine ⟨?_, ?_⟩
    · intro d hd
      have hd' : d.1 ≠ p := hd
      rw [FileDir.get?_closeAll]
      simp [hd']
    · intro q hq
      have hq' : q ≠ p := hq
      simp [hq']

/-- What an event does to the loop of a process: nothing, a step of the loop, or the process is new.
-/
theorem looped_step {e : Event} (hw : w.step e = some w') (hp' : w'.procs.get? p = some proc') :
    (∃ proc, w.procs.get? p = some proc ∧ Looped w p proc.task proc'.task) ∨
    proc'.task = .idle := by
  have hown := own_step hw
  -- An event of another process does not reach this one.
  by_cases hne : p = e.pid
  · have hbegin : ∀ {task : Task}, w.begin p task = some w' → task.Balanced → task.tried = [] →
        ∃ proc, w.procs.get? p = some proc ∧ Looped w p proc.task proc'.task := by
      intro task hw hb ht
      unfold World.begin at hw
      obtain ⟨proc, hp, hw⟩ := Option.bind_eq_some_iff.1 hw
      split_ifs at hw
      obtain rfl := Option.some.inj hw
      rw [World.procs_goto] at hp'
      rw [← Option.some.inj hp']
      exact ⟨proc, hp, Looped.out hb ht⟩
    cases e with
    | start q =>
      obtain rfl : p = q := hne
      unfold World.step at hw
      dsimp only at hw
      split_ifs at hw
      obtain rfl := Option.some.inj hw
      simp only [Table.get?_set, if_true] at hp'
      exact Or.inr (Option.some.inj hp' ▸ rfl)
    | hold q entry =>
      obtain rfl : p = q := hne
      exact Or.inl (hbegin hw trivial rfl)
    | drop q n =>
      obtain rfl : p = q := hne
      obtain ⟨proc, hp, hw⟩ := Option.bind_eq_some_iff.1 hw
      split_ifs at hw
      obtain rfl := Option.some.inj hw
      rw [World.procs_withFiles] at hp'
      rw [← Option.some.inj hp']
      exact Or.inl ⟨proc, hp, Looped.refl _⟩
    | extract q obj rest maxBytes =>
      obtain rfl : p = q := hne
      exact Or.inl (hbegin hw trivial rfl)
    | enforce q maxBytes =>
      obtain rfl : p = q := hne
      exact Or.inl (hbegin hw trivial rfl)
    | call q now =>
      obtain rfl : p = q := hne
      cases hp : w.procs.get? p with
      | none =>
        have hw' : w.call p now = some w' := hw
        unfold World.call at hw'
        rw [hp] at hw'
        cases hw'
      | some proc => exact Or.inl ⟨proc, rfl, looped_call hp hw hp'⟩
    | name q n =>
      obtain rfl : p = q := hne
      obtain ⟨proc, hp, hw⟩ := Option.bind_eq_some_iff.1 hw
      split at hw
      next =>
        obtain rfl := Option.some.inj hw
        rw [World.procs_goto] at hp'
        rw [← Option.some.inj hp']
        exact Or.inl ⟨proc, hp, Looped.out trivial rfl⟩
      next => cases hw
    | fails q =>
      obtain rfl : p = q := hne
      cases hp : w.procs.get? p with
      | none =>
        have hw' : w.fails p = some w' := hw
        unfold World.fails at hw'
        rw [hp] at hw'
        cases hw'
      | some proc => exact Or.inl ⟨proc, rfl, looped_fails hp hw hp'⟩
    | kill q =>
      obtain rfl : p = q := hne
      obtain rfl := Option.some.inj hw
      simp at hp'
  · rw [hown.procs p hne] at hp'
    exact Or.inl ⟨proc', hp', Looped.refl _⟩

/-! ## What a launch can rely on -/

/-- Two runs are run one after the other. -/
theorem World.run_append (w : World) :
    ∀ (es es' : List Event), w.run (es ++ es') = (w.run es).bind fun w' => w'.run es' := by
  intro es
  induction es generalizing w with
  | nil => intro es'; rfl
  | cons e es ih =>
    intro es'
    show (w.step e).bind (fun w' => w'.run (es ++ es')) = ((w.step e).bind fun w' => w'.run es).bind
      _
    cases w.step e with
    | none => rfl
    | some w₁ => exact ih w₁ es'

/-- The books of the loops of all processes in a run. -/
structure Books (es : List Event) (w : World) : Prop where
  /-- They are balanced. -/
  balanced : ∀ p proc, w.procs.get? p = some proc → proc.task.Balanced
  /-- An entry that was given up as held was held when it was tried. -/
  tried : ∀ p proc item, w.procs.get? p = some proc → (item, Verdict.held) ∈ proc.task.tried →
    ∃ es₁ es₂ w₁, es = es₁ ++ es₂ ∧ World.init.run es₁ = some w₁ ∧ w₁.Blocks p item

/-- Every step keeps the books of all loops. -/
theorem Books.step {es : List Event} {e : Event} (h : Books es w)
    (hrun : World.init.run es = some w) (hw : w.step e = some w') : Books (es ++ [e]) w' := by
  refine ⟨?_, ?_⟩
  · intro p proc' hp'
    obtain ⟨proc, hp, hl⟩ | hidle := looped_step hw hp'
    · exact hl.balanced (h.balanced p proc hp)
    · rw [hidle]
      trivial
  · intro p proc' item hp' hi
    obtain ⟨proc, hp, hl⟩ | hidle := looped_step hw hp'
    · obtain hi | hblocks := hl.tried item hi
      · obtain ⟨es₁, es₂, w₁, rfl, hrun₁, hb⟩ := h.tried p proc item hp hi
        exact ⟨es₁, es₂ ++ [e], w₁, List.append_assoc _ _ _, hrun₁, hb⟩
      · exact ⟨es, [e], w, rfl, hrun, hblocks⟩
    · rw [hidle] at hi
      cases hi

/-- The books of every run, by induction from its end. -/
theorem books_of_run {es : List Event} (hrun : World.init.run es = some w) : Books es w := by
  induction es using List.reverseRecOn generalizing w with
  | nil =>
    obtain rfl := Option.some.inj hrun
    exact ⟨fun _ _ h => (by cases h), fun _ _ _ h => (by cases h)⟩
  | append_singleton es e ih =>
    rw [World.run_append] at hrun
    obtain ⟨w₁, hrun₁, hlast⟩ := Option.bind_eq_some_iff.1 hrun
    obtain ⟨w₂, hstep, hrest⟩ := Option.bind_eq_some_iff.1 hlast
    obtain rfl := Option.some.inj hrest
    exact (ih hrun₁).step hrun₁ hstep

/-- The entries a pass has left: those it tried and did not remove, and those it did not come to. -/
def Evict.left (ev : Evict) : List Item :=
  (ev.tried.filter fun r => r.2 ≠ .removed).map Prod.fst ++ ev.todo

/-- When `enforce_bundle_limit` has returned, what is left of the listed entries is within the
limit, or each of them was tried, and was held then or could not be opened or removed. -/
def World.Enforced (es : List Event) (w : World) : Prop :=
  ∀ p proc ev, w.procs.get? p = some proc → proc.task = .returned ev →
    ((ev.left.map Item.size).sum = ev.total ∧ (ev.tried.map Prod.fst ++ ev.todo).Perm ev.items) ∧
    (ev.total ≤ ev.maxBytes ∨ ∀ item ∈ ev.left, (item, .notOpened) ∈ ev.tried ∨
      (item, .notRemoved) ∈ ev.tried ∨
      ∃ es₁ es₂ w₁, es = es₁ ++ es₂ ∧ World.init.run es₁ = some w₁ ∧ w₁.Blocks p item)

/-- In every run the limit is enforced whenever an enforcement has returned. -/
theorem enforced_of_run {es : List Event} (hrun : World.init.run es = some w) : w.Enforced es := by
  intro p proc ev hp ht
  -- The books of the process balance in every state of a run; here its loop is at the end.
  have hbooks := books_of_run hrun
  have hbal := hbooks.balanced p proc hp
  rw [ht] at hbal
  obtain ⟨hbal, hend⟩ := hbal
  refine ⟨⟨?_, ?_⟩, ?_⟩
  · have htotal := hbal.total
    simp only [List.map_nil, List.sum_nil, Nat.add_zero] at htotal
    rw [htotal, Evict.left, List.map_append, List.sum_append, List.map_map]
    rfl
  · simpa using hbal.items
  · obtain hle | htodo := hend
    · exact Or.inl hle
    · refine Or.inr fun item hitem => ?_
      unfold Evict.left at hitem
      rw [htodo, List.append_nil] at hitem
      obtain ⟨⟨item', v⟩, hmem, rfl⟩ := List.mem_map.1 hitem
      obtain ⟨hmem, hv⟩ := List.mem_filter.1 hmem
      cases v with
      | removed => simp at hv
      | notOpened => exact Or.inl hmem
      | notRemoved => exact Or.inr (Or.inl hmem)
      | held =>
        have hheld : (item', Verdict.held) ∈ proc.task.tried := by
          rw [ht]
          exact hmem
        exact Or.inr (Or.inr (hbooks.tried p proc item' hp hheld))

/-- In every run, `enforce_bundle_limit` keeps to its limit as far as it can; and when every event
is calm, every guard's entry exists and is the file it has locked. -/
theorem guardsStand_of_calm {w : World} {es : List Event} (hrun : World.init.run es = some w) :
    w.Enforced es ∧ (calmRun .init es → w.GuardsStand) :=
  ⟨enforced_of_run hrun, fun hcalm => (inv_init.run hcalm hrun).guardsStand⟩

/-- Process 1 launches a bundle with one library: it finds no entry, makes it, links it and holds
it. -/
def launch : List Event :=
  [.start 1, .extract 1 ⟨['a'], ['l'], ['l'], some 5, some 5⟩ [] 10, .call 1 0, .call 1 0,
    .call 1 0, .call 1 0,
    .call 1 0, .call 1 0, .call 1 0]

/-- Process 2 then has the cache emptied: the entry is listed, found held, and stays. -/
def emptied : List Event :=
  launch ++ [.start 2, .enforce 2 0, .name 2 ['a'], .call 2 0, .call 2 0, .call 2 0, .call 2 0,
    .call 2 0, .call 2 0]

/-- A run in which an enforcement empties the cache while a guard is held. -/
theorem guardsStand_of_calm_emptied :
    ∃ w, World.init.run emptied = some w ∧ w.Held ['a'] ∧ w.Enforced emptied ∧ w.GuardsStand := by
  have hrun : (World.init.run emptied).any (fun w => w.held ['a']) = true := by decide +kernel
  obtain ⟨w, hw, hheld⟩ := (Option.any_eq_true _ _).1 hrun
  have hcalm : calmRun .init emptied = true := by decide +kernel
  obtain ⟨henforced, hstand⟩ := guardsStand_of_calm hw
  exact ⟨w, hw, hheld, henforced, hstand hcalm⟩

/-- The entry is made by process 1 and let go. Process 2 has locked it to remove it; process 3 opens
it; process 2 removes it; process 3 locks what it has opened, and `hold` returns. -/
def window : List Event :=
  launch ++ [.kill 1, .start 2, .enforce 2 0, .name 2 ['a'], .call 2 0, .call 2 0, .call 2 0,
    .call 2 0, .call 2 0,
    .start 3, .hold 3 ['a'], .call 3 0, .call 2 0, .call 2 0, .call 3 0]

/-- A guard is held on an entry that does not exist. -/
theorem not_guardsStand_window :
    ∃ w, World.init.run window = some w ∧ w.Held ['a'] ∧ w.files.entry.get? ['a'] = none ∧
    ¬ w.GuardsStand := by
  have hrun : (World.init.run window).any
      (fun w => w.held ['a'] && decide (w.files.entry.get? ['a'] = none)) = true :=
        by decide +kernel
  obtain ⟨w, hw, hafter⟩ := (Option.any_eq_true _ _).1 hrun
  obtain ⟨hheld, hnone⟩ := Bool.and_eq_true_iff.1 hafter
  have hgone : w.files.entry.get? ['a'] = none := of_decide_eq_true hnone
  refine ⟨w, hw, hheld, hgone, ?_⟩
  intro hstand
  obtain ⟨p, proc, n, hp, hg⟩ := World.held_iff.1 hheld
  obtain ⟨ino, -, hentry⟩ := hstand p proc ['a'] n hp hg
  rw [hgone] at hentry
  cases hentry

end Dbvm.BundleCache
