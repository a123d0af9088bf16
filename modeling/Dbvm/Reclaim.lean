import Dbvm.WorkDir

/-!
# The directories of dead owners

An owner that is killed leaves its directory and a lock file that nobody has locked. A pass of
`reclaim_abandoned` (`src/vm/cache.rs`) that begins then, and is the only one, removes both: the
name of the lock file is one that `readdir` has to return (`Pass.Awaits`), nobody else has the file
open (`Meets.not_open`), and what the other threads do meanwhile concerns other names (`Leaves`).
-/

namespace Dbvm.WorkDir

open Lib

variable {w w' : World} {t : Thread} {s s' : Stage} {p : Str}

/-! ## A dead owner -/

/-- What the other threads do during a pass: none begins a pass, no call of the pass fails, its
process is not killed. -/
def Event.Undisturbed (t : Thread) : Event → Prop
  | .create _ _ => False
  | .fails t' => t' ≠ t
  | .kill pid => pid ≠ t.1
  | _ => True

/-- The directory and its lock file are gone. -/
def World.Gone (w : World) (p : Str) : Prop := p ∉ w.dirs ∧ w.files.entry.get? (lockName p) = none

/-- The pass looks for the directory and has not been given the name of its lock file. -/
def Pass.Awaits (pfx p : Str) (pass : Pass) : Prop :=
  pass.pfx = pfx ∧ lockName p ∈ pass.start ∧ lockName p ∉ pass.seen

/-- A pass that has not yet done with a directory, whose lock file is the file `ino`. -/
def Stage.Awaits (w : World) (t : Thread) (pfx p : Str) (ino : ℕ) : Stage → Prop
  | called pfx' => pfx' = pfx
  | reading pass => pass.Awaits pfx p
  | found pass d => d = p ∨ pass.Awaits pfx p
  | opened pass d => (d = p ∧ ∃ l, w.files.desc.get? t = some ⟨ino, l⟩) ∨
      (d ≠ p ∧ pass.Awaits pfx p)
  | locked pass d => d = p ∨ pass.Awaits pfx p
  | cleared pass d => (d = p ∧ p ∉ w.dirs) ∨ (d ≠ p ∧ pass.Awaits pfx p)
  | swept pass => pass.Awaits pfx p
  | _ => False

/-- A pass meets the directory of a dead owner. -/
structure Meets (t : Thread) (pfx p : Str) (ino : ℕ) (w : World) : Prop where
  /-- Its name is one that was used. -/
  used : p ∈ w.used
  /-- No thread has made it. -/
  dead : ∀ t' s, w.stage.get? t' = some s → s.path ≠ some p
  /-- No other thread is in a pass. -/
  alone : ∀ t' s, t' ≠ t → w.stage.get? t' = some s → s.reclaims = false
  /-- It is gone, or the pass will come to it. -/
  todo : w.Gone p ∨ (w.files.entry.get? (lockName p) = some ino ∧
    ∃ s, w.stage.get? t = some s ∧ s.Awaits w t pfx p ino)

/-- What a step may do to the directory of a dead owner: take it away. -/
structure Spares (p : Str) (w w' : World) : Prop where
  /-- Its name stays used. -/
  used : p ∈ w.used → p ∈ w'.used
  /-- Its lock file stays or is removed. -/
  lock : w'.files.entry.get? (lockName p) = w.files.entry.get? (lockName p) ∨
    w'.files.entry.get? (lockName p) = none
  /-- It is not made again. -/
  dirs : p ∈ w'.dirs → p ∈ w.dirs
  /-- Nobody becomes its maker. -/
  path : ∀ t s', w'.stage.get? t = some s' → s'.path = some p → ∃ s, w.stage.get? t = some s ∧
    s.path = some p
  /-- Nobody begins a pass. -/
  pass : ∀ t s', w'.stage.get? t = some s' → s'.reclaims = true →
    ∃ s, w.stage.get? t = some s ∧ s.reclaims = true

/-- A thread that turns to no other directory and begins no pass spares the directory. -/
theorem Spares.of_set (hs : w.stage.get? t = some s) (hstage : w'.stage = w.stage.set t s')
    (hpath : s'.path = some p → s.path = some p) (hpass : s'.reclaims = true → s.reclaims = true)
    (hused : w'.used = w.used)
    (hlock : w'.files.entry.get? (lockName p) = w.files.entry.get? (lockName p) ∨
      w'.files.entry.get? (lockName p) = none)
    (hdirs : p ∈ w'.dirs → p ∈ w.dirs) : Spares p w w' := by
  refine ⟨fun hp => hused ▸ hp, hlock, hdirs, ?_, ?_⟩
  · intro t' r hr hp
    rw [hstage, Table.get?_set] at hr
    split_ifs at hr with he
    · obtain rfl := Option.some.inj hr
      exact ⟨s, he ▸ hs, hpath hp⟩
    · exact ⟨r, hr, hp⟩
  · intro t' r hr hp
    rw [hstage, Table.get?_set] at hr
    split_ifs at hr with he
    · obtain rfl := Option.some.inj hr
      exact ⟨s, he ▸ hs, hpass hp⟩
    · exact ⟨r, hr, hp⟩

/-- When threads only end, the directory is spared. -/
theorem Spares.of_sub (hstage : ∀ t r, w'.stage.get? t = some r → w.stage.get? t = some r)
    (hused : w'.used = w.used) (hentry : w'.files.entry = w.files.entry)
    (hdirs : w'.dirs = w.dirs) :
    Spares p w w' :=
  ⟨fun hp => hused ▸ hp, Or.inl (by rw [hentry]), fun hp => hdirs ▸ hp,
    fun t r hr hp => ⟨r, hstage t r hr, hp⟩, fun t r hr hp => ⟨r, hstage t r hr, hp⟩⟩

/-- A thread that ends spares the directory. -/
theorem Spares.ended (w : World) (t : Thread) : Spares p w (w.ended t) := by
  refine Spares.of_sub ?_ rfl rfl rfl
  intro t' r hr
  have hr' : (w.stage.erase t).get? t' = some r := hr
  rw [Table.get?_erase] at hr'
  split_ifs at hr'
  exact hr'

/-- A thread that removes a lock file spares the directory when it does not turn to it. -/
theorem Spares.unlink {files : FileDir Str Thread} {dir : Str} (hs : w.stage.get? t = some s)
    (hfiles : w.files.unlink? (lockName dir) = some files)
    (hpath : s'.path = some p → s.path = some p) (hpass : s'.reclaims = true → s.reclaims = true) :
    Spares p w (w.withFiles files t s') := by
  obtain rfl := FileDir.unlink?_ok hfiles
  refine Spares.of_set hs rfl hpath hpass rfl ?_ (fun hp => hp)
  by_cases he : lockName p = lockName dir
  · exact Or.inr (by simp [World.withFiles, he])
  · exact Or.inl (by simp [World.withFiles, he])

/-- What the call of a thread may do to the directory of a dead owner. -/
theorem call_spares (hdead : ∀ t s, w.stage.get? t = some s → s.path ≠ some p)
    (hw : w.call t = some w') :
    Spares p w w' := by
  unfold World.call at hw
  obtain ⟨s, hs, hw⟩ := Option.bind_eq_some_iff.1 hw
  have hdir : ∀ dir : Str, p ∈ w.dirs.filter (· ≠ dir) → p ∈ w.dirs :=
    fun dir hp => (List.mem_filter.1 hp).1
  -- One case for each call of a thread. No stage turns to `p`, for no thread has it as its path.
  cases s with
  | called pfx =>
    obtain rfl := Option.some.inj hw
    exact Spares.of_set hs rfl (fun hp => (by cases hp)) (fun _ => rfl) rfl (Or.inl rfl)
      (fun hp => hp)
  | reading pass =>
    dsimp only at hw
    split_ifs at hw
    obtain rfl := Option.some.inj hw
    exact Spares.of_set hs rfl (fun hp => (by cases hp)) (fun _ => rfl) rfl (Or.inl rfl)
      (fun hp => hp)
  | found pass dir =>
    dsimp only at hw
    split at hw
    next files hfiles =>
      obtain rfl := Option.some.inj hw
      obtain ⟨ino, -, rfl⟩ := FileDir.open?_ok hfiles
      exact Spares.of_set hs rfl (fun hp => (by cases hp)) (fun _ => rfl) rfl (Or.inl rfl)
        (fun hp => hp)
    next =>
      obtain rfl := Option.some.inj hw
      exact Spares.of_set hs rfl (fun hp => (by cases hp)) (fun _ => rfl) rfl (Or.inl rfl)
        (fun hp => hp)
  | opened pass dir =>
    dsimp only at hw
    split at hw
    next files hfiles =>
      obtain rfl := Option.some.inj hw
      obtain ⟨x, -, -, rfl⟩ := FileDir.flock?_ok hfiles
      exact Spares.of_set hs rfl (fun hp => (by cases hp)) (fun _ => rfl) rfl (Or.inl rfl)
        (fun hp => hp)
    next =>
      obtain rfl := Option.some.inj hw
      exact Spares.of_set hs rfl (fun hp => (by cases hp)) (fun _ => rfl) rfl (Or.inl rfl)
        (fun hp => hp)
  | locked pass dir =>
    obtain rfl := Option.some.inj hw
    exact Spares.of_set hs rfl (fun hp => (by cases hp)) (fun _ => rfl) rfl (Or.inl rfl) (hdir dir)
  | cleared pass dir =>
    dsimp only at hw
    split at hw
    next files hfiles =>
      obtain rfl := Option.some.inj hw
      exact Spares.unlink hs hfiles (fun hp => (by cases hp)) (fun _ => rfl)
    next =>
      obtain rfl := Option.some.inj hw
      exact Spares.of_set hs rfl (fun hp => (by cases hp)) (fun _ => rfl) rfl (Or.inl rfl)
        (fun hp => hp)
  | swept pass =>
    obtain rfl := Option.some.inj hw
    exact Spares.of_set hs rfl (fun hp => (by cases hp)) (fun _ => rfl) rfl (Or.inl rfl)
      (fun hp => hp)
  | making pfx => cases hw
  | made path =>
    dsimp only at hw
    split_ifs at hw
    · obtain rfl := Option.some.inj hw
      exact Spares.ended w t
    · split at hw
      next files hfiles =>
        obtain rfl := Option.some.inj hw
        obtain ⟨-, rfl⟩ := FileDir.create?_ok hfiles
        refine Spares.of_set hs rfl (fun hp => hp) (fun hp => (by cases hp)) rfl (Or.inl ?_)
          (fun hp => hp)
        simp [World.withFiles, Ne.symm (stagingName_ne_lockName path p t.1)]
      next =>
        obtain rfl := Option.some.inj hw
        exact Spares.ended w t
  | staged path =>
    dsimp only at hw
    split at hw
    next files hfiles =>
      obtain rfl := Option.some.inj hw
      obtain ⟨x, -, -, rfl⟩ := FileDir.flock?_ok hfiles
      exact Spares.of_set hs rfl (fun hp => hp) (fun hp => (by cases hp)) rfl (Or.inl rfl)
        (fun hp => hp)
    next =>
      obtain rfl := Option.some.inj hw
      exact Spares.ended w t
  | owned path =>
    dsimp only at hw
    split_ifs at hw
    · obtain rfl := Option.some.inj hw
      exact Spares.ended w t
    · split at hw
      next files hfiles =>
        obtain rfl := Option.some.inj hw
        obtain ⟨ino, -, rfl⟩ := FileDir.rename?_ok hfiles
        have hne : lockName p ≠ lockName path := by
          intro he
          exact hdead t _ hs (congrArg some (lockName_inj he).symm)
        refine Spares.of_set hs rfl (fun hp => hp) (fun hp => (by cases hp)) rfl (Or.inl ?_)
          (fun hp => hp)
        simp [World.withFiles, hne, Ne.symm (stagingName_ne_lockName path p t.1)]
      next =>
        obtain rfl := Option.some.inj hw
        exact Spares.ended w t
  | alive path => cases hw
  | dropping path =>
    obtain rfl := Option.some.inj hw
    exact Spares.of_set hs rfl (fun hp => hp) (fun hp => (by cases hp)) rfl (Or.inl rfl) (hdir path)
  | emptied path =>
    dsimp only at hw
    split at hw
    next files hfiles =>
      obtain rfl := Option.some.inj hw
      exact Spares.unlink hs hfiles (fun hp => hp) (fun hp => (by cases hp))
    next =>
      obtain rfl := Option.some.inj hw
      exact Spares.of_set hs rfl (fun hp => hp) (fun hp => (by cases hp)) rfl (Or.inl rfl)
        (fun hp => hp)
  | unlocked path =>
    obtain rfl := Option.some.inj hw
    exact Spares.ended w t

/-- What an event may do to the directory of a dead owner, unless it begins a pass. -/
theorem step_spares {e : Event} (hused : p ∈ w.used)
    (hdead : ∀ t s, w.stage.get? t = some s → s.path ≠ some p) (he : ∀ t pfx, e ≠ .create t pfx)
    (hw : w.step e = some w') : Spares p w w' := by
  -- Only calls and names can turn a thread to a directory; the other events end threads.
  cases e with
  | create t pfx => exact absurd rfl (he t pfx)
  | call t => exact call_spares hdead hw
  | name t n =>
    have hw' : w.name t n = some w' := hw
    unfold World.name at hw'
    obtain ⟨s, hs, hw'⟩ := Option.bind_eq_some_iff.1 hw'
    cases s with
    | reading pass =>
      dsimp only at hw'
      split at hw'
      next dir hdir =>
        obtain rfl := Option.some.inj hw'
        split_ifs
        · exact Spares.of_set hs rfl (fun hp => (by cases hp)) (fun _ => rfl) rfl (Or.inl rfl)
            (fun hp => hp)
        · exact Spares.of_set hs rfl (fun hp => (by cases hp)) (fun _ => rfl) rfl (Or.inl rfl)
            (fun hp => hp)
      next =>
        obtain rfl := Option.some.inj hw'
        exact Spares.of_set hs rfl (fun hp => (by cases hp)) (fun _ => rfl) rfl (Or.inl rfl)
          (fun hp => hp)
    | making pfx =>
      dsimp only at hw'
      split_ifs at hw' with hnew
      simp only [Bool.and_eq_true, Bool.not_eq_true', List.contains_eq_mem,
        decide_eq_false_iff_not] at hnew
      have hne : n ≠ p := fun hnp => hnew.2 (hnp ▸ hused)
      obtain rfl := Option.some.inj hw'
      refine ⟨fun hp => List.mem_cons_of_mem _ hp, Or.inl rfl, ?_, ?_, ?_⟩
      · intro hp
        exact (List.mem_cons.1 hp).resolve_left (Ne.symm hne)
      · intro t' r hr hp
        rw [Table.get?_set] at hr
        split_ifs at hr with ht
        · obtain rfl := Option.some.inj hr
          exact absurd (Option.some.inj hp) hne
        · exact ⟨r, hr, hp⟩
      · intro t' r hr hp
        rw [Table.get?_set] at hr
        split_ifs at hr with ht
        · obtain rfl := Option.some.inj hr
          cases hp
        · exact ⟨r, hr, hp⟩
    | _ => cases hw'
  | fails t =>
    have hw' : w.fails t = some w' := hw
    unfold World.fails at hw'
    obtain ⟨s, hs, hw'⟩ := Option.bind_eq_some_iff.1 hw'
    cases s <;> first
      | cases hw'
        exact Spares.ended w t
      | cases hw'
        exact Spares.of_set hs rfl (fun hp => hp)
          (fun hp => (by first | rfl | cases hp)) rfl (Or.inl rfl) (fun hp => hp)
      | cases hw'
  | drop t =>
    unfold World.step at hw
    dsimp only at hw
    split at hw
    next path hs =>
      obtain rfl := Option.some.inj hw
      exact Spares.of_set hs rfl (fun hp => hp) (fun hp => (by cases hp)) rfl (Or.inl rfl)
        (fun hp => hp)
    next => cases hw
  | kill pid =>
    obtain rfl := Option.some.inj hw
    refine Spares.of_sub ?_ rfl rfl rfl
    intro t r hr
    have hr' := hr
    dsimp only at hr'
    rw [Table.get?_deleteWhere] at hr'
    exact (Option.filter_eq_some_iff.1 hr').1

/-- What another thread leaves to the pass. -/
structure Leaves (t : Thread) (p : Str) (w w' : World) : Prop where
  /-- The lock file. -/
  lock : w'.files.entry.get? (lockName p) = w.files.entry.get? (lockName p)
  /-- The file that the pass has open. -/
  desc : w'.files.desc.get? t = w.files.desc.get? t
  /-- Where the pass is. -/
  stage : w'.stage.get? t = w.stage.get? t

/-- The end of another thread leaves this one alone. -/
theorem Leaves.ended {t' : Thread} (hne : t ≠ t') : Leaves t p w (w.ended t') :=
  ⟨rfl, by simp [World.ended, FileDir.close, hne], by simp [World.ended, hne]⟩

/-- A step of another thread leaves this one alone. -/
theorem Leaves.goto {t' : Thread} (hne : t ≠ t') (s : Stage) : Leaves t p w (w.goto t' s) :=
  ⟨rfl, rfl, by simp [World.goto, hne]⟩

/-- A call of a thread that is not in a pass. -/
theorem call_leaves {t' : Thread} (hne : t ≠ t') (hs : w.stage.get? t' = some s)
    (hp : s.path ≠ some p) (hpass : s.reclaims = false) (hw : w.call t' = some w') :
    Leaves t p w w' := by
  unfold World.call at hw
  rw [hs, Option.bind_some] at hw
  have hlock : ∀ q, s.path = some q → lockName p ≠ lockName q := by
    intro q hq he
    exact hp (lockName_inj he ▸ hq)
  -- A thread that sweeps nothing changes the files under its own names only.
  cases s with
  | making pfx => cases hw
  | made path =>
    dsimp only at hw
    split_ifs at hw
    · obtain rfl := Option.some.inj hw
      exact Leaves.ended hne
    · split at hw
      next files hfiles =>
        obtain rfl := Option.some.inj hw
        obtain ⟨-, rfl⟩ := FileDir.create?_ok hfiles
        exact ⟨by simp [World.withFiles, Ne.symm (stagingName_ne_lockName path p t'.1)],
          by simp [World.withFiles, hne], by simp [World.withFiles, hne]⟩
      next =>
        obtain rfl := Option.some.inj hw
        exact Leaves.ended hne
  | staged path =>
    dsimp only at hw
    split at hw
    next files hfiles =>
      obtain rfl := Option.some.inj hw
      obtain ⟨x, -, -, rfl⟩ := FileDir.flock?_ok hfiles
      exact ⟨rfl, by simp [World.withFiles, hne], by simp [World.withFiles, hne]⟩
    next =>
      obtain rfl := Option.some.inj hw
      exact Leaves.ended hne
  | owned path =>
    dsimp only at hw
    split_ifs at hw
    · obtain rfl := Option.some.inj hw
      exact Leaves.ended hne
    · split at hw
      next files hfiles =>
        obtain rfl := Option.some.inj hw
        obtain ⟨ino, -, rfl⟩ := FileDir.rename?_ok hfiles
        have hname := Ne.symm (stagingName_ne_lockName path p t'.1)
        exact ⟨by simp [World.withFiles, hlock path rfl, hname], rfl,
          by simp [World.withFiles, hne]⟩
      next =>
        obtain rfl := Option.some.inj hw
        exact Leaves.ended hne
  | alive path => cases hw
  | dropping path =>
    obtain rfl := Option.some.inj hw
    exact ⟨rfl, rfl, by simp [World.withoutDir, hne]⟩
  | emptied path =>
    dsimp only at hw
    split at hw
    next files hfiles =>
      obtain rfl := Option.some.inj hw
      obtain rfl := FileDir.unlink?_ok hfiles
      exact ⟨by simp [World.withFiles, hlock path rfl], rfl, by simp [World.withFiles, hne]⟩
    next =>
      obtain rfl := Option.some.inj hw
      exact Leaves.goto hne _
  | unlocked path =>
    obtain rfl := Option.some.inj hw
    exact Leaves.ended hne
  | _ => cases hpass

/-- A call of a thread that is not in a pass, as far as it returns a name or fails. -/
theorem name_leaves {t' : Thread} {n : Str} (hne : t ≠ t') (hs : w.stage.get? t' = some s)
    (hpass : s.reclaims = false) (hw : w.name t' n = some w') : Leaves t p w w' := by
  unfold World.name at hw
  rw [hs, Option.bind_some] at hw
  cases s with
  | making pfx =>
    dsimp only at hw
    split_ifs at hw
    obtain rfl := Option.some.inj hw
    exact ⟨rfl, rfl, by simp [hne]⟩
  | reading pass => cases hpass
  | _ => cases hw

/-- A failing step of another thread leaves this one alone when that one sweeps nothing. -/
theorem fails_leaves {t' : Thread} (hne : t ≠ t') (hs : w.stage.get? t' = some s)
    (hpass : s.reclaims = false) (hw : w.fails t' = some w') : Leaves t p w w' := by
  unfold World.fails at hw
  rw [hs, Option.bind_some] at hw
  cases s with
  | making _ =>
    obtain rfl := Option.some.inj hw
    exact Leaves.ended hne
  | made _ =>
    obtain rfl := Option.some.inj hw
    exact Leaves.ended hne
  | staged _ =>
    obtain rfl := Option.some.inj hw
    exact Leaves.ended hne
  | owned _ =>
    obtain rfl := Option.some.inj hw
    exact Leaves.ended hne
  | dropping _ =>
    obtain rfl := Option.some.inj hw
    exact Leaves.goto hne _
  | emptied _ =>
    obtain rfl := Option.some.inj hw
    exact Leaves.goto hne _
  | alive _ => cases hw
  | unlocked _ => cases hw
  | _ => cases hpass

namespace Meets

variable {pfx : Str} {ino : ℕ}

/-- The lock file of a dead owner is open nowhere else. -/
theorem not_open (hm : Meets t pfx p ino w) (h : Inv w)
    (hlock : w.files.entry.get? (lockName p) = some ino) (t' : Thread) (x : Desc) (hne : t' ≠ t)
    (hx : w.files.desc.get? t' = some x) : x.ino ≠ ino := by
  rintro rfl
  cases hs : w.stage.get? t' with
  | none =>
    rw [h.idle t' hs] at hx
    cases hx
  | some r =>
    have hpass := hm.alone t' r hne hs
    cases hq : r.path with
    | some q =>
      -- its names are those of a directory of somebody who is alive
      obtain he | he := h.mine t' r q x _ hs hq hx hlock
      · exact hm.dead t' r hs (lockName_inj he ▸ hq)
      · exact stagingName_ne_lockName q p t'.1 he.symm
    | none =>
      obtain ⟨pfx', rfl⟩ := Stage.eq_making hq hpass
      have hdesc : w.files.desc.get? t' = none := h.holds t' _ hs
      rw [hdesc] at hx
      cases hx

/-- A step after which the directory is gone, or the pass will come to it. -/
theorem of_todo (hm : Meets t pfx p ino w) (hsp : Spares p w w')
    (htodo : w'.Gone p ∨ (w'.files.entry.get? (lockName p) = some ino ∧
      ∃ s, w'.stage.get? t = some s ∧ s.Awaits w' t pfx p ino)) : Meets t pfx p ino w' where
  used := hsp.used hm.used
  dead t' s' hs' hp := by
    obtain ⟨s, hs, hp'⟩ := hsp.path t' s' hs' hp
    exact hm.dead t' s hs hp'
  alone t' s' hne hs' := by
    cases hr : s'.reclaims with
    | false => rfl
    | true =>
      obtain ⟨s, hs, hr'⟩ := hsp.pass t' s' hs' hr
      rw [hm.alone t' s hne hs] at hr'
      cases hr'
  todo := htodo

/-- A step of another thread that spares the directory leaves it to be met. -/
theorem of_leaves (hm : Meets t pfx p ino w) (hsp : Spares p w w') (hl : Leaves t p w w') :
    Meets t pfx p ino w' := by
  refine hm.of_todo hsp ?_
  obtain ⟨hd, he⟩ | ⟨hlock, s, hs, ha⟩ := hm.todo
  · exact Or.inl ⟨fun hp => hd (hsp.dirs hp), hl.lock.trans he⟩
  · refine Or.inr ⟨hl.lock.trans hlock, s, hl.stage.trans hs, ?_⟩
    cases s with
    | opened pass d =>
      obtain ⟨hd, l, hdesc⟩ | hd := ha
      · exact Or.inl ⟨hd, l, hl.desc.trans hdesc⟩
      · exact Or.inr hd
    | cleared pass d =>
      obtain ⟨hd, hdir⟩ | hd := ha
      · exact Or.inl ⟨hd, fun hp => hdir (hsp.dirs hp)⟩
      · exact Or.inr hd
    | _ => exact ha

/-- A call of the pass removes the directory or leaves it to be met. -/
theorem call_todo (hm : Meets t pfx p ino w) (h : Inv w)
    (hlock : w.files.entry.get? (lockName p) = some ino) (hs : w.stage.get? t = some s)
    (ha : s.Awaits w t pfx p ino) (hw : w.call t = some w') :
    w'.Gone p ∨ (w'.files.entry.get? (lockName p) = some ino ∧
      ∃ s, w'.stage.get? t = some s ∧ s.Awaits w' t pfx p ino) := by
  unfold World.call at hw
  rw [hs, Option.bind_some] at hw
  cases s with
  | called pfx' =>
    obtain rfl := Option.some.inj hw
    have hstart : lockName p ∈ w.names := List.mem_append_left _ (Table.mem_keys_iff.2 ⟨ino, hlock⟩)
    exact Or.inr ⟨hlock, _, World.stage_goto .., ha, hstart, List.not_mem_nil⟩
  | reading pass =>
    -- the name of the lock file is still to come, so this is not the end
    dsimp only at hw
    split_ifs at hw with hend
    obtain ⟨-, hstart, hseen⟩ := ha
    have hname := List.all_eq_true.1 hend _ hstart
    have hthere : w.there (lockName p) = true := by
      unfold World.there
      rw [Table.has_eq_true.2 ⟨ino, hlock⟩, Bool.true_or]
    rw [hthere] at hname
    simp [hseen] at hname
  | found pass d =>
    dsimp only at hw
    by_cases hd : d = p
    · subst hd
      have hopen :
        w.files.open? t (lockName d) = some
        { w.files with desc := w.files.desc.set t ⟨ino, none⟩ } := by
        unfold FileDir.open?
        rw [hlock]
        rfl
      rw [hopen] at hw
      obtain rfl := Option.some.inj hw
      exact Or.inr ⟨hlock, _, World.stage_withFiles ..,
        Or.inl ⟨rfl, none, by simp [World.withFiles]⟩⟩
    · have hawaits := ha.resolve_left hd
      split at hw
      next files hfiles =>
        obtain rfl := Option.some.inj hw
        obtain ⟨i, -, rfl⟩ := FileDir.open?_ok hfiles
        exact Or.inr ⟨hlock, _, World.stage_withFiles .., Or.inr ⟨hd, hawaits⟩⟩
      next =>
        obtain rfl := Option.some.inj hw
        exact Or.inr ⟨hlock, _, World.stage_goto .., hawaits⟩
  | opened pass d =>
    dsimp only at hw
    obtain ⟨rfl, l, hdesc⟩ | ⟨hd, hawaits⟩ := ha
    · -- nobody else has the lock file open, so the lock is free
      have hfree : ¬ w.files.blocked t .exclusive ino = true := by
        intro hb
        obtain ⟨t', x, hne, hx, hino, -⟩ := FileDir.blocked_iff.1 hb
        exact hm.not_open h hlock t' x hne hx hino
      have hflock : w.files.flock? t .exclusive =
          some { w.files with desc := w.files.desc.set t ⟨ino, some .exclusive⟩ } := by
        unfold FileDir.flock?
        rw [hdesc]
        exact if_neg hfree
      rw [hflock] at hw
      obtain rfl := Option.some.inj hw
      exact Or.inr ⟨hlock, _, World.stage_withFiles .., Or.inl rfl⟩
    · split at hw
      next files hfiles =>
        obtain rfl := Option.some.inj hw
        obtain ⟨x, -, -, rfl⟩ := FileDir.flock?_ok hfiles
        exact Or.inr ⟨hlock, _, World.stage_withFiles .., Or.inr hawaits⟩
      next =>
        obtain rfl := Option.some.inj hw
        exact Or.inr ⟨hlock, _, World.stage_withFiles .., hawaits⟩
  | locked pass d =>
    obtain rfl := Option.some.inj hw
    by_cases hd : d = p
    · subst hd
      exact Or.inr ⟨hlock, _, World.stage_withoutDir .., Or.inl ⟨rfl, by simp [World.withoutDir]⟩⟩
    · exact Or.inr ⟨hlock, _, World.stage_withoutDir .., Or.inr ⟨hd, ha.resolve_left hd⟩⟩
  | cleared pass d =>
    dsimp only at hw
    obtain ⟨rfl, hdir⟩ | ⟨hd, hawaits⟩ := ha
    · have hunlink : w.files.unlink? (lockName d) =
          some { w.files with entry := w.files.entry.erase (lockName d) } := by
        unfold FileDir.unlink?
        exact if_pos (Table.has_eq_true.2 ⟨ino, hlock⟩)
      rw [hunlink] at hw
      obtain rfl := Option.some.inj hw
      exact Or.inl ⟨hdir, by simp [World.withFiles]⟩
    · have hne : lockName p ≠ lockName d := fun he => hd (lockName_inj he).symm
      split at hw
      next files hfiles =>
        obtain rfl := Option.some.inj hw
        obtain rfl := FileDir.unlink?_ok hfiles
        exact Or.inr
          ⟨by simpa [World.withFiles, hne] using hlock, _, World.stage_withFiles .., hawaits⟩
      next =>
        obtain rfl := Option.some.inj hw
        exact Or.inr ⟨hlock, _, World.stage_goto .., hawaits⟩
  | swept pass =>
    obtain rfl := Option.some.inj hw
    exact Or.inr ⟨hlock, _, World.stage_withFiles .., ha⟩
  | _ => exact absurd ha id

/-- Reading a name leaves the directory to be met. -/
theorem name_todo {n : Str} (hpfx : pfx.isPrefixOf p = true)
    (hlock : w.files.entry.get? (lockName p) = some ino) (hs : w.stage.get? t = some s)
    (ha : s.Awaits w t pfx p ino) (hw : w.name t n = some w') :
    w'.files.entry.get? (lockName p) = some ino ∧ ∃ s, w'.stage.get? t = some s ∧
    s.Awaits w' t pfx p ino := by
  unfold World.name at hw
  rw [hs, Option.bind_some] at hw
  -- Only a pass that lists names takes one; the lock's own name is the one that it waits for.
  cases s with
  | reading pass =>
    dsimp only at hw
    obtain ⟨hp, hstart, hseen⟩ := ha
    by_cases hn : n = lockName p
    · subst hn
      rw [stripLock_lockName] at hw
      obtain rfl := Option.some.inj hw
      rw [hp, if_pos hpfx]
      exact ⟨hlock, _, World.stage_goto .., Or.inl rfl⟩
    · have hawaits : Pass.Awaits pfx p { pass with seen := n :: pass.seen } :=
        ⟨hp, hstart, by simpa [Ne.symm hn] using hseen⟩
      split at hw
      next d hd =>
        obtain rfl := Option.some.inj hw
        split_ifs
        · exact ⟨hlock, _, World.stage_goto .., Or.inr hawaits⟩
        · exact ⟨hlock, _, World.stage_goto .., hawaits⟩
      next =>
        obtain rfl := Option.some.inj hw
        exact ⟨hlock, _, World.stage_goto .., hawaits⟩
  | making _ => exact absurd ha id
  | _ => cases hw

/-- Every event of a run in which nothing disturbs the pass. -/
theorem step (hm : Meets t pfx p ino w) (h : Inv w) (hpfx : pfx.isPrefixOf p = true) {e : Event}
    (he : e.Undisturbed t) (hw : w.step e = some w') : Meets t pfx p ino w' := by
  have hsp : Spares p w w' := by
    refine step_spares hm.used hm.dead ?_ hw
    rintro t' pfx' rfl
    exact he
  -- Either the directory is gone already, or its lock file stands and the thread is still to come
  -- to it.
  obtain ⟨hd, hnone⟩ | ⟨hlock, s, hs, ha⟩ := hm.todo
  · -- what is gone stays gone
    refine hm.of_todo hsp (Or.inl ⟨fun hp => hd (hsp.dirs hp), ?_⟩)
    obtain hsame | hgone := hsp.lock
    · exact hsame.trans hnone
    · exact hgone
  · cases e with
    | create t' pfx' => exact absurd he id
    | call t' =>
      by_cases hne : t = t'
      · subst hne
        exact hm.of_todo hsp (hm.call_todo h hlock hs ha hw)
      · have hw' : w.call t' = some w' := hw
        cases hs' : w.stage.get? t' with
        | none =>
          unfold World.call at hw'
          rw [hs'] at hw'
          cases hw'
        | some r =>
          exact hm.of_leaves hsp (call_leaves hne hs' (hm.dead t' r hs')
            (hm.alone t' r (Ne.symm hne) hs') hw')
    | name t' n =>
      by_cases hne : t = t'
      · subst hne
        exact hm.of_todo hsp (Or.inr (name_todo hpfx hlock hs ha hw))
      · have hw' : w.name t' n = some w' := hw
        cases hs' : w.stage.get? t' with
        | none =>
          unfold World.name at hw'
          rw [hs'] at hw'
          cases hw'
        | some r =>
            exact hm.of_leaves hsp (name_leaves hne hs' (hm.alone t' r (Ne.symm hne) hs') hw')
    | fails t' =>
      have hne : t ≠ t' := Ne.symm he
      have hw' : w.fails t' = some w' := hw
      cases hs' : w.stage.get? t' with
      | none =>
        unfold World.fails at hw'
        rw [hs'] at hw'
        cases hw'
      | some r =>
          exact hm.of_leaves hsp (fails_leaves hne hs' (hm.alone t' r (Ne.symm hne) hs') hw')
    | drop t' =>
      unfold World.step at hw
      dsimp only at hw
      split at hw
      next path hs' =>
        obtain rfl := Option.some.inj hw
        by_cases hne : t = t'
        · subst hne
          rw [hs] at hs'
          obtain rfl := Option.some.inj hs'
          exact absurd ha id
        · exact hm.of_leaves hsp (Leaves.goto hne _)
      next => cases hw
    | kill pid =>
      have hne : t.1 ≠ pid := Ne.symm he
      obtain rfl := Option.some.inj hw
      refine hm.of_leaves hsp ⟨rfl, ?_, ?_⟩
      · have hdesc : (w.files.closeAll fun t => t.1 = pid).desc.get? t = _ :=
          FileDir.get?_closeAll _ t
        simpa [hne] using hdesc
      · have hstage := Table.get?_deleteWhere_key w.stage (fun t => decide (t.1 = pid)) t
        simpa [hne] using hstage

/-- A run in which nothing disturbs the pass. -/
theorem run (hm : Meets t pfx p ino w) (h : Inv w) (hpfx : pfx.isPrefixOf p = true) :
    ∀ {es : List Event},
    (∀ e ∈ es, e.Undisturbed t) → w.run es = some w' → Meets t pfx p ino w' := by
  intro es
  induction es generalizing w with
  | nil =>
    intro _ hw
    exact Option.some.inj hw ▸ hm
  | cons e es ih =>
    intro hes hw
    obtain ⟨w₁, hw₁, hw⟩ := Option.bind_eq_some_iff.1 hw
    exact ih (hm.step h hpfx (hes e List.mem_cons_self) hw₁) (h.step hw₁)
      (fun e' he' => hes e' (List.mem_cons_of_mem e he')) hw

end Meets

/-- A pass that has come to its end has removed the directory of a dead owner. -/
theorem gone_of_pass {pfx : Str} {ino : ℕ} {es : List Event} (h : Inv w)
    (hlock : w.files.entry.get? (lockName p) = some ino)
    (hdead : ∀ t' s, w.stage.get? t' = some s → s.path ≠ some p)
    (halone : ∀ t' s, w.stage.get? t' = some s → s.reclaims = false)
    (hpfx : pfx.isPrefixOf p = true) (hes : ∀ e ∈ es, e.Undisturbed t)
    (hw : w.run (.create t pfx :: es) = some w') (hend : w'.stage.get? t = some (.making pfx)) :
    w'.Gone p := by
  obtain ⟨w₁, hw₁, hw⟩ := Option.bind_eq_some_iff.1 hw
  have h₁ : Inv w₁ := h.step hw₁
  have hw₁' : w₁ = w.goto t (.called pfx) := by
    unfold World.step at hw₁
    dsimp only at hw₁
    split_ifs at hw₁
    exact (Option.some.inj hw₁).symm
  have hstage : ∀ t' s, w₁.stage.get? t' = some s →
      t' = t ∧ s = .called pfx ∨ t' ≠ t ∧ w.stage.get? t' = some s := by
    intro t' s hs
    rw [hw₁'] at hs
    have hs' : (w.stage.set t (.called pfx)).get? t' = some s := hs
    rw [Table.get?_set] at hs'
    split_ifs at hs' with he
    · exact Or.inl ⟨he, (Option.some.inj hs').symm⟩
    · exact Or.inr ⟨he, hs'⟩
  -- At its beginning the pass has the directory still before it; at its end it has none.
  have hm : Meets t pfx p ino w₁ := by
    refine ⟨?_, ?_, ?_, Or.inr ⟨?_, .called pfx, ?_, rfl⟩⟩
    · rw [hw₁']
      exact h.known p ino hlock
    · intro t' s hs
      obtain ⟨-, rfl⟩ | ⟨-, hs⟩ := hstage t' s hs
      · exact fun hp => by cases hp
      · exact hdead t' s hs
    · intro t' s hne hs
      obtain ⟨he, -⟩ | ⟨-, hs⟩ := hstage t' s hs
      · exact absurd he hne
      · exact halone t' s hs
    · rw [hw₁']
      exact hlock
    · rw [hw₁']
      simp [World.goto]
  obtain hgone | ⟨-, s, hs, ha⟩ := (hm.run h₁ hpfx hes hw).todo
  · exact hgone
  · rw [hend] at hs
    obtain rfl := Option.some.inj hs
    exact absurd ha id

/-- In every state of every run the directory and the lock file of a living owner stand, and no pass
is about to remove them. A pass that begins when the maker of a directory is dead and its lock file
is in place, and that nothing disturbs, ends with both gone. -/
theorem workDirs_kept_and_reclaimed {w : World} {es : List Event}
    (hw : World.init.run es = some w) :
    w.OwnersStand ∧ ∀ t pfx p es' w', w.files.entry.has (lockName p) →
      (∀ t' s, w.stage.get? t' = some s → s.path ≠ some p) →
      (∀ t' s, w.stage.get? t' = some s → s.reclaims = false) → pfx.isPrefixOf p →
      (∀ e ∈ es', e.Undisturbed t) → w.run (.create t pfx :: es') = some w' →
      w'.stage.get? t = some (.making pfx) → w'.Gone p := by
  have h : Inv w := inv_init.run hw
  refine ⟨h.ownersStand, ?_⟩
  intro t pfx p es' w' hlock hdead halone hpfx hes hw' hend
  obtain ⟨ino, hino⟩ := Table.has_eq_true.1 hlock
  exact gone_of_pass h hino hdead halone hpfx hes hw' hend

/-- A directory is made and its owner is killed. -/
def abandoned : List Event :=
  [.create (1, 0) "d-".toList, .call (1, 0), .call (1, 0), .name (1, 0) "d-abcdef".toList,
    .call (1, 0),
    .call (1, 0), .call (1, 0), .kill 1]

/-- A pass that comes to it. -/
def reclaimed : List Event :=
  [.call (2, 0), .name (2, 0) "d-abcdef.lock".toList, .call (2, 0), .call (2, 0), .call (2, 0),
    .call (2, 0),
    .call (2, 0), .name (2, 0) "d-abcdef".toList, .call (2, 0)]

/-- The directory stands before the pass and is gone after it. -/
theorem workDirs_kept_and_reclaimed_abandoned :
    ∃ w w', World.init.run abandoned = some w ∧ w.there "d-abcdef".toList ∧ w.OwnersStand ∧
      w.run (.create (2, 0) "d-".toList :: reclaimed) = some w' ∧ w'.Gone "d-abcdef".toList := by
  have hrun : (World.init.run abandoned).any (fun w => w.stage.rows = [] &&
      w.files.entry.has (lockName "d-abcdef".toList) && w.there "d-abcdef".toList &&
      (w.run (.create (2, 0) "d-".toList :: reclaimed)).any fun w' =>
        w'.stage.get? (2, 0) = some (.making "d-".toList)) = true := by
    decide +kernel
  obtain ⟨w, hw, hafter⟩ := (Option.any_eq_true _ _).1 hrun
  simp only [Bool.and_eq_true, decide_eq_true_eq] at hafter
  obtain ⟨⟨⟨hrows, hlock⟩, hthere⟩, hpass⟩ := hafter
  obtain ⟨w', hw', hend⟩ := (Option.any_eq_true _ _).1 hpass
  have hnone : ∀ t s, w.stage.get? t ≠ some s := by
    intro t s hs
    rw [Table.get?_eq_some_iff, hrows] at hs
    cases hs
  have hes : ∀ e ∈ reclaimed, e.Undisturbed (2, 0) := by
    simp [reclaimed, Event.Undisturbed]
  obtain ⟨hstand, hgone⟩ := workDirs_kept_and_reclaimed hw
  exact ⟨w, w', hw, hthere, hstand, hw',
    hgone (2, 0) _ _ reclaimed w' hlock (fun t s hs => absurd hs (hnone t s))
    (fun t s hs => absurd hs (hnone t s)) (by decide) hes hw' (of_decide_eq_true hend)⟩

end Dbvm.WorkDir
