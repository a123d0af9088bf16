import Dbvm.Path
import Dbvm.Lib.Flock

/-!
# Work directories

The private directories of the processes under `$TMPDIR` (`WorkDir` and `reclaim_abandoned` in
`src/vm/cache.rs`). A directory has a lock file beside it, which its owner keeps locked; who finds
the lock free removes the directory. The owners and the passes over abandoned directories are
threads of any number of processes, and run interleaved, one call of the host at a time.

`Inv` says how the lock files of the living owners stand, `Inv.step` that every call keeps it. What
becomes of the directories of dead owners is in `Dbvm.Reclaim`.
-/

namespace Dbvm.WorkDir

open Lib

/-! ## Names -/

/-- `.lock`. -/
def lockSuffix : Str := ['.', 'l', 'o', 'c', 'k']

/-- The lock file of a directory. -/
def lockName (path : Str) : Str := path ++ lockSuffix

/-- The name under which a process locks it first. -/
def stagingName (path : Str) (pid : ℕ) : Str := path ++ lockSuffix ++ '-' :: Nat.toDigits 10 pid

/-- `name.strip_suffix(".lock")`. -/
def stripLock (name : Str) : Option Str :=
  if lockSuffix.isSuffixOf name then some (name.take (name.length - lockSuffix.length)) else none

/-- What `mkdtemp` puts for `XXXXXX`. -/
def isTmpSuffix (s : Str) : Bool := s.length = 6 && s.all Char.isAlphanum

/-! ## The threads -/

/-- A thread: its process and its number there. -/
abbrev Thread := ℕ × ℕ

/-- A pass of `reclaim_abandoned` over the entries of `$TMPDIR`. -/
structure Pass where
  /-- The prefix of the directories it looks for. -/
  pfx : Str
  /-- The names that were there when it began. -/
  start : List Str
  /-- The names it was given so far. -/
  seen : List Str
deriving DecidableEq

/-- Where a thread is: before which call of `reclaim_abandoned`, `WorkDir::create` or `drop`. -/
inductive Stage where
  /-- `read_dir`. -/
  | called (pfx : Str)
  /-- The next entry. -/
  | reading (pass : Pass)
  /-- `open` of the lock file of a directory. -/
  | found (pass : Pass) (dir : Str)
  /-- `flock` of it. -/
  | opened (pass : Pass) (dir : Str)
  /-- `remove_dir_all` of the directory. -/
  | locked (pass : Pass) (dir : Str)
  /-- `remove_file` of the lock file. -/
  | cleared (pass : Pass) (dir : Str)
  /-- `close` of the lock file. -/
  | swept (pass : Pass)
  /-- `mkdtemp`. -/
  | making (pfx : Str)
  /-- `open` of the staging file. -/
  | made (path : Str)
  /-- `flock` of it. -/
  | staged (path : Str)
  /-- `rename` to the lock file. -/
  | owned (path : Str)
  /-- None: the directory is in use. -/
  | alive (path : Str)
  /-- `remove_dir_all`. -/
  | dropping (path : Str)
  /-- `remove_file` of the lock file. -/
  | emptied (path : Str)
  /-- `close` of the lock file. -/
  | unlocked (path : Str)
deriving DecidableEq

/-- `$TMPDIR` and the threads. -/
structure World where
  /-- The directories. -/
  dirs : List Str
  /-- The files. A thread has one of them open at most. -/
  files : FileDir Str Thread
  /-- The names that `mkdtemp` has returned. -/
  used : List Str
  /-- The threads. -/
  stage : Table Thread Stage

/-- What happens. -/
inductive Event where
  /-- A thread calls `WorkDir::create`. -/
  | create (t : Thread) (pfx : Str)
  /-- A thread makes its next call. -/
  | call (t : Thread)
  /-- A thread makes its next call, and is given a name: by `readdir` or `mkdtemp`. -/
  | name (t : Thread) (n : Str)
  /-- The next call of a thread fails. -/
  | fails (t : Thread)
  /-- A thread drops its directory. -/
  | drop (t : Thread)
  /-- A process is killed. -/
  | kill (pid : ℕ)

namespace World

/-- Before the first thread. -/
def init : World := ⟨[], .empty, [], .empty⟩

/-- A thread goes on. -/
def goto (w : World) (t : Thread) (s : Stage) : World := { w with stage := w.stage.set t s }

/-- A thread goes on with other files. -/
def withFiles (w : World) (files : FileDir Str Thread) (t : Thread) (s : Stage) : World :=
  { w with files := files, stage := w.stage.set t s }

/-- A thread is through: what it has open is closed. -/
def ended (w : World) (t : Thread) : World :=
  { w with files := w.files.close t, stage := w.stage.erase t }

/-- A thread goes on without a directory. -/
def withoutDir (w : World) (dir : Str) (t : Thread) (s : Stage) : World :=
  { w with dirs := w.dirs.filter (· ≠ dir), stage := w.stage.set t s }

/-- There is an entry of a name. -/
def there (w : World) (n : Str) : Bool := w.files.entry.has n || w.dirs.contains n

/-- The names of the entries. -/
def names (w : World) : List Str := w.files.entry.rows.map Prod.fst ++ w.dirs

/-- The next call of a thread. -/
def call (w : World) (t : Thread) : Option World :=
  (w.stage.get? t).bind fun s =>
    match s with
    | .called pfx => some (w.goto t (.reading ⟨pfx, w.names, []⟩))
    | .reading pass =>
      -- no entry is left: those that were there all the time have been returned
      if pass.start.all fun n => pass.seen.contains n || !w.there n then some
        (w.goto t (.making pass.pfx))
      else none
    | .found pass dir =>
      match w.files.open? t (lockName dir) with
      | some files => some (w.withFiles files t (.opened pass dir))
      | none => some (w.goto t (.reading pass))
    | .opened pass dir =>
      match w.files.flock? t .exclusive with
      | some files => some (w.withFiles files t (.locked pass dir))
      | none => some (w.withFiles (w.files.close t) t (.reading pass))
    | .locked pass dir => some (w.withoutDir dir t (.cleared pass dir))
    | .cleared pass dir =>
      match w.files.unlink? (lockName dir) with
      | some files => some (w.withFiles files t (.swept pass))
      | none => some (w.goto t (.swept pass))
    | .swept pass => some (w.withFiles (w.files.close t) t (.reading pass))
    | .making _ => none
    | .made path =>
      let staging := stagingName path t.1
      if w.dirs.contains staging then some (w.ended t)
      else match w.files.create? t staging with
        | some files => some (w.withFiles files t (.staged path))
        | none => some (w.ended t)
    | .staged path =>
      match w.files.flock? t .exclusive with
      | some files => some (w.withFiles files t (.owned path))
      | none => some (w.ended t)
    | .owned path =>
      if w.dirs.contains (lockName path) then some (w.ended t)
      else match w.files.rename? (stagingName path t.1) (lockName path) with
        | some files => some (w.withFiles files t (.alive path))
        | none => some (w.ended t)
    | .alive _ => none
    | .dropping path => some (w.withoutDir path t (.emptied path))
    | .emptied path =>
      match w.files.unlink? (lockName path) with
      | some files => some (w.withFiles files t (.unlocked path))
      | none => some (w.goto t (.unlocked path))
    | .unlocked _ => some (w.ended t)

/-- The next call of a thread, which returns a name. -/
def name (w : World) (t : Thread) (n : Str) : Option World :=
  (w.stage.get? t).bind fun s =>
    match s with
    | .reading pass =>
      let pass := { pass with seen := n :: pass.seen }
      match stripLock n with
      | some dir =>
          some (w.goto t (if pass.pfx.isPrefixOf dir then .found pass dir else .reading pass))
      | none => some (w.goto t (.reading pass))
    | .making pfx =>
      if pfx.isPrefixOf n && isTmpSuffix (n.drop pfx.length) && !w.there n &&
      !w.used.contains n then
        some { w with dirs := n :: w.dirs, used := n :: w.used, stage := w.stage.set t (.made n) }
      else none
    | _ => none

/-- The next call of a thread fails. -/
def fails (w : World) (t : Thread) : Option World :=
  (w.stage.get? t).bind fun s =>
    match s with
    | .called pfx => some (w.goto t (.making pfx))
    | .reading pass => some (w.goto t (.reading pass))
    | .found pass _ => some (w.goto t (.reading pass))
    | .opened pass _ => some (w.withFiles (w.files.close t) t (.reading pass))
    | .locked pass dir => some (w.goto t (.cleared pass dir))
    | .cleared pass _ => some (w.goto t (.swept pass))
    | .making _ => some (w.ended t)
    | .made _ => some (w.ended t)
    | .staged _ => some (w.ended t)
    | .owned _ => some (w.ended t)
    | .dropping path => some (w.goto t (.emptied path))
    | .emptied path => some (w.goto t (.unlocked path))
    | _ => none

/-- A thread is at its new stage. -/
@[simp] theorem stage_goto (w : World) (t : Thread) (s : Stage) :
    (w.goto t s).stage.get? t = some s := by
  simp [goto]

/-- A thread is at its new stage when the files change. -/
@[simp] theorem stage_withFiles (w : World) (files : FileDir Str Thread) (t : Thread) (s : Stage) :
    (w.withFiles files t s).stage.get? t = some s := by
  simp [withFiles]

/-- A thread is at its new stage when a directory goes. -/
@[simp] theorem stage_withoutDir (w : World) (dir : Str) (t : Thread) (s : Stage) :
    (w.withoutDir dir t s).stage.get? t = some s := by
  simp [withoutDir]

/-- One event, `none` if it is not possible now. A prefix is the beginning of a name. -/
def step (w : World) : Event → Option World
  | .create t pfx =>
    if w.stage.has t || pfx.contains '/' then none else some (w.goto t (.called pfx))
  | .call t => w.call t
  | .name t n => w.name t n
  | .fails t => w.fails t
  | .drop t =>
    match w.stage.get? t with
    | some (.alive path) => some (w.goto t (.dropping path))
    | _ => none
  | .kill pid =>
    some { w with
      files := w.files.closeAll fun t => t.1 = pid
      stage := w.stage.deleteWhere fun t _ => t.1 = pid }

/-- A run. -/
def run : World → List Event → Option World
  | w, [] => some w
  | w, e :: es => (w.step e).bind fun w' => w'.run es

end World

/-! ## Names -/

/-- Different directories have different lock files. -/
theorem lockName_inj {p q : Str} (h : lockName p = lockName q) : p = q := List.append_cancel_right h

/-- A staging file is named after one directory. -/
theorem stagingName_inj {p q : Str} {m n : ℕ} (h : stagingName p m = stagingName q n) : p = q :=
  lockName_inj (numbered_inj h).1

/-- A staging file is no lock file. -/
theorem stagingName_ne_lockName (p q : Str) (n : ℕ) : stagingName p n ≠ lockName q := by
  intro h
  have hlast := congrArg List.getLast? h
  have hk : (lockName q).getLast? = some 'k' := by
    simp [lockName, lockSuffix]
  have hdigits : (stagingName p n).getLast? = (Nat.toDigits 10 n).getLast? := by
    have hne : Nat.toDigits 10 n ≠ [] := Nat.toDigits_ne_nil
    unfold stagingName
    rw [List.getLast?_append_of_ne_nil _ (List.cons_ne_nil _ _), List.getLast?_cons,
      List.getLast?_eq_some_getLast hne]
    rfl
  rw [hdigits, hk] at hlast
  have hdigit := Nat.isDigit_of_mem_toDigits (by decide) (by decide) (List.mem_of_getLast? hlast)
  exact absurd hdigit (by decide)

/-- Stripping the ending of a lock file gives its directory. -/
theorem stripLock_lockName (p : Str) : stripLock (lockName p) = some p := by
  unfold stripLock lockName
  rw [if_pos (by simp)]
  simp

/-! ## What holds between the threads -/

namespace Stage

/-- The directory whose owner the thread is. -/
def owns : Stage → Option Str
  | made p => some p
  | staged p => some p
  | owned p => some p
  | alive p => some p
  | _ => none

/-- The directory that the thread has made. -/
def path : Stage → Option Str
  | made p => some p
  | staged p => some p
  | owned p => some p
  | alive p => some p
  | dropping p => some p
  | emptied p => some p
  | unlocked p => some p
  | _ => none

/-- The directory whose lock file the thread has open in a pass. -/
def sweeps : Stage → Option Str
  | opened _ d => some d
  | locked _ d => some d
  | cleared _ d => some d
  | _ => none

/-- The directory that a pass is about to remove, or whose lock file. -/
def removes : Stage → Option Str
  | locked _ d => some d
  | cleared _ d => some d
  | _ => none

/-- The thread is in a pass. -/
def reclaims : Stage → Bool
  | called _ => true
  | reading _ => true
  | found _ _ => true
  | opened _ _ => true
  | locked _ _ => true
  | cleared _ _ => true
  | swept _ => true
  | _ => false

/-- A directory that was made and has no lock file yet. -/
def Unpublished (w : World) (p : Str) : Prop :=
  p ∈ w.used ∧ p ∈ w.dirs ∧ w.files.entry.get? (lockName p) = none

/-- What a thread relies on. -/
def Holds (w : World) (t : Thread) : Stage → Prop
  | made p => Unpublished w p ∧ w.files.desc.get? t = none
  | staged p => Unpublished w p ∧ ∃ ino, w.files.desc.get? t = some ⟨ino, none⟩ ∧
      w.files.entry.get? (stagingName p t.1) = some ino
  | owned p => Unpublished w p ∧ ∃ ino, w.files.desc.get? t = some ⟨ino, some .exclusive⟩ ∧
      w.files.entry.get? (stagingName p t.1) = some ino
  | alive p => p ∈ w.used ∧ p ∈ w.dirs ∧ ∃ ino, w.files.desc.get? t = some ⟨ino, some .exclusive⟩ ∧
      w.files.entry.get? (lockName p) = some ino
  | dropping p => p ∈ w.used
  | emptied p => p ∈ w.used
  | unlocked p => p ∈ w.used
  | opened _ d => d ∈ w.used ∧ ∃ x, w.files.desc.get? t = some x
  | locked _ d => d ∈ w.used ∧ ∃ ino, w.files.desc.get? t = some ⟨ino, some .exclusive⟩
  | cleared _ d => d ∈ w.used ∧ ∃ ino, w.files.desc.get? t = some ⟨ino, some .exclusive⟩
  | swept _ => True
  | _ => w.files.desc.get? t = none

/-- The directory that a thread owns is its path. -/
theorem path_of_owns {s : Stage} {p : Str} (h : s.owns = some p) : s.path = some p := by
  cases s <;> first | exact h | cases h

/-- No stage is one of an owner and of a pass. -/
theorem sweeps_of_owns {s : Stage} {p : Str} (h : s.owns = some p) : s.sweeps = none := by
  cases s <;> first | rfl | cases h

/-- A thread without a directory that is not in a pass. -/
theorem eq_making {s : Stage} (hp : s.path = none) (hr : s.reclaims = false) :
    ∃ pfx, s = making pfx := by
  cases s with
  | making pfx => exact ⟨pfx, rfl⟩
  | _ => simp_all [path, reclaims]

/-- A thread removes the directory that it sweeps. -/
theorem sweeps_of_removes {s : Stage} {d : Str} (h : s.removes = some d) : s.sweeps = some d := by
  cases s <;> first | exact h | cases h

end Stage

/-- The lock files of the owners: what each thread relies on, and what it may share with others. -/
structure Inv (w : World) : Prop where
  /-- Locks exclude each other. -/
  locks : w.files.WellLocked
  /-- A lock file is one of a directory that was made. -/
  known : ∀ p ino, w.files.entry.get? (lockName p) = some ino → p ∈ w.used
  /-- What the threads rely on holds. -/
  holds : ∀ t s, w.stage.get? t = some s → s.Holds w t
  /-- A directory is made by one thread. -/
  one : ∀ t t' s s' p, w.stage.get? t = some s → w.stage.get? t' = some s' → s.path = some p →
    s'.path = some p → t = t'
  /-- Who has opened the lock file of an owner has opened the file that the owner has locked. -/
  apart : ∀ t t' s s' p, w.stage.get? t = some s → w.stage.get? t' = some s' → s.owns = some p →
    s'.sweeps = some p → s = .alive p ∧
      ∃ ino l l', w.files.desc.get? t = some ⟨ino, l⟩ ∧ w.files.desc.get? t' = some ⟨ino, l'⟩
  /-- The file that the maker of a directory has open has no name but those of its lock file. -/
  mine : ∀ t s p x n, w.stage.get? t = some s → s.path = some p → w.files.desc.get? t = some x →
    w.files.entry.get? n = some x.ino → n = lockName p ∨ n = stagingName p t.1
  /-- A thread that is through has no file open. -/
  idle : ∀ t, w.stage.get? t = none → w.files.desc.get? t = none

/-- Nobody owns a directory at the beginning. -/
theorem inv_init : Inv .init where
  locks := FileDir.wellLocked_empty
  known _ _ h := by cases h
  holds _ _ h := by cases h
  one _ _ _ _ _ h := by cases h
  apart _ _ _ _ _ h := by cases h
  mine _ _ _ _ _ h := by cases h
  idle _ _ := rfl

variable {w w' : World} {t : Thread} {s s' : Stage} {p : Str}

/-! ## What a call leaves alone -/

/-- A step of one thread, as the other threads see it. -/
structure Frame (t : Thread) (w w' : World) : Prop where
  /-- They are where they were. -/
  stage : ∀ t', t' ≠ t → w'.stage.get? t' = w.stage.get? t'
  /-- They have the same files open. -/
  desc : ∀ t', t' ≠ t → w'.files.desc.get? t' = w.files.desc.get? t'
  /-- Names stay used. -/
  used : ∀ p, p ∈ w.used → p ∈ w'.used
  /-- Directories stay that have an owner. -/
  dirs : ∀ t' s p, t' ≠ t → w.stage.get? t' = some s → s.owns = some p → p ∈ w.dirs → p ∈ w'.dirs
  /-- Their lock files stay. -/
  lock : ∀ t' s p, t' ≠ t → w.stage.get? t' = some s → s.owns = some p →
    w'.files.entry.get? (lockName p) = w.files.entry.get? (lockName p)
  /-- Their staging files stay. -/
  staging : ∀ t' s p, t' ≠ t → w.stage.get? t' = some s → s.owns = some p →
    w'.files.entry.get? (stagingName p t'.1) = w.files.entry.get? (stagingName p t'.1)

/-- What the other threads rely on stays. -/
theorem Frame.holds (h : Frame t w w') {t' : Thread} (hne : t' ≠ t) (hs : w.stage.get? t' = some s)
    (hholds : s.Holds w t') : s.Holds w' t' := by
  have hdesc := h.desc t' hne
  have hpub : ∀ p, s.owns = some p → Stage.Unpublished w p → Stage.Unpublished w' p := by
    intro p hp hu
    exact ⟨h.used p hu.1, h.dirs t' s p hne hs hp hu.2.1, (h.lock t' s p hne hs hp).trans hu.2.2⟩
  -- One case for each stage: what the others do takes neither the directory nor the lock from it.
  cases s with
  | made p => exact ⟨hpub p rfl hholds.1, hdesc.trans hholds.2⟩
  | staged p =>
    obtain ⟨hu, ino, hd, he⟩ := hholds
    exact ⟨hpub p rfl hu, ino, hdesc.trans hd, (h.staging t' _ p hne hs rfl).trans he⟩
  | owned p =>
    obtain ⟨hu, ino, hd, he⟩ := hholds
    exact ⟨hpub p rfl hu, ino, hdesc.trans hd, (h.staging t' _ p hne hs rfl).trans he⟩
  | alive p =>
    obtain ⟨hu, hdir, ino, hd, he⟩ := hholds
    exact ⟨h.used p hu, h.dirs t' _ p hne hs rfl hdir, ino, hdesc.trans hd,
      (h.lock t' _ p hne hs rfl).trans he⟩
  | dropping p => exact h.used p hholds
  | emptied p => exact h.used p hholds
  | unlocked p => exact h.used p hholds
  | opened _ d => exact ⟨h.used d hholds.1, by rw [hdesc]; exact hholds.2⟩
  | locked _ d => exact ⟨h.used d hholds.1, by rw [hdesc]; exact hholds.2⟩
  | cleared _ d => exact ⟨h.used d hholds.1, by rw [hdesc]; exact hholds.2⟩
  | swept _ => trivial
  | called _ => exact hdesc.trans hholds
  | reading _ => exact hdesc.trans hholds
  | found _ _ => exact hdesc.trans hholds
  | making _ => exact hdesc.trans hholds

/-- What is new about the thread that makes a step. -/
structure Arrives (t : Thread) (w w' : World) (s : Stage) : Prop where
  /-- What it relies on. -/
  holds : s.Holds w' t
  /-- Nobody else has made its directory. -/
  one : ∀ t' s' p, t' ≠ t → w.stage.get? t' = some s' → s.path = some p → s'.path ≠ some p
  /-- As an owner, it shares its lock file. -/
  owner : ∀ t' s' p, t' ≠ t → w.stage.get? t' = some s' → s.owns = some p → s'.sweeps = some p →
    s = .alive p ∧ ∃ ino l l', w'.files.desc.get? t = some ⟨ino, l⟩ ∧
    w.files.desc.get? t' = some ⟨ino, l'⟩
  /-- In a pass, it shares that of an owner. -/
  sweeper : ∀ t' s' p, t' ≠ t → w.stage.get? t' = some s' → s'.owns = some p → s.sweeps = some p →
    s' = .alive p ∧ ∃ ino l l', w.files.desc.get? t' = some ⟨ino, l'⟩ ∧
    w'.files.desc.get? t = some ⟨ino, l⟩
  /-- The names of the file it has open. -/
  mine : ∀ p x n, s.path = some p → w'.files.desc.get? t = some x →
    w'.files.entry.get? n = some x.ino →
    n = lockName p ∨ n = stagingName p t.1

/-- The invariant after the step of a thread. -/
theorem Inv.move (h : Inv w) (hf : Frame t w w') (hlocks : w'.files.WellLocked)
    (hknown : ∀ p ino, w'.files.entry.get? (lockName p) = some ino → p ∈ w'.used)
    (hnew : ∀ s, w'.stage.get? t = some s → Arrives t w w' s)
    (hidle : w'.stage.get? t = none → w'.files.desc.get? t = none)
    (hmine : ∀ t' s p x n, t' ≠ t → w.stage.get? t' = some s → s.path = some p →
      w.files.desc.get? t' = some x → w'.files.entry.get? n = some x.ino →
      n = lockName p ∨ n = stagingName p t'.1) : Inv w' where
  locks := hlocks
  known := hknown
  -- Each part is asked of the thread that moves and of another one; only their directories have
  -- to be kept apart.
  holds t' s hs := by
    by_cases hne : t' = t
    · subst hne
      exact (hnew s hs).holds
    · rw [hf.stage t' hne] at hs
      exact hf.holds hne hs (h.holds t' s hs)
  one t₁ t₂ s₁ s₂ p h₁ h₂ hp₁ hp₂ := by
    by_cases hne₁ : t₁ = t
    · subst hne₁
      by_contra hne
      have hne₂ : t₂ ≠ t₁ := Ne.symm hne
      rw [hf.stage t₂ hne₂] at h₂
      exact (hnew s₁ h₁).one t₂ s₂ p hne₂ h₂ hp₁ hp₂
    · by_cases hne₂ : t₂ = t
      · subst hne₂
        rw [hf.stage t₁ hne₁] at h₁
        exact absurd hp₁ ((hnew s₂ h₂).one t₁ s₁ p hne₁ h₁ hp₂)
      · rw [hf.stage t₁ hne₁] at h₁
        rw [hf.stage t₂ hne₂] at h₂
        exact h.one t₁ t₂ s₁ s₂ p h₁ h₂ hp₁ hp₂
  apart t₁ t₂ s₁ s₂ p h₁ h₂ hp₁ hp₂ := by
    by_cases hne₁ : t₁ = t
    · subst hne₁
      by_cases hne₂ : t₂ = t₁
      · -- no stage is one of an owner and of a pass
        subst hne₂
        rw [h₁] at h₂
        obtain rfl := Option.some.inj h₂
        rw [Stage.sweeps_of_owns hp₁] at hp₂
        cases hp₂
      · have hd₂ := hf.desc t₂ hne₂
        rw [hf.stage t₂ hne₂] at h₂
        rw [hd₂]
        exact (hnew s₁ h₁).owner t₂ s₂ p hne₂ h₂ hp₁ hp₂
    · have hd₁ := hf.desc t₁ hne₁
      rw [hf.stage t₁ hne₁] at h₁
      rw [hd₁]
      by_cases hne₂ : t₂ = t
      · subst hne₂
        obtain ⟨hs, ino, l, l', hdesc, hdesc'⟩ := (hnew s₂ h₂).sweeper t₁ s₁ p hne₁ h₁ hp₁ hp₂
        exact ⟨hs, ino, l', l, hdesc, hdesc'⟩
      · rw [hf.stage t₂ hne₂] at h₂
        rw [hf.desc t₂ hne₂]
        exact h.apart t₁ t₂ s₁ s₂ p h₁ h₂ hp₁ hp₂
  mine t' s p x n hs hp hx hn := by
    by_cases hne : t' = t
    · subst hne
      exact (hnew s hs).mine p x n hp hx hn
    · rw [hf.stage t' hne] at hs
      rw [hf.desc t' hne] at hx
      exact hmine t' s p x n hne hs hp hx hn
  idle t' hs := by
    by_cases hne : t' = t
    · subst hne
      exact hidle hs
    · rw [hf.stage t' hne] at hs
      rw [hf.desc t' hne]
      exact h.idle t' hs

/-! ## The calls -/

/-- A thread goes on with the directory it has, or with none. -/
theorem Inv.one_of_path (h : Inv w) (hs : w.stage.get? t = some s)
    (hpath : ∀ p, s'.path = some p → s.path = some p) (t' : Thread) (r : Stage) (p : Str)
    (hne : t' ≠ t) (hr : w.stage.get? t' = some r) (hp : s'.path = some p) : r.path ≠ some p := by
  intro hrp
  exact hne (h.one t' t r s p hr hs hrp (hpath p hp))

/-- A thread without a directory arrives at a stage that is not one of a pass with an open file. -/
theorem Arrives.bare (hpath : s.path = none) (hsweeps : s.sweeps = none)
    (hdesc : w'.files.desc.get? t = none) : Arrives t w w' s := by
  have howns : ∀ p, s.owns ≠ some p := by
    intro p hp
    rw [Stage.path_of_owns hp] at hpath
    cases hpath
  refine ⟨?_, ?_, ?_, ?_, ?_⟩
  · cases s <;> first | exact hdesc | trivial
  · intro _ _ p _ _ hp
    rw [hpath] at hp
    cases hp
  · intro _ _ p _ _ hp
    exact absurd hp (howns p)
  · intro _ _ p _ _ _ hp
    rw [hsweeps] at hp
    cases hp
  · intro p _ _ hp
    rw [hpath] at hp
    cases hp

/-- The calls that move the thread on and take away, at most, what belongs to a directory without
another owner. -/
theorem Inv.take (h : Inv w) (hs : w.stage.get? t = some s) (howns : s'.owns = none)
    (hsweeps : ∀ d, s'.sweeps = some d → s.sweeps = some d)
    (hpath : ∀ p, s'.path = some p → s.path = some p) (hf : Frame t w w')
    (hstage : w'.stage.get? t = some s') (hdesc : w'.files.desc = w.files.desc)
    (hlocks : w'.files.WellLocked)
    (hentry : ∀ n ino, w'.files.entry.get? n = some ino → w.files.entry.get? n = some ino)
    (hholds : s'.Holds w' t) : Inv w' := by
  apply h.move hf hlocks
  · intro p ino hino
    exact hf.used p (h.known p ino (hentry _ _ hino))
  · intro r hr
    obtain rfl := Option.some.inj (hstage.symm.trans hr)
    refine ⟨hholds, h.one_of_path hs hpath, ?_, ?_, ?_⟩
    · intro _ _ p _ _ hp
      rw [howns] at hp
      cases hp
    · intro t' r p _ hr hp hd
      obtain ⟨hrs, ino, l, l', hd₁, hd₂⟩ := h.apart t' t r s p hr hs hp (hsweeps p hd)
      rw [hdesc]
      exact ⟨hrs, ino, l', l, hd₁, hd₂⟩
    · intro p x n hp hx hn
      rw [hdesc] at hx
      exact h.mine t s p x n hs (hpath p hp) hx (hentry _ _ hn)
  · intro hnone
    rw [hstage] at hnone
    cases hnone
  · intro t' r p x n _ hr hp hx hn
    exact h.mine t' r p x n hr hp hx (hentry _ _ hn)

/-- The calls that only move the thread on. -/
theorem Inv.goto (h : Inv w) (hs : w.stage.get? t = some s) (howns : s'.owns = none)
    (hsweeps : ∀ d, s'.sweeps = some d → s.sweeps = some d)
    (hpath : ∀ p, s'.path = some p → s.path = some p) (hholds : s'.Holds w t) :
    Inv (w.goto t s') := by
  have hf : Frame t w (w.goto t s') :=
    ⟨fun t' hne => by
      simp [World.goto, hne], fun _ _ => rfl, fun _ hp => hp, fun _ _ _ _ _ _ hp => hp,
      fun _ _ _ _ _ _ => rfl, fun _ _ _ _ _ _ => rfl⟩
  have hholds' : s'.Holds (w.goto t s') t := by cases s' <;> exact hholds
  exact h.take hs howns hsweeps hpath hf (by simp [World.goto]) rfl h.locks
    (fun _ _ hn => hn) hholds'

/-- A directory is removed that has no other owner. -/
theorem Inv.withoutDir {dir : Str} (h : Inv w) (hs : w.stage.get? t = some s)
    (howns : s'.owns = none) (hsweeps : ∀ d, s'.sweeps = some d → s.sweeps = some d)
    (hpath : ∀ p, s'.path = some p → s.path = some p)
    (hno : ∀ t' r, t' ≠ t → w.stage.get? t' = some r → r.owns ≠ some dir) (hholds : s'.Holds w t) :
    Inv (w.withoutDir dir t s') := by
  have hf : Frame t w (w.withoutDir dir t s') := by
    refine ⟨fun t' hne => by simp [World.withoutDir, hne], fun _ _ => rfl, fun _ hp => hp, ?_,
      fun _ _ _ _ _ _ => rfl, fun _ _ _ _ _ _ => rfl⟩
    intro t' r p hne hr hp hdir
    have hpd : p ≠ dir := fun he => hno t' r hne hr (he ▸ hp)
    simpa [World.withoutDir, hpd] using hdir
  have hholds' : s'.Holds (w.withoutDir dir t s') t := by
    cases s' <;> first | exact hholds | cases howns
  exact h.take hs howns hsweeps hpath hf (by simp [World.withoutDir]) rfl h.locks
    (fun _ _ hn => hn) hholds'

/-- A lock file is removed whose directory has no other owner. -/
theorem Inv.unlink {dir : Str} {files : FileDir Str Thread} (h : Inv w)
    (hfiles : w.files.unlink? (lockName dir) = some files) (hs : w.stage.get? t = some s)
    (howns : s'.owns = none) (hsweeps : s'.sweeps = none)
    (hpath : ∀ p, s'.path = some p → s.path = some p)
    (hno : ∀ t' r, t' ≠ t → w.stage.get? t' = some r → r.owns ≠ some dir) (hholds : s'.Holds w t) :
    Inv (w.withFiles files t s') := by
  have hlocks := h.locks.unlink? hfiles
  obtain rfl := FileDir.unlink?_ok hfiles
  -- Only the name of the lock goes; whoever holds the lock goes on holding it.
  have hf :
    Frame t w (w.withFiles { w.files with entry := w.files.entry.erase (lockName dir) } t s') := by
    refine ⟨fun t' hne => by simp [World.withFiles, hne], fun _ _ => rfl, fun _ hp => hp,
      fun _ _ _ _ _ _ hp => hp, ?_, ?_⟩
    · intro t' r p hne hr hp
      have hpd : p ≠ dir := fun he => hno t' r hne hr (he ▸ hp)
      simp [World.withFiles, show lockName p ≠ lockName dir from fun he => hpd (lockName_inj he)]
    · intro t' r p hne hr hp
      simp [World.withFiles, stagingName_ne_lockName]
  have hentry : ∀ n ino, (w.files.entry.erase (lockName dir)).get? n = some ino →
      w.files.entry.get? n = some ino := by
    intro n ino hn
    rw [Table.get?_erase] at hn
    split_ifs at hn
    exact hn
  have hholds' :
    s'.Holds (w.withFiles { w.files with entry := w.files.entry.erase (lockName dir) } t s') t := by
    cases s' <;> first | exact hholds | cases howns
  exact h.take hs howns (fun d hd => by rw [hsweeps] at hd; cases hd) hpath hf
    (by simp [World.withFiles]) rfl
    hlocks hentry hholds'

/-- The beginning of a thread keeps the invariant: it owns nothing. -/
theorem Inv.create (h : Inv w) (hs : w.stage.get? t = none) (pfx : Str) :
    Inv (w.goto t (.called pfx)) := by
  have hf : Frame t w (w.goto t (.called pfx)) :=
    ⟨fun t' hne => by
      simp [World.goto, hne], fun _ _ => rfl, fun _ hp => hp, fun _ _ _ _ _ _ hp => hp,
      fun _ _ _ _ _ _ => rfl, fun _ _ _ _ _ _ => rfl⟩
  have hstage : (w.goto t (.called pfx)).stage.get? t = some (.called pfx) := by simp [World.goto]
  apply h.move hf h.locks h.known
  · intro r hr
    obtain rfl := Option.some.inj (hstage.symm.trans hr)
    exact Arrives.bare rfl rfl (h.idle t hs)
  · intro hnone
    rw [hstage] at hnone
    cases hnone
  · intro t' r p x n _
    exact h.mine t' r p x n

/-- A thread closes what it has open. `stage` is that of the threads afterwards. -/
theorem Inv.close (h : Inv w) {stage : Table Thread Stage}
    (hstage : ∀ t', t' ≠ t → stage.get? t' = w.stage.get? t')
    (hs : ∀ s, stage.get? t = some s → s.path = none ∧ s.sweeps = none) :
    Inv { w with files := w.files.close t, stage := stage } := by
  have hdesc : ∀ t', (w.files.close t).desc.get? t' = if t' = t then none
    else w.files.desc.get? t' := by
    intro t'
    exact Table.get?_erase w.files.desc t t'
  have hnone : (w.files.close t).desc.get? t = none := by rw [hdesc, if_pos rfl]
  have hf : Frame t w { w with files := w.files.close t, stage := stage } :=
    ⟨hstage, fun t' hne => (hdesc t').trans (if_neg hne), fun _ hp => hp, fun _ _ _ _ _ _ hp => hp,
      fun _ _ _ _ _ _ => rfl, fun _ _ _ _ _ _ => rfl⟩
  apply h.move hf (h.locks.close t) h.known
  · intro r hr
    exact Arrives.bare (hs r hr).1 (hs r hr).2 hnone
  · intro _
    exact hnone
  · intro t' r p x n _
    exact h.mine t' r p x n

/-- A thread opens the lock file of a directory. -/
theorem Inv.openLock {pass : Pass} {dir : Str} {files : FileDir Str Thread} (h : Inv w)
    (hs : w.stage.get? t = some (.found pass dir))
    (hfiles : w.files.open? t (lockName dir) = some files) :
    Inv (w.withFiles files t (.opened pass dir)) := by
  have hlocks := h.locks.open? hfiles
  obtain ⟨ino, hino, rfl⟩ := FileDir.open?_ok hfiles
  have hf :
    Frame t w (w.withFiles { w.files with desc := w.files.desc.set t ⟨ino, none⟩ } t
      (.opened pass dir)) :=
    ⟨fun t' hne => by simp [World.withFiles, hne], fun t' hne => by
      simp [World.withFiles, hne], fun _ hp => hp,
      fun _ _ _ _ _ _ hp => hp, fun _ _ _ _ _ _ => rfl, fun _ _ _ _ _ _ => rfl⟩
  have hdesc : (w.files.desc.set t (⟨ino, none⟩ : Desc)).get? t = some ⟨ino, none⟩ := by simp
  apply h.move hf hlocks h.known
  · intro r hr
    have hstage : (w.stage.set t (.opened pass dir)).get? t = some (.opened pass dir) := by simp
    obtain rfl := Option.some.inj (hstage.symm.trans hr)
    refine ⟨⟨h.known dir ino hino, _, hdesc⟩, fun _ _ _ _ _ hp => (by cases hp),
      fun _ _ _ _ _ hp => (by cases hp), ?_, fun _ _ _ hp => (by cases hp)⟩
    intro t' r p _ hr hp hd
    obtain rfl := Option.some.inj hd
    -- an owner whose lock file has a name has locked it
    have hholds := h.holds t' r hr
    cases r with
    | made q =>
      obtain rfl := Option.some.inj hp
      rw [hholds.1.2.2] at hino
      cases hino
    | staged q =>
      obtain rfl := Option.some.inj hp
      rw [hholds.1.2.2] at hino
      cases hino
    | owned q =>
      obtain rfl := Option.some.inj hp
      rw [hholds.1.2.2] at hino
      cases hino
    | alive q =>
      obtain rfl := Option.some.inj hp
      obtain ⟨-, -, ino', hdesc', hino'⟩ := hholds
      obtain rfl := Option.some.inj (hino.symm.trans hino')
      exact ⟨rfl, ino, none, some .exclusive, hdesc', hdesc⟩
    | _ => cases hp
  · intro hnone
    have hstage : (w.stage.set t (.opened pass dir)).get? t = none := hnone
    simp at hstage
  · intro t' r p x n _
    exact h.mine t' r p x n

/-- A thread locks what it has open. -/
theorem Inv.flock {files : FileDir Str Thread} (h : Inv w) (hs : w.stage.get? t = some s)
    (hfiles : w.files.flock? t .exclusive = some files)
    (howns : ∀ p, s'.owns = some p → s.owns = some p)
    (halive : ∀ p, s.owns = some p → s ≠ .alive p)
    (hsweeps : ∀ d, s'.sweeps = some d → s.sweeps = some d)
    (hpath : ∀ p, s'.path = some p → s.path = some p)
    (hholds : ∀ ino l, w.files.desc.get? t = some ⟨ino, l⟩ → files.entry = w.files.entry →
      files.desc.get? t = some ⟨ino, some .exclusive⟩ → s'.Holds (w.withFiles files t s') t) :
    Inv (w.withFiles files t s') := by
  have hlocks := h.locks.flock? hfiles
  obtain ⟨⟨ino, l⟩, hx, -, rfl⟩ := FileDir.flock?_ok hfiles
  dsimp only at hlocks hholds ⊢
  have hdesc : (w.files.desc.set t (⟨ino, some .exclusive⟩ : Desc)).get? t = some ⟨ino,
    some .exclusive⟩ := by
    simp
  have hf :
    Frame t w (w.withFiles { w.files with desc := w.files.desc.set t ⟨ino, some .exclusive⟩ } t
      s') :=
    ⟨fun t' hne => by simp [World.withFiles, hne], fun t' hne => by
      simp [World.withFiles, hne], fun _ hp => hp,
      fun _ _ _ _ _ _ hp => hp, fun _ _ _ _ _ _ => rfl, fun _ _ _ _ _ _ => rfl⟩
  have hstage : (w.stage.set t s').get? t = some s' := by simp
  -- The lock is put at the thread's own descriptor, which names the same file as before.
  apply h.move hf hlocks h.known
  · intro r hr
    obtain rfl := Option.some.inj (hstage.symm.trans hr)
    refine ⟨hholds ino l hx rfl hdesc, h.one_of_path hs hpath, ?_, ?_, ?_⟩
    · intro t' r p _ hr hp hd
      exact absurd (h.apart t t' s r p hs hr (howns p hp) hd).1 (halive p (howns p hp))
    · intro t' r p _ hr hp hd
      obtain ⟨hrs, ino', l₁, l₂, hd₁, hd₂⟩ := h.apart t' t r s p hr hs hp (hsweeps p hd)
      rw [hx] at hd₂
      obtain rfl := congrArg Desc.ino (Option.some.inj hd₂)
      exact ⟨hrs, ino, some .exclusive, l₁, hd₁, hdesc⟩
    · intro p x n hp hx' hn
      have hx'' := hdesc.symm.trans hx'
      obtain rfl := Option.some.inj hx''
      exact h.mine t s p ⟨ino, l⟩ n hs (hpath p hp) hx hn
  · intro hnone
    rw [show (w.withFiles _ t s').stage.get? t = _ from hstage] at hnone
    cases hnone
  · intro t' r p x n _
    exact h.mine t' r p x n

/-- A thread makes a directory of a name that was never used. -/
theorem Inv.mkdtemp {pfx n : Str} (h : Inv w) (hs : w.stage.get? t = some (.making pfx))
    (hnew : n ∉ w.used) (w' : World)
    (hw : w' = { w with dirs := n :: w.dirs, used := n :: w.used, stage := w.stage.set t (.made n)
      }) :
    Inv w' := by
  have hf : Frame t w w' := by
    subst hw
    exact ⟨fun t' hne => by simp [hne], fun _ _ => rfl, fun _ hp => List.mem_cons_of_mem _ hp,
      fun _ _ _ _ _ _ hp => List.mem_cons_of_mem _ hp, fun _ _ _ _ _ _ => rfl,
      fun _ _ _ _ _ _ => rfl⟩
  have hdesc : w.files.desc.get? t = none := h.holds t _ hs
  have hstage : w'.stage.get? t = some (.made n) := by
    subst hw
    simp
  -- A fresh name has no lock file and no thread, since every lock file's name has been used.
  have hlock : w.files.entry.get? (lockName n) = none := by
    cases hino : w.files.entry.get? (lockName n) with
    | none => rfl
    | some ino => exact absurd (h.known n ino hino) hnew
  have hpath : ∀ t' r, w.stage.get? t' = some r → r.path ≠ some n ∧ r.sweeps ≠ some n := by
    intro t' r hr
    have hholds := h.holds t' r hr
    constructor
    · intro hp
      cases r with
      | made q => exact hnew (Option.some.inj hp ▸ hholds.1.1)
      | staged q => exact hnew (Option.some.inj hp ▸ hholds.1.1)
      | owned q => exact hnew (Option.some.inj hp ▸ hholds.1.1)
      | alive q => exact hnew (Option.some.inj hp ▸ hholds.1)
      | dropping q => exact hnew (Option.some.inj hp ▸ hholds)
      | emptied q => exact hnew (Option.some.inj hp ▸ hholds)
      | unlocked q => exact hnew (Option.some.inj hp ▸ hholds)
      | _ => cases hp
    · intro hd
      cases r with
      | opened _ d => exact hnew (Option.some.inj hd ▸ hholds.1)
      | locked _ d => exact hnew (Option.some.inj hd ▸ hholds.1)
      | cleared _ d => exact hnew (Option.some.inj hd ▸ hholds.1)
      | _ => cases hd
  have hlocks : w'.files.WellLocked := by
    subst hw
    exact h.locks
  apply h.move hf hlocks
  · intro p ino hino
    refine hf.used p (h.known p ino ?_)
    subst hw
    exact hino
  · intro r hr
    obtain rfl := Option.some.inj (hstage.symm.trans hr)
    refine ⟨?_, ?_, ?_, fun _ _ _ _ _ _ hd => (by cases hd), ?_⟩
    · subst hw
      exact ⟨⟨List.mem_cons_self, List.mem_cons_self, hlock⟩, hdesc⟩
    · intro t' r p _ hr hp
      obtain rfl := Option.some.inj hp
      exact (hpath t' r hr).1
    · intro t' r p _ hr hp hd
      obtain rfl := Option.some.inj hp
      exact absurd hd (hpath t' r hr).2
    · intro p x m _ hx
      subst hw
      rw [hdesc] at hx
      cases hx
  · intro hnone
    rw [hstage] at hnone
    cases hnone
  · intro t' r p x m _ hr hp hx hm
    subst hw
    exact h.mine t' r p x m hr hp hx hm

/-- A thread makes the staging file of its directory. -/
theorem Inv.createStaging {files : FileDir Str Thread} (h : Inv w)
    (hs : w.stage.get? t = some (.made p))
    (hfiles : w.files.create? t (stagingName p t.1) = some files) :
    Inv (w.withFiles files t (.staged p)) := by
  have hlocks := h.locks.create? hfiles
  obtain ⟨hnew, rfl⟩ := FileDir.create?_ok hfiles
  obtain ⟨hpub, hdesc⟩ := h.holds t _ hs
  have hdesc' : (w.files.desc.set t (⟨w.files.next, none⟩ : Desc)).get? t = some ⟨w.files.next,
    none⟩ := by simp
  -- the new file has one name
  have hentry : ∀ n ino, (w.files.entry.set (stagingName p t.1) w.files.next).get? n = some ino →
      n = stagingName p t.1 ∧ ino = w.files.next ∨ n ≠ stagingName p t.1 ∧
      w.files.entry.get? n = some ino := by
    intro n ino hn
    rw [Table.get?_set] at hn
    split_ifs at hn with hname
    · exact Or.inl ⟨hname, (Option.some.inj hn).symm⟩
    · exact Or.inr ⟨hname, hn⟩
  have hf : Frame t w (w.withFiles ⟨w.files.entry.set (stagingName p t.1) w.files.next,
      w.files.desc.set t ⟨w.files.next, none⟩, w.files.next + 1⟩ t (.staged p)) := by
    refine ⟨fun t' hne => by simp [World.withFiles, hne], fun t' hne => by
      simp [World.withFiles, hne],
      fun _ hp => hp, fun _ _ _ _ _ _ hp => hp, ?_, ?_⟩
    · intro t' r q hne hr hq
      simp [World.withFiles, Ne.symm (stagingName_ne_lockName p q t.1)]
    · intro t' r q hne hr hq
      have hqp : stagingName q t'.1 ≠ stagingName p t.1 := by
        intro he
        rw [stagingName_inj he] at hq
        exact hne (h.one t' t r _ p hr hs (Stage.path_of_owns hq) rfl)
      simp [World.withFiles, hqp]
  apply h.move hf hlocks
  · intro q ino hino
    obtain ⟨hname, -⟩ | ⟨-, hold⟩ := hentry _ _ hino
    · exact absurd hname.symm (stagingName_ne_lockName p q t.1)
    · exact h.known q ino hold
  · intro r hr
    have hstage : (w.stage.set t (.staged p)).get? t = some (.staged p) := by simp
    obtain rfl := Option.some.inj (hstage.symm.trans hr)
    refine ⟨?_, h.one_of_path hs (fun q hq => hq), ?_, fun _ _ _ _ _ _ hd => (by cases hd), ?_⟩
    · refine ⟨⟨hpub.1, hpub.2.1, ?_⟩, _, hdesc', ?_⟩
      · simpa [World.withFiles, Ne.symm (stagingName_ne_lockName p p t.1)] using hpub.2.2
      · simp [World.withFiles]
    · intro t' r q _ hr hq hd
      exact absurd (h.apart t t' _ r q hs hr hq hd).1 (by simp)
    · intro q x n hq hx hn
      obtain rfl := Option.some.inj hq
      have hx' := hdesc'.symm.trans hx
      obtain rfl := Option.some.inj hx'
      obtain ⟨hname, -⟩ | ⟨-, hold⟩ := hentry _ _ hn
      · exact Or.inr hname
      · exact absurd (h.locks.entry _ _ hold) (lt_irrefl _)
  · intro hnone
    have hstage : (w.stage.set t (.staged p)).get? t = none := hnone
    simp at hstage
  · intro t' r q x n _ hr hq hx hn
    obtain ⟨-, hino⟩ | ⟨-, hold⟩ := hentry _ _ hn
    · have hlt := h.locks.desc t' x hx
      rw [hino] at hlt
      exact absurd hlt (lt_irrefl _)
    · exact h.mine t' r q x n hr hq hx hold

/-- A thread gives its locked staging file the name of the lock file. -/
theorem Inv.renameLock {files : FileDir Str Thread} (h : Inv w)
    (hs : w.stage.get? t = some (.owned p))
    (hfiles : w.files.rename? (stagingName p t.1) (lockName p) = some files) :
    Inv (w.withFiles files t (.alive p)) := by
  have hlocks := h.locks.rename? hfiles
  obtain ⟨ino, hino, rfl⟩ := FileDir.rename?_ok hfiles
  obtain ⟨hpub, ino', hdesc, hino'⟩ := h.holds t _ hs
  obtain rfl := Option.some.inj (hino.symm.trans hino')
  have hentry : ∀ n i, ((w.files.entry.erase (stagingName p t.1)).set (lockName p) ino).get?
      n = some i →
      n = lockName p ∧ i = ino ∨ n ≠ lockName p ∧ w.files.entry.get? n = some i := by
    intro n i hn
    rw [Table.get?_set, Table.get?_erase] at hn
    split_ifs at hn with hname hstaging
    · exact Or.inl ⟨hname, (Option.some.inj hn).symm⟩
    · exact Or.inr ⟨hname, hn⟩
  have hf : Frame t w (w.withFiles
      { w.files with entry := (w.files.entry.erase (stagingName p t.1)).set (lockName p) ino } t
      (.alive p)) := by
    refine ⟨fun t' hne => by simp [World.withFiles, hne], fun _ _ => rfl, fun _ hp => hp,
      fun _ _ _ _ _ _ hp => hp, ?_, ?_⟩
    · intro t' r q hne hr hq
      have hqp : lockName q ≠ lockName p := by
        intro he
        rw [lockName_inj he] at hq
        exact hne (h.one t' t r _ p hr hs (Stage.path_of_owns hq) rfl)
      simp [World.withFiles, hqp, Ne.symm (stagingName_ne_lockName p q t.1)]
    · intro t' r q hne hr hq
      have hqp : stagingName q t'.1 ≠ stagingName p t.1 := by
        intro he
        rw [stagingName_inj he] at hq
        exact hne (h.one t' t r _ p hr hs (Stage.path_of_owns hq) rfl)
      simp [World.withFiles, hqp, stagingName_ne_lockName]
  -- The lock file changes its name and keeps its inode, so the thread holds the same lock.
  apply h.move hf hlocks
  · intro q i hi
    obtain ⟨hname, -⟩ | ⟨-, hold⟩ := hentry _ _ hi
    · rw [lockName_inj hname]
      exact hpub.1
    · exact h.known q i hold
  · intro r hr
    have hstage : (w.stage.set t (.alive p)).get? t = some (.alive p) := by simp
    obtain rfl := Option.some.inj (hstage.symm.trans hr)
    refine ⟨⟨hpub.1, hpub.2.1, ino, hdesc, by simp [World.withFiles]⟩,
      h.one_of_path hs (fun q hq => hq), ?_,
      fun _ _ _ _ _ _ hd => (by cases hd), ?_⟩
    · intro t' r q _ hr hq hd
      exact absurd (h.apart t t' _ r q hs hr hq hd).1 (by simp)
    · intro q x n hq hx hn
      obtain rfl := Option.some.inj hq
      obtain ⟨hname, -⟩ | ⟨-, hold⟩ := hentry _ _ hn
      · exact Or.inl hname
      · exact h.mine t _ _ x n hs rfl hx hold
  · intro hnone
    have hstage : (w.stage.set t (.alive p)).get? t = none := hnone
    simp at hstage
  · intro t' r q x n hne hr hq hx hn
    obtain ⟨-, hi⟩ | ⟨-, hold⟩ := hentry _ _ hn
    · -- the file that is renamed is not open in another thread with a directory
      rw [← hi] at hino
      obtain he | he := h.mine t' r q x _ hr hq hx hino
      · exact absurd he (stagingName_ne_lockName p q t.1)
      · rw [← stagingName_inj he] at hq
        exact absurd (h.one t' t r _ p hr hs hq rfl) hne
    · exact h.mine t' r q x n hr hq hx hold

/-- The end of a process keeps the invariant: what it owned is released. -/
theorem Inv.kill (h : Inv w) (pid : ℕ) (w' : World) (hw : w.step (.kill pid) = some w') :
    Inv w' := by
  obtain rfl := Option.some.inj hw
  have hstage : ∀ t, (w.stage.deleteWhere fun t _ => t.1 = pid).get? t =
      if t.1 = pid then none else w.stage.get? t := by
    intro t
    simpa using Table.get?_deleteWhere_key w.stage (fun t => decide (t.1 = pid)) t
  have hdesc : ∀ t, (w.files.closeAll fun t => t.1 = pid).desc.get? t =
      if t.1 = pid then none else w.files.desc.get? t := by
    intro t
    simpa using FileDir.get?_closeAll (fun t => decide (t.1 = pid)) t
  have hkept : ∀ t s, (w.stage.deleteWhere fun t _ => t.1 = pid).get? t = some s →
      t.1 ≠ pid ∧ w.stage.get? t = some s := by
    intro t s hs
    rw [hstage] at hs
    split_ifs at hs with hpid
    exact ⟨hpid, hs⟩
  have hsame : ∀ t, t.1 ≠ pid →
    (w.files.closeAll fun t => t.1 = pid).desc.get? t = w.files.desc.get? t :=
    fun t hpid => (hdesc t).trans (if_neg hpid)
  -- The threads of the process and their descriptors go; the others keep stage and descriptor.
  refine ⟨h.locks.closeAll _, h.known, ?_, ?_, ?_, ?_, ?_⟩
  · intro t s hs
    obtain ⟨hpid, hold⟩ := hkept t s hs
    have hholds := h.holds t s hold
    have hentry : (w.files.closeAll fun t => t.1 = pid).entry = w.files.entry := rfl
    cases s with
    | swept pass => trivial
    | _ => simpa only [Stage.Holds, Stage.Unpublished, hsame t hpid, hentry] using hholds
  · intro t t' s s' p hs hs'
    exact h.one t t' s s' p (hkept t s hs).2 (hkept t' s' hs').2
  · intro t t' s s' p hs hs' hp hd
    obtain ⟨hpid, hold⟩ := hkept t s hs
    obtain ⟨hpid', hold'⟩ := hkept t' s' hs'
    dsimp only
    rw [hsame t hpid, hsame t' hpid']
    exact h.apart t t' s s' p hold hold' hp hd
  · intro t s p x n hs hp hx hn
    obtain ⟨hpid, hold⟩ := hkept t s hs
    dsimp only at hx
    rw [hsame t hpid] at hx
    exact h.mine t s p x n hold hp hx hn
  · intro t hs
    dsimp only at hs ⊢
    rw [hstage] at hs
    rw [hdesc]
    split_ifs at hs ⊢ with hpid
    · rfl
    · exact h.idle t hs

/-! ## Runs -/

/-- Nobody but a pass that has locked it removes a directory: it has no owner. -/
theorem Inv.no_owner (h : Inv w) (hs : w.stage.get? t = some s) (hr : s.removes = some p)
    (t' : Thread) (r : Stage) (hr' : w.stage.get? t' = some r) : r.owns ≠ some p := by
  intro hp
  obtain ⟨rfl, ino, l, l', hd, hd'⟩ := h.apart t' t r s p hr' hs hp (Stage.sweeps_of_removes hr)
  -- both have an exclusive lock on the lock file, so they are one thread
  have hlock : l = some .exclusive := by
    obtain ⟨-, -, ino', hdesc, -⟩ := h.holds t' _ hr'
    rw [hd] at hdesc
    exact congrArg Desc.lock (Option.some.inj hdesc)
  have hlock' : l' = some .exclusive := by
    have hdesc : ∃ ino', w.files.desc.get? t = some ⟨ino', some .exclusive⟩ := by
      have hholds := h.holds t s hs
      cases s <;> first | exact hholds.2 | cases hr
    obtain ⟨ino', hdesc⟩ := hdesc
    rw [hd'] at hdesc
    exact congrArg Desc.lock (Option.some.inj hdesc)
  subst hlock hlock'
  obtain rfl := h.locks.eq_of_exclusive hd hd'
  rw [hs] at hr'
  obtain rfl := Option.some.inj hr'
  cases hr

/-- A thread that has made a directory is its only maker. -/
theorem Inv.no_other_owner (h : Inv w) (hs : w.stage.get? t = some s) (hp : s.path = some p)
    (t' : Thread) (r : Stage) (hne : t' ≠ t) (hr : w.stage.get? t' = some r) : r.owns ≠ some p := by
  intro ho
  exact hne (h.one t' t r s p hr hs (Stage.path_of_owns ho) hp)

/-- A thread that is through closes what it has open. -/
theorem Inv.ended (h : Inv w) (t : Thread) : Inv (w.ended t) := by
  refine h.close ?_ ?_
  · intro t' hne
    simp [hne]
  · intro r hr
    simp at hr

/-- A thread closes a file and goes on with the pass. -/
theorem Inv.closeLock (h : Inv w) (t : Thread) (pass : Pass) :
    Inv (w.withFiles (w.files.close t) t (.reading pass)) := by
  refine h.close ?_ ?_
  · intro t' hne
    simp [hne]
  · intro r hr
    have hr' : some (Stage.reading pass) = some r := by simpa using hr
    obtain rfl := Option.some.inj hr'
    exact ⟨rfl, rfl⟩

/-- Every call keeps the invariant. -/
theorem Inv.call (h : Inv w) (hw : w.call t = some w') : Inv w' := by
  unfold World.call at hw
  obtain ⟨s, hs, hw⟩ := Option.bind_eq_some_iff.1 hw
  have hholds := h.holds t s hs
  have hnone : ∀ {s' : Stage}, s'.path = none → ∀ p, s'.path = some p → s.path = some p := by
    intro s' hp p hp'
    rw [hp] at hp'
    cases hp'
  have hnone' : ∀ {s' : Stage}, s'.sweeps = none → ∀ d, s'.sweeps = some d → s.sweeps = some d := by
    intro s' hd d hd'
    rw [hd] at hd'
    cases hd'
  -- One case for each call. A thread that takes no new directory keeps what the invariant says of
  -- the one it has.
  cases s with
  | called pfx =>
    obtain rfl := Option.some.inj hw
    exact h.goto hs rfl (hnone' rfl) (hnone rfl) hholds
  | reading pass =>
    dsimp only at hw
    split_ifs at hw
    obtain rfl := Option.some.inj hw
    exact h.goto hs rfl (hnone' rfl) (hnone rfl) hholds
  | found pass dir =>
    dsimp only at hw
    split at hw
    next files hfiles =>
      obtain rfl := Option.some.inj hw
      exact h.openLock hs hfiles
    next =>
      obtain rfl := Option.some.inj hw
      exact h.goto hs rfl (hnone' rfl) (hnone rfl) hholds
  | opened pass dir =>
    dsimp only at hw
    split at hw
    next files hfiles =>
      obtain rfl := Option.some.inj hw
      refine h.flock hs hfiles (fun _ hp => (by cases hp)) (fun _ hp => (by cases hp))
        (fun _ hd => hd)
        (hnone rfl) ?_
      intro ino l _ _ hdesc
      exact ⟨hholds.1, ino, hdesc⟩
    next =>
      obtain rfl := Option.some.inj hw
      exact h.closeLock t pass
  | locked pass dir =>
    obtain rfl := Option.some.inj hw
    exact h.withoutDir hs rfl (fun _ hd => hd) (hnone rfl)
      (fun t' r _ hr => h.no_owner hs rfl t' r hr) hholds
  | cleared pass dir =>
    dsimp only at hw
    split at hw
    next files hfiles =>
      obtain rfl := Option.some.inj hw
      exact h.unlink hfiles hs rfl rfl (hnone rfl)
        (fun t' r _ hr => h.no_owner hs rfl t' r hr) trivial
    next =>
      obtain rfl := Option.some.inj hw
      exact h.goto hs rfl (hnone' rfl) (hnone rfl) trivial
  | swept pass =>
    obtain rfl := Option.some.inj hw
    exact h.closeLock t pass
  | making pfx => cases hw
  | made path =>
    dsimp only at hw
    split_ifs at hw
    · obtain rfl := Option.some.inj hw
      exact h.ended t
    · split at hw
      next files hfiles =>
        obtain rfl := Option.some.inj hw
        exact h.createStaging hs hfiles
      next =>
        obtain rfl := Option.some.inj hw
        exact h.ended t
  | staged path =>
    dsimp only at hw
    split at hw
    next files hfiles =>
      obtain rfl := Option.some.inj hw
      refine h.flock hs hfiles (fun _ hp => hp) (fun _ _ => (by simp)) (fun _ hd => hd)
        (fun _ hp => hp) ?_
      intro ino l hd he hdesc
      obtain ⟨hpub, ino', hdesc', hino⟩ := hholds
      rw [hd] at hdesc'
      obtain rfl := congrArg Desc.ino (Option.some.inj hdesc')
      refine ⟨⟨hpub.1, hpub.2.1, ?_⟩, ino, hdesc, ?_⟩
      · exact (congrArg (fun e => e.get? (lockName path)) he).trans hpub.2.2
      · exact (congrArg (fun e => e.get? (stagingName path t.1)) he).trans hino
    next =>
      obtain rfl := Option.some.inj hw
      exact h.ended t
  | owned path =>
    dsimp only at hw
    split_ifs at hw
    · obtain rfl := Option.some.inj hw
      exact h.ended t
    · split at hw
      next files hfiles =>
        obtain rfl := Option.some.inj hw
        exact h.renameLock hs hfiles
      next =>
        obtain rfl := Option.some.inj hw
        exact h.ended t
  | alive path => cases hw
  | dropping path =>
    obtain rfl := Option.some.inj hw
    exact h.withoutDir hs rfl (hnone' rfl) (fun _ hp => hp) (h.no_other_owner hs rfl) hholds
  | emptied path =>
    dsimp only at hw
    split at hw
    next files hfiles =>
      obtain rfl := Option.some.inj hw
      exact h.unlink hfiles hs rfl rfl (fun _ hp => hp) (h.no_other_owner hs rfl) hholds
    next =>
      obtain rfl := Option.some.inj hw
      exact h.goto hs rfl (hnone' rfl) (fun _ hp => hp) hholds
  | unlocked path =>
    obtain rfl := Option.some.inj hw
    exact h.ended t

/-- A call that returns a name keeps the invariant. -/
theorem Inv.name {n : Str} (h : Inv w) (hw : w.name t n = some w') : Inv w' := by
  unfold World.name at hw
  obtain ⟨s, hs, hw⟩ := Option.bind_eq_some_iff.1 hw
  have hholds := h.holds t s hs
  cases s with
  | reading pass =>
    dsimp only at hw
    split at hw
    next dir hdir =>
      obtain rfl := Option.some.inj hw
      split_ifs
      · exact h.goto hs rfl (fun _ hd => (by cases hd)) (fun _ hp => (by cases hp)) hholds
      · exact h.goto hs rfl (fun _ hd => (by cases hd)) (fun _ hp => (by cases hp)) hholds
    next =>
      obtain rfl := Option.some.inj hw
      exact h.goto hs rfl (fun _ hd => (by cases hd)) (fun _ hp => (by cases hp)) hholds
  | making pfx =>
    dsimp only at hw
    split_ifs at hw with hnew
    have hused : n ∉ w.used := by
      simp only [Bool.and_eq_true,
        Bool.not_eq_true', List.contains_eq_mem, decide_eq_false_iff_not] at hnew
      exact hnew.2
    exact h.mkdtemp hs hused w' (Option.some.inj hw).symm
  | _ => cases hw

/-- A call that fails keeps the invariant. -/
theorem Inv.fails (h : Inv w) (hw : w.fails t = some w') : Inv w' := by
  unfold World.fails at hw
  obtain ⟨s, hs, hw⟩ := Option.bind_eq_some_iff.1 hw
  have hholds := h.holds t s hs
  -- A call that fails leaves the files as they are; the thread ends or goes on without a
  -- directory.
  cases s with
  | called pfx =>
    obtain rfl := Option.some.inj hw
    exact h.goto hs rfl (fun _ hd => (by cases hd)) (fun _ hp => (by cases hp)) hholds
  | reading pass =>
    obtain rfl := Option.some.inj hw
    exact h.goto hs rfl (fun _ hd => (by cases hd)) (fun _ hp => (by cases hp)) hholds
  | found pass dir =>
    obtain rfl := Option.some.inj hw
    exact h.goto hs rfl (fun _ hd => (by cases hd)) (fun _ hp => (by cases hp)) hholds
  | opened pass dir =>
    obtain rfl := Option.some.inj hw
    exact h.closeLock t pass
  | locked pass dir =>
    obtain rfl := Option.some.inj hw
    exact h.goto hs rfl (fun _ hd => hd) (fun _ hp => (by cases hp)) hholds
  | cleared pass dir =>
    obtain rfl := Option.some.inj hw
    exact h.goto hs rfl (fun _ hd => (by cases hd)) (fun _ hp => (by cases hp)) trivial
  | making pfx =>
    obtain rfl := Option.some.inj hw
    exact h.ended t
  | made path =>
    obtain rfl := Option.some.inj hw
    exact h.ended t
  | staged path =>
    obtain rfl := Option.some.inj hw
    exact h.ended t
  | owned path =>
    obtain rfl := Option.some.inj hw
    exact h.ended t
  | dropping path =>
    obtain rfl := Option.some.inj hw
    exact h.goto hs rfl (fun _ hd => (by cases hd)) (fun _ hp => hp) hholds
  | emptied path =>
    obtain rfl := Option.some.inj hw
    exact h.goto hs rfl (fun _ hd => (by cases hd)) (fun _ hp => hp) hholds
  | _ => cases hw

/-- Every event keeps the invariant. -/
theorem Inv.step (h : Inv w) {e : Event} (hw : w.step e = some w') : Inv w' := by
  cases e with
  | create t pfx =>
    unfold World.step at hw
    dsimp only at hw
    split_ifs at hw with hthere
    obtain rfl := Option.some.inj hw
    simp only [Bool.or_eq_true, not_or] at hthere
    exact h.create (Table.get?_of_not_has hthere.1) pfx
  | call t => exact h.call hw
  | name t n => exact h.name hw
  | fails t => exact h.fails hw
  | drop t =>
    unfold World.step at hw
    dsimp only at hw
    split at hw
    next path hs =>
      obtain rfl := Option.some.inj hw
      exact h.goto hs rfl (fun _ hd => (by cases hd)) (fun _ hp => hp) (h.holds t _ hs).1
    next => cases hw
  | kill pid => exact h.kill pid w' hw

/-- It holds along every run. -/
theorem Inv.run (h : Inv w) : ∀ {es : List Event}, w.run es = some w' → Inv w' := by
  intro es
  induction es generalizing w with
  | nil =>
    intro hw
    exact Option.some.inj hw ▸ h
  | cons e es ih =>
    intro hw
    obtain ⟨w₁, hw₁, hw⟩ := Option.bind_eq_some_iff.1 hw
    exact ih (h.step hw₁) hw

/-! ## A living owner -/

/-- Every owner has its directory; once it is published, its lock file is there and is the file that
the owner has locked; and no pass is about to remove either. -/
def World.OwnersStand (w : World) : Prop :=
  ∀ t s p, w.stage.get? t = some s → s.owns = some p → p ∈ w.dirs ∧
    (s = .alive p → ∃ ino, w.files.desc.get? t = some ⟨ino, some .exclusive⟩ ∧
      w.files.entry.get? (lockName p) = some ino) ∧
    ∀ t' s', w.stage.get? t' = some s' → s'.removes ≠ some p

/-- What is owned stands. -/
theorem Inv.ownersStand (h : Inv w) : w.OwnersStand := by
  intro t s p hs hp
  have hholds := h.holds t s hs
  refine ⟨?_, ?_, ?_⟩
  · cases s with
    | made q => exact Option.some.inj hp ▸ hholds.1.2.1
    | staged q => exact Option.some.inj hp ▸ hholds.1.2.1
    | owned q => exact Option.some.inj hp ▸ hholds.1.2.1
    | alive q => exact Option.some.inj hp ▸ hholds.2.1
    | _ => cases hp
  · rintro rfl
    exact hholds.2.2
  · intro t' s' hs' hr
    exact h.no_owner hs' hr t s hs hp

end Dbvm.WorkDir
