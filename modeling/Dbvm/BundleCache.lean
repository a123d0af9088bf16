import Mathlib.Data.List.Sort
import Dbvm.Path
import Dbvm.Lib.Flock

/-!
# The cache of bundle libraries

Launches share the libraries of bundles in one directory (`src/bundle_cache.rs`, `extract_bundle` in
`src/bin/self-exec.rs`). A launch makes an entry that is missing, links it, and holds a shared lock
on it until its guest exits; `enforce_bundle_limit` removes the entries that it can lock
exclusively, oldest first. The processes run interleaved, one file operation at a time.

A lock is one of a file, while a launch needs a name. `GuardsStand` says that the two agree; `calm`
describes the events that keep it.
-/

namespace Dbvm.BundleCache

open Lib

/-! ## Processes -/

/-- A library of a bundle: a row of `bundle_objects`. -/
structure Object where
  /-- The name of its cache entry: the hash of its content. -/
  key : Str
  /-- The name it is linked under. -/
  useName : Str
  /-- The last component of its path. -/
  base : Str
  /-- The size stored for it, if any. -/
  wantSize : Option ℤ
  /-- The length of its content, `none` if it cannot be read. -/
  blob : Option ℕ
deriving DecidableEq

/-- What is left of `extract_bundle`. -/
structure Job where
  /-- The library at hand. -/
  obj : Object
  /-- Those after it. -/
  rest : List Object
  /-- How many were linked. -/
  written : ℕ
  /-- The limit of the cache. -/
  maxBytes : ℕ
deriving DecidableEq

/-- A listed entry of the cache. -/
structure Item where
  /-- Its name. -/
  name : Str
  /-- Its size. -/
  size : ℕ
  /-- Its time. -/
  mtime : ℤ
deriving DecidableEq

/-- What became of a listed entry. -/
inductive Verdict where
  /-- It was removed. -/
  | removed
  /-- It could not be opened. -/
  | notOpened
  /-- Another lock was on it. -/
  | held
  /-- It could not be removed. -/
  | notRemoved
deriving DecidableEq

/-- What is left of the loop of `enforce_bundle_limit`. -/
structure Evict where
  /-- The entries that were listed. -/
  items : List Item
  /-- The limit. -/
  maxBytes : ℕ
  /-- What the listed entries that were not removed have in total. -/
  total : ℕ
  /-- How many were removed. -/
  removed : ℕ
  /-- How much was freed. -/
  freed : ℕ
  /-- The entries to come, the oldest first. -/
  todo : List Item
  /-- The entries that were tried, and what became of them. -/
  tried : List (Item × Verdict)
deriving DecidableEq

/-- Before which call of `hold`, `extract_bundle` or `enforce_bundle_limit` a process is. -/
inductive Task where
  /-- None. -/
  | idle
  /-- `open` of an entry that is to be held, in an extraction or not. -/
  | opening (entry : Str) (job : Option Job)
  /-- `flock` of it. -/
  | locking (entry : Str) (job : Option Job)
  /-- `metadata` of the entry of a library. -/
  | stat (job : Job)
  /-- `write` of the temporary file. -/
  | writing (job : Job)
  /-- `rename` of it. -/
  | moving (job : Job)
  /-- `remove_file` of the temporary file. -/
  | cleanup (job : Job) (ok : Bool)
  /-- `symlink` of the library. -/
  | linking (job : Job)
  /-- `symlink` of its other name. -/
  | aliasing (job : Job)
  /-- The next entry of the cache. -/
  | listing (maxBytes : ℕ) (items : List Item)
  /-- `metadata` of it. -/
  | listed (maxBytes : ℕ) (items : List Item) (name : Str)
  /-- The head of the loop. -/
  | evicting (ev : Evict)
  /-- `open` of an entry. -/
  | trying (ev : Evict) (item : Item)
  /-- `flock` of it. -/
  | grabbing (ev : Evict) (item : Item)
  /-- `remove_file` of it. -/
  | removing (ev : Evict) (item : Item)
  /-- `close` of it. -/
  | closing (ev : Evict)
  /-- `enforce_bundle_limit` has returned. -/
  | returned (ev : Evict)
deriving DecidableEq

/-- A process. -/
structure Proc where
  /-- Its guards: the entry of each, and the number of its description. -/
  guards : List (Str × ℕ)
  /-- The number of the next guard. -/
  next : ℕ
  /-- The links of its library directory, with the entry each one leads to. -/
  links : List (Str × Str)
  /-- The other names in it, with the link each one leads to. -/
  aliases : List (Str × Str)
  /-- What it does. -/
  task : Task

/-- A description: the process, and the number of the guard it is for. -/
abbrev Fd := ℕ × Option ℕ

/-- The cache and the processes. -/
structure World where
  /-- The cache. -/
  files : FileDir Str Fd
  /-- Size and time of the files. -/
  info : Table ℕ (ℕ × ℤ)
  /-- The processes. -/
  procs : Table ℕ Proc

/-- What happens. -/
inductive Event where
  /-- A process starts. -/
  | start (p : ℕ)
  /-- A process calls `hold`. -/
  | hold (p : ℕ) (entry : Str)
  /-- A process drops a guard. -/
  | drop (p : ℕ) (n : ℕ)
  /-- A process calls `extract_bundle`. -/
  | extract (p : ℕ) (obj : Object) (rest : List Object) (maxBytes : ℕ)
  /-- A process calls `enforce_bundle_limit`. -/
  | enforce (p : ℕ) (maxBytes : ℕ)
  /-- A process makes its next call, at a time. -/
  | call (p : ℕ) (now : ℤ)
  /-- `readdir` returns a name to a process. -/
  | name (p : ℕ) (n : Str)
  /-- The next call of a process fails. -/
  | fails (p : ℕ)
  /-- A process ends. -/
  | kill (p : ℕ)

/-- The temporary file of a library. -/
def tmpName (key : Str) (p : ℕ) : Str := '.' :: key ++ '.' :: Nat.toDigits 10 p

/-- The next library, or the end of the extraction. -/
def Job.continue (job : Job) (written : ℕ) : Task :=
  match job.rest with
  | obj :: rest => .stat { job with obj := obj, rest := rest, written := written }
  -- nothing linked: the directory is removed again
  | [] => if written = 0 then .idle else .listing job.maxBytes []

/-- What follows a hold. -/
def afterHold : Option Job → Task
  | some job => .aliasing job
  | none => .idle

/-- The entries of the cache in the order of the loop. -/
def Evict.start (maxBytes : ℕ) (items : List Item) : Evict :=
  ⟨items, maxBytes, (items.map Item.size).sum, 0, 0, items.insertionSort fun a b =>
    a.mtime ≤ b.mtime, []⟩

/-- An entry was tried and stays. -/
def Evict.skip (ev : Evict) (item : Item) (v : Verdict) : Evict :=
  { ev with tried := ev.tried ++ [(item, v)] }

/-- An entry was removed. -/
def Evict.drop (ev : Evict) (item : Item) : Evict :=
  { ev with
    total := ev.total - item.size
    freed := ev.freed + item.size
    removed := ev.removed + 1
    tried := ev.tried ++ [(item, .removed)] }

namespace World

/-- An empty cache, before the first process. -/
def init : World := ⟨.empty, .empty, .empty⟩

/-- A process goes on. -/
def goto (w : World) (p : ℕ) (proc : Proc) (task : Task) : World :=
  { w with procs := w.procs.set p { proc with task := task } }

/-- A process goes on with other files. -/
def withFiles (w : World) (files : FileDir Str Fd) (p : ℕ) (proc : Proc) (task : Task) : World :=
  { w with files := files, procs := w.procs.set p { proc with task := task } }

/-- `std::fs::write`: a file of this length, the one that is there or a new one. -/
def write (w : World) (n : Str) (length : ℕ) (now : ℤ) : World :=
  match w.files.entry.get? n with
  | some ino => { w with info := w.info.set ino (length, now) }
  | none =>
    { w with
      files := { w.files with entry := w.files.entry.set n w.files.next, next := w.files.next + 1 }
      info := w.info.set w.files.next (length, now) }

/-- Size and time of the file of a name. -/
def metadata (w : World) (n : Str) : Option (ℕ × ℤ) := (w.files.entry.get? n).bind w.info.get?

/-- The entry of a library is trusted. -/
def haveOk (w : World) (obj : Object) : Bool :=
  match w.metadata obj.key, obj.wantSize with
  | some m, some size => m.1 = size
  | some _, none => true
  | none, _ => false

/-- The next call of a process. -/
def call (w : World) (p : ℕ) (now : ℤ) : Option World :=
  (w.procs.get? p).bind fun proc =>
    match proc.task with
    | .idle => none
    | .opening entry job =>
      match w.files.open? (p, some proc.next) entry with
      | some files => some (w.withFiles files p proc (.locking entry job))
      | none => some (w.goto p proc (afterHold job))
    | .locking entry job =>
      -- it blocks while an exclusive lock is on the file
      (w.files.flock? (p, some proc.next) .shared).map fun files =>
        w.withFiles files p
        { proc with guards := (entry, proc.next) :: proc.guards, next := proc.next + 1 }
          (afterHold job)
    | .stat job => some (w.goto p proc (if w.haveOk job.obj then .linking job else .writing job))
    | .writing job =>
      match job.obj.blob with
      | some length => some ((w.write (tmpName job.obj.key p) length now).goto p proc (.moving job))
      | none => some (w.goto p proc (job.continue job.written))
    | .moving job =>
      match w.files.rename? (tmpName job.obj.key p) job.obj.key with
      | some files => some (w.withFiles files p proc (.cleanup job true))
      | none => some (w.goto p proc (.cleanup job false))
    | .cleanup job ok =>
      let task := if ok then .linking job else job.continue job.written
      match w.files.unlink? (tmpName job.obj.key p) with
      | some files => some (w.withFiles files p proc task)
      | none => some (w.goto p proc task)
    | .linking job =>
      if (proc.links ++ proc.aliases).any fun l => l.1 = job.obj.useName then
        some (w.goto p proc (job.continue job.written))
      else
        some (w.goto p { proc with links := (job.obj.useName, job.obj.key) :: proc.links }
          (.opening job.obj.key (some { job with written := job.written + 1 })))
    | .aliasing job =>
      let task := job.continue job.written
      if job.obj.base ≠ job.obj.useName ∧ job.obj.base ≠ [] ∧
          ¬ (proc.links ++ proc.aliases).any fun l => l.1 = job.obj.base then
        some (w.goto p { proc with aliases := (job.obj.base, job.obj.useName) :: proc.aliases }
          task)
      else some (w.goto p proc task)
    | .listing maxBytes items => some (w.goto p proc (.evicting (.start maxBytes items)))
    | .listed maxBytes items n =>
      match w.metadata n with
      | some (size, mtime) =>
        let items := if n.head? = some '.' then items else items ++ [⟨n, size, mtime⟩]
        some (w.goto p proc (.listing maxBytes items))
      | none => some (w.goto p proc (.listing maxBytes items))
    | .evicting ev =>
      match ev.todo with
      | item :: todo =>
        some (w.goto p proc
          (if ev.total ≤ ev.maxBytes then .returned ev else .trying { ev with todo := todo } item))
      | [] => some (w.goto p proc (.returned ev))
    | .trying ev item =>
      match w.files.open? (p, none) item.name with
      | some files => some (w.withFiles files p proc (.grabbing ev item))
      | none => some (w.goto p proc (.evicting (ev.skip item .notOpened)))
    | .grabbing ev item =>
      -- the file is open
      (w.files.desc.get? (p, none)).bind fun _ =>
        match w.files.flock? (p, none) .exclusive with
        | some files => some (w.withFiles files p proc (.removing ev item))
        | none =>
            some (w.withFiles (w.files.close (p, none)) p proc (.evicting (ev.skip item .held)))
    | .removing ev item =>
      match w.files.unlink? item.name with
      | some files => some (w.withFiles files p proc (.closing (ev.drop item)))
      | none => some (w.goto p proc (.closing (ev.skip item .notRemoved)))
    | .closing ev => some (w.withFiles (w.files.close (p, none)) p proc (.evicting ev))
    | .returned _ => some (w.goto p proc .idle)

/-- The next call of a process fails. -/
def fails (w : World) (p : ℕ) : Option World :=
  (w.procs.get? p).bind fun proc =>
    match proc.task with
    | .opening _ job => some (w.goto p proc (afterHold job))
    | .locking _ job =>
        some (w.withFiles (w.files.close (p, some proc.next)) p proc (afterHold job))
    | .stat job => some (w.goto p proc (.writing job))
    | .writing job => some (w.goto p proc (.cleanup job false))
    | .moving job => some (w.goto p proc (.cleanup job false))
    | .cleanup job ok =>
        some (w.goto p proc (if ok then .linking job else job.continue job.written))
    | .linking job => some (w.goto p proc (.aliasing job))
    | .aliasing job => some (w.goto p proc (job.continue job.written))
    -- `read_dir` fails: `enforce_bundle_limit` returns the error
    | .listing _ _ => some (w.goto p proc .idle)
    | .listed maxBytes items _ => some (w.goto p proc (.listing maxBytes items))
    | .trying ev item => some (w.goto p proc (.evicting (ev.skip item .notOpened)))
    | .removing ev item => some (w.goto p proc (.closing (ev.skip item .notRemoved)))
    | _ => none

/-- A process that does nothing begins a task. -/
def begin (w : World) (p : ℕ) (task : Task) : Option World :=
  (w.procs.get? p).bind fun proc => if proc.task = .idle then some (w.goto p proc task) else none

/-- One event, `none` if it is not possible now. -/
def step (w : World) : Event → Option World
  | .start p => if w.procs.has p then none else some
      { w with procs := w.procs.set p ⟨[], 0, [], [], .idle⟩ }
  | .hold p entry => w.begin p (.opening entry none)
  | .drop p n =>
    (w.procs.get? p).bind fun proc =>
      if proc.guards.any fun g => g.2 = n then
        some (w.withFiles (w.files.close (p, some n)) p
          { proc with guards := proc.guards.filter fun g => g.2 ≠ n } proc.task)
      else none
  | .extract p obj rest maxBytes => w.begin p (.stat ⟨obj, rest, 0, maxBytes⟩)
  | .enforce p maxBytes => w.begin p (.listing maxBytes [])
  | .call p now => w.call p now
  | .name p n =>
    (w.procs.get? p).bind fun proc =>
      match proc.task with
      | .listing maxBytes items => some (w.goto p proc (.listed maxBytes items n))
      | _ => none
  | .fails p => w.fails p
  | .kill p => some { w with files := w.files.closeAll fun d => d.1 = p, procs := w.procs.erase p }

/-- A run. -/
def run : World → List Event → Option World
  | w, [] => some w
  | w, e :: es => (w.step e).bind fun w' => w'.run es

end World

/-! ## Guards -/

/-- A name that is not one of a temporary file. -/
def plain (n : Str) : Bool := n.head? ≠ some '.'

/-- The same as a proposition. -/
abbrev Plain (n : Str) : Prop := plain n = true

/-- The temporary name of an entry is no entry's name. -/
theorem not_plain_tmpName (key : Str) (p : ℕ) : ¬ Plain (tmpName key p) := by
  simp [plain, tmpName]

/-- Some process has a guard of the entry. -/
def World.held (w : World) (entry : Str) : Bool :=
  w.procs.rows.any fun r => r.2.guards.any fun g => g.1 = entry

/-- The same as a proposition. -/
abbrev World.Held (w : World) (entry : Str) : Prop := w.held entry = true

/-- An entry is held iff some process has a guard on it. -/
theorem World.held_iff {w : World} {entry : Str} :
    w.Held entry ↔ ∃ p proc n, w.procs.get? p = some proc ∧ (entry, n) ∈ proc.guards := by
  unfold World.Held World.held
  rw [List.any_eq_true]
  constructor
  · rintro ⟨⟨p, proc⟩, hp, hg⟩
    obtain ⟨⟨entry', n⟩, hmem, he⟩ := List.any_eq_true.1 hg
    obtain rfl : entry' = entry := of_decide_eq_true he
    exact ⟨p, proc, n, Table.get?_eq_some_iff.2 hp, hmem⟩
  · rintro ⟨p, proc, n, hp, hg⟩
    exact ⟨(p, proc), Table.get?_eq_some_iff.1 hp, List.any_eq_true.2 ⟨(entry, n), hg, by simp⟩⟩

/-- Every guard's entry exists and is the file that the guard has locked. -/
def World.GuardsStand (w : World) : Prop :=
  ∀ p proc entry n, w.procs.get? p = some proc → (entry, n) ∈ proc.guards →
    ∃ ino, w.files.desc.get? (p, some n) = some ⟨ino, some .shared⟩ ∧
    w.files.entry.get? entry = some ino

/-- What an event must not find: a lock of `hold` on a file that has lost its name, a rename onto an
entry that is held, a removal of an entry that is held by way of the lock on another file. The
entries that are held or made have the names of hashes. -/
def calm (w : World) : Event → Bool
  | .hold _ entry => plain entry
  | .extract _ obj rest _ => (obj :: rest).all fun o => plain o.key
  | .call p _ =>
    match w.procs.get? p with
    | none => true
    | some proc =>
      match proc.task with
      | .locking entry _ => w.files.entry.get? entry = (w.files.desc.get? (p, some proc.next)).map
          Desc.ino
      | .moving job => !w.held job.obj.key
      | .removing _ item =>
        w.files.entry.get? item.name = (w.files.desc.get? (p, none)).map Desc.ino ||
        !w.held item.name
      | _ => true
  | _ => true

/-- The libraries of a job have plain entries. -/
def Job.Plain (job : Job) : Prop := ∀ o ∈ job.obj :: job.rest, BundleCache.Plain o.key

/-- The entries that a task is about have plain names. -/
def Task.Plain : Task → Prop
  | .opening entry job => BundleCache.Plain entry ∧ ∀ j ∈ job, j.Plain
  | .locking entry job => BundleCache.Plain entry ∧ ∀ j ∈ job, j.Plain
  | .stat job => job.Plain
  | .writing job => job.Plain
  | .moving job => job.Plain
  | .cleanup job _ => job.Plain
  | .linking job => job.Plain
  | .aliasing job => job.Plain
  | _ => True

/-- A job that goes on has the names it had. -/
theorem Job.plain_continue {job : Job} (h : job.Plain) (written : ℕ) :
    (job.continue written).Plain := by
  unfold Job.continue
  split
  next obj rest hrest =>
    intro o ho
    exact h o (List.mem_cons_of_mem _ (hrest ▸ ho))
  next =>
    split_ifs
    · trivial
    · trivial

/-- What follows a hold has plain names. -/
theorem plain_afterHold {job : Option Job} (h : ∀ j ∈ job, j.Plain) : (afterHold job).Plain := by
  cases job with
  | none => trivial
  | some j => exact h j rfl

/-- What holds of the guards and of those who may interfere. -/
structure Inv (w : World) : Prop where
  /-- Locks exclude each other. -/
  locks : w.files.WellLocked
  /-- The guards stand, under plain names. -/
  guards : ∀ p proc entry n, w.procs.get? p = some proc → (entry, n) ∈ proc.guards → n < proc.next ∧
    Plain entry ∧
    ∃ ino, w.files.desc.get? (p, some n) = some ⟨ino, some .shared⟩ ∧
    w.files.entry.get? entry = some ino
  /-- The tasks are about plain names. -/
  plain : ∀ p proc, w.procs.get? p = some proc → proc.task.Plain
  /-- Who is about to remove an entry has an exclusive lock. -/
  removing : ∀ p proc ev item, w.procs.get? p = some proc → proc.task = .removing ev item →
    ∃ ino, w.files.desc.get? (p, none) = some ⟨ino, some .exclusive⟩

/-- What a guard holds stands. -/
theorem Inv.guardsStand {w : World} (h : Inv w) : w.GuardsStand :=
  fun p proc entry n hp hg => (h.guards p proc entry n hp hg).2.2

/-- No guard stands at the beginning. -/
theorem inv_init : Inv .init where
  locks := FileDir.wellLocked_empty
  guards _ _ _ _ h := by cases h
  plain _ _ h := by cases h
  removing _ _ _ _ h := by cases h

variable {w w' : World} {p : ℕ} {proc proc' : Proc}

/-- The invariant after a step of a process: it may change the description of its pass and that of
the guard it is about to take, and the files of names that nobody holds. -/
theorem Inv.next (h : Inv w) (hp : w.procs.get? p = some proc) (hlocks : w'.files.WellLocked)
    (hprocs : w'.procs = w.procs.set p proc') (hnext : proc.next ≤ proc'.next)
    (hdesc : ∀ d, d ≠ (p, none) → d ≠ (p, some proc.next) →
      w'.files.desc.get? d = w.files.desc.get? d)
    (hentry : ∀ entry, w.Held entry → Plain entry →
      w'.files.entry.get? entry = w.files.entry.get? entry)
    (hguards : ∀ g, g ∈ proc'.guards → g ∈ proc.guards ∨ (g.2 < proc'.next ∧ Plain g.1 ∧
      ∃ ino, w'.files.desc.get? (p, some g.2) = some ⟨ino, some .shared⟩ ∧
        w'.files.entry.get? g.1 = some ino))
    (hplain : proc'.task.Plain)
    (hremoving : ∀ ev item, proc'.task = .removing ev item →
      ∃ ino, w'.files.desc.get? (p, none) = some ⟨ino, some .exclusive⟩) : Inv w' := by
  have hcases : ∀ p' r, w'.procs.get? p' = some r → p' = p ∧ r = proc' ∨ p' ≠ p ∧
    w.procs.get? p' = some r := by
    intro p' r hr
    rw [hprocs, Table.get?_set] at hr
    split_ifs at hr with he
    · exact Or.inl ⟨he, (Option.some.inj hr).symm⟩
    · exact Or.inr ⟨he, hr⟩
  -- a guard that was there before
  have hold : ∀ p' r entry n, w.procs.get? p' = some r → (entry, n) ∈ r.guards →
      n < r.next ∧ Plain entry ∧ ∃ ino, w'.files.desc.get? (p', some n) = some ⟨ino, some .shared⟩ ∧
        w'.files.entry.get? entry = some ino := by
    intro p' r entry n hr hg
    obtain ⟨hn, hpl, ino, hd, he⟩ := h.guards p' r entry n hr hg
    have hne : (p', some n) ≠ (p, some proc.next) := by
      intro heq
      obtain ⟨rfl, hsome⟩ := Prod.mk.inj heq
      rw [hp] at hr
      obtain rfl := Option.some.inj hr
      exact absurd (Option.some.inj hsome) (Nat.ne_of_lt hn)
    refine ⟨hn, hpl, ino, ?_, ?_⟩
    · rw [hdesc (p', some n) (by simp) hne]
      exact hd
    · rw [hentry entry (World.held_iff.2 ⟨p', r, n, hr, hg⟩) hpl]
      exact he
  refine ⟨hlocks, ?_, ?_, ?_⟩
  · intro p' r entry n hr hg
    obtain ⟨rfl, rfl⟩ | ⟨hne, hr⟩ := hcases p' r hr
    · obtain hg | hg := hguards (entry, n) hg
      · obtain ⟨hn, hrest⟩ := hold p' proc entry n hp hg
        exact ⟨Nat.lt_of_lt_of_le hn hnext, hrest⟩
      · exact hg
    · exact hold p' r entry n hr hg
  · intro p' r hr
    obtain ⟨rfl, rfl⟩ | ⟨hne, hr⟩ := hcases p' r hr
    · exact hplain
    · exact h.plain p' r hr
  · intro p' r ev item hr ht
    obtain ⟨rfl, rfl⟩ | ⟨hne, hr⟩ := hcases p' r hr
    · exact hremoving ev item ht
    · have hd₁ : ((p', none) : Fd) ≠ (p, none) := fun he => hne (Prod.mk.inj he).1
      have hd₂ : ((p', none) : Fd) ≠ (p, some proc.next) := fun he => hne (Prod.mk.inj he).1
      rw [hdesc (p', none) hd₁ hd₂]
      exact h.removing p' r ev item hr ht

/-- A process goes on; the files stay. -/
theorem Inv.goto (h : Inv w) (hp : w.procs.get? p = some proc) {links aliases : List (Str × Str)}
    {task : Task} (hplain : task.Plain) (hremoving : ∀ ev item, task ≠ .removing ev item) :
    Inv (w.goto p { proc with links := links, aliases := aliases } task) := by
  refine h.next hp h.locks rfl (le_refl _) (fun _ _ _ => rfl) (fun _ _ _ => rfl)
    (fun g hg => Or.inl hg) hplain ?_
  intro ev item ht
  exact absurd ht (hremoving ev item)

/-- A process closes the description of its pass. -/
theorem Inv.close (h : Inv w) (hp : w.procs.get? p = some proc) (d : Fd)
    (hd : d = (p, none) ∨ d = (p, some proc.next)) {task : Task} (hplain : task.Plain)
    (hremoving : ∀ ev item, task ≠ .removing ev item) :
    Inv (w.withFiles (w.files.close d) p proc task) := by
  refine h.next hp (h.locks.close d) rfl (le_refl _) ?_ (fun _ _ _ => rfl)
    (fun g hg => Or.inl hg) hplain ?_
  · intro d' h₁ h₂
    have hne : d' ≠ d := by
      obtain rfl | rfl := hd
      · exact h₁
      · exact h₂
    simp [World.withFiles, FileDir.close, hne]
  · intro ev item ht
    exact absurd ht (hremoving ev item)

/-- Opening a file keeps the invariant: no lock is taken yet. -/
theorem Inv.openFile (h : Inv w) (hp : w.procs.get? p = some proc) {d : Fd} {n : Str}
    {files : FileDir Str Fd} (hfiles : w.files.open? d n = some files)
    (hd : d = (p, none) ∨ d = (p, some proc.next)) {task : Task} (hplain : task.Plain)
    (hremoving : ∀ ev item, task ≠ .removing ev item) :
    Inv (w.withFiles files p proc task) := by
  have hlocks := h.locks.open? hfiles
  obtain ⟨ino, -, rfl⟩ := FileDir.open?_ok hfiles
  refine h.next hp hlocks rfl (le_refl _) ?_ (fun _ _ _ => rfl) (fun g hg => Or.inl hg) hplain ?_
  · intro d' h₁ h₂
    have hne : d' ≠ d := by
      obtain rfl | rfl := hd
      · exact h₁
      · exact h₂
    simp [World.withFiles, hne]
  · intro ev item ht
    exact absurd ht (hremoving ev item)

/-- Writing a temporary file keeps the invariant: no entry has its name. -/
theorem Inv.write (h : Inv w) (key : Str) (q length : ℕ) (now : ℤ) :
    Inv (w.write (tmpName key q) length now) := by
  unfold World.write
  split
  next ino hino => exact ⟨h.locks, h.guards, h.plain, h.removing⟩
  next hnone =>
    refine ⟨⟨h.locks.alone, ?_, fun d x hx => Nat.lt_succ_of_lt (h.locks.desc d x hx)⟩, ?_, h.plain,
      h.removing⟩
    · intro n ino hn
      simp only [Table.get?_set] at hn
      split_ifs at hn with he
      · exact Option.some.inj hn ▸ Nat.lt_succ_self _
      · exact Nat.lt_succ_of_lt (h.locks.entry n ino hn)
    · intro p' r entry n hr hg
      obtain ⟨hn, hpl, ino, hd, he⟩ := h.guards p' r entry n hr hg
      refine ⟨hn, hpl, ino, hd, ?_⟩
      have hne : entry ≠ tmpName key q := fun heq => not_plain_tmpName key q (heq ▸ hpl)
      simpa [hne] using he

/-- A guard that is taken on the file that the entry still names keeps the invariant. -/
theorem Inv.lock (h : Inv w) (hp : w.procs.get? p = some proc) {entry : Str} {job : Option Job}
    {files : FileDir Str Fd} (ht : proc.task = .locking entry job)
    (hfiles : w.files.flock? (p, some proc.next) .shared = some files)
    (hcalm : w.files.entry.get? entry = (w.files.desc.get? (p, some proc.next)).map Desc.ino) :
    Inv (w.withFiles files p
      { proc with guards := (entry, proc.next) :: proc.guards, next := proc.next + 1 }
      (afterHold job)) := by
  have hlocks := h.locks.flock? hfiles
  obtain ⟨x, hx, -, rfl⟩ := FileDir.flock?_ok hfiles
  have hplain := h.plain p proc hp
  rw [ht] at hplain
  refine h.next hp hlocks rfl (Nat.le_succ _) ?_ (fun _ _ _ => rfl) ?_ (plain_afterHold hplain.2) ?_
  · intro d' _ h₂
    simp [World.withFiles, h₂]
  · intro g hg
    obtain rfl | hg := List.mem_cons.1 hg
    · -- the new guard has locked the file that the entry is
      refine Or.inr ⟨Nat.lt_succ_self _, hplain.1, x.ino, by simp [World.withFiles], ?_⟩
      rw [hx] at hcalm
      exact hcalm
    · exact Or.inl hg
  · intro ev item he
    cases job <;> cases he

/-- A process gets the lock of its pass. -/
theorem Inv.grab (h : Inv w) (hp : w.procs.get? p = some proc) {ev : Evict} {item : Item}
    {files : FileDir Str Fd} (hfiles : w.files.flock? (p, none) .exclusive = some files) :
    Inv (w.withFiles files p proc (.removing ev item)) := by
  have hlocks := h.locks.flock? hfiles
  obtain ⟨x, hx, -, rfl⟩ := FileDir.flock?_ok hfiles
  refine h.next hp hlocks rfl (le_refl _) ?_ (fun _ _ _ => rfl) (fun g hg => Or.inl hg) trivial ?_
  · intro d' h₁ _
    simp [World.withFiles, h₁]
  · intro _ _ _
    exact ⟨x.ino, by simp [World.withFiles]⟩

/-- A process renames its temporary file, to an entry that nobody holds. -/
theorem Inv.rename (h : Inv w) (hp : w.procs.get? p = some proc) {job : Job}
    {files : FileDir Str Fd} (hjob : job.Plain)
    (hfiles : w.files.rename? (tmpName job.obj.key p) job.obj.key = some files)
    (hfree : ¬ w.Held job.obj.key) : Inv (w.withFiles files p proc (.cleanup job true)) := by
  have hlocks := h.locks.rename? hfiles
  obtain ⟨ino, -, rfl⟩ := FileDir.rename?_ok hfiles
  refine h.next hp hlocks rfl (le_refl _) (fun _ _ _ => rfl) ?_ (fun g hg => Or.inl hg) hjob
    (fun _ _ ht => by cases ht)
  intro entry hheld hpl
  have hne : entry ≠ job.obj.key := fun he => hfree (he ▸ hheld)
  have hne' : entry ≠ tmpName job.obj.key p := fun he => not_plain_tmpName _ _ (he ▸ hpl)
  simp [World.withFiles, hne, hne']

/-- Removing a temporary file keeps the invariant. -/
theorem Inv.cleanup (h : Inv w) (hp : w.procs.get? p = some proc) {key : Str} {q : ℕ}
    {files : FileDir Str Fd} (hfiles : w.files.unlink? (tmpName key q) = some files) {task : Task}
    (hplain : task.Plain) (hremoving : ∀ ev item, task ≠ .removing ev item) :
    Inv (w.withFiles files p proc task) := by
  have hlocks := h.locks.unlink? hfiles
  obtain rfl := FileDir.unlink?_ok hfiles
  refine h.next hp hlocks rfl (le_refl _) (fun _ _ _ => rfl) ?_ (fun g hg => Or.inl hg) hplain
    (fun ev item ht => absurd ht (hremoving ev item))
  intro entry _ hpl
  have hne : entry ≠ tmpName key q := fun he => not_plain_tmpName _ _ (he ▸ hpl)
  simp [World.withFiles, hne]

/-- A process removes the entry that it has locked: nobody holds it, since a guard's shared lock
would exclude the exclusive one. -/
theorem Inv.remove (h : Inv w) (hp : w.procs.get? p = some proc) {ev : Evict} {item : Item}
    {files : FileDir Str Fd} (ht : proc.task = .removing ev item)
    (hfiles : w.files.unlink? item.name = some files)
    (hcalm : w.files.entry.get? item.name = (w.files.desc.get? (p, none)).map Desc.ino ∨
      ¬ w.Held item.name)
    (ev' : Evict) : Inv (w.withFiles files p proc (.closing ev')) := by
  have hlocks := h.locks.unlink? hfiles
  obtain rfl := FileDir.unlink?_ok hfiles
  have hfree : ¬ w.Held item.name := by
    obtain hsame | hfree := hcalm
    · intro hheld
      obtain ⟨p', r, n, hr, hg⟩ := World.held_iff.1 hheld
      obtain ⟨-, -, ino, hd, he⟩ := h.guards p' r item.name n hr hg
      obtain ⟨ino', hd'⟩ := h.removing p proc ev item hp ht
      rw [he, hd'] at hsame
      obtain rfl : ino = ino' := Option.some.inj hsame
      exact absurd (h.locks.eq_of_exclusive hd' hd) (by simp)
    · exact hfree
  refine h.next hp hlocks rfl (le_refl _) (fun _ _ _ => rfl) ?_ (fun g hg => Or.inl hg) trivial
    (fun _ _ he => by cases he)
  intro entry hheld _
  have hne : entry ≠ item.name := fun he => hfree (he ▸ hheld)
  simp [World.withFiles, hne]

/-- A job does not go on with a removal. -/
theorem Job.continue_ne_removing (job : Job) (written : ℕ) (ev : Evict) (item : Item) :
    job.continue written ≠ .removing ev item := by
  unfold Job.continue
  split
  · simp
  · split_ifs <;> simp

/-- No removal follows a hold. -/
theorem afterHold_ne_removing (job : Option Job) (ev : Evict) (item : Item) :
    afterHold job ≠ .removing ev item := by
  cases job <;> simp [afterHold]

/-- A calm call keeps the invariant. -/
theorem Inv.call {now : ℤ} (h : Inv w) (hcalm : calm w (.call p now) = true)
    (hw : w.call p now = some w') : Inv w' := by
  unfold World.call at hw
  obtain ⟨proc, hp, hw⟩ := Option.bind_eq_some_iff.1 hw
  have hplain := h.plain p proc hp
  unfold calm at hcalm
  dsimp only at hcalm
  rw [hp] at hcalm
  dsimp only at hcalm
  -- One case for each call. Most of them only go on; what changes the files has a lemma of its
  -- own, and the lock, the move and the removal need that the call is calm.
  cases ht : proc.task with
  | idle =>
    rw [ht] at hw
    cases hw
  | opening entry job =>
    rw [ht] at hw hplain
    dsimp only at hw
    split at hw
    next files hfiles =>
      obtain rfl := Option.some.inj hw
      exact h.openFile hp hfiles (Or.inr rfl) hplain (by simp)
    next =>
      obtain rfl := Option.some.inj hw
      exact h.goto hp (plain_afterHold hplain.2) (afterHold_ne_removing job)
  | locking entry job =>
    rw [ht] at hw hcalm
    obtain ⟨files, hfiles, rfl⟩ := Option.map_eq_some_iff.1 hw
    exact h.lock hp ht hfiles (of_decide_eq_true hcalm)
  | stat job =>
    rw [ht] at hw hplain
    obtain rfl := Option.some.inj hw
    split_ifs
    · exact h.goto hp hplain (by simp)
    · exact h.goto hp hplain (by simp)
  | writing job =>
    rw [ht] at hw hplain
    dsimp only at hw
    split at hw
    next length hlength =>
      obtain rfl := Option.some.inj hw
      have hwrite := h.write job.obj.key p length now
      have hp' : (w.write (tmpName job.obj.key p) length now).procs.get? p = some proc := by
        unfold World.write
        split <;> exact hp
      exact hwrite.goto hp' hplain (by simp)
    next =>
      obtain rfl := Option.some.inj hw
      exact h.goto hp (job.plain_continue hplain _) (job.continue_ne_removing _)
  | moving job =>
    rw [ht] at hw hcalm hplain
    dsimp only at hw
    split at hw
    next files hfiles =>
      obtain rfl := Option.some.inj hw
      exact h.rename hp hplain hfiles (by simpa using hcalm)
    next =>
      obtain rfl := Option.some.inj hw
      exact h.goto hp hplain (by simp)
  | cleanup job ok =>
    rw [ht] at hw hplain
    have htask : (if ok then Task.linking job else job.continue job.written).Plain := by
      split_ifs
      · exact hplain
      · exact job.plain_continue hplain _
    have hremoving : ∀ ev item,
      (if ok then Task.linking job else job.continue job.written) ≠ .removing ev item := by
      intro ev item
      split_ifs
      · simp
      · exact job.continue_ne_removing _ ev item
    dsimp only at hw
    split at hw
    next files hfiles =>
      obtain rfl := Option.some.inj hw
      exact h.cleanup hp hfiles htask hremoving
    next =>
      obtain rfl := Option.some.inj hw
      exact h.goto hp htask hremoving
  | linking job =>
    rw [ht] at hw hplain
    dsimp only at hw
    split_ifs at hw
    · obtain rfl := Option.some.inj hw
      exact h.goto hp (job.plain_continue hplain _) (job.continue_ne_removing _)
    · obtain rfl := Option.some.inj hw
      refine h.goto hp ⟨hplain _ List.mem_cons_self, ?_⟩ (by simp)
      intro j hj
      obtain rfl := Option.some.inj hj
      exact hplain
  | aliasing job =>
    rw [ht] at hw hplain
    dsimp only at hw
    split_ifs at hw
    · obtain rfl := Option.some.inj hw
      exact h.goto hp (job.plain_continue hplain _) (job.continue_ne_removing _)
    · obtain rfl := Option.some.inj hw
      exact h.goto hp (job.plain_continue hplain _) (job.continue_ne_removing _)
  | listing maxBytes items =>
    rw [ht] at hw
    obtain rfl := Option.some.inj hw
    exact h.goto hp trivial (by simp)
  | listed maxBytes items n =>
    rw [ht] at hw
    dsimp only at hw
    split at hw
    · obtain rfl := Option.some.inj hw
      exact h.goto hp trivial (by simp)
    · obtain rfl := Option.some.inj hw
      exact h.goto hp trivial (by simp)
  | evicting ev =>
    rw [ht] at hw
    dsimp only at hw
    split at hw
    · obtain rfl := Option.some.inj hw
      split_ifs
      · exact h.goto hp trivial (by simp)
      · exact h.goto hp trivial (by simp)
    · obtain rfl := Option.some.inj hw
      exact h.goto hp trivial (by simp)
  | trying ev item =>
    rw [ht] at hw
    dsimp only at hw
    split at hw
    next files hfiles =>
      obtain rfl := Option.some.inj hw
      exact h.openFile hp hfiles (Or.inl rfl) trivial (by simp)
    next =>
      obtain rfl := Option.some.inj hw
      exact h.goto hp trivial (by simp)
  | grabbing ev item =>
    rw [ht] at hw
    obtain ⟨x, -, hw⟩ := Option.bind_eq_some_iff.1 hw
    split at hw
    next files hfiles =>
      obtain rfl := Option.some.inj hw
      exact h.grab hp hfiles
    next =>
      obtain rfl := Option.some.inj hw
      exact h.close hp _ (Or.inl rfl) trivial (by simp)
  | removing ev item =>
    rw [ht] at hw hcalm
    dsimp only at hw
    split at hw
    next files hfiles =>
      obtain rfl := Option.some.inj hw
      exact h.remove hp ht hfiles (by simpa using hcalm) _
    next =>
      obtain rfl := Option.some.inj hw
      exact h.goto hp trivial (by simp)
  | closing ev =>
    rw [ht] at hw
    obtain rfl := Option.some.inj hw
    exact h.close hp _ (Or.inl rfl) trivial (by simp)
  | returned ev =>
    rw [ht] at hw
    obtain rfl := Option.some.inj hw
    exact h.goto hp trivial (by simp)

/-- A call that fails keeps the invariant. -/
theorem Inv.fails (h : Inv w) (hw : w.fails p = some w') : Inv w' := by
  unfold World.fails at hw
  obtain ⟨proc, hp, hw⟩ := Option.bind_eq_some_iff.1 hw
  have hplain := h.plain p proc hp
  -- A call that fails goes on as the source does and touches no file.
  cases ht : proc.task with
  | opening entry job =>
    rw [ht] at hw hplain
    obtain rfl := Option.some.inj hw
    exact h.goto hp (plain_afterHold hplain.2) (afterHold_ne_removing job)
  | locking entry job =>
    rw [ht] at hw hplain
    obtain rfl := Option.some.inj hw
    exact h.close hp _ (Or.inr rfl) (plain_afterHold hplain.2) (afterHold_ne_removing job)
  | stat job =>
    rw [ht] at hw hplain
    obtain rfl := Option.some.inj hw
    exact h.goto hp hplain (by simp)
  | writing job =>
    rw [ht] at hw hplain
    obtain rfl := Option.some.inj hw
    exact h.goto hp hplain (by simp)
  | moving job =>
    rw [ht] at hw hplain
    obtain rfl := Option.some.inj hw
    exact h.goto hp hplain (by simp)
  | cleanup job ok =>
    rw [ht] at hw hplain
    obtain rfl := Option.some.inj hw
    split_ifs
    · exact h.goto hp hplain (by simp)
    · exact h.goto hp (job.plain_continue hplain _) (job.continue_ne_removing _)
  | linking job =>
    rw [ht] at hw hplain
    obtain rfl := Option.some.inj hw
    exact h.goto hp hplain (by simp)
  | aliasing job =>
    rw [ht] at hw hplain
    obtain rfl := Option.some.inj hw
    exact h.goto hp (job.plain_continue hplain _) (job.continue_ne_removing _)
  | listing maxBytes items =>
    rw [ht] at hw
    obtain rfl := Option.some.inj hw
    exact h.goto hp trivial (by simp)
  | listed maxBytes items n =>
    rw [ht] at hw
    obtain rfl := Option.some.inj hw
    exact h.goto hp trivial (by simp)
  | trying ev item =>
    rw [ht] at hw
    obtain rfl := Option.some.inj hw
    exact h.goto hp trivial (by simp)
  | removing ev item =>
    rw [ht] at hw
    obtain rfl := Option.some.inj hw
    exact h.goto hp trivial (by simp)
  | _ =>
    rw [ht] at hw
    cases hw

/-- A process that does nothing begins a task. -/
theorem Inv.begin (h : Inv w) {task : Task} (hw : w.begin p task = some w') (hplain : task.Plain)
    (hremoving : ∀ ev item, task ≠ .removing ev item) : Inv w' := by
  unfold World.begin at hw
  obtain ⟨proc, hp, hw⟩ := Option.bind_eq_some_iff.1 hw
  split_ifs at hw
  obtain rfl := Option.some.inj hw
  exact h.goto hp hplain hremoving

/-- Dropping a guard keeps the invariant. -/
theorem Inv.drop (h : Inv w) {n : ℕ} (hw : w.step (.drop p n) = some w') : Inv w' := by
  obtain ⟨proc, hp, hw⟩ := Option.bind_eq_some_iff.1 hw
  split_ifs at hw with hany
  obtain rfl := Option.some.inj hw
  -- The guard's descriptor is closed and no other one, so every other guard keeps its lock.
  have hdesc : ∀ d, d ≠ (p, some n) →
    (w.files.close (p, some n)).desc.get? d = w.files.desc.get? d := by
    intro d hd
    simp [FileDir.close, hd]
  have hcases : ∀ p' r, (w.withFiles (w.files.close (p, some n)) p
      { proc with guards := proc.guards.filter fun g => g.2 ≠ n } proc.task).procs.get?
      p' = some r →
      ∃ r', w.procs.get? p' = some r' ∧ r.next = r'.next ∧ r.task = r'.task ∧
        ∀ g ∈ r.guards, g ∈ r'.guards ∧ (p', some g.2) ≠ (p, some n) := by
    intro p' r hr
    simp only [World.withFiles, Table.get?_set] at hr
    split_ifs at hr with he
    · obtain rfl := Option.some.inj hr
      refine ⟨proc, he ▸ hp, rfl, rfl, ?_⟩
      intro g hg
      obtain ⟨hg, hgn⟩ := List.mem_filter.1 hg
      have hne : g.2 ≠ n := by simpa using hgn
      exact ⟨hg, fun heq => hne (Option.some.inj (Prod.mk.inj heq).2)⟩
    · exact ⟨r, hr, rfl, rfl, fun g hg => ⟨hg, fun heq => he (Prod.mk.inj heq).1⟩⟩
  refine ⟨h.locks.close _, ?_, ?_, ?_⟩
  · intro p' r entry m hr hg
    obtain ⟨r', hr', hnext, -, hguards⟩ := hcases p' r hr
    obtain ⟨hg', hne⟩ := hguards (entry, m) hg
    obtain ⟨hm, hpl, ino, hd, he⟩ := h.guards p' r' entry m hr' hg'
    exact ⟨hnext ▸ hm, hpl, ino, (hdesc _ hne).trans hd, he⟩
  · intro p' r hr
    obtain ⟨r', hr', -, htask, -⟩ := hcases p' r hr
    exact htask ▸ h.plain p' r' hr'
  · intro p' r ev item hr ht
    obtain ⟨r', hr', -, htask, -⟩ := hcases p' r hr
    obtain ⟨ino, hd⟩ := h.removing p' r' ev item hr' (htask ▸ ht)
    exact ⟨ino, (hdesc _ (by simp)).trans hd⟩

/-- The end of a process releases its guards and keeps the invariant. -/
theorem Inv.kill (h : Inv w) (hw : w.step (.kill p) = some w') : Inv w' := by
  obtain rfl := Option.some.inj hw
  have hprocs : ∀ p' r, (w.procs.erase p).get? p' = some r → p' ≠ p ∧ w.procs.get? p' = some r := by
    intro p' r hr
    rw [Table.get?_erase] at hr
    split_ifs at hr with he
    exact ⟨he, hr⟩
  have hdesc : ∀ (d : Fd), d.1 ≠ p →
    (w.files.closeAll fun d => d.1 = p).desc.get? d = w.files.desc.get? d := by
    intro d hd
    rw [FileDir.get?_closeAll]
    simp [hd]
  refine ⟨h.locks.closeAll _, ?_, ?_, ?_⟩
  · intro p' r entry n hr hg
    obtain ⟨hne, hr⟩ := hprocs p' r hr
    obtain ⟨hn, hpl, ino, hd, he⟩ := h.guards p' r entry n hr hg
    exact ⟨hn, hpl, ino, (hdesc (p', some n) hne).trans hd, he⟩
  · intro p' r hr
    exact h.plain p' r (hprocs p' r hr).2
  · intro p' r ev item hr ht
    obtain ⟨hne, hr⟩ := hprocs p' r hr
    obtain ⟨ino, hd⟩ := h.removing p' r ev item hr ht
    exact ⟨ino, (hdesc (p', none) hne).trans hd⟩

/-- A calm event keeps the invariant. -/
theorem Inv.step (h : Inv w) {e : Event} (hcalm : calm w e = true) (hw : w.step e = some w') :
    Inv w' := by
  -- A process begins without guards; holds, drops and calls have their own lemmas.
  cases e with
  | start p =>
    unfold World.step at hw
    dsimp only at hw
    split_ifs at hw with hthere
    obtain rfl := Option.some.inj hw
    have hcases : ∀ p' r, (w.procs.set p ⟨[], 0, [], [], .idle⟩).get? p' = some r →
        r = ⟨[], 0, [], [], .idle⟩ ∨ w.procs.get? p' = some r := by
      intro p' r hr
      rw [Table.get?_set] at hr
      split_ifs at hr
      · exact Or.inl (Option.some.inj hr).symm
      · exact Or.inr hr
    refine ⟨h.locks, ?_, ?_, ?_⟩
    · intro p' r entry n hr hg
      obtain rfl | hr := hcases p' r hr
      · cases hg
      · exact h.guards p' r entry n hr hg
    · intro p' r hr
      obtain rfl | hr := hcases p' r hr
      · trivial
      · exact h.plain p' r hr
    · intro p' r ev item hr ht
      obtain rfl | hr := hcases p' r hr
      · cases ht
      · exact h.removing p' r ev item hr ht
  | hold p entry =>
    have hjob : ∀ j ∈ (none : Option Job), j.Plain := by
      intro j hj
      cases hj
    exact h.begin hw ⟨hcalm, hjob⟩ (by simp)
  | drop p n => exact h.drop hw
  | extract p obj rest maxBytes => exact h.begin hw (List.all_eq_true.1 hcalm) (by simp)
  | enforce p maxBytes => exact h.begin hw trivial (by simp)
  | call p now => exact h.call hcalm hw
  | name p n =>
    obtain ⟨proc, hp, hw⟩ := Option.bind_eq_some_iff.1 hw
    split at hw
    next maxBytes items ht =>
      obtain rfl := Option.some.inj hw
      exact h.goto hp trivial (by simp)
    next => cases hw
  | fails p => exact h.fails hw
  | kill p => exact h.kill hw

/-- Every event of a run is calm in the state it finds. -/
def calmRun : World → List Event → Bool
  | _, [] => true
  | w, e :: es => calm w e && (w.step e).all fun w' => calmRun w' es

/-- The invariant holds along every calm run. -/
theorem Inv.run (h : Inv w) :
    ∀ {es : List Event}, calmRun w es = true → w.run es = some w' → Inv w' := by
  intro es
  induction es generalizing w with
  | nil =>
    intro _ hw
    exact Option.some.inj hw ▸ h
  | cons e es ih =>
    intro hcalm hw
    obtain ⟨w₁, hw₁, hw⟩ := Option.bind_eq_some_iff.1 hw
    unfold calmRun at hcalm
    rw [hw₁, Bool.and_eq_true] at hcalm
    exact ih (h.step hcalm.1 hw₁) hcalm.2 hw

end Dbvm.BundleCache
