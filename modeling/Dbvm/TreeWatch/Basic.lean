import Dbvm.Host.Sync
import Dbvm.Lib.NameTree

/-!
# The watcher of a session's tree

`TreeWatch` keeps a watch on every directory of a tree and collects, from the events of the kernel,
the paths that may have changed; where it cannot be sure it says that everything may have. The model
is a transition system: processes of the sandbox change the tree (`Change`), the kernel queues what
they do in watched directories (`notices`, `Queues`), and the watcher goes on by one system call at
a time, a read of an event (`TreeWatch.event`) or a step of `WalkDir` over the tree (`WalkStep`,
`FollowStep`). Changes come between any two of its steps.

A directory has a number that stays with it when it moves, and a watch is on the directory and not
on its path. `WalkDir` reads a directory entry by entry: it finds every name that is there from the
first read on, and may or may not find others. What the watcher asks for may fail, and the queue may
overflow.

The watcher asks for everything by its path, and where the path leads through a symbolic link the
kernel follows it; the link with which a walk begins is followed by `WalkDir` itself. A link may
lead to any directory, of the tree or not.

A file has one name here, and every write to it is one that the kernel tells of: hard links and
writes through a shared mapping are not in the model.
-/

namespace Dbvm.Watcher

open Lib Lib.NameTree

/-! ## The kernel -/

/-- What happens to an entry. -/
inductive What where
  /-- `IN_CREATE`. -/
  | created
  /-- `IN_DELETE`. -/
  | deleted
  /-- `IN_MODIFY`, `IN_CLOSE_WRITE` or `IN_ATTRIB`. -/
  | changed
  /-- `IN_MOVED_FROM`. -/
  | movedFrom
  /-- `IN_MOVED_TO`. -/
  | movedTo
  deriving DecidableEq

/-- An event. -/
inductive Event where
  /-- `IN_Q_OVERFLOW`. -/
  | overflow
  /-- `IN_IGNORED`: the watch is no more. -/
  | ignored (wd : ℕ)
  /-- `IN_DELETE_SELF`. -/
  | deleteSelf (wd : ℕ)
  /-- `IN_MOVE_SELF`. -/
  | moveSelf (wd : ℕ)
  /-- Something happens to an entry of the directory, or, without a name, to the directory. -/
  | entry (wd : ℕ) (what : What) (isDir : Bool) (name : Str)
  deriving DecidableEq

/-- What the kernel keeps for the watcher. -/
structure Kernel where
  /-- The watches: the descriptor and the directory. -/
  active : Table ℕ ℕ
  /-- The next descriptor. -/
  nextWd : ℕ
  /-- The events that are queued. -/
  queue : List Event

/-- The descriptor of a directory's watch. -/
def Kernel.wdOf (k : Kernel) (i : ℕ) : Option ℕ :=
  (k.active.rows.find? fun r => r.2 = i).map Prod.fst

/-- `inotify_add_watch` of a directory: its descriptor, and the kernel. -/
def Kernel.addWatch (k : Kernel) (i : ℕ) : ℕ × Kernel :=
  match k.wdOf i with
  | some wd => (wd, k)
  | none => (k.nextWd, { k with active := k.active.put k.nextWd i, nextWd := k.nextWd + 1 })

/-- The descriptor of an event. -/
def Event.wd? : Event → Option ℕ
  | .overflow => none
  | .ignored wd => some wd
  | .deleteSelf wd => some wd
  | .moveSelf wd => some wd
  | .entry wd _ _ _ => some wd

/-- Something to be told to who watches a directory. -/
structure Notice where
  /-- The directory. -/
  dir : ℕ
  /-- What is told. -/
  event : ℕ → Event

/-- A notice to who watches the directory at a path. -/
def noticeAt (t : DirTree Str) (p : List Str) (event : ℕ → Event) : List Notice :=
  match t.entry p with
  | some ⟨.dir i, _⟩ => [⟨i, event⟩]
  | _ => []

/-- Whether there is a directory at a path. -/
def hasDir (t : DirTree Str) (p : List Str) : Bool :=
  match t.entry p with
  | some ⟨.dir _, _⟩ => true
  | _ => false

/-- What is told of a change. -/
def notices (t : DirTree Str) : Change Str → List Notice
  | .make p x isDir => noticeAt t p fun wd => .entry wd .created isDir x
  | .alter p x =>
    noticeAt t p (fun wd => .entry wd .changed (hasDir t (p ++ [x])) x) ++
      noticeAt t (p ++ [x]) fun wd => .entry wd .changed true []
  | .remove p x => noticeAt t p fun wd => .entry wd .deleted (hasDir t (p ++ [x])) x
  | .move p x q y =>
    noticeAt t p (fun wd => .entry wd .movedFrom (hasDir t (p ++ [x])) x) ++
      (noticeAt t q (fun wd => .entry wd .movedTo (hasDir t (p ++ [x])) y) ++ noticeAt t (p ++ [x])
        fun wd => .moveSelf wd)

/-- The events for the watcher. -/
def Kernel.notify (k : Kernel) (ns : List Notice) : List Event :=
  ns.flatMap fun n => (k.wdOf n.dir).toList.map n.event

/-- How events come into the queue: at its end, unless the last one there says the same, or not at
all when the queue overflows. -/
inductive Queues : List Event → List Event → List Event → Prop
  /-- No more events. -/
  | nil (q : List Event) : Queues q [] q
  /-- It is queued. -/
  | push {q es q' : List Event} {e : Event} : Queues (q ++ [e]) es q' → Queues q (e :: es) q'
  /-- It is the last one already. -/
  | merge {q es q' : List Event} {e : Event} : q.getLast? = some e → Queues q es q' →
      Queues q (e :: es) q'
  /-- It is lost. -/
  | lose {q es q' : List Event} {e : Event} : Queues (q ++ [.overflow]) es q' →
      Queues q (e :: es) q'

/-! ## The watcher -/

/-- `Changes`. -/
structure Changes where
  /-- VM paths that may have changed. -/
  paths : List Str
  /-- Everything may have changed. -/
  full : Bool

/-- `TreeWatch`. -/
structure TreeWatch where
  /-- The VM path of the directory of each watch. -/
  dirs : Table ℕ Str
  /-- VM paths that may have changed. -/
  paths : List Str
  /-- Everything may have changed. -/
  full : Bool

/-- `event`: the watcher after it, and the directory that is to be watched with all that is below
it. -/
def TreeWatch.event (w : TreeWatch) : Event → TreeWatch × Option Str
  | .overflow => ({ w with full := true }, none)
  | .ignored wd => ({ w with dirs := w.dirs.deleteWhere fun wd' _ => wd' = wd }, none)
  | .deleteSelf wd =>
    match w.dirs.get? wd with
    | none => (w, none)
    | some dir => ({ w with paths := dir :: w.paths }, none)
  | .moveSelf wd =>
    match w.dirs.get? wd with
    | none => (w, none)
    | some dir => ({ w with paths := dir :: w.paths, full := true }, none)
  | .entry wd what isDir name =>
    match w.dirs.get? wd with
    | none => (w, none)
    | some dir =>
      let path := if name = [] then dir else normalizeVmPath (dir ++ '/' :: name)
      if isReservedVmPath path then (w, none)
      else
        -- a moved directory takes what is below it with it, under watches that still have the old
        -- path
        ({ w with paths := path :: w.paths, full := w.full ||
          (isDir && (what = .movedFrom || what = .movedTo)) },
          if isDir && (what = .created || what = .movedTo) then some path else none)

/-! ## `watch_tree` -/

/-- The names that lead to the host path of a VM path. -/
def hostNames (vmDir : Str) : List Str := (vmDir.splitOn '/').filter (· ≠ [])

/-- The VM path of what is found on the way. -/
def vmPathOf (q : List Str) : Str := normalizeVmPath ('/' :: List.intercalate ['/'] q)

/-- Whether it is passed over. -/
def skips (q : List Str) : Bool := vmPathOf q ≠ root && isReservedVmPath (vmPathOf q)

/-- What is found is recorded as changed. -/
def TreeWatch.record (w : TreeWatch) (mark : Bool) (q : List Str) : TreeWatch :=
  if mark then { w with paths := vmPathOf q :: w.paths } else w

/-- A directory that `WalkDir` reads. -/
structure Frame where
  /-- Its path. -/
  path : List Str
  /-- The directory that is open, unless that has failed. -/
  handle : Option ℕ
  /-- The time from which on what is there is found. -/
  opened : ℕ
  /-- What has been found. -/
  yielded : List Str

/-- Where `WalkDir` is. -/
inductive Stage where
  /-- Before the first entry. -/
  | start (q : List Str)
  /-- A directory has been found and is to be opened. -/
  | opening (q : List Str)
  /-- It is open, unless that has failed, and is to be watched. -/
  | visit (q : List Str) (handle : Option ℕ)
  /-- The innermost directory is read. -/
  | reading

/-- A `watch_tree` that has begun. -/
structure Walk where
  /-- Whether what is found is recorded as changed. -/
  mark : Bool
  /-- Where it is. -/
  stage : Stage
  /-- The directories that are read, from the innermost. -/
  stack : List Frame

/-- An entry of a directory that is read is found as what it is, when it has been there all the
time. -/
def Frame.Finds (f : Frame) (t : DirTree Str) (x : Str) (isDir : Bool) : Prop :=
  ∃ i, f.handle = some i ∧ ∀ p e, t.IsDir p i → t.entry (p ++ [x]) = some e → e.since ≤ f.opened →
    (isDir = true ↔ ∃ j, e.node = .dir j)

/-- Everything has been found that has been there all the time. -/
def Frame.Finished (f : Frame) (t : DirTree Str) : Prop :=
  ∃ i, f.handle = some i ∧ ∀ p x e, t.IsDir p i → t.entry (p ++ [x]) = some e → e.since ≤ f.opened →
  x ∈ f.yielded

/-- The steps of `watch_tree`. -/
inductive WalkStep (t : DirTree Str) : Kernel → TreeWatch → Walk → Kernel → TreeWatch →
    Option Walk → Prop
  /-- Nothing is found at the start. -/
  | missing {k w m q} : WalkStep t k w ⟨m, .start q, []⟩ k { w with full := true } none
  /-- A file is found at the start. -/
  | file {k w m q since} : t.entry q = some ⟨.file, since⟩ →
      WalkStep t k w ⟨m, .start q, []⟩ k (if skips q then w else w.record m q) none
  /-- A directory is found at the start. -/
  | dir {k w m q i since} : t.entry q = some ⟨.dir i, since⟩ →
      WalkStep t k w ⟨m, .start q, []⟩ k w (some ⟨m, .opening q, []⟩)
  /-- A directory is opened. -/
  | opened {k w m q st i since} : t.entry q = some ⟨.dir i, since⟩ →
      WalkStep t k w ⟨m, .opening q, st⟩ k w (some ⟨m, .visit q (some i), st⟩)
  /-- It cannot be opened. -/
  | unopened {k w m q st} : WalkStep t k w ⟨m, .opening q, st⟩ k w (some ⟨m, .visit q none, st⟩)
  /-- A reserved directory is not watched, but what is below it is looked at. -/
  | skip {k w m q h st} : skips q = true →
      WalkStep t k w ⟨m, .visit q h, st⟩ k w (some ⟨m, .reading, ⟨q, h, t.clock, []⟩ :: st⟩)
  /-- The directory at the path is watched. -/
  | watch {k w m q h st i since} : skips q = false → t.entry q = some ⟨.dir i, since⟩ →
      WalkStep t k w ⟨m, .visit q h, st⟩ (k.addWatch i).2
        { w.record m q with dirs := w.dirs.put (k.addWatch i).1 (vmPathOf q) }
          (some ⟨m, .reading, ⟨q, h, t.clock, []⟩ :: st⟩)
  /-- It cannot be watched. -/
  | unwatched {k w m q h st} : skips q = false →
      WalkStep t k w ⟨m, .visit q h, st⟩ k { w.record m q with full := true }
      (some ⟨m, .reading, ⟨q, h, t.clock, []⟩ :: st⟩)
  /-- A directory cannot be read, or not further. -/
  | unread {k w m f st} : WalkStep t k w ⟨m, .reading, f :: st⟩ k { w with full := true }
      (some ⟨m, .reading, st⟩)
  /-- An entry cannot be looked at. -/
  | lost {k w m f st x} : x ∉ f.yielded →
      WalkStep t k w ⟨m, .reading, f :: st⟩ k { w with full := true }
      (some ⟨m, .reading, { f with yielded := x :: f.yielded } :: st⟩)
  /-- A directory is found. -/
  | foundDir {k w m f st x} : x ∉ f.yielded → f.Finds t x true →
      WalkStep t k w ⟨m, .reading, f :: st⟩ k w
      (some ⟨m, .opening (f.path ++ [x]), { f with yielded := x :: f.yielded } :: st⟩)
  /-- A file is found. -/
  | foundFile {k w m f st x} : x ∉ f.yielded → f.Finds t x false →
      WalkStep t k w ⟨m, .reading, f :: st⟩ k
      (if skips (f.path ++ [x]) then w else w.record m (f.path ++ [x]))
        (some ⟨m, .reading, { f with yielded := x :: f.yielded } :: st⟩)
  /-- A directory has been read. -/
  | leave {k w m f st} : f.Finished t →
      WalkStep t k w ⟨m, .reading, f :: st⟩ k w (some ⟨m, .reading, st⟩)
  /-- All of them have. -/
  | done {k w m} : WalkStep t k w ⟨m, .reading, []⟩ k w none

/-- A path does not lead along directories: there is something else at it or above it, which may be
a link. -/
def Linked (t : DirTree Str) (q : List Str) : Prop :=
  ∃ r, r <+: q ∧ ∃ since, t.entry r = some ⟨.file, since⟩

/-- The steps of `watch_tree` through a link. What the link leads to is a directory of the tree or
one that is nowhere in it, a file, or nothing (`WalkStep.missing` and the other failures). -/
inductive FollowStep (t : DirTree Str) : Kernel → TreeWatch → Walk → Kernel → TreeWatch →
    Option Walk → Prop
  /-- The link at the start is recorded and not watched, and what it leads to is read: `WalkDir`
  follows such a link. -/
  | root {k w m q h since} : t.entry q = some ⟨.file, since⟩ →
      FollowStep t k w ⟨m, .start q, []⟩ k (if skips q then w else w.record m q)
        (some ⟨m, .reading, [⟨q, h, t.clock, []⟩]⟩)
  /-- A file is found at the start. -/
  | file {k w m q} : Linked t q →
      FollowStep t k w ⟨m, .start q, []⟩ k (if skips q then w else w.record m q) none
  /-- A directory is found at the start. -/
  | dir {k w m q} : Linked t q → FollowStep t k w ⟨m, .start q, []⟩ k w (some ⟨m, .opening q, []⟩)
  /-- A directory is opened. -/
  | opened {k w m q st i} : Linked t q →
      FollowStep t k w ⟨m, .opening q, st⟩ k w (some ⟨m, .visit q (some i), st⟩)
  /-- A directory is watched. `IN_DONT_FOLLOW` is about the last name only. -/
  | watch {k w m q h st i} : skips q = false → Linked t q → i < t.next →
      FollowStep t k w ⟨m, .visit q h, st⟩ (k.addWatch i).2
        { w.record m q with dirs := w.dirs.put (k.addWatch i).1 (vmPathOf q) }
        (some ⟨m, .reading, ⟨q, h, t.clock, []⟩ :: st⟩)

/-! ## `take` -/

/-- Where the watcher is. -/
inductive Mode where
  /-- Nobody asks. -/
  | idle
  /-- `take` reads the events. -/
  | drain
  /-- It gives up these watches. -/
  | unwatch (wds : List ℕ)
  /-- It reads the events that are left. -/
  | redrain
  /-- `new` or `take` watches the whole tree. -/
  | scan

/-- What whoever takes the changes has seen. -/
structure Known where
  /-- When what it has seen last began. -/
  since : ℕ
  /-- When that had come to its end. -/
  upto : ℕ
  /-- The entries then. -/
  entry : List Str → Option Entry

/-- The tree, the kernel and the watcher. -/
structure Sys where
  /-- The tree. -/
  tree : DirTree Str
  /-- The kernel. -/
  kernel : Kernel
  /-- The watcher. -/
  w : TreeWatch
  /-- Where it is. -/
  mode : Mode
  /-- The `watch_tree` that has begun. -/
  walk : Option Walk
  /-- What has been seen. -/
  known : Known
  /-- Whether a walk has followed a link since all watches were last given up. -/
  followed : Bool

/-- The steps of the system, and what `take` answers in them. After an answer that may miss
something whoever has asked looks at the whole tree, so what it has seen ends when `take` returns.
-/
inductive Step : Sys → Option Changes → Sys → Prop
  /-- A process changes the tree. -/
  | change {s : Sys} {c : Change Str} {q : List Event} : c.May s.tree →
      Queues s.kernel.queue (s.kernel.notify (notices s.tree c)) q →
      Step s none { s with tree := c.after s.tree, kernel := { s.kernel with queue := q } }
  /-- The watch of a directory that is no more ends. -/
  | reap {s : Sys} {wd i : ℕ} {q : List Event} : s.kernel.active.get? wd = some i →
      (∀ p, ¬ s.tree.IsDir p i) →
      Queues s.kernel.queue [.deleteSelf wd, .ignored wd] q →
      Step s none
        { s with
          kernel :=
            { s.kernel with
              active := s.kernel.active.deleteWhere fun wd' _ => wd' = wd
              queue := q } }
  /-- `take` is called. -/
  | take {s : Sys} : s.mode = .idle → Step s none { s with mode := .drain }
  /-- An event is read. -/
  | event {s : Sys} {e : Event} {q : List Event} :
      s.mode = .drain ∨ s.mode = .redrain → s.walk = none → s.kernel.queue = e :: q →
      Step s none
        { s with
          kernel := { s.kernel with queue := q }
          w := (s.w.event e).1
          walk := (s.w.event e).2.map fun d => ⟨true, .start (hostNames d), []⟩ }
  /-- `watch_tree` goes on. -/
  | walk {s : Sys} {wk : Walk} {k : Kernel} {w : TreeWatch} {wk' : Option Walk} : s.walk = some wk →
      WalkStep s.tree s.kernel s.w wk k w wk' → Step s
      none { s with kernel := k, w := w, walk := wk' }
  /-- It goes on through a link. -/
  | follow {s : Sys} {wk : Walk} {k : Kernel} {w : TreeWatch} {wk' : Option Walk} :
      s.walk = some wk →
      FollowStep s.tree s.kernel s.w wk k w wk' → Step s none
      { s with kernel := k, w := w, walk := wk', followed := true }
  /-- Something happens in a directory outside the tree, which is watched where a walk has followed
  a link. -/
  | outside {s : Sys} {e : Event} {wd i : ℕ} {q : List Event} : s.followed = true →
      s.kernel.active.get? wd = some i →
      (∀ p, ¬ s.tree.IsDir p i) → e.wd? = some wd → (∀ wd', e ≠ .ignored wd') →
      Queues s.kernel.queue [e] q →
      Step s none { s with kernel := { s.kernel with queue := q } }
  /-- No event is left: the answer. -/
  | drained {s : Sys} : s.mode = .drain → s.walk = none → s.kernel.queue = [] →
      Step s (some ⟨s.w.paths, s.w.full⟩)
        { s with
          w := { s.w with paths := [] }
          mode := if s.w.full then .unwatch (s.w.dirs.rows.map Prod.fst) else .idle
          known := if s.w.full then s.known else ⟨s.tree.clock, s.tree.clock, s.tree.entry⟩ }
  /-- A watch is given up. -/
  | unwatch {s : Sys} {wd : ℕ} {wds : List ℕ} {q : List Event} : s.mode = .unwatch (wd :: wds) →
      Queues s.kernel.queue (if s.kernel.active.has wd then [.ignored wd] else []) q →
      Step s none
        { s with
          kernel :=
            { s.kernel with
              active := s.kernel.active.deleteWhere fun wd' _ => wd' = wd
              queue := q }
          mode := .unwatch wds }
  /-- All are given up. -/
  | cleared {s : Sys} : s.mode = .unwatch [] →
      Step s none
        { s with
          w := { s.w with dirs := Table.empty, full := false }
          mode := .redrain
          followed := false }
  /-- No event is left: the whole tree is watched anew. -/
  | redrained {s : Sys} : s.mode = .redrain → s.walk = none → s.kernel.queue = [] →
      Step s none
        { s with
          w := { s.w with paths := [] }
          mode := .scan
          walk := some ⟨false, .start (hostNames root), []⟩
          known := { s.known with since := s.tree.clock } }
  /-- It is watched: `new` or `take` returns. -/
  | scanned {s : Sys} : s.mode = .scan → s.walk = none →
      Step s none { s with mode := .idle, known := ⟨s.known.since, s.tree.clock, s.tree.entry⟩ }

/-- `new` has got its queue and begins to watch the tree. -/
structure Begins (s : Sys) : Prop where
  /-- The tree is one. -/
  grown : s.tree.Grown
  /-- Nothing is watched. -/
  kernel : s.kernel = ⟨Table.empty, 0, []⟩
  /-- Nothing is known. -/
  w : s.w = ⟨Table.empty, [], false⟩
  /-- The whole tree is to be watched. -/
  mode : s.mode = .scan
  /-- From the top on. -/
  walk : s.walk = some ⟨false, .start (hostNames root), []⟩
  /-- From now on. -/
  known : s.known.since = s.tree.clock
  /-- Nothing known is from the future. -/
  upto : s.known.upto ≤ s.tree.clock
  /-- No link has been followed. -/
  followed : s.followed = false

/-- Some steps. -/
def Runs : Sys → Sys → Prop := Relation.ReflTransGen fun s s' => ∃ c, Step s c s'

end Dbvm.Watcher
