import Dbvm.Lib.Forest
import Dbvm.VmFuse

/-!
# The requests of a mount

`fuser` hands the requests of the kernel to `VmFuse` (`src/fuse.rs`) one after the other. A request
looks its entry up in the node table, asks the database to do what is to be done, and when the
database has done it changes the node table. `Op` is such a handler: it returns a reply, or it ends
with an `errno`, or it panics, and what it has changed until then stays changed.

What the mount asks of the database is a `Backend`, so that a statement about the node table alone
can be made for every database, whatever it answers. `Backend.ofDb` is the database of this
development.
-/

namespace Dbvm.VmFuse

open Dbvm Lib Lib.Prog

/-! ## Errors and replies -/

/-- The `errno`s that a mount answers with. -/
inductive Errno where
  /-- `ENOENT`. -/
  | noent
  /-- `ENOTDIR`. -/
  | notdir
  /-- `EISDIR`. -/
  | isdir
  /-- `EINVAL`. -/
  | inval
  /-- `EEXIST`. -/
  | exist
  /-- `ENOTEMPTY`. -/
  | notempty
  /-- `EACCES`. -/
  | acces
  /-- `EIO`. -/
  | io
  /-- `EPERM`. -/
  | perm
  /-- `ENOSYS`. -/
  | nosys
  /-- `ENODATA`. -/
  | nodata
deriving DecidableEq

/-- How a handler ends without a reply. -/
inductive Fail where
  /-- With an `errno`. -/
  | errno (e : Errno)
  /-- It panics: an index or an `unwrap` of what is not there, a slice that does not fit, or a loop
  without an end. -/
  | panicked
deriving DecidableEq

/-- `write_errno`: a policy refusal is `EACCES`, anything else is `EIO`. `sql_errno` looks at the
same text. -/
def writeErrno (e : Err) : Errno := if e = .refused then .acces else .io

/-- What a request is answered with. -/
inductive Reply where
  /-- `ReplyEmpty::ok`. -/
  | ok
  /-- `ReplyEntry::entry`. -/
  | entry (a : Attr)
  /-- `ReplyCreate::created`. -/
  | created (a : Attr)
  /-- `ReplyAttr::attr`. -/
  | attr (a : Attr)
  /-- `ReplyOpen::opened`, with `FOPEN_KEEP_CACHE` or without. -/
  | opened (keepCache : Bool)
  /-- `ReplyData::data` of a file. -/
  | data (b : Bytes)
  /-- `ReplyData::data` of a link. -/
  | target (t : Str)
  /-- `ReplyWrite::written`. -/
  | written (n : ℕ)
  /-- `ReplyDirectory`: number, kind and name of each entry. -/
  | listing (es : List (ℕ × Kind × Str))
  /-- `ReplyStatfs::statfs`: blocks and files. -/
  | statfs (blocks files : ℕ)

/-! ## The database -/

/-- What a mount asks of its database. -/
structure Backend (σ : Type) where
  /-- `vm_add_bytes` of an empty file: path, mode, time. -/
  addBytes : Str → ℕ → ℤ → EStateM Err σ Unit
  /-- `vm_add_dir`. -/
  addDir : Str → ℕ → ℤ → EStateM Err σ Unit
  /-- `vm_add_symlink`: path, target, time. -/
  addSymlink : Str → Str → ℤ → EStateM Err σ Unit
  /-- `DELETE FROM vm_fs WHERE path=?1`. -/
  delete : Str → EStateM Err σ Unit
  /-- `UPDATE vm_fs SET mode=?1 WHERE path=?2`. -/
  setMode : Str → ℕ → EStateM Err σ Unit
  /-- `UPDATE vm_fs SET mtime=?1 WHERE path=?2`. -/
  setMtime : Str → ℤ → EStateM Err σ Unit
  /-- The savepoint `fuse_rename`: the row that is replaced, and the moves. -/
  rename : Option Str → List (Str × Str) → EStateM Err σ Unit
  /-- `truncate_range_deferred`: path, size, time. -/
  truncate : Str → ℕ → ℤ → EStateM Err σ Unit
  /-- `write_range_deferred`: path, offset, data, time. -/
  write : Str → ℕ → Bytes → ℤ → EStateM Err σ Unit
  /-- `read_range_cached`: path, offset, length. -/
  read : Str → ℕ → ℕ → EStateM Err σ Bytes
  /-- `SELECT link_target FROM vm_fs WHERE path=?1`; nothing when there is no row or no target. -/
  linkTarget : Str → σ → Option Str
  /-- The bytes of all blobs and the number of rows, as `statfs` asks for them. -/
  usage : σ → ℕ × ℕ
  /-- `finalize_dirty`. -/
  finalize : EStateM Err σ Unit

/-- The database of this development. -/
def Backend.ofDb {K : Type} [DecidableEq K] (E : Ext K) : Backend (Conn K) where
  addBytes path mode now := onDb (vmAddBytes E path [] mode now now)
  addDir path mode now := onDb (vmAddDir path mode now now)
  addSymlink path target now := onDb (vmAddSymlink path target now)
  delete path := onDb (deleteFs fun q => q = path)
  setMode path mode := onDb (updateFs path fun row => { row with mode := mode })
  setMtime path mtime := onDb (updateFs path fun row => { row with mtime := mtime })
  rename replaced moves := onDb (fuseRename replaced moves)
  truncate path size now := truncateRangeDeferred E path size now
  write path off data now := writeRangeDeferred E path off data now
  read path off len := readRangeCached E path off len
  linkTarget path c := (c.db.fs.get? path).bind fun row => row.linkTarget
  usage c := ((c.db.blobs.rows.map fun b => b.2.val.body.length).sum, c.db.fs.rows.length)
  finalize := onDb do
    let _ ← finalizeDirty E

/-- `Owner`. -/
structure Owner where
  /-- The user. -/
  uid : ℕ
  /-- The group. -/
  gid : ℕ

/-- `Owner::is_owner_change`. -/
def Owner.isOwnerChange (o : Owner) (uid gid : Option ℕ) : Bool :=
  uid.any (· ≠ o.uid) || gid.any (· ≠ o.gid)

/-- `VmFuse`. -/
structure Vm (σ : Type) where
  /-- The connection with its chunk cache. -/
  conn : σ
  /-- The nodes. -/
  nodes : Table ℕ Node
  /-- The next free number. -/
  nextIno : ℕ
  /-- The identity every node reports. -/
  owner : Owner

/-- A handler. -/
abbrev Op (σ α : Type) := EStateM Fail (Vm σ) α

/-! ## Names and nodes -/

/-- `join`. -/
def join (dir name : Str) : Str := if dir = root then '/' :: name else dir ++ '/' :: name

/-- What a name must be for a new entry. -/
def refusesName (name : Str) : Bool :=
  name = [] || '/' ∈ name || name = ".".toList || name = "..".toList

/-- `child`. A name that is not UTF-8 is `none`. -/
def child (nodes : Table ℕ Node) (parent : ℕ) (name : Option Str) : Option ℕ :=
  match nodes.get? parent, name with
  | some p, some name => p.children.get? name
  | _, _ => none

/-- `new_entry_paths`. -/
def newEntryPaths (nodes : Table ℕ Node) (parent : ℕ) (name : Option Str) :
    Except Errno (Str × Str) :=
  match nodes.get? parent with
  | none => .error .noent
  | some p =>
    if p.attr.kind ≠ .dir then .error .notdir
    else
      match name with
      | none => .error .inval
      | some n =>
        if refusesName n then .error .inval
        else if p.children.has n then .error .exist
        else .ok (join p.dbPath n, join p.view n)

/-- The numbers of a directory's entries in the order of their names. -/
def childInos (n : Node) : List ℕ :=
  (n.children.rows.insertionSort fun a b => a.1 ≤ b.1).map Prod.snd

/-- `remove_node`. -/
def removeNode (nodes : Table ℕ Node) (ino : ℕ) : Table ℕ Node :=
  match nodes.get? ino with
  | none => nodes
  | some node =>
    Forest.prune childInos
      ((Forest.without nodes ino).update node.parent fun p =>
        { p with children := Forest.without p.children (fileName node.view) })
      (childInos node).reverse

/-- `subtree`. The fuel is one round for each node and one more. -/
def subtree (nodes : Table ℕ Node) (ino : ℕ) : Option (List ℕ) :=
  Forest.collect (Forest.next childInos nodes) (nodes.rows.length + 1) [ino] 0

/-- What is left of a text after some bytes; none when they are too many or end within a character.
-/
def dropBytes : ℕ → Str → Option Str
  | 0, s => some s
  | _ + 1, [] => none
  | n + 1, c :: s => if c.utf8Size ≤ n + 1 then dropBytes (n + 1 - c.utf8Size) s else none

section Ops

variable {σ α : Type}

/-- End with an `errno`. -/
def fail (e : Errno) : Op σ α := throw (.errno e)

/-- What is there, or this end. -/
def pick (o : Option α) (f : Fail) : Op σ α :=
  match o with
  | some a => pure a
  | none => throw f

/-- A request to the database, with this answer when it fails. -/
def ask (answer : Err → Errno) (x : EStateM Err σ α) : Op σ α := fun s =>
  match x s.conn with
  | .ok a c => .ok a { s with conn := c }
  | .error e c => .error (.errno (answer e)) { s with conn := c }

/-- The node with a number; indexing panics. -/
def node (ino : ℕ) : Op σ Node := do
  let s ← get
  pick (s.nodes.get? ino) .panicked

/-- `nodes.get_mut(&ino).unwrap()`. -/
def modifyNode (ino : ℕ) (f : Node → Node) : Op σ Unit := do
  let _ ← node ino
  modify fun s => { s with nodes := s.nodes.update ino f }

/-- `add_node`. -/
def addNode (parent : ℕ) (dbPath view : Str) (kind : Kind) (perm size : ℕ) (now : ℤ) : Op σ Attr :=
  do
  let s ← get
  let ino := s.nextIno
  let a := attr ino kind perm size (systemTime now)
  modify fun s => { s with nextIno := ino + 1 }
  modifyNode parent fun p => { p with children := p.children.put (fileName view) ino }
  modify fun s => { s with nodes := s.nodes.put ino ⟨dbPath, view, a, parent, Table.empty⟩ }
  return a

/-- New attributes of a node. -/
def touch (ino : ℕ) (f : Attr → Attr) : Op σ Unit :=
  modifyNode ino fun n => { n with attr := f n.attr }

end Ops

/-! ## The handlers -/

section Handlers

variable {σ : Type} (B : Backend σ)

/-- `truncate_node`. -/
def truncateNode (ino size : ℕ) (now : ℤ) : Op σ Unit := do
  let s ← get
  let n ← pick (s.nodes.get? ino) (.errno .noent)
  ask writeErrno (B.truncate n.dbPath size now)
  touch ino fun a =>
    { a with size := size, blocks := (size + 511)
      / 512, mtime := systemTime now, ctime := systemTime now }

/-- What `O_TRUNC` does to a regular file. -/
def truncateIf (trunc : Bool) (ino : ℕ) (now : ℤ) : Op σ Unit :=
  if trunc then truncateNode B ino 0 now else pure ()

/-- `lookup`. -/
def lookup (parent : ℕ) (name : Option Str) : Op σ Reply := do
  let s ← get
  let n ← pick ((child s.nodes parent name).bind s.nodes.get?) (.errno .noent)
  return .entry n.attr

/-- `getattr`. -/
def getattr (ino : ℕ) : Op σ Reply := do
  let s ← get
  let n ← pick (s.nodes.get? ino) (.errno .noent)
  return .attr n.attr

/-- `readlink`. -/
def readlink (ino : ℕ) : Op σ Reply := do
  let s ← get
  let n ← pick (s.nodes.get? ino) (.errno .noent)
  let t ← pick (B.linkTarget n.dbPath s.conn) (.errno .noent)
  return .target (mountLinkText n.view t)

/-- `open`. With `FUSE_ATOMIC_O_TRUNC` the kernel leaves `O_TRUNC` to it. -/
def «open» (ino : ℕ) (trunc : Bool) (now : ℤ) : Op σ Reply := do
  let s ← get
  let n ← pick (s.nodes.get? ino) (.errno .noent)
  match n.attr.kind with
  | .dir => fail .isdir
  | .symlink => return .opened true
  | .file => do
    truncateIf B trunc ino now
    return .opened true

/-- `read`. -/
def read (ino : ℕ) (offset : ℤ) (size : ℕ) : Op σ Reply := do
  if offset < 0 then fail .inval
  else do
    let s ← get
    let n ← pick (s.nodes.get? ino) (.errno .noent)
    match n.attr.kind with
    | .dir => fail .isdir
    | .symlink => fail .inval
    | .file => do
      let b ← ask (fun _ => .io) (B.read n.dbPath offset.toNat size)
      return .data b

/-- `write`. -/
def write (ino : ℕ) (offset : ℤ) (data : Bytes) (now : ℤ) : Op σ Reply := do
  if offset < 0 then fail .inval
  else do
    let s ← get
    let n ← pick (s.nodes.get? ino) (.errno .noent)
    if n.attr.kind = .dir then fail .isdir
    else do
      ask writeErrno (B.write n.dbPath offset.toNat data now)
      touch ino fun a =>
        let size := max a.size (offset.toNat + data.length)
        { a with size := size, blocks := (size + 511)
          / 512, mtime := systemTime now, ctime := systemTime now }
      return .written (data.length % 2 ^ 32)

/-- `opendir`. -/
def opendir (ino : ℕ) : Op σ Reply := do
  let s ← get
  if (s.nodes.get? ino).any fun n => n.attr.kind = .dir then return .opened false
  else fail .notdir

/-- `readdir`. A negative offset is a large one as an index. -/
def readdirOp (ino : ℕ) (offset : ℤ) (room : ℕ) : Op σ Reply := do
  let s ← get
  match readdir s.nodes ino (offset % 2 ^ 64).toNat room with
  | .noent => fail .noent
  | .notdir => fail .notdir
  | .panicked => throw .panicked
  | .entries es => return .listing es

/-- `statfs`. -/
def statfs : Op σ Reply := do
  let s ← get
  return .statfs (((B.usage s.conn).1 + 4095) / 4096) (B.usage s.conn).2

/-- What `create`, `mkdir`, `symlink` and `mknod` do with the paths of a new entry. -/
def make (put : Str → EStateM Err σ Unit) (parent : ℕ) (paths : Str × Str) (kind : Kind)
    (perm size : ℕ) (now : ℤ) :
    Op σ Attr := do
  ask writeErrno (put paths.1)
  addNode parent paths.1 paths.2 kind perm size now

/-- `create`. Without `O_EXCL` an existing file is opened. -/
def create (parent : ℕ) (name : Option Str) (mode : ℕ) (excl trunc : Bool) (now : ℤ) : Op σ Reply :=
  do
  let s ← get
  match newEntryPaths s.nodes parent name with
  | .ok paths => do
    let perm := mode % 0o10000
    let a ← make (fun p => B.addBytes p perm now) parent paths .file perm 0 now
    return .created a
  | .error .exist => do
    let ino ← pick (child s.nodes parent name) (.errno .exist)
    let n ← node ino
    if n.attr.kind = .file ∧ excl = false then do
      truncateIf B trunc ino now
      let n ← node ino
      return .created n.attr
    else fail .exist
  | .error e => fail e

/-- `mkdir`. For an existing directory it is success. -/
def mkdir (parent : ℕ) (name : Option Str) (mode : ℕ) (now : ℤ) : Op σ Reply := do
  let s ← get
  match newEntryPaths s.nodes parent name with
  | .ok paths => do
    let perm := mode % 0o10000
    let a ← make (fun p => B.addDir p perm now) parent paths .dir perm 4096 now
    return .entry a
  | .error .exist => do
    let n ← pick ((child s.nodes parent name).bind s.nodes.get?) (.errno .exist)
    if n.attr.kind = .dir then return .entry n.attr
    else fail .exist
  | .error e => fail e

/-- `mknod`: only regular files. -/
def mknod (parent : ℕ) (name : Option Str) (mode : ℕ) (now : ℤ) : Op σ Reply := do
  let fileType := mode &&& 0o170000
  if fileType ≠ 0 ∧ fileType ≠ 0o100000 then fail .nosys
  else do
    let s ← get
    match newEntryPaths s.nodes parent name with
    | .ok paths => do
      let perm := mode % 0o10000
      let a ← make (fun p => B.addBytes p perm now) parent paths .file perm 0 now
      return .entry a
    | .error e => fail e

/-- `symlink`. -/
def symlink (parent : ℕ) (linkName : Option Str) (target : Str) (now : ℤ) : Op σ Reply := do
  let s ← get
  match newEntryPaths s.nodes parent linkName with
  | .ok paths => do
    let a ← make (fun p => B.addSymlink p target now) parent paths .symlink 0o777
      target.bytes.length now
    return .entry a
  | .error e => fail e

/-- What `unlink` and `rmdir` do with an entry. -/
def drop (ino : ℕ) (n : Node) : Op σ Reply := do
  ask writeErrno (B.delete n.dbPath)
  modify fun s => { s with nodes := removeNode s.nodes ino }
  return .ok

/-- `unlink`. -/
def unlink (parent : ℕ) (name : Option Str) : Op σ Reply := do
  let s ← get
  let ino ← pick (child s.nodes parent name) (.errno .noent)
  let n ← node ino
  if n.attr.kind = .dir then fail .isdir
  else drop B ino n

/-- `rmdir`. -/
def rmdir (parent : ℕ) (name : Option Str) : Op σ Reply := do
  let s ← get
  let ino ← pick (child s.nodes parent name) (.errno .noent)
  let n ← node ino
  if n.attr.kind ≠ .dir then fail .notdir
  else if n.children.rows ≠ [] then fail .notempty
  else drop B ino n

/-- What becomes of a node that is moved. -/
structure Move where
  /-- The node. -/
  ino : ℕ
  /-- Its row before. -/
  oldDb : Str
  /-- Its row after. -/
  newDb : Str
  /-- Its view path after. -/
  newView : Str

/-- One entry of `moves`: what comes after the old view path comes after the new ones. -/
def moveOf (nodes : Table ℕ Node) (oldView newDb newView : Str) (i : ℕ) : Option Move := do
  let n ← nodes.get? i
  let rel ← dropBytes oldView.bytes.length n.view
  return ⟨i, n.dbPath, newDb ++ rel, newView ++ rel⟩

/-- The node table after the database has moved the rows. -/
def moveNodes (ino newparent : ℕ) (newName oldView : Str) (moves : List Move) : Op σ Unit := do
  let n ← node ino
  modifyNode n.parent fun p => { p with children := Forest.without p.children (fileName oldView) }
  modifyNode newparent fun p => { p with children := p.children.put newName ino }
  modifyNode ino fun n => { n with parent := newparent }
  moves.forM fun m => modifyNode m.ino fun n => { n with dbPath := m.newDb, view := m.newView }

/-- The node that a rename replaces, which must not be a directory. -/
def replacedNode : Option ℕ → Op σ (Option Node)
  | none => pure none
  | some r => do
    let rn ← node r
    if rn.attr.kind = .dir then fail .exist
    else return some rn

/-- `rename`. -/
def rename (parent : ℕ) (name : Option Str) (newparent : ℕ) (newname : Option Str) : Op σ Reply :=
  do
  let s ← get
  let ino ← pick (child s.nodes parent name) (.errno .noent)
  let np ← pick (s.nodes.get? newparent) (.errno .noent)
  if np.attr.kind ≠ .dir then fail .notdir
  else do
    let newN ← pick (newname.filter fun n => !refusesName n) (.errno .inval)
    let replaced := np.children.get? newN
    if replaced = some ino then return .ok
    else do
      let gone ← replacedNode replaced
      let moved ← pick (subtree s.nodes ino) .panicked
      -- a directory cannot move into itself
      if newparent ∈ moved then fail .inval
      else do
        let n ← node ino
        let moves ← pick
          (moved.mapM (moveOf s.nodes n.view (join np.dbPath newN) (join np.view newN))) .panicked
        ask writeErrno (B.rename (gone.map fun rn => rn.dbPath)
          (moves.map fun m => (m.oldDb, m.newDb)))
        modify fun s => { s with nodes := replaced.elim s.nodes (removeNode s.nodes) }
        moveNodes ino newparent newN n.view moves
        return .ok

/-- `setattr`: the owner, then mode, time of access, time of modification and size. The times are
those of the request. -/
def setattr (ino : ℕ) (mode uid gid size atime mtime : Option ℕ) (now : ℤ) : Op σ Reply := do
  let s ← get
  let n ← pick (s.nodes.get? ino) (.errno .noent)
  if s.owner.isOwnerChange uid gid then fail .perm
  else do
    mode.forM fun m => do
      ask writeErrno (B.setMode n.dbPath m)
      touch ino fun a => { a with perm := m % 0o10000 }
    atime.forM fun t => touch ino fun a => { a with atime := t }
    mtime.forM fun t => do
      ask writeErrno (B.setMtime n.dbPath t)
      touch ino fun a => { a with mtime := t, ctime := t }
    size.forM fun sz => truncateNode B ino sz now
    let n ← node ino
    return .attr n.attr

/-- `access`. -/
def access (ino : ℕ) : Op σ Reply := do
  let s ← get
  if s.nodes.has ino then return .ok else fail .noent

/-- `destroy`. A failure is only reported. -/
def destroy : Op σ Reply := fun s => .ok .ok { s with conn := endState B.finalize s.conn }

end Handlers

/-- A request of the kernel, with the time at which it is handled. -/
inductive Request where
  /-- `lookup`. -/
  | lookup (parent : ℕ) (name : Option Str)
  /-- `getattr`. -/
  | getattr (ino : ℕ)
  /-- `readlink`. -/
  | readlink (ino : ℕ)
  /-- `open`. -/
  | «open» (ino : ℕ) (trunc : Bool) (now : ℤ)
  /-- `read`. -/
  | read (ino : ℕ) (offset : ℤ) (size : ℕ)
  /-- `write`. -/
  | write (ino : ℕ) (offset : ℤ) (data : Bytes) (now : ℤ)
  /-- `flush`, `fsync`, `release` or `releasedir`. -/
  | flush
  /-- `opendir`. -/
  | opendir (ino : ℕ)
  /-- `readdir`. -/
  | readdir (ino : ℕ) (offset : ℤ) (room : ℕ)
  /-- `statfs`. -/
  | statfs
  /-- `create`. -/
  | create (parent : ℕ) (name : Option Str) (mode : ℕ) (excl trunc : Bool) (now : ℤ)
  /-- `mkdir`. -/
  | mkdir (parent : ℕ) (name : Option Str) (mode : ℕ) (now : ℤ)
  /-- `mknod`. -/
  | mknod (parent : ℕ) (name : Option Str) (mode : ℕ) (now : ℤ)
  /-- `symlink`. -/
  | symlink (parent : ℕ) (linkName : Option Str) (target : Str) (now : ℤ)
  /-- `unlink`. -/
  | unlink (parent : ℕ) (name : Option Str)
  /-- `rmdir`. -/
  | rmdir (parent : ℕ) (name : Option Str)
  /-- `rename`. -/
  | rename (parent : ℕ) (name : Option Str) (newparent : ℕ) (newname : Option Str)
  /-- `setattr`. -/
  | setattr (ino : ℕ) (mode uid gid size atime mtime : Option ℕ) (now : ℤ)
  /-- `access`. -/
  | access (ino : ℕ)
  /-- `getxattr`. -/
  | getxattr
  /-- `listxattr`. -/
  | listxattr
  /-- `destroy`. -/
  | destroy

/-- The handler of a request. -/
def handler {σ : Type} (B : Backend σ) : Request → Op σ Reply
  | .lookup parent name => lookup parent name
  | .getattr ino => getattr ino
  | .readlink ino => readlink B ino
  | .open ino trunc now => «open» B ino trunc now
  | .read ino offset size => read B ino offset size
  | .write ino offset data now => write B ino offset data now
  | .flush => pure .ok
  | .opendir ino => opendir ino
  | .readdir ino offset room => readdirOp ino offset room
  | .statfs => statfs B
  | .create parent name mode excl trunc now => create B parent name mode excl trunc now
  | .mkdir parent name mode now => mkdir B parent name mode now
  | .mknod parent name mode now => mknod B parent name mode now
  | .symlink parent linkName target now => symlink B parent linkName target now
  | .unlink parent name => unlink B parent name
  | .rmdir parent name => rmdir B parent name
  | .rename parent name newparent newname => rename B parent name newparent newname
  | .setattr ino mode uid gid size atime mtime now => setattr B ino mode uid gid size
      atime mtime now
  | .access ino => access ino
  | .getxattr => fail .nodata
  | .listxattr => fail .nosys
  | .destroy => destroy B

/-- The answer to a request and the mount after it. -/
def handle {σ : Type} (B : Backend σ) (r : Request) (s : Vm σ) : Except Fail Reply × Vm σ :=
  match handler B r s with
  | .ok reply s' => (.ok reply, s')
  | .error f s' => (.error f, s')

/-- The mount after some requests. -/
def runAll {σ : Type} (B : Backend σ) (rs : List Request) (s : Vm σ) : Vm σ :=
  rs.foldl (fun s r => (handle B r s).2) s

/-- `VmFuse::new`: the tree of the rows of the database. -/
def new {K σ : Type} [DecidableEq K] (fs : Table Str (FsRow K)) (order : List ℕ) (conn : σ)
    (owner : Owner) :
    Except RebuildErr (Vm σ) :=
  match linkRows fs with
  | none => .error .sql
  | some links => (linkAll (build fs links).byView order (build fs links).nodes).map fun nodes =>
    ⟨conn, nodes, (build fs links).nextIno, owner⟩

end Dbvm.VmFuse
