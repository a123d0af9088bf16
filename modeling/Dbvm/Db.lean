import Dbvm.Lib.Prog
import Dbvm.Lib.RefCount
import Dbvm.Policy
import Dbvm.Codec

/-!
# The database

The tables of a VM database (`src/vm/schema.rs`, `src/vm/undo.rs`) and the statements the program
executes on them. A statement is a guard and an effect. The guard is what makes SQLite refuse it: a
`BEFORE` trigger of a policy, a primary key or a foreign key. The effect includes what the `AFTER`
triggers and the cascades do: the reference counts of `vm_blobs` follow the three chunk tables, the
chunks and the dirty mark of a file go with its row, and the counters of `vm_meta` follow the rows.
A refused statement changes nothing.
-/

namespace Dbvm

open Lib

/-! ## Rows -/

/-- The column `kind` of `vm_fs`. -/
inductive Kind where
  /-- A regular file. -/
  | file
  /-- A directory. -/
  | dir
  /-- A symbolic link. -/
  | symlink
  deriving DecidableEq

/-- The column `hash` of `vm_fs`. -/
inductive FileHash (K : Type) where
  /-- `NULL`. -/
  | null
  /-- The empty blob an overlay write puts there first. -/
  | empty
  /-- The hash of the whole file. -/
  | key (k : K)
  deriving DecidableEq

/-- The columns of `vm_fs` that snapshots and undo records copy. -/
structure FsMeta (K : Type) where
  /-- File, directory or link. -/
  kind : Kind
  /-- Permission bits. -/
  mode : ℤ
  /-- Modification time, in seconds. -/
  mtime : ℤ
  /-- Modification time on the host in nanoseconds, 0 when unknown. -/
  mtimeNs : ℤ
  /-- Size in bytes, 0 for directories and links. -/
  size : ℕ
  /-- Target of a link. -/
  linkTarget : Option Str
  /-- Hash of the whole file. -/
  hash : FileHash K
  deriving DecidableEq

/-- A row of `vm_fs`. -/
structure FsRow (K : Type) extends FsMeta K where
  /-- Content of a file from before the blobs; `NULL` in every row the current code writes. -/
  content : Option Bytes
  /-- Encoding of `content`. -/
  compressed : ℕ
  deriving DecidableEq

/-- A row of `vm_blobs`, without its key and its reference count. -/
structure Block extends Enc where
  /-- Length of the decoded block. -/
  rawSize : ℕ
  deriving DecidableEq

/-- The counters of `vm_meta`. -/
structure Counters where
  /-- `count_file`. -/
  countFile : ℤ
  /-- `count_dir`. -/
  countDir : ℤ
  /-- `count_symlink`. -/
  countSymlink : ℤ
  /-- `logical_bytes`. -/
  logicalBytes : ℤ
  /-- `blob_bytes`. -/
  blobBytes : ℤ
  deriving DecidableEq

/-- A database, as a connection sees it. `K` is the type of content keys. -/
structure Db (K : Type) where
  /-- `vm_fs`, by path. -/
  fs : Table Str (FsRow K)
  /-- `vm_file_chunks`: the key of each chunk of each file. -/
  chunks : Table (Str × ℕ) K
  /-- `vm_blobs`. -/
  blobs : Store K Block
  /-- `vm_dirty`: the files whose whole-file hash is stale. -/
  dirty : List Str
  /-- `vm_dicts`. -/
  dicts : Table ℕ Bytes
  /-- `vm_snapshots`: names by id. -/
  snapshots : Table ℕ Str
  /-- `vm_snapshot_fs`. -/
  snapFs : Table (ℕ × Str) (FsMeta K)
  /-- `vm_snapshot_chunks`. -/
  snapChunks : Table (ℕ × Str × ℕ) K
  /-- `vm_undo`: the ids of the records. -/
  undo : Table ℕ Unit
  /-- `vm_undo_fs`; `none` for a path that did not exist. -/
  undoFs : Table (ℕ × Str) (Option (FsMeta K))
  /-- `vm_undo_chunks`. -/
  undoChunks : Table (ℕ × Str × ℕ) K
  /-- The counters of `vm_meta`. -/
  counters : Counters
  /-- `vm_policies`, compiled into triggers. -/
  policies : List Rule
  /-- The connection's policy bypass. -/
  bypass : Bool

/-- Why an operation fails. -/
inductive Err where
  /-- "EACCES: protected by vm_policies". -/
  | refused
  /-- A primary key or `UNIQUE` constraint failed. -/
  | unique
  /-- A foreign key constraint failed. -/
  | foreignKey
  /-- "not found in VM". -/
  | notFound (p : Str)
  /-- "not a regular file". -/
  | notFile (p : Str)
  /-- "is a directory". -/
  | isDir (p : Str)
  /-- "corrupt row for …: file without content". -/
  | noContent (p : Str)
  /-- "missing chunk". -/
  | missingChunk (p : Str) (idx : ℕ)
  /-- "chunk … references a missing blob". -/
  | missingBlob (p : Str) (idx : ℕ)
  /-- "chunk … undecodable". -/
  | undecodable (p : Str) (idx : ℕ) (e : CodecErr)
  /-- "chunk … hash mismatch". -/
  | hashMismatch (p : Str) (idx : ℕ)
  /-- "chunk … has … bytes, expected …". -/
  | chunkLength (p : Str) (idx : ℕ)
  /-- "chunks hold … bytes, vm_fs.size is …". -/
  | sizeMismatch (p : Str)
  /-- "symlink loop at". -/
  | linkLoop (p : Str)
  /-- "too many symlink levels". -/
  | tooManyLinks (p : Str)
  /-- "not a symlink". -/
  | notLink (p : Str)
  /-- "not a directory". -/
  | notDir (p : Str)
  /-- "no such snapshot". -/
  | noSnapshot (name : Str)
  /-- A block without a row cannot be decoded. -/
  | codec (e : CodecErr)
  /-- A read of the source of a stream failed. -/
  | readFailed
  /-- "package blob uses dictionary … which the package does not contain". -/
  | missingDict (id : ℕ)
  /-- "inject aborted: target does not verify after merge". -/
  | drift
  /-- "… has … files with pending hashes". -/
  | pendingHashes
  /-- "verify failed after rechunk". -/
  | verifyFailed
  /-- "cannot start a transaction within a transaction". -/
  | nestedTx
  /-- "no undo record …". -/
  | noUndo (id : ℕ)
  /-- "sandbox content not applied". -/
  | notApplied
  /-- "empty command", "empty task". -/
  | emptyCommand
  /-- "this VM has no agent". -/
  | noAgent
  deriving DecidableEq

variable {K : Type}

/-- A program on one connection. -/
abbrev Sql (K α : Type) := EStateM Err (Db K) α

/-! ## Counters -/

/-- The counter of one kind, changed by `d`. -/
def Counters.bump (c : Counters) (kind : Kind) (d : ℤ) : Counters :=
  match kind with
  | .file => { c with countFile := c.countFile + d }
  | .dir => { c with countDir := c.countDir + d }
  | .symlink => { c with countSymlink := c.countSymlink + d }

/-- The bytes of a row that `logical_bytes` counts. -/
def FsMeta.logical (m : FsMeta K) : ℤ := if m.kind = .file then m.size else 0

/-- `vm_cnt_fs_ins`. -/
def Counters.insFs (c : Counters) (m : FsMeta K) : Counters :=
  { c.bump m.kind 1 with logicalBytes := c.logicalBytes + m.logical }

/-- `vm_cnt_fs_del`. -/
def Counters.delFs (c : Counters) (m : FsMeta K) : Counters :=
  { c.bump m.kind (-1) with logicalBytes := c.logicalBytes - m.logical }

/-- `vm_cnt_fs_upd`. -/
def Counters.updFs (c : Counters) (old new : FsMeta K) : Counters :=
  if old.kind = new.kind then
    { c with logicalBytes := c.logicalBytes - old.logical + new.logical }
  else
    { (c.bump old.kind (-1)).bump new.kind 1 with
      logicalBytes := c.logicalBytes - old.logical + new.logical }

/-- `vm_cnt_blob_ins`, `vm_cnt_blob_upd` and `vm_cnt_blob_del`: the stored bytes change by `d`. -/
def Counters.addBlobBytes (c : Counters) (d : ℤ) : Counters :=
  { c with blobBytes := c.blobBytes + d }

variable [DecidableEq K]

/-- `vm_cnt_blob_del` for the blobs that a list of releases drops. -/
def Counters.released (s : Store K Block) (c : Counters) : List K → Counters
  | [] => c
  | k :: ks =>
    Counters.released (s.release k)
      (match s.get? k with
        | some b => if b.refcnt ≤ 1 then c.addBlobBytes (-(b.val.body.length : ℤ)) else c
        | none => c) ks

/-! ## Effects -/

namespace Db

/-- References to the keys of a list are dropped, and with them the blobs no other row holds. -/
def releaseBlobs (db : Db K) (ks : List K) : Db K :=
  { db with
    blobs := db.blobs.releaseAll ks
    counters := Counters.released db.blobs db.counters ks }

/-- A new row of `vm_fs`. -/
def addFs (db : Db K) (p : Str) (row : FsRow K) : Db K :=
  { db with fs := db.fs.insertIgnore p row, counters := db.counters.insFs row.toFsMeta }

/-- A change of the row at `p`. -/
def setFs (db : Db K) (p : Str) (f : FsRow K → FsRow K) : Db K :=
  { db with
    fs := db.fs.update p f
    counters := match db.fs.get? p with
      | some row => db.counters.updFs row.toFsMeta (f row).toFsMeta
      | none => db.counters }

/-- The keys of the chunks of selected files. -/
def chunkKeys (db : Db K) (sel : Str → ℕ → Bool) : List K :=
  (db.chunks.select fun c _ => sel c.1 c.2).map Prod.snd

/-- The selected chunk rows are deleted, and their references dropped (`vm_fc_del`). -/
def delChunks (db : Db K) (sel : Str → ℕ → Bool) : Db K :=
  { db.releaseBlobs (db.chunkKeys sel) with chunks := db.chunks.deleteWhere fun c _ => sel c.1 c.2 }

/-- The rows of `vm_fs` at the selected paths are deleted. Their chunks go with them
(`vm_fs_del_chunks`) and so do their dirty marks (`ON DELETE CASCADE`). -/
def delFs (db : Db K) (sel : Str → Bool) : Db K :=
  let gone := fun p => sel p && db.fs.has p
  { db.delChunks fun p _ => gone p with
    fs := db.fs.deleteWhere fun p _ => sel p
    dirty := db.dirty.filter fun p => !gone p
    counters := (db.fs.select fun p _ => sel p).foldl (fun c r => c.delFs r.2.toFsMeta)
      (db.delChunks fun p _ => gone p).counters }

/-- A new chunk row and a reference to its blob (`vm_fc_ins`). -/
def addChunk (db : Db K) (p : Str) (idx : ℕ) (k : K) : Db K :=
  { db with chunks := db.chunks.insertIgnore (p, idx) k, blobs := db.blobs.acquire k }

/-- A new blob, without a reference. -/
def addBlob (db : Db K) (k : K) (b : Block) : Db K :=
  { db with
    blobs := db.blobs.insertIgnore k ⟨b, 0⟩
    counters := db.counters.addBlobBytes b.body.length }

/-- A blob stored in another encoding. -/
def setBlob (db : Db K) (k : K) (e : Enc) : Db K :=
  { db with
    blobs := db.blobs.update k fun c => { c with val := { c.val with toEnc := e } }
    counters := match db.blobs.get? k with
      | some c => db.counters.addBlobBytes (e.body.length - c.val.body.length)
      | none => db.counters }

/-- The number of rows in the three chunk tables that carry a key. -/
def refs (db : Db K) (k : K) : ℕ :=
  db.chunks.count k + db.snapChunks.count k + db.undoChunks.count k

/-! ## Guards -/

/-- A policy refuses the new row: a read-only prefix, the size of a file, or the quota. -/
def refusesFs (db : Db K) (p : Str) (m : FsMeta K) : Bool :=
  !db.bypass && (Rule.protects db.policies p || db.policies.any fun
    | .readonlyPrefix _ => false
    | .maxFileSize n => m.kind = .file && n < m.size
    | .diskQuota q => m.kind = .file &&
        (q : ℤ) < db.counters.logicalBytes - ((db.fs.get? p).elim 0 fun r => r.logical) + m.size)

/-- A policy refuses to touch rows of the path. -/
def refusesPath (db : Db K) (p : Str) : Bool := !db.bypass && Rule.protects db.policies p

end Db

/-- A statement: it is refused, and nothing changes, or it takes effect. -/
def statement (f : Db K → Except Err (Db K)) : Sql K Unit := fun db =>
  match f db with
  | .ok db' => .ok () db'
  | .error e => .error e db

/-! ## Statements on `vm_fs` -/

/-- `INSERT OR IGNORE INTO vm_fs`. The trigger fires before the conflict is found. -/
def insertFsIgnore (p : Str) (row : FsRow K) : Sql K Unit := statement fun db =>
  if db.refusesFs p row.toFsMeta then .error .refused
  else if db.fs.has p then .ok db else .ok (db.addFs p row)

/-- `INSERT INTO vm_fs`, one row. -/
def Db.insertFs? (db : Db K) (r : Str × FsRow K) : Except Err (Db K) :=
  if db.refusesFs r.1 r.2.toFsMeta then .error .refused
  else if db.fs.has r.1 then .error .unique else .ok (db.addFs r.1 r.2)

/-- `INSERT INTO vm_fs`. -/
def insertFs (p : Str) (row : FsRow K) : Sql K Unit := statement fun db => db.insertFs? (p, row)

/-- `INSERT INTO vm_fs … ON CONFLICT(path) DO UPDATE`. -/
def upsertFs (p : Str) (row : FsRow K) (upd : FsRow K → FsRow K) : Sql K Unit :=
  statement fun db =>
    if db.refusesFs p row.toFsMeta then .error .refused
    else if db.fs.has p then .ok (db.setFs p upd) else .ok (db.addFs p row)

/-- `INSERT INTO vm_fs … SELECT`: all rows or none. -/
def insertFsRows (rows : List (Str × FsRow K)) : Sql K Unit := statement fun db =>
  rows.foldlM Db.insertFs? db

/-- `UPDATE vm_fs SET … WHERE path = p`. -/
def updateFs (p : Str) (f : FsRow K → FsRow K) : Sql K Unit := statement fun db =>
  match db.fs.get? p with
  | none => .ok db
  | some row =>
    if db.refusesPath p || db.refusesFs p (f row).toFsMeta then .error .refused
    else .ok (db.setFs p f)

/-- `DELETE FROM vm_fs` at the selected paths. -/
def deleteFs (sel : Str → Bool) : Sql K Unit := statement fun db =>
  if (db.fs.select fun p _ => sel p).any fun r => db.refusesPath r.1 then .error .refused
  else .ok (db.delFs sel)

/-- `UPDATE vm_fs SET path = new WHERE path = old`. The dirty mark follows its file
(`ON UPDATE CASCADE`). -/
def moveFs (old new : Str) : Sql K Unit := statement fun db =>
  match db.fs.get? old with
  | none => .ok db
  | some row =>
    if db.refusesPath old || db.refusesFs new row.toFsMeta then .error .refused
    else match db.fs.rekey fun p => if p = old then new else p with
      | none => .error .unique
      | some fs => .ok { db with
          fs := fs
          dirty := db.dirty.map fun p => if p = old then new else p }

/-! ## Statements on `vm_file_chunks` -/

/-- `INSERT INTO vm_file_chunks`, one row. -/
def Db.insertChunk? (db : Db K) (r : (Str × ℕ) × K) : Except Err (Db K) :=
  if db.refusesPath r.1.1 then .error .refused
  else if db.chunks.has r.1 then .error .unique else .ok (db.addChunk r.1.1 r.1.2 r.2)

/-- `INSERT INTO vm_file_chunks … VALUES`. -/
def insertChunk (p : Str) (idx : ℕ) (k : K) : Sql K Unit := statement fun db =>
  db.insertChunk? ((p, idx), k)

/-- `INSERT INTO vm_file_chunks … SELECT`: all rows or none. -/
def insertChunks (rows : List ((Str × ℕ) × K)) : Sql K Unit := statement fun db =>
  rows.foldlM Db.insertChunk? db

/-- `DELETE FROM vm_file_chunks` for the selected rows. -/
def deleteChunks (sel : Str → ℕ → Bool) : Sql K Unit := statement fun db =>
  if (db.chunks.select fun c _ => sel c.1 c.2).any fun r => db.refusesPath r.1.1 then
    .error .refused
  else .ok (db.delChunks sel)

/-- `UPDATE vm_file_chunks SET path = new WHERE path = old`. No key changes, so `vm_fc_upd` does not
fire. -/
def moveChunks (old new : Str) : Sql K Unit := statement fun db =>
  if (db.chunks.select fun c _ => c.1 = old).any
      fun _ => db.refusesPath old || db.refusesPath new then .error .refused
  else match db.chunks.rekey fun c => if c.1 = old then (new, c.2) else c with
    | none => .error .unique
    | some chunks => .ok { db with chunks := chunks }

/-! ## Statements on `vm_blobs`, `vm_dicts` and `vm_dirty` -/

/-- `INSERT INTO vm_blobs`. -/
def insertBlob (k : K) (b : Block) : Sql K Unit := statement fun db =>
  if db.blobs.has k then .error .unique else .ok (db.addBlob k b)

/-- `INSERT OR IGNORE INTO vm_blobs`. -/
def insertBlobIgnore (k : K) (b : Block) : Sql K Unit := statement fun db =>
  if db.blobs.has k then .ok db else .ok (db.addBlob k b)

/-- `UPDATE vm_blobs SET content, compressed, dict_id`. -/
def updateBlob (k : K) (e : Enc) : Sql K Unit := statement fun db => .ok (db.setBlob k e)

/-- The id of a new row: one more than the highest. -/
def nextId {ρ : Type} (t : Table ℕ ρ) : ℕ := (t.rows.map Prod.fst).foldl max 0 + 1

/-- `INSERT INTO vm_dicts`; returns the new id (`vm_set_dict`). -/
def vmSetDict (dict : Bytes) : Sql K ℕ := do
  let id ← Prog.reads fun db => nextId db.dicts
  statement fun db => .ok { db with dicts := db.dicts.insertIgnore id dict }
  return id

/-- `INSERT OR IGNORE INTO vm_dirty`. -/
def insertDirty (p : Str) : Sql K Unit := statement fun db =>
  if db.fs.has p then .ok { db with dirty := if p ∈ db.dirty then db.dirty else db.dirty ++ [p] }
  else .error .foreignKey

/-- `DELETE FROM vm_dirty WHERE path = p`. -/
def deleteDirty (p : Str) : Sql K Unit := statement fun db =>
  .ok { db with dirty := db.dirty.filter (· ≠ p) }

/-! ## Statements on snapshots -/

/-- `INSERT INTO vm_snapshots`; returns the new id. -/
def insertSnapshot (name : Str) : Sql K ℕ := do
  let id ← Prog.reads fun db => nextId db.snapshots
  statement fun db =>
    if db.snapshots.rows.any fun r => r.2 = name then .error .unique
    else .ok { db with snapshots := db.snapshots.insertIgnore id name }
  return id

/-- `UPDATE vm_snapshots SET name WHERE id`. -/
def renameSnapshot (id : ℕ) (name : Str) : Sql K Unit := statement fun db =>
  if db.snapshots.rows.any fun r => r.2 = name && r.1 ≠ id then .error .unique
  else .ok { db with snapshots := db.snapshots.update id fun _ => name }

/-- `INSERT INTO vm_snapshot_fs`, one row. -/
def Db.insertSnapFs? (id : ℕ) (db : Db K) (r : Str × FsRow K) : Except Err (Db K) :=
  if db.snapFs.has (id, r.1) then .error .unique
  else .ok { db with snapFs := db.snapFs.insertIgnore (id, r.1) r.2.toFsMeta }

/-- `INSERT INTO vm_snapshot_chunks`, one row, and a reference to its blob (`vm_snc_ins`). -/
def Db.insertSnapChunk? (id : ℕ) (db : Db K) (r : (Str × ℕ) × K) : Except Err (Db K) :=
  if db.snapChunks.has (id, r.1) then .error .unique
  else .ok { db with
    snapChunks := db.snapChunks.insertIgnore (id, r.1) r.2
    blobs := db.blobs.acquire r.2 }

/-- `INSERT INTO vm_snapshot_fs … SELECT … FROM vm_fs`. -/
def copySnapFs (id : ℕ) : Sql K Unit := statement fun db =>
  db.fs.rows.foldlM (Db.insertSnapFs? id) db

/-- `INSERT INTO vm_snapshot_chunks … SELECT … FROM vm_file_chunks`. -/
def copySnapChunks (id : ℕ) : Sql K Unit := statement fun db =>
  db.chunks.rows.foldlM (Db.insertSnapChunk? id) db

/-- The keys of the chunks of a snapshot. -/
def Db.snapKeys (db : Db K) (id : ℕ) : List K :=
  (db.snapChunks.select fun c _ => c.1 = id).map Prod.snd

/-- `DELETE FROM vm_snapshots WHERE id`: the rows of the snapshot go with it (`ON DELETE CASCADE`)
and their references are dropped (`vm_snc_del`). -/
def deleteSnapshot (id : ℕ) : Sql K Unit := statement fun db =>
  if db.snapshots.has id then
    .ok { db.releaseBlobs (db.snapKeys id) with
      snapshots := db.snapshots.deleteWhere fun i _ => i = id
      snapFs := db.snapFs.deleteWhere fun c _ => c.1 = id
      snapChunks := db.snapChunks.deleteWhere fun c _ => c.1 = id }
  else .ok db

/-! ## Statements on undo records -/

/-- `INSERT INTO vm_undo`; returns the new id. -/
def insertUndo : Sql K ℕ := do
  let id ← Prog.reads fun db => nextId db.undo
  statement fun db => .ok { db with undo := db.undo.insertIgnore id () }
  return id

/-- `INSERT INTO vm_undo_fs`, one row. -/
def insertUndoFs (id : ℕ) (p : Str) (m : Option (FsMeta K)) : Sql K Unit := statement fun db =>
  if !db.undo.has id then .error .foreignKey
  else if db.undoFs.has (id, p) then .error .unique
  else .ok { db with undoFs := db.undoFs.insertIgnore (id, p) m }

/-- `INSERT INTO vm_undo_chunks`, one row, and a reference to its blob (`vm_unc_ins`). -/
def Db.insertUndoChunk? (id : ℕ) (db : Db K) (r : (Str × ℕ) × K) : Except Err (Db K) :=
  if !db.undo.has id then .error .foreignKey
  else if db.undoChunks.has (id, r.1) then .error .unique
  else .ok { db with
    undoChunks := db.undoChunks.insertIgnore (id, r.1) r.2
    blobs := db.blobs.acquire r.2 }

/-- `INSERT INTO vm_undo_chunks … SELECT … FROM vm_file_chunks WHERE path = p`. -/
def copyUndoChunks (id : ℕ) (p : Str) : Sql K Unit := statement fun db =>
  (db.chunks.select fun c _ => c.1 = p).foldlM (Db.insertUndoChunk? id) db

/-- The keys of the chunks of an undo record. -/
def Db.undoKeys (db : Db K) (id : ℕ) : List K :=
  (db.undoChunks.select fun c _ => c.1 = id).map Prod.snd

/-- `DELETE FROM vm_undo WHERE id`, with the rows of the record (`ON DELETE CASCADE`) and their
references (`vm_unc_del`). -/
def deleteUndo (id : ℕ) : Sql K Unit := statement fun db =>
  if db.undo.has id then
    .ok { db.releaseBlobs (db.undoKeys id) with
      undo := db.undo.deleteWhere fun i _ => i = id
      undoFs := db.undoFs.deleteWhere fun c _ => c.1 = id
      undoChunks := db.undoChunks.deleteWhere fun c _ => c.1 = id }
  else .ok db

/-! ## Transactions -/

/-- `SAVEPOINT`, `RELEASE` when the body returns, `ROLLBACK TO` when it fails. `write_tx` does the
same with a transaction. -/
def inSavepoint {α : Type} (x : Sql K α) : Sql K α := Prog.savepoint (fun db _ => db) x

/-- Run with the policy triggers off. The flag is off again afterwards, whatever it was. -/
def withBypass {α : Type} (x : Sql K α) : Sql K α := fun db =>
  match x { db with bypass := true } with
  | .ok a db' => .ok a { db' with bypass := false }
  | .error e db' => .error e { db' with bypass := false }

/-- A database fresh from `init_vm_db`: the root directory and nothing else. -/
def initDb (now : ℤ) : Db K :=
  let db : Db K :=
    { fs := Table.empty, chunks := Table.empty, blobs := Table.empty, dirty := []
      dicts := Table.empty, snapshots := Table.empty, snapFs := Table.empty
      snapChunks := Table.empty, undo := Table.empty, undoFs := Table.empty
      undoChunks := Table.empty, counters := ⟨0, 0, 0, 0, 0⟩, policies := [], bypass := false }
  db.addFs root
    { kind := .dir, mode := 493, mtime := now, mtimeNs := 0, size := 0, linkTarget := none
      hash := .null, content := none, compressed := 0 }

/-! ## What a statement that returned has done -/

section Inversion

variable {db db' : Db K} {u : Unit}

omit [DecidableEq K] in
/-- A statement returns iff its effect is defined. -/
theorem statement_eq_ok {f : Db K → Except Err (Db K)} :
    statement f db = .ok u db' ↔ f db = .ok db' := by
  unfold statement
  rcases f db with e | d <;> simp

omit [DecidableEq K] in
/-- An insert that may be ignored added the row or left everything as it was. -/
theorem insertFsIgnore_ok {p : Str} {row : FsRow K} (h : insertFsIgnore p row db = .ok u db') :
    (db.fs.get? p ≠ none ∧ db' = db) ∨ (db.fs.get? p = none ∧ db' = db.addFs p row) := by
  rw [insertFsIgnore, statement_eq_ok] at h
  split_ifs at h with h1 h2
  · cases h
    exact Or.inl ⟨by simpa [Option.ne_none_iff_exists'] using h2, rfl⟩
  · cases h
    exact Or.inr ⟨Table.get?_of_not_has h2, rfl⟩

omit [DecidableEq K] in
/-- An insert of a row that succeeds found the path free. -/
theorem insertFs?_ok {r : Str × FsRow K} (h : db.insertFs? r = .ok db') :
    db.fs.get? r.1 = none ∧ db' = db.addFs r.1 r.2 := by
  rw [Db.insertFs?] at h
  split_ifs at h with h1 h2
  cases h
  exact ⟨Table.get?_of_not_has h2, rfl⟩

omit [DecidableEq K] in
/-- An insert of a row as a statement found the path free. -/
theorem insertFs_ok {p : Str} {row : FsRow K} (h : insertFs p row db = .ok u db') :
    db.fs.get? p = none ∧ db' = db.addFs p row := by
  rw [insertFs, statement_eq_ok] at h
  exact insertFs?_ok h

omit [DecidableEq K] in
/-- An upsert updates the row that is there, or adds the new one. -/
theorem upsertFs_ok {p : Str} {row : FsRow K} {upd : FsRow K → FsRow K}
    (h : upsertFs p row upd db = .ok u db') :
    (∃ old, db.fs.get? p = some old ∧ db' = db.setFs p upd) ∨
      (db.fs.get? p = none ∧ db' = db.addFs p row) := by
  rw [upsertFs, statement_eq_ok] at h
  split_ifs at h with h1 h2
  · cases h
    obtain ⟨old, hold⟩ := Table.has_eq_true.1 h2
    exact Or.inl ⟨old, hold, rfl⟩
  · cases h
    exact Or.inr ⟨Table.get?_of_not_has h2, rfl⟩

omit [DecidableEq K] in
/-- An update changes the row that is there, or nothing. -/
theorem updateFs_ok {p : Str} {f : FsRow K → FsRow K} (h : updateFs p f db = .ok u db') :
    (db.fs.get? p = none ∧ db' = db) ∨ (∃ row, db.fs.get? p = some row ∧ db' = db.setFs p f) := by
  rw [updateFs, statement_eq_ok] at h
  rcases hp : db.fs.get? p with _ | row
  · rw [hp] at h
    cases h
    exact Or.inl ⟨rfl, rfl⟩
  · rw [hp] at h
    dsimp only at h
    split_ifs at h
    cases h
    exact Or.inr ⟨row, rfl, rfl⟩

/-- A delete takes out the rows it selects. -/
theorem deleteFs_ok {sel : Str → Bool} (h : deleteFs sel db = .ok u db') : db' = db.delFs sel := by
  rw [deleteFs, statement_eq_ok] at h
  split_ifs at h
  cases h
  rfl

/-- An insert of a chunk row that succeeds found its number free. -/
theorem insertChunk?_ok {r : (Str × ℕ) × K} (h : db.insertChunk? r = .ok db') :
    db.chunks.get? r.1 = none ∧ db' = db.addChunk r.1.1 r.1.2 r.2 := by
  rw [Db.insertChunk?] at h
  split_ifs at h with h1 h2
  cases h
  exact ⟨Table.get?_of_not_has h2, rfl⟩

/-- An insert of a chunk row as a statement found its number free. -/
theorem insertChunk_ok {p : Str} {idx : ℕ} {k : K} (h : insertChunk p idx k db = .ok u db') :
    db.chunks.get? (p, idx) = none ∧ db' = db.addChunk p idx k := by
  rw [insertChunk, statement_eq_ok] at h
  exact insertChunk?_ok h

/-- A delete takes out the chunk rows it selects. -/
theorem deleteChunks_ok {sel : Str → ℕ → Bool} (h : deleteChunks sel db = .ok u db') :
    db' = db.delChunks sel := by
  rw [deleteChunks, statement_eq_ok] at h
  split_ifs at h
  cases h
  rfl

/-- An insert of a blob that succeeds found its key free. -/
theorem insertBlob_ok {k : K} {b : Block} (h : insertBlob k b db = .ok u db') :
    db.blobs.get? k = none ∧ db' = db.addBlob k b := by
  rw [insertBlob, statement_eq_ok] at h
  split_ifs at h with h1
  cases h
  exact ⟨Table.get?_of_not_has h1, rfl⟩

omit [DecidableEq K] in
/-- A mark is inserted and nothing else changes. -/
theorem insertDirty_ok {p : Str} (h : insertDirty p db = .ok u db') :
    db' = { db with dirty := if p ∈ db.dirty then db.dirty else db.dirty ++ [p] } := by
  rw [insertDirty, statement_eq_ok] at h
  split_ifs at h
  · cases h
    simp_all
  · cases h
    simp_all

omit [DecidableEq K] in
/-- A savepoint that fails changes nothing. -/
theorem inSavepoint_error {α : Type} {x : Sql K α} {e : Err}
    (h : inSavepoint x db = .error e db') : db' = db := by
  unfold inSavepoint Prog.savepoint at h
  rcases hx : x db with ⟨a, d⟩ | ⟨e', d⟩
  · rw [hx] at h
    cases h
  · rw [hx] at h
    cases h
    rfl

omit [DecidableEq K] in
/-- A statement that fails changes nothing. -/
theorem statement_error {f : Db K → Except Err (Db K)} {e : Err}
    (h : statement f db = .error e db') : db' = db := by
  unfold statement at h
  rcases hx : f db with e' | d
  · rw [hx] at h
    cases h
    rfl
  · rw [hx] at h
    cases h

end Inversion

/-! ## New ids -/

/-- A new id is larger than all others. -/
theorem lt_nextId {ρ : Type} {t : Table ℕ ρ} {i : ℕ} (h : t.has i = true) : i < nextId t := by
  have hmax : ∀ (l : List ℕ) (a : ℕ), a ≤ l.foldl max a ∧ ∀ i ∈ l, i ≤ l.foldl max a := by
    intro l
    induction l with
    | nil => exact fun a => ⟨le_refl a, by simp⟩
    | cons b l ih =>
      intro a
      obtain ⟨hle, hall⟩ := ih (max a b)
      rw [List.foldl_cons]
      refine ⟨le_trans (le_max_left a b) hle, fun i hi => ?_⟩
      rcases List.mem_cons.1 hi with rfl | hi
      · exact le_trans (le_max_right a i) hle
      · exact hall i hi
  obtain ⟨r, hr⟩ := Table.has_eq_true.1 h
  have := (hmax (t.rows.map Prod.fst) 0).2 i (Table.mem_keys_iff.2 ⟨r, hr⟩)
  unfold nextId
  omega

/-- The next number is free. -/
theorem get?_nextId {ρ : Type} (t : Table ℕ ρ) : t.get? (nextId t) = none := by
  rw [← Table.has_eq_false]
  by_contra h
  exact absurd (lt_nextId (Bool.of_not_eq_false h)) (lt_irrefl _)

/-! ## Statements that no policy refuses -/

section Unpoliced

/-- No policy is in force: there is no rule, or the connection's bypass is on. -/
def Db.Unpoliced (db : Db K) : Prop := db.bypass = true ∨ db.policies = []

variable {db db' : Db K}

omit [DecidableEq K] in
/-- Only policies and the bypass decide whether a trigger may refuse. -/
theorem Db.Unpoliced.of_eq (h : db.Unpoliced) (hp : db'.policies = db.policies)
    (hb : db'.bypass = db.bypass) : db'.Unpoliced := by
  unfold Db.Unpoliced
  rw [hp, hb]
  exact h

omit [DecidableEq K] in
/-- Without policies in force no row is refused. -/
theorem Db.Unpoliced.refusesFs (h : db.Unpoliced) (p : Str) (m : FsMeta K) :
    db.refusesFs p m = false := by
  rcases h with h | h <;> simp [Db.refusesFs, h, Rule.protects]

omit [DecidableEq K] in
/-- Without policies in force no path is refused. -/
theorem Db.Unpoliced.refusesPath (h : db.Unpoliced) (p : Str) : db.refusesPath p = false := by
  rcases h with h | h <;> simp [Db.refusesPath, h, Rule.protects]

omit [DecidableEq K] in
/-- A statement whose effect is defined returns it. -/
theorem statement_of_ok {f : Db K → Except Err (Db K)} (h : f db = .ok db') :
    statement f db = .ok () db' := statement_eq_ok.2 h

omit [DecidableEq K] in
/-- Without policies in force an insert at a free path succeeds. -/
theorem insertFs_of_unpoliced (h : db.Unpoliced) {p : Str} (row : FsRow K)
    (hp : db.fs.get? p = none) : insertFs p row db = .ok () (db.addFs p row) := by
  refine statement_of_ok ?_
  rw [Db.insertFs?, h.refusesFs, if_neg (by simp), Table.has_eq_false.2 hp, if_neg (by simp)]

omit [DecidableEq K] in
/-- Without policies in force an upsert succeeds. -/
theorem upsertFs_of_unpoliced (h : db.Unpoliced) (p : Str) (row : FsRow K)
    (upd : FsRow K → FsRow K) : upsertFs p row upd db =
      .ok () (if db.fs.has p then db.setFs p upd else db.addFs p row) := by
  refine statement_of_ok ?_
  rw [h.refusesFs, if_neg (by simp)]
  split_ifs <;> rfl

omit [DecidableEq K] in
/-- Without policies in force an update succeeds. -/
theorem updateFs_of_unpoliced (h : db.Unpoliced) {p : Str} {row : FsRow K} (f : FsRow K → FsRow K)
    (hp : db.fs.get? p = some row) : updateFs p f db = .ok () (db.setFs p f) := by
  refine statement_of_ok ?_
  rw [hp]
  dsimp only
  rw [h.refusesFs, h.refusesPath, if_neg (by simp)]

/-- Without policies in force a delete succeeds. -/
theorem deleteFs_of_unpoliced (h : db.Unpoliced) (sel : Str → Bool) :
    deleteFs sel db = .ok () (db.delFs sel) := by
  refine statement_of_ok (if_neg ?_)
  simp [h.refusesPath]

/-- Without policies in force a delete of chunk rows succeeds. -/
theorem deleteChunks_of_unpoliced (h : db.Unpoliced) (sel : Str → ℕ → Bool) :
    deleteChunks sel db = .ok () (db.delChunks sel) := by
  refine statement_of_ok (if_neg ?_)
  simp [h.refusesPath]

/-- Without policies in force an insert of a chunk row at a free number succeeds. -/
theorem insertChunk_of_unpoliced (h : db.Unpoliced) {p : Str} {i : ℕ} (k : K)
    (hfree : db.chunks.get? (p, i) = none) : insertChunk p i k db = .ok () (db.addChunk p i k) := by
  refine statement_of_ok ?_
  rw [Db.insertChunk?, h.refusesPath, if_neg (by simp), Table.has_eq_false.2 hfree,
    if_neg (by simp)]

omit [DecidableEq K] in
/-- A path with a row may be marked. -/
theorem insertDirty_of_has {p : Str} (h : db.fs.has p = true) : insertDirty p db =
    .ok () { db with dirty := if p ∈ db.dirty then db.dirty else db.dirty ++ [p] } :=
  statement_of_ok (if_pos h)

end Unpoliced

end Dbvm
