import Dbvm.Content
import Dbvm.Lib.Lru

/-!
# The dictionary cache of a process

The rest of the development reads dictionaries from the database that holds the block. The code
reads them through a cache of the process (`dict_cache` of `src/vm/codec.rs`), whose key is the path
of the database file and the id of the dictionary. Here is that cache, beside the files that the
process opens, replaces and copies (`init_vm_db`, `vm_snapshot_file`, `vm_restore_file`). With
lookups that find no dictionary of another file, the programs that use the cache do what the
programs without it do (`decodeBlockIn_of_clean`, `blobEnsureIn_of_clean`).
-/

namespace Dbvm.DictCache

open Lib Lib.Prog

variable {K : Type} [DecidableEq K] {E : Ext K}

/-! ## The process -/

/-- A file of the file system: the database in it, and how often it was replaced. No program reads
the number. -/
structure DbFile (K : Type) where
  /-- The number of replacements. -/
  version : ℕ
  /-- The database. -/
  db : Db K

/-- A schema of an open connection: the path under which it was opened, and the file it is. -/
structure Handle where
  /-- `file` of `pragma_database_list`. -/
  path : Str
  /-- The file. It stays the same when the path names another file. -/
  file : ℕ
deriving DecidableEq

/-- A cached dictionary, and where it was loaded from. No program reads the latter. -/
structure Loaded where
  /-- The dictionary. -/
  dict : Bytes
  /-- The file. -/
  file : ℕ
  /-- The version of the file. -/
  version : ℕ
deriving DecidableEq

/-- A process and its files. -/
structure Process (K : Type) where
  /-- The files, by number. -/
  files : ℕ → DbFile K
  /-- The number of the next file. -/
  count : ℕ
  /-- The directory: the file of each path. -/
  names : Table Str ℕ
  /-- The open connections. -/
  handles : List Handle
  /-- `dict_cache`. -/
  cache : Lru (Str × ℕ) Loaded

/-- Why an operation of a process fails. -/
inductive ProcErr where
  /-- "exists: … (use --force)". -/
  | exists (p : Str)
  /-- "not a VM database". -/
  | notDb (p : Str)
  /-- "snapshot not found". -/
  | noSnapshot (p : Str)
  /-- "snapshot copy failed". -/
  | noFile (p : Str)
  /-- No such block. -/
  | noBlock
  /-- The codec failed. -/
  | codec (e : CodecErr)
  /-- A statement failed. -/
  | db (e : Err)
deriving DecidableEq

/-- A program of a process. -/
abbrev Proc (K α : Type) := EStateM ProcErr (Process K) α

/-- The database of a connection. -/
def Process.dbOf (s : Process K) (h : Handle) : Db K := (s.files h.file).db

/-- A statement changes the database of a file. -/
def Process.setDb (s : Process K) (n : ℕ) (db : Db K) : Process K :=
  { s with files := Function.update s.files n ⟨(s.files n).version, db⟩ }

/-- A copy replaces what a file holds. -/
def Process.replace (s : Process K) (n : ℕ) (db : Db K) : Process K :=
  { s with files := Function.update s.files n ⟨(s.files n).version + 1, db⟩ }

/-- A new file at a path. -/
def Process.create (s : Process K) (p : Str) (db : Db K) : Process K :=
  { s.replace s.count db with
    count := s.count + 1, names := (s.names.deleteWhere fun q _ => q = p).insertIgnore p s.count }

/-- A connection is opened. -/
def Process.connect (s : Process K) (h : Handle) : Process K :=
  { s with handles := s.handles ++ [h] }

/-- Run statements through a connection. -/
def onDb (h : Handle) (x : Sql K α) : Proc K α := fun s =>
  match x (s.dbOf h) with
  | .ok a db => .ok a (s.setDb h.file db)
  | .error e db => .error (.db e) (s.setDb h.file db)

/-! ## Files -/

/-- `init_vm_db`. -/
def initVmDb (p : Str) (overwrite : Bool) (now : ℤ) : Proc K Unit := fun s =>
  if s.names.has p = true ∧ overwrite = false then .error (.exists p) s
  else .ok () ((s.create p (initDb now)).connect ⟨p, s.count⟩)

/-- `vm_open`. -/
def openDb (p : Str) : Proc K Unit := fun s =>
  match s.names.get? p with
  | some n => .ok () (s.connect ⟨p, n⟩)
  | none => .error (.notDb p) s

/-- The path of a file snapshot. -/
def snapPath (dbPath name : Str) : Str := dbPath ++ ".snap.".toList ++ name

/-- `vm_snapshot_file`: `VACUUM INTO` a new file, and a copy of the file at the path when there is
one already. -/
def vmSnapshotFile (h : Handle) (dbPath name : Str) : Proc K Unit := fun s =>
  match s.names.get? (snapPath dbPath name) with
  | none => .ok () (s.create (snapPath dbPath name) (s.dbOf h))
  | some n =>
    match s.names.get? dbPath with
    | some m => .ok () (s.replace n (s.files m).db)
    | none => .error (.noFile dbPath) s

/-- `vm_restore_file`: the copy goes into the file that is at the path. -/
def vmRestoreFile (dbPath name : Str) : Proc K Unit := fun s =>
  match s.names.get? (snapPath dbPath name) with
  | none => .error (.noSnapshot (snapPath dbPath name)) s
  | some m =>
    match s.names.get? dbPath with
    | some n => .ok () (s.replace n (s.files m).db)
    | none => .ok () (s.create dbPath (s.files m).db)

/-! ## Dictionaries and blocks -/

/-- `dict_by_id_in`: the cached dictionary of the path and the id, and otherwise the row. The cache
has room for 16. -/
def dictByIdIn (h : Handle) (id : ℕ) : Proc K Bytes := fun s =>
  match s.cache.find? (h.path, id) with
  | some e => .ok e.dict { s with cache := s.cache.promote (h.path, id) }
  | none =>
    match (s.dbOf h).dicts.get? id with
    | some d =>
        .ok d { s with cache := s.cache.put 16 (h.path, id) ⟨d, h.file, (s.files h.file).version⟩ }
    | none => .error (.codec (.missingDict id)) s

/-- A result of the codec. -/
def ofCodec (r : Except CodecErr α) : Proc K α := Prog.query fun _ => r.mapError .codec

/-- `decode_block_in`. -/
def decodeBlockIn (E : Ext K) (h : Handle) (b : Enc) : Proc K Bytes :=
  if b.flag = 3 then do
    let d ← dictByIdIn h b.dictId
    ofCodec (decompressBytesZstdWithDict E b.body d)
  else ofCodec (decompressBytesRaw E b.body b.flag)

/-- `latest_dict`. -/
def latestDictIn (h : Handle) : Proc K (Option (ℕ × Bytes)) := do
  let latest ← Prog.reads fun s => latestDict (s.dbOf h).dicts
  match latest with
  | none => return none
  | some (id, _) =>
    let d ← attempt (dictByIdIn h id)
    return d.toOption.map fun d => (id, d)

/-- `blob_ensure_with`. -/
def blobEnsureIn (E : Ext K) (h : Handle) (data : Bytes) (effort : Effort) : Proc K ℕ := do
  let found ← Prog.reads fun s => (s.dbOf h).blobs.get? (E.blobKey data)
  match found with
  | some c => return c.val.flag
  | none =>
    let dict ← latestDictIn h
    let enc := (compressWithEffort E data dict effort).getD ⟨data, 0, 0⟩
    onDb h (insertBlob (E.blobKey data) ⟨enc, data.length⟩)
    return enc.flag

/-- A stored block is read and decoded. -/
def readBlockIn (E : Ext K) (h : Handle) (k : K) : Proc K Bytes := do
  let found ← Prog.reads fun s => (s.dbOf h).blobs.get? k
  match found with
  | some c => decodeBlockIn E h c.val.toEnc
  | none => throw .noBlock

/-- The samples of a training: blocks that cannot be decoded and those of another size are left out.
-/
def sampleBlocks (E : Ext K) (h : Handle) : List K → List Bytes → ℕ → Proc K (List Bytes)
  | [], samples, _ => pure samples
  | k :: ks, samples, total => do
    let raw ← attempt (readBlockIn E h k)
    match raw with
    | .error _ => sampleBlocks E h ks samples total
    | .ok raw =>
      if 256 ≤ raw.length ∧ raw.length < 16384 then
        if 120 ≤ samples.length + 1 ∨ 500000 < total + raw.length then return samples ++ [raw]
        else sampleBlocks E h ks (samples ++ [raw]) (total + raw.length)
      else sampleBlocks E h ks samples total

/-- `vm_train_dict`: `keys` are the blocks the clock chooses, `train` is `zstd::dict::from_samples`.
-/
def vmTrainDict (E : Ext K) (train : List Bytes → ℕ → Option Bytes) (h : Handle) (keys : List K)
    (maxDictSize : ℕ) :
    Proc K (Option Bytes) := do
  let chosen ← Prog.reads fun s => (keys.filter fun k =>
    ((s.dbOf h).blobs.get? k).any fun c => 256 ≤ c.val.rawSize && c.val.rawSize ≤ 16383).take 150
  let samples ← sampleBlocks E h chosen [] 0
  if samples.length < 10 then return none
  else
    match train samples (max (4 * 1024) (min maxDictSize (112 * 1024))) with
    | none => return none
    | some d =>
      if 512 ≤ d.length then do
        let _ ← onDb h (vmSetDict d)
        return some d
      else return none

/-! ## Runs -/

/-- A statement that changes no dictionary and no block that it leaves. -/
structure Thins (db db' : Db K) : Prop where
  /-- The dictionaries. -/
  dicts : db'.dicts = db.dicts
  /-- The blocks. -/
  blobs : ∀ k c', db'.blobs.get? k = some c' → ∃ c, db.blobs.get? k = some c ∧ c'.val = c.val

/-- An operation of a process. A training is a sequence of reads and then `setDict`
(`vmTrainDict_steps`), and so are the other operations that read and write several blocks. -/
inductive ProcOp (K : Type) [DecidableEq K] where
  /-- `init_vm_db`. -/
  | init (p : Str) (overwrite : Bool) (now : ℤ)
  /-- `vm_open`. -/
  | openDb (p : Str)
  /-- `vm_snapshot_file`. -/
  | snapshotFile (h : Handle) (dbPath name : Str)
  /-- `vm_restore_file`. -/
  | restoreFile (dbPath name : Str)
  /-- `vm_set_dict`. -/
  | setDict (h : Handle) (dict : Bytes)
  /-- A block is written. -/
  | write (h : Handle) (data : Bytes) (effort : Effort)
  /-- A block is read. -/
  | read (h : Handle) (k : K)
  /-- Any other statement. -/
  | other (h : Handle) (f : Db K → Db K) (hf : ∀ db, Thins db (f db))

/-- Run an operation. -/
def ProcOp.run (E : Ext K) : ProcOp K → Proc K Unit
  | .init p overwrite now => initVmDb p overwrite now
  | .openDb p => DictCache.openDb p
  | .snapshotFile h dbPath name => vmSnapshotFile h dbPath name
  | .restoreFile dbPath name => vmRestoreFile dbPath name
  | .setDict h dict => do
    let _ ← onDb h (vmSetDict dict)
  | .write h data effort => do
    let _ ← blobEnsureIn E h data effort
  | .read h k => do
    let _ ← readBlockIn E h k
  | .other h f _ => onDb h (modify f)

/-- The connection of an operation. -/
def ProcOp.handle : ProcOp K → Option Handle
  | .init .. => none
  | .openDb _ => none
  | .snapshotFile h _ _ => some h
  | .restoreFile .. => none
  | .setDict h _ => some h
  | .write h _ _ => some h
  | .read h _ => some h
  | .other h _ _ => some h

/-- The dictionary that an operation looks up: the latest for a block that is new, the one of its
row for a block that is read. -/
def ProcOp.lookup (E : Ext K) (s : Process K) : ProcOp K → Option (Handle × ℕ)
  | .write h data _ =>
    if (s.dbOf h).blobs.has (E.blobKey data) then none
    else (latestDict (s.dbOf h).dicts).map fun d => (h, d.1)
  | .read h k => do
    let c ← (s.dbOf h).blobs.get? k
    if c.val.flag = 3 then some (h, c.val.dictId) else none
  | _ => none

/-- A lookup through the cache finds no dictionary that is not the file's: what is cached was loaded
from the file as it is now, or it is the same. -/
def Process.Clean (s : Process K) (h : Handle) (id : ℕ) : Prop :=
  ∀ e, s.cache.find? (h.path, id) = some e →
    (e.file = h.file ∧ e.version = (s.files h.file).version) ∨
    (s.dbOf h).dicts.get? id = some e.dict

/-- What is written can be read without a dictionary if no compression shortens it. -/
def ProcOp.Legible (E : Ext K) (s : Process K) : ProcOp K → Prop
  | .write h data effort => Incompressible E data (latestDict (s.dbOf h).dicts) effort →
      ¬ Misread E data
  | _ => True

/-- An operation that finds no dictionary of another file. -/
structure ProcOp.Clean (E : Ext K) (s : Process K) (op : ProcOp K) : Prop where
  /-- The lookup. -/
  lookup : ∀ h id, op.lookup E s = some (h, id) → s.Clean h id
  /-- The data. -/
  legible : op.Legible E s

/-- An operation that puts another database at a path, or into a file. -/
def ProcOp.Replaces (s : Process K) : ProcOp K → Prop
  | .init p overwrite _ => s.names.has p = true ∧ overwrite = true
  | .snapshotFile _ dbPath name => s.names.has (snapPath dbPath name) = true
  | .restoreFile dbPath _ => s.names.has dbPath = true
  | _ => False

/-- The process when it starts: nothing is cached or open, and the databases that exist can be read.
-/
structure Process.Begins (E : Ext K) (s : Process K) : Prop where
  /-- The cache. -/
  cache : s.cache = Lru.empty
  /-- The connections. -/
  handles : s.handles = []
  /-- The files. -/
  faithful : ∀ n, (s.files n).db.Faithful E
  /-- The directory. -/
  names : ∀ p n, s.names.get? p = some n → n < s.count

/-- The states of a process whose operations meet a condition. -/
inductive Process.Runs (E : Ext K) (C : Process K → ProcOp K → Prop) : Process K → Prop where
  /-- The start. -/
  | start {s : Process K} (h : s.Begins E) : Process.Runs E C s
  /-- One more operation, through a connection that is open. -/
  | step {s : Process K} (hs : Process.Runs E C s) (op : ProcOp K)
      (hopen : ∀ h ∈ op.handle, h ∈ s.handles)
      (hop : C s op) : Process.Runs E C (endState (op.run E) s)

/-! ## One lookup -/

section Lookup

variable {s s' : Process K} {h : Handle} {id : ℕ}

/-- A dictionary that was loaded from a file is the file's, as long as the file is not replaced. -/
def Process.Fresh (s : Process K) (k : Str × ℕ) (e : Loaded) : Prop :=
  e.version ≤ (s.files e.file).version ∧
    (e.version = (s.files e.file).version → (s.files e.file).db.dicts.get? k.2 = some e.dict)

/-- What every run keeps when its lookups are clean. -/
structure Process.Inv (E : Ext K) (s : Process K) : Prop where
  /-- The cache. -/
  cached : s.cache.All s.Fresh
  /-- A fresh process can read every block of every file. -/
  faithful : ∀ n, (s.files n).db.Faithful E

/-- A process that begins has the invariant: nothing is cached. -/
theorem Process.Begins.inv (h : s.Begins E) : s.Inv E := by
  refine ⟨?_, h.faithful⟩
  rw [h.cache]
  exact Lru.All.empty

/-- What a clean lookup finds is the row. -/
theorem Process.Inv.found (hi : s.Inv E) (hc : s.Clean h id) {e : Loaded}
    (he : s.cache.find? (h.path, id) = some e) :
    (s.dbOf h).dicts.get? id = some e.dict := by
  rcases hc e he with ⟨hfile, hversion⟩ | hsame
  · have hrow := (hi.cached.find? he).2 (by rw [hfile, hversion])
    rw [hfile] at hrow
    exact hrow
  · exact hsame

/-- What is in a cache after lookups through a connection: what was there, and dictionaries of the
connection's file. -/
def Process.Loads (s : Process K) (h : Handle) (cache : Lru (Str × ℕ) Loaded) : Prop :=
  ∀ P : Str × ℕ → Loaded → Prop, s.cache.All P →
    (∀ id d, (s.dbOf h).dicts.get? id = some d →
      P (h.path, id) ⟨d, h.file, (s.files h.file).version⟩) → cache.All P

omit [DecidableEq K] in
/-- A cache that is not touched is one that a load may leave. -/
theorem Process.Loads.same (s : Process K) (h : Handle) : s.Loads h s.cache := fun _ hall _ => hall

/-- A load keeps the invariant. -/
theorem Process.Inv.loads (hi : s.Inv E) {cache : Lru (Str × ℕ) Loaded} (hl : s.Loads h cache) :
    ({ s with cache := cache }).Inv E :=
  ⟨hl _ hi.cached fun _ _ hd => ⟨le_refl _, fun _ => hd⟩, hi.faithful⟩

/-- A clean lookup gives the row, and changes nothing but the cache. -/
theorem dictByIdIn_of_clean (hi : s.Inv E) (hc : s.Clean h id) : ∃ cache, s.Loads h cache ∧
    dictByIdIn h id s = match (s.dbOf h).dicts.get? id with
      | some d => .ok d { s with cache := cache }
      | none => .error (.codec (.missingDict id)) { s with cache := cache } := by
  unfold dictByIdIn
  rcases he : s.cache.find? (h.path, id) with _ | e
  · rcases hd : (s.dbOf h).dicts.get? id with _ | d
    · exact ⟨s.cache, .same s h, rfl⟩
    · exact ⟨_, fun P hall hnew => hall.put (hnew id d hd), rfl⟩
  · rw [hi.found hc he]
    exact ⟨_, fun P hall _ => hall.promote _, rfl⟩

/-- Decoding through the cache gives what decoding with the file's dictionaries gives. -/
theorem decodeBlockIn_of_clean (hi : s.Inv E) {b : Enc} (hc : b.flag = 3 → s.Clean h b.dictId) :
    ∃ cache, s.Loads h cache ∧
      decodeBlockIn E h b s = match decodeBlock E (s.dbOf h).dicts b with
        | .ok data => .ok data { s with cache := cache }
        | .error e => .error (.codec e) { s with cache := cache } := by
  have hcodec : ∀ (r : Except CodecErr Bytes) (t : Process K), ofCodec r t = match r with
      | .ok data => .ok data t
      | .error e => .error (.codec e) t := by
    intro r t
    rcases r with e | data <;> rfl
  unfold decodeBlockIn decodeBlock
  by_cases hf : b.flag = 3
  · obtain ⟨cache, hload, hrun⟩ := dictByIdIn_of_clean hi (hc hf)
    rw [if_pos hf, if_pos hf]
    refine ⟨cache, hload, ?_⟩
    rcases hd : (s.dbOf h).dicts.get? b.dictId with _ | d
    · rw [hd] at hrun
      rw [bind_of_error hrun]
    · rw [hd] at hrun
      rw [bind_of_ok hrun, hcodec]
  · rw [if_neg hf, if_neg hf]
    exact ⟨s.cache, .same s h, hcodec _ s⟩

/-- When the lookup is clean, the latest dictionary is that of the file. -/
theorem latestDictIn_of_clean (hi : s.Inv E)
    (hc : ∀ d, latestDict (s.dbOf h).dicts = some d → s.Clean h d.1) :
    ∃ cache, s.Loads h cache ∧
      latestDictIn h s = .ok (latestDict (s.dbOf h).dicts) { s with cache := cache } := by
  unfold latestDictIn
  rw [reads_bind]
  rcases hl : latestDict (s.dbOf h).dicts with _ | ⟨id, d⟩
  · exact ⟨s.cache, .same s h, rfl⟩
  · obtain ⟨cache, hload, hrun⟩ := dictByIdIn_of_clean hi (hc (id, d) hl)
    rw [latestDict_get? hl] at hrun
    refine ⟨cache, hload, ?_⟩
    show (attempt (dictByIdIn h id) >>= _) s = _
    rw [bind_of_ok (attempt_of_ok hrun)]
    rfl

omit [DecidableEq K] in
/-- A program on the database of a handle returns what it returns there. -/
theorem onDb_of_ok {x : Sql K α} {a : α} {db : Db K} (hx : x (s.dbOf h) = .ok a db) :
    onDb h x s = .ok a (s.setDb h.file db) := by
  unfold onDb
  rw [hx]

omit [DecidableEq K] in
/-- A statement that leaves the database as it is. -/
theorem Process.setDb_dbOf (s : Process K) (h : Handle) : s.setDb h.file (s.dbOf h) = s := by
  have hfile : Function.update s.files h.file ⟨(s.files h.file).version, s.dbOf h⟩ = s.files :=
    Function.update_eq_self ..
  rw [Process.setDb, hfile]

/-- A block is written through the cache as it is without it. -/
theorem blobEnsureIn_of_clean (hi : s.Inv E) {data : Bytes} (effort : Effort)
    (hc : (s.dbOf h).blobs.get? (E.blobKey data) = none →
      ∀ d, latestDict (s.dbOf h).dicts = some d → s.Clean h d.1) :
    ∃ cache, s.Loads h cache ∧
      blobEnsureIn E h data effort s =
        onDb h (blobEnsureWith E (E.blobKey data) data effort) { s with cache := cache } := by
  unfold blobEnsureIn
  rw [reads_bind]
  -- A new blob is encoded with the latest dictionary, which may be loaded into the cache for it;
  -- a known one is only looked up.
  rcases hb : (s.dbOf h).blobs.get? (E.blobKey data) with _ | c
  · obtain ⟨cache, hload, hrun⟩ := latestDictIn_of_clean hi (hc hb)
    refine ⟨cache, hload, ?_⟩
    have hins : insertBlob (E.blobKey data) ⟨encodeBlock E (s.dbOf h).dicts data effort,
        data.length⟩ (s.dbOf h) =
        .ok ()
        ((s.dbOf h).addBlob (E.blobKey data) ⟨encodeBlock E (s.dbOf h).dicts data effort,
          data.length⟩) := by
      rw [insertBlob, statement_eq_ok, if_neg (by rw [Table.has_eq_false.2 hb]; simp)]
    have hput := onDb_of_ok (s := { s with cache := cache }) (h := h) hins
    have henc : blobEnsureWith E (E.blobKey data) data effort (s.dbOf h) = _ :=
      blobEnsureWith_new hb
    have hnew := onDb_of_ok (s := { s with cache := cache }) (h := h) henc
    rw [hnew]
    show (latestDictIn h >>= _) s = _
    rw [bind_of_ok hrun]
    show (onDb h (insertBlob (E.blobKey data) ⟨encodeBlock E (s.dbOf h).dicts data effort,
      data.length⟩) >>= _) _ = _
    rw [bind_of_ok hput]
    rfl
  · refine ⟨s.cache, .same s h, ?_⟩
    have hflag : blobEnsureWith E (E.blobKey data) data effort (s.dbOf h) = .ok c.val.flag
      (s.dbOf h) :=
      blobEnsureWith_found hb
    have hfound := onDb_of_ok hflag
    rw [Process.setDb_dbOf] at hfound
    exact hfound.symm

omit [DecidableEq K] in
/-- A new state of one file leaves the others. -/
theorem Process.files_setDb (s : Process K) (n m : ℕ) (db : Db K) :
    (s.setDb n db).files m = if m = n then ⟨(s.files n).version, db⟩ else s.files m :=
  Function.update_apply ..

omit [DecidableEq K] in
/-- A replaced file has the next version; the others stay. -/
theorem Process.files_replace (s : Process K) (n m : ℕ) (db : Db K) :
    (s.replace n db).files m = if m = n then ⟨(s.files n).version + 1, db⟩ else s.files m :=
  Function.update_apply ..

/-- A database in a file that a statement changes. -/
theorem Process.Inv.setDb (hi : s.Inv E) {n : ℕ} {db : Db K}
    (hdicts : ∀ id d, (s.files n).db.dicts.get? id = some d → db.dicts.get? id = some d)
    (hdb : db.Faithful E) :
    (s.setDb n db).Inv E := by
  refine ⟨hi.cached.mono fun k e he => ?_, fun m => ?_⟩
  · rw [Process.Fresh, Process.files_setDb]
    by_cases hn : e.file = n
    · rw [Process.Fresh, hn] at he
      rw [if_pos hn]
      exact ⟨he.1, fun hv => hdicts _ _ (he.2 hv)⟩
    · rw [if_neg hn]
      exact he
  · rw [Process.files_setDb]
    split_ifs
    · exact hdb
    · exact hi.faithful m

/-- A file that is replaced: what was loaded from it before is of an older version. -/
theorem Process.Inv.replace (hi : s.Inv E) {n : ℕ} {db : Db K} (hdb : db.Faithful E) :
    (s.replace n db).Inv E := by
  refine ⟨hi.cached.mono fun k e he => ?_, fun m => ?_⟩
  · rw [Process.Fresh, Process.files_replace]
    by_cases hn : e.file = n
    · rw [Process.Fresh, hn] at he
      rw [if_pos hn]
      have hlt : e.version < (s.files n).version + 1 := Nat.lt_succ_of_le he.1
      exact ⟨hlt.le, fun hv => absurd hv hlt.ne⟩
    · rw [if_neg hn]
      exact he
  · rw [Process.files_replace]
    split_ifs
    · exact hdb
    · exact hi.faithful m

/-- A new file keeps the invariant. -/
theorem Process.Inv.create (hi : s.Inv E) (p : Str) {db : Db K} (hdb : db.Faithful E) :
    (s.create p db).Inv E :=
  ⟨(hi.replace hdb).cached, (hi.replace hdb).faithful⟩

end Lookup

/-! ## One operation -/

section Step

variable {s : Process K} {h : Handle}

/-- A database without blobs has none that decodes wrongly. -/
theorem faithful_initDb (now : ℤ) : (initDb now : Db K).Faithful E := (sound_initDb E now).faithful

/-- More dictionaries leave every block as it decodes. -/
theorem faithful_of_dicts {db db' : Db K} (h : db.Faithful E) (hblobs : db'.blobs = db.blobs)
    (hdicts : ∀ id d, db.dicts.get? id = some d → db'.dicts.get? id = some d) : db'.Faithful E := by
  intro k c hc
  obtain ⟨piece, c', hc', hdec, hkey⟩ := h k c (hblobs ▸ hc)
  refine ⟨piece, c', hblobs ▸ hc', ?_, hkey⟩
  unfold decodeBlock at hdec ⊢
  split_ifs at hdec ⊢
  · rcases hd : db.dicts.get? c'.val.dictId with _ | d
    · rw [hd] at hdec
      cases hdec
    · rw [hd] at hdec
      rw [hdicts _ _ hd]
      exact hdec
  · exact hdec

omit [DecidableEq K] in
/-- Ignoring the value of a program does not change where it ends. -/
theorem endState_ignore {α : Type} (x : Proc K α) (s : Process K) :
    endState (x >>= fun _ => pure ()) s = endState x s := by
  unfold endState
  rcases hrun : x s with ⟨a, s'⟩ | ⟨e, s'⟩
  · rw [bind_of_ok hrun]
    rfl
  · rw [bind_of_error hrun]

/-- All that a clean operation can do. -/
inductive ProcOp.Effect (E : Ext K) (s : Process K) (op : ProcOp K) : Process K → Prop where
  /-- Nothing. -/
  | none : ProcOp.Effect E s op s
  /-- Lookups, and a change of the connection's database that keeps its dictionaries. -/
  | edit {h : Handle} {cache : Lru (Str × ℕ) Loaded} {db : Db K} (hh : h ∈ op.handle)
      (hload : s.Loads h cache)
      (hdicts : ∀ id d, (s.dbOf h).dicts.get? id = some d → db.dicts.get? id = some d)
        (hdb : db.Faithful E) :
      ProcOp.Effect E s op (({ s with cache := cache } : Process K).setDb h.file db)
  /-- A file is replaced. -/
  | replace {n : ℕ} {db : Db K} (hr : op.Replaces s) (hdb : db.Faithful E) :
      ProcOp.Effect E s op (s.replace n db)
  /-- A new file. -/
  | create {p : Str} {db : Db K} (hr : s.names.get? p ≠ none → op.Replaces s)
      (hdb : db.Faithful E) :
      ProcOp.Effect E s op (s.create p db)
  /-- A new file, and a connection to it. -/
  | init {p : Str} {db : Db K} (hr : s.names.get? p ≠ none → op.Replaces s) (hdb : db.Faithful E) :
      ProcOp.Effect E s op ((s.create p db).connect ⟨p, s.count⟩)
  /-- A connection is opened. -/
  | openDb {p : Str} {n : ℕ} (hp : s.names.get? p = some n) :
      ProcOp.Effect E s op (s.connect ⟨p, n⟩)

/-- An operation that only looks dictionaries up leaves every file as it is. -/
theorem ProcOp.Effect.load {op : ProcOp K} {cache : Lru (Str × ℕ) Loaded} (hh : h ∈ op.handle)
    (hi : s.Inv E) (hload : s.Loads h cache) : op.Effect E s { s with cache := cache } := by
  have hsame : ({ s with cache := cache } : Process K).setDb h.file (s.dbOf h) =
    { s with cache := cache } :=
    Process.setDb_dbOf { s with cache := cache } h
  have heff : op.Effect E s (({ s with cache := cache } : Process K).setDb h.file (s.dbOf h)) :=
    .edit hh hload (fun _ _ hd => hd) (hi.faithful h.file)
  rw [hsame] at heff
  exact heff

/-- An operation whose lookups are clean has its effect on the contents of the files. -/
theorem ProcOp.Clean.effect (hE : E.Lawful) {op : ProcOp K} (hop : op.Clean E s) (hi : s.Inv E) :
    op.Effect E s (endState (op.run E) s) := by
  have hhas : ∀ {p : Str}, s.names.get? p ≠ none → s.names.has p = true := by
    intro p hp
    exact Table.has_eq_true.2 (Option.ne_none_iff_exists'.1 hp)
  cases op with
  | init p overwrite now =>
    show ProcOp.Effect E s _ (endState (initVmDb p overwrite now) s)
    unfold endState initVmDb
    split_ifs with hrefuse
    · exact .none
    · refine .init (fun hp => ⟨hhas hp, ?_⟩) (faithful_initDb now)
      by_contra hover
      exact hrefuse ⟨hhas hp, Bool.eq_false_of_not_eq_true hover⟩
  | openDb p =>
    show ProcOp.Effect E s _ (endState (DictCache.openDb p) s)
    unfold endState DictCache.openDb
    rcases hp : s.names.get? p with _ | n
    · exact .none
    · exact .openDb hp
  | snapshotFile h dbPath name =>
    show ProcOp.Effect E s _ (endState (vmSnapshotFile h dbPath name) s)
    unfold endState vmSnapshotFile
    rcases hp : s.names.get? (snapPath dbPath name) with _ | n
    · exact .create (fun hne => absurd hp hne) (hi.faithful h.file)
    · have hr : (ProcOp.snapshotFile h dbPath name).Replaces s := Table.has_eq_true.2 ⟨n, hp⟩
      rcases s.names.get? dbPath with _ | m
      · exact .none
      · exact .replace hr (hi.faithful m)
  | restoreFile dbPath name =>
    show ProcOp.Effect E s _ (endState (vmRestoreFile dbPath name) s)
    unfold endState vmRestoreFile
    rcases s.names.get? (snapPath dbPath name) with _ | m
    · exact .none
    · rcases hp : s.names.get? dbPath with _ | n
      · exact .create (fun hne => absurd hp hne) (hi.faithful m)
      · have hr : (ProcOp.restoreFile (K := K) dbPath name).Replaces s :=
          Table.has_eq_true.2 ⟨n, hp⟩
        exact .replace hr (hi.faithful m)
  | setDict h dict =>
    have hset : vmSetDict dict (s.dbOf h) = .ok (nextId (s.dbOf h).dicts)
        { s.dbOf h with dicts := (s.dbOf h).dicts.insertIgnore (nextId (s.dbOf h).dicts) dict } :=
          rfl
    -- The new row has an id of its own.
    have hdicts : ∀ id d, (s.dbOf h).dicts.get? id = some d →
        ((s.dbOf h).dicts.insertIgnore (nextId (s.dbOf h).dicts) dict).get? id = some d := by
      intro id d hd
      have hne : id ≠ nextId (s.dbOf h).dicts := by
        rintro rfl
        rw [get?_nextId] at hd
        cases hd
      rw [Table.get?_insertIgnore, if_neg hne, hd]
    show ProcOp.Effect E s _ (endState (onDb h (vmSetDict dict) >>= fun _ => pure ()) s)
    rw [endState_ignore, endState_of_ok (onDb_of_ok hset)]
    exact .edit rfl (.same s h) hdicts (faithful_of_dicts (hi.faithful h.file) rfl hdicts)
  | write h data effort =>
    have hlatest : (s.dbOf h).blobs.get? (E.blobKey data) = none →
        ∀ d, latestDict (s.dbOf h).dicts = some d → s.Clean h d.1 := by
      intro hb d hd
      refine hop.lookup h d.1 ?_
      rw [ProcOp.lookup, Table.has_eq_false.2 hb, if_neg (by simp), hd]
      rfl
    obtain ⟨cache, hload, hrun⟩ := blobEnsureIn_of_clean hi effort hlatest
    obtain ⟨flag, hflag⟩ := blobEnsureWith_eq E effort (s.dbOf h) data
    have hput : blobEnsureIn E h data effort s = .ok flag
        (({ s with cache := cache } : Process K).setDb h.file
        ((s.dbOf h).withBlob E effort data)) := hrun.trans (onDb_of_ok hflag)
    show ProcOp.Effect E s _ (endState (blobEnsureIn E h data effort >>= fun _ => pure ()) s)
    rw [endState_ignore, endState_of_ok hput]
    refine .edit rfl hload (fun id d hd => ?_)
      (Db.Faithful.withBlob_of (hi.faithful h.file) fun _ => ?_)
    · rw [Db.withBlob_dicts]
      exact hd
    · exact (decodeBlock_encodeBlock hE _ data effort).2 hop.legible
  | read h k =>
    show ProcOp.Effect E s _ (endState (readBlockIn E h k >>= fun _ => pure ()) s)
    rw [endState_ignore]
    unfold readBlockIn endState
    rw [reads_bind]
    rcases hb : (s.dbOf h).blobs.get? k with _ | c
    · exact .none
    · have hrow : c.val.flag = 3 → s.Clean h c.val.dictId := by
        intro hflag
        refine hop.lookup h c.val.dictId ?_
        rw [ProcOp.lookup, hb]
        exact if_pos hflag
      obtain ⟨cache, hload, hrun⟩ := decodeBlockIn_of_clean hi hrow
      dsimp only
      rw [hrun]
      rcases decodeBlock E (s.dbOf h).dicts c.val.toEnc with e | data
      · exact .load rfl hi hload
      · exact .load rfl hi hload
  | other h f hf =>
    have hrun : onDb h (modify f) s = .ok () (s.setDb h.file (f (s.dbOf h))) := onDb_of_ok rfl
    show ProcOp.Effect E s _ (endState (onDb h (modify f)) s)
    rw [endState_of_ok hrun]
    refine .edit rfl (.same s h) (fun id d hd => ?_)
      ((hi.faithful h.file).of_blobs (hf (s.dbOf h)).dicts (hf (s.dbOf h)).blobs)
    rw [(hf (s.dbOf h)).dicts]
    exact hd

/-- Every operation keeps the invariant, if it finds no dictionary of another file. -/
theorem ProcOp.Effect.inv {op : ProcOp K} {s' : Process K} (he : op.Effect E s s') (hi : s.Inv E) :
    s'.Inv E := by
  cases he with
  | none => exact hi
  | edit _ hload hdicts hdb => exact (hi.loads hload).setDb hdicts hdb
  | replace _ hdb => exact hi.replace hdb
  | create _ hdb => exact hi.create _ hdb
  | @init p db _ hdb =>
    have hnew := hi.create p hdb
    exact ⟨hnew.cached, hnew.faithful⟩
  | openDb _ => exact ⟨hi.cached, hi.faithful⟩

/-- Every run whose lookups are clean keeps the invariant. -/
theorem Process.Runs.inv (hE : E.Lawful) (h : Process.Runs E (fun s op => op.Clean E s) s) :
    s.Inv E := by
  induction h with
  | start h => exact h.inv
  | step _ op _ hop ih => exact (hop.effect hE ih).inv ih

end Step

/-! ## Without replacements -/

section Named

variable {s s' : Process K} {h : Handle}

/-- Every connection and every cached dictionary is of the file that its path names. -/
structure Process.Named (s : Process K) : Prop where
  /-- The connections. -/
  handles : ∀ h ∈ s.handles, s.names.get? h.path = some h.file
  /-- The cache. -/
  cached : s.cache.All fun k e => s.names.get? k.1 = some e.file ∧
    e.version = (s.files e.file).version
  /-- The directory. -/
  below : ∀ p n, s.names.get? p = some n → n < s.count

/-- A process that begins has named no file twice. -/
theorem Process.Begins.named (h : s.Begins E) : s.Named := by
  refine ⟨?_, ?_, h.names⟩
  · rw [h.handles]
    exact fun h hh => absurd hh List.not_mem_nil
  · rw [h.cache]
    exact Lru.All.empty

omit [DecidableEq K] in
/-- The cache has the dictionaries of the files that its paths name. -/
theorem Process.Named.clean (hn : s.Named) (hh : h ∈ s.handles) (id : ℕ) : s.Clean h id := by
  intro e he
  obtain ⟨hname, hversion⟩ := hn.cached.find? he
  have hfile : e.file = h.file := Option.some.inj (hname.symm.trans (hn.handles h hh))
  exact Or.inl ⟨hfile, by rw [hversion, hfile]⟩

omit [DecidableEq K] in
/-- A new file takes the name; the others stay. -/
theorem Process.names_create (s : Process K) (p q : Str) (db : Db K) :
    (s.create p db).names.get? q = if q = p then some s.count else s.names.get? q := by
  show ((s.names.deleteWhere fun q _ => q = p).insertIgnore p s.count).get? q = _
  rw [Table.get?_insertIgnore, Table.get?_deleteWhere_key, Table.get?_deleteWhere_key]
  by_cases hq : q = p
  · simp [hq]
  · simp [hq]

omit [DecidableEq K] in
/-- A new file under a free name keeps the names apart. -/
theorem Process.Named.create (hn : s.Named) {p : Str} (hp : s.names.get? p = none) (db : Db K) :
    (s.create p db).Named := by
  -- No file that is there has the name or the number of the new one.
  have hold : ∀ {q n}, s.names.get? q = some n → (s.create p db).names.get? q = some n ∧
      (s.create p db).files n = s.files n := by
    intro q n hq
    have hqp : q ≠ p := by
      rintro rfl
      rw [hp] at hq
      cases hq
    rw [Process.names_create, if_neg hqp]
    exact ⟨hq, (Process.files_replace s s.count n db).trans (if_neg (hn.below q n hq).ne)⟩
  refine ⟨fun h hh => (hold (hn.handles h hh)).1, ?_, fun q n hq => ?_⟩
  · refine hn.cached.mono fun k e he => ?_
    obtain ⟨hname, hfile⟩ := hold he.1
    exact ⟨hname, by rw [hfile]; exact he.2⟩
  · show n < s.count + 1
    rw [Process.names_create] at hq
    split_ifs at hq
    · cases hq
      exact Nat.lt_succ_self _
    · exact Nat.lt_succ_of_lt (hn.below q n hq)

omit [DecidableEq K] in
/-- A handle of a name is one of its file. -/
theorem Process.Named.connect (hn : s.Named) {p : Str} {n : ℕ} (hp : s.names.get? p = some n) :
    (s.connect ⟨p, n⟩).Named := by
  refine ⟨fun h hh => ?_, hn.cached, hn.below⟩
  rcases List.mem_append.1 hh with hh | hh
  · exact hn.handles h hh
  · rw [List.mem_singleton.1 hh]
    exact hp

/-- An operation that replaces no file keeps the names of the files. -/
theorem ProcOp.Effect.named {op : ProcOp K} (he : op.Effect E s s') (hr : ¬ op.Replaces s)
    (hopen : ∀ h ∈ op.handle, h ∈ s.handles) (hn : s.Named) : s'.Named := by
  cases he with
  | none => exact hn
  | @edit h cache db hh hload _ _ =>
    have hversion : ∀ m, ((s.setDb h.file db).files m).version = (s.files m).version := by
      intro m
      rw [Process.files_setDb]
      split_ifs with hm
      · rw [hm]
      · rfl
    refine ⟨hn.handles, ?_, hn.below⟩
    have hall := hload _ hn.cached fun id d _ => ⟨hn.handles h (hopen h hh), rfl⟩
    exact hall.mono fun k e he => ⟨he.1, he.2.trans (hversion e.file).symm⟩
  | replace hr' _ => exact absurd hr' hr
  | create hr' _ => exact hn.create (not_not.1 fun hp => hr (hr' hp)) _
  | @init p db hr' _ =>
    have hnew := hn.create (not_not.1 fun hp => hr (hr' hp)) db
    refine hnew.connect ?_
    rw [Process.names_create, if_pos rfl]
  | openDb hp => exact hn.connect hp

/-- In a run that never replaces a file, every lookup is clean. -/
theorem Process.Runs.clean (hE : E.Lawful)
    (h : Process.Runs E (fun s op => ¬ op.Replaces s ∧ op.Legible E s) s) : s.Inv E ∧ s.Named := by
  induction h with
  | start h => exact ⟨h.inv, h.named⟩
  | @step s _ op hopen hop ih =>
    have hclean : op.Clean E s := by
      refine ⟨fun h id hl => ih.2.clean (hopen h ?_) id, hop.2⟩
      cases op with
      | write h' data effort =>
        rw [ProcOp.lookup] at hl
        split_ifs at hl
        obtain ⟨d, -, he⟩ := Option.map_eq_some_iff.1 hl
        cases he
        rfl
      | read h' k =>
        rw [ProcOp.lookup] at hl
        obtain ⟨c, -, he⟩ := Option.bind_eq_some_iff.1 hl
        split_ifs at he
        cases he
        rfl
      | _ => cases hl
    have heff := hclean.effect hE ih.1
    exact ⟨heff.inv ih.1, heff.named hop.1 hopen ih.2⟩

end Named

/-! ## Operations on several blocks -/

section Train

variable {s : Process K} {h : Handle}

/-- The state after a list of operations. -/
def Process.after (E : Ext K) (s : Process K) (ops : List (ProcOp K)) : Process K :=
  ops.foldl (fun s op => endState (op.run E) s) s

/-- Drawing the samples is a run of block reads. -/
theorem sampleBlocks_steps (h : Handle) :
    ∀ (keys : List K) (samples : List Bytes) (total : ℕ) (s : Process K),
    ∃ samples' ops, (∀ op ∈ ops, ∃ k, op = ProcOp.read h k) ∧
      sampleBlocks E h keys samples total s = .ok samples' (s.after E ops)
  | [], samples, _, s => ⟨samples, [], fun op hop => absurd hop List.not_mem_nil, rfl⟩
  | k :: ks, samples, total, s => by
    have hread : endState ((ProcOp.read h k).run E) s = endState (readBlockIn E h k) s :=
      endState_ignore _ s
    -- The rest of the loop, after the first block.
    have hnext : ∀ samples total, ∃ samples' ops, (∀ op ∈ ops, ∃ k, op = ProcOp.read h k) ∧
        sampleBlocks E h ks samples total (endState (readBlockIn E h k) s) = .ok samples'
        (s.after E ops) := by
      intro samples total
      obtain ⟨samples', ops, hops, hrun⟩ :=
        sampleBlocks_steps h ks samples total (endState (readBlockIn E h k) s)
      refine ⟨samples', .read h k :: ops, fun op hop => ?_, ?_⟩
      · rcases List.mem_cons.1 hop with rfl | hop
        · exact ⟨k, rfl⟩
        · exact hops op hop
      · rw [hrun]
        show _ = EStateM.Result.ok samples' ((endState ((ProcOp.read h k).run E) s).after E ops)
        rw [hread]
    rw [sampleBlocks]
    rcases hrun : readBlockIn E h k s with ⟨raw, s'⟩ | ⟨e, s'⟩
    · have hend : endState (readBlockIn E h k) s = s' := endState_of_ok hrun
      rw [hend] at hnext
      rw [bind_of_ok (attempt_of_ok hrun)]
      dsimp only
      split_ifs
      · refine ⟨samples ++ [raw], [.read h k], fun op hop => ⟨k, List.mem_singleton.1 hop⟩, ?_⟩
        show _ = EStateM.Result.ok (samples ++ [raw]) (endState ((ProcOp.read h k).run E) s)
        rw [hread, hend]
        rfl
      · exact hnext _ _
      · exact hnext _ _
    · have hend : endState (readBlockIn E h k) s = s' := by
        unfold endState
        rw [hrun]
      rw [hend] at hnext
      rw [bind_of_ok (attempt_of_error hrun)]
      exact hnext _ _

/-- A training is a sequence of reads, and then the new dictionary. -/
theorem vmTrainDict_steps (train : List Bytes → ℕ → Option Bytes) (h : Handle) (keys : List K)
    (maxDictSize : ℕ) (s : Process K) :
    ∃ ops, (∀ op ∈ ops, (∃ k, op = ProcOp.read h k) ∨ ∃ d, op = ProcOp.setDict h d) ∧
      endState (vmTrainDict E train h keys maxDictSize) s = s.after E ops := by
  obtain ⟨samples, ops, hops, hrun⟩ := sampleBlocks_steps (E := E) h ((keys.filter fun k =>
    ((s.dbOf h).blobs.get? k).any fun c => 256 ≤ c.val.rawSize && c.val.rawSize ≤ 16383).take 150)
    [] 0 s
  have hreads : endState (vmTrainDict E train h keys maxDictSize) s =
      endState (if samples.length < 10 then (return none : Proc K (Option Bytes)) else
        match train samples (max (4 * 1024) (min maxDictSize (112 * 1024))) with
        | none => return none
        | some d => if 512 ≤ d.length then do
            let _ ← onDb h (vmSetDict d)
            return some d
          else return none) (s.after E ops) := by
    unfold vmTrainDict endState
    rw [reads_bind, bind_of_ok hrun]
  rw [hreads]
  have hall : ∀ op ∈ ops, (∃ k, op = ProcOp.read h k) ∨ ∃ d, op = ProcOp.setDict h d :=
    fun op hop => Or.inl (hops op hop)
  -- With too few samples the reading of samples is all. Else the dictionary may come as one step
  -- more.
  by_cases hfew : samples.length < 10
  · rw [if_pos hfew]
    exact ⟨ops, hall, rfl⟩
  · rw [if_neg hfew]
    rcases train samples (max (4 * 1024) (min maxDictSize (112 * 1024))) with _ | d
    · exact ⟨ops, hall, rfl⟩
    · dsimp only
      split_ifs
      · refine ⟨ops ++ [.setDict h d], fun op hop => ?_, ?_⟩
        · rcases List.mem_append.1 hop with hop | hop
          · exact hall op hop
          · exact Or.inr ⟨d, List.mem_singleton.1 hop⟩
        · have hsplit : s.after E (ops ++ [.setDict h d]) = endState ((ProcOp.setDict h d).run E)
            (s.after E ops) :=
            List.foldl_append ..
          rw [hsplit]
          rfl
      · exact ⟨ops, hall, rfl⟩

end Train

/-! ## The blocks of a process -/

section Coherent

variable {s : Process K} {h : Handle} {data : Bytes}

/-- A block is read through the cache, or in a fresh process. -/
theorem Process.Inv.read (hi : s.Inv E) (hK : Function.Injective E.blobKey) {c : Cell Block}
    (hc : (s.dbOf h).blobs.get? (E.blobKey data) = some c)
    (hclean : c.val.flag = 3 → s.Clean h c.val.dictId) :
    ∃ s', readBlockIn E h (E.blobKey data) s = .ok data s' := by
  obtain ⟨piece, c', hc', hdec, hkey⟩ := hi.faithful h.file _ c hc
  obtain rfl : c = c' := Option.some.inj (hc.symm.trans hc')
  obtain ⟨cache, -, hrun⟩ := decodeBlockIn_of_clean hi hclean
  refine ⟨{ s with cache := cache }, ?_⟩
  unfold readBlockIn
  rw [reads_bind, hc]
  show decodeBlockIn E h c.val.toEnc s = _
  have hown : decodeBlock E (s.dbOf h).dicts c.val.toEnc = .ok data := hK hkey ▸ hdec
  rw [hrun, hown]

/-- In every run whose lookups find no dictionary of another file, every block that is stored in a
file is read as it was written, in a fresh process and through the cache, and every dictionary that
is looked up is the file's. -/
theorem blocks_decode_of_clean {K : Type} [DecidableEq K] {E : Ext K} {s : Process K}
    (hE : E.Lawful) (hK : Function.Injective E.blobKey)
    (hs : Process.Runs E (fun s op => op.Clean E s) s) :
    (∀ h data, (s.dbOf h).blobs.has (E.blobKey data) = true →
      (∃ s', readBlockIn E h (E.blobKey data) { s with cache := Lru.empty } = .ok data s') ∧
      ((ProcOp.read h (E.blobKey data)).Clean E s →
        ∃ s', readBlockIn E h (E.blobKey data) s = .ok data s')) ∧
    ∀ (op : ProcOp K) h id d s', op.Clean E s → op.lookup E s = some (h, id) →
      dictByIdIn h id s = .ok d s' →
      (s.dbOf h).dicts.get? id = some d := by
  have hi := hs.inv hE
  refine ⟨fun h data hhas => ?_, fun op h id d s' hop hl hrun => ?_⟩
  · obtain ⟨c, hc⟩ := Table.has_eq_true.1 hhas
    refine ⟨?_, fun hop => hi.read hK hc fun hflag => hop.lookup h c.val.dictId ?_⟩
    · have hfresh : ({ s with cache := Lru.empty } : Process K).Inv E :=
        ⟨Lru.All.empty, hi.faithful⟩
      exact hfresh.read hK hc fun _ e he => nomatch he
    · rw [ProcOp.lookup, hc]
      exact if_pos hflag
  · obtain ⟨cache, -, hrow⟩ := dictByIdIn_of_clean hi (hop.lookup h id hl)
    rw [hrun] at hrow
    rcases hd : (s.dbOf h).dicts.get? id with _ | d'
    · rw [hd] at hrow
      cases hrow
    · rw [hd] at hrow
      cases hrow
      rfl

/-- In a run that never replaces a file, every block is read through the cache as it was written. -/
theorem blocks_decode_of_noReplacement (hE : E.Lawful) (hK : Function.Injective E.blobKey)
    (hs : Process.Runs E (fun s op => ¬ op.Replaces s ∧ op.Legible E s) s) (hh : h ∈ s.handles)
    (hhas : (s.dbOf h).blobs.has (E.blobKey data) = true) :
    ∃ s', readBlockIn E h (E.blobKey data) s = .ok data s' := by
  obtain ⟨hi, hn⟩ := hs.clean hE
  obtain ⟨c, hc⟩ := Table.has_eq_true.1 hhas
  exact hi.read hK hc fun _ => hn.clean hh _

end Coherent

/-! ## A stale dictionary -/

/-- Libraries that compress a block of 512 bytes to one byte, if the dictionary is the block. -/
def echoExt : Ext Bytes where
  blobKey := id
  zstdCompress _ _ := none
  zstdCompressDict _ dict data := if dict = data ∧ data.length = 512 then some [0] else none
  zstdFrameContentSize c := if c = [0] then some (some 512) else none
  zstdDecompress _ _ := none
  zstdDecompressDict dict c n := if c = [0] ∧ n = 512 ∧ dict.length = 512 then some dict else none
  gunzip _ := none

/-- The codec of the example decodes what it encodes. -/
theorem echoExt_lawful : echoExt.Lawful := by
  refine ⟨(fun h => nomatch h), fun {level dict data c} h => ?_⟩
  simp only [echoExt] at h ⊢
  split_ifs at h with hsame
  obtain ⟨rfl, hlen⟩ := hsame
  cases h
  simp [hlen]

/-- A block, and a dictionary. -/
def block (b : UInt8) : Bytes := List.replicate 512 b

/-- A process without files. -/
def noFiles : Process Bytes := ⟨fun _ => ⟨0, initDb 0⟩, 0, Table.empty, [], Lru.empty⟩

/-- The example begins without a file. -/
theorem begins_noFiles : noFiles.Begins echoExt :=
  ⟨rfl, rfl, fun _ => faithful_initDb 0, fun _ _ h => nomatch h⟩

/-- A database is created, gets a dictionary, and a block is written with it. -/
def firstOps : List (ProcOp Bytes) :=
  [.init ['a'] false 0, .setDict ⟨['a'], 0⟩ (block 1), .write ⟨['a'], 0⟩ (block 1) .archive]

/-- The same at the path of the first database, with another dictionary. -/
def secondOps : List (ProcOp Bytes) :=
  [.init ['a'] true 0, .setDict ⟨['a'], 1⟩ (block 2), .write ⟨['a'], 1⟩ (block 1) .archive]

/-- The blocks of the example can be encoded with any dictionary. -/
theorem legible_block (s : Process Bytes) (h : Handle) (effort : Effort) :
    (ProcOp.write h (block 1) effort).Legible echoExt s := by
  rintro - ⟨out, hout, -⟩
  rw [autoDetect, if_neg (by decide), if_neg (by decide)] at hout
  cases hout

/-- The first database is read as it was written. -/
theorem blocks_decode_of_clean_first : ∃ s', readBlockIn echoExt ⟨['a'], 0⟩ (block 1)
    { noFiles.after echoExt firstOps with cache := Lru.empty } = .ok (block 1) s' := by
  have hstart : Process.Runs echoExt (fun s op => op.Clean echoExt s) noFiles :=
    .start begins_noFiles
  have hinit :=
    hstart.step (.init ['a'] false 0)
    (fun h hh => nomatch hh) ⟨(fun h id hl => nomatch hl), trivial⟩
  have hset := hinit.step (.setDict ⟨['a'], 0⟩ (block 1))
    (by decide +kernel) ⟨(fun h id hl => nomatch hl), trivial⟩
  have hwrite := hset.step (.write ⟨['a'], 0⟩ (block 1) .archive) (by decide +kernel)
    ⟨(fun h id _ e he => nomatch he), legible_block _ _ _⟩
  exact ((blocks_decode_of_clean echoExt_lawful (fun _ _ h => h) hwrite).1 ⟨['a'], 0⟩ (block 1)
    (by decide +kernel)).1

/-- After the replacement the cached dictionary of the first database compresses a block of the
second one, and a fresh process reads other bytes. -/
theorem not_blocks_decode :
    ∃ s : Process Bytes, Process.Runs echoExt (fun s op => op.Legible echoExt s) s ∧
    ∃ h data out s', (s.dbOf h).blobs.has (echoExt.blobKey data) = true ∧
      readBlockIn echoExt h (echoExt.blobKey data) { s with cache := Lru.empty } = .ok out s' ∧
      out ≠ data := by
  have hstart : Process.Runs echoExt (fun s op => op.Legible echoExt s) noFiles :=
    .start begins_noFiles
  have hinit := hstart.step (.init ['a'] false 0) (fun h hh => nomatch hh) trivial
  have hset := hinit.step (.setDict ⟨['a'], 0⟩ (block 1)) (by decide +kernel) trivial
  have hwrite := hset.step (.write ⟨['a'], 0⟩ (block 1) .archive) (by decide +kernel)
    (legible_block _ _ _)
  have hinit' := hwrite.step (.init ['a'] true 0) (fun h hh => nomatch hh) trivial
  have hset' := hinit'.step (.setDict ⟨['a'], 1⟩ (block 2)) (by decide +kernel) trivial
  have hwrite' := hset'.step (.write ⟨['a'], 1⟩ (block 1) .archive) (by decide +kernel)
    (legible_block _ _ _)
  obtain ⟨s', hread⟩ := exists_of_value (x := readBlockIn echoExt ⟨['a'], 1⟩ (block 1))
    (s := { noFiles.after echoExt (firstOps ++ secondOps) with cache := Lru.empty }) (a := block 2)
      (by decide +kernel)
  exact ⟨_, hwrite', ⟨['a'], 1⟩, block 1, block 2, s', by decide +kernel, hread, by decide⟩

end Dbvm.DictCache
