import Dbvm.Read

/-!
# Writing files

Blob, chunk and node writes, ranged writes and truncation (`src/vm/store.rs`), and the rename of the
mount (`src/fuse.rs`). Every change of a file's chunks goes through one of three orders of
statements: delete all its rows and insert the new ones (`chunksReplace`), replace one row after its
new blob is stored (`putChunk`), or drop the rows past an index. The first and the second make sure
that a blob exists before a row refers to it.
-/

namespace Dbvm

open Lib Lib.Chunks

variable {K : Type} [DecidableEq K]

/-! ## Blobs and chunks -/

/-- Make sure there is a blob with this key; returns the flag of its encoding. -/
def blobEnsureWith (E : Ext K) (key : K) (data : Bytes) (effort : Effort) : Sql K ℕ := do
  let found ← Prog.reads fun db => db.blobs.get? key
  match found with
  | some c => return c.val.flag
  | none =>
    let enc ← Prog.reads fun db => encodeBlock E db.dicts data effort
    insertBlob key ⟨enc, data.length⟩
    return enc.flag

/-- `blob_ensure`. -/
def blobEnsure (E : Ext K) (key : K) (data : Bytes) : Sql K ℕ :=
  blobEnsureWith E key data .archive

/-- Store one chunk of a file that has none at this index. -/
def appendChunk (E : Ext K) (p : Str) (idx : ℕ) (piece : Bytes) : Sql K Unit := do
  let _ ← blobEnsure E (E.blobKey piece) piece
  insertChunk p idx (E.blobKey piece)

/-- Store the content of a file, replacing the chunks it has (`chunks_replace`). -/
def chunksReplace (E : Ext K) (p : Str) (data : Bytes) : Sql K Unit := do
  deleteChunks fun q _ => q = p
  (chunksOf chunkSize data).zipIdx.forM fun piece => appendChunk E p piece.2 piece.1

/-! ## What a new blob decodes to -/

/-- The state after a new blob is stored. -/
theorem blobEnsureWith_new {E : Ext K} {db : Db K} {key : K} {data : Bytes} {effort : Effort}
    (h : db.blobs.get? key = none) :
    blobEnsureWith E key data effort db = .ok (encodeBlock E db.dicts data effort).flag
      (db.addBlob key ⟨encodeBlock E db.dicts data effort, data.length⟩) := by
  have hins : insertBlob key ⟨encodeBlock E db.dicts data effort, data.length⟩ db =
      .ok () (db.addBlob key ⟨encodeBlock E db.dicts data effort, data.length⟩) := by
    rw [insertBlob, statement_eq_ok, if_neg (by rw [Table.has_eq_false.2 h]; simp)]
  unfold blobEnsureWith
  rw [Prog.reads_bind, h]
  dsimp only
  rw [Prog.reads_bind, Prog.bind_of_ok hins]
  rfl

/-- A blob that is there is not stored again. -/
theorem blobEnsureWith_found {E : Ext K} {db : Db K} {key : K} {data : Bytes} {effort : Effort}
    {c : Cell Block} (h : db.blobs.get? key = some c) :
    blobEnsureWith E key data effort db = .ok c.val.flag db := by
  unfold blobEnsureWith
  rw [Prog.reads_bind, h]
  rfl

/-- A block stored under its key is read back, through the check against the key, exactly when some
compression of it pays or its bytes are not taken for a compressed stream of other data. -/
theorem blobBytes_blobEnsureWith_iff {K : Type} [DecidableEq K] {E : Ext K} (hE : E.Lawful)
    (db : Db K) (data : Bytes) (effort : Effort) (hnew : db.blobs.get? (E.blobKey data) = none)
    (path : Str) (idx : ℕ) :
    ∃ flag db' c, blobEnsureWith E (E.blobKey data) data effort db = .ok flag db' ∧
      db'.blobs.get? (E.blobKey data) = some c ∧
      (decodeBlock E db'.dicts c.val.toEnc = .ok data ↔
        (Incompressible E data (latestDict db.dicts) effort → ¬ Misread E data)) ∧
      (db'.blobBytes E path idx (E.blobKey data) = .ok data ↔
        (Incompressible E data (latestDict db.dicts) effort → ¬ Misread E data)) := by
  have hget :
    (db.addBlob (E.blobKey data) ⟨encodeBlock E db.dicts data effort, data.length⟩).blobs.get?
      (E.blobKey data) = some ⟨⟨encodeBlock E db.dicts data effort, data.length⟩, 0⟩ := by
    rw [Db.addBlob, Table.get?_insertIgnore, if_pos rfl, hnew, Option.getD_none]
  have hdec := decodeBlock_encodeBlock hE db.dicts data effort
  refine ⟨_, _, _, blobEnsureWith_new hnew, hget, hdec, ?_⟩
  rw [← hdec]
  constructor
  · intro h
    obtain ⟨c, hc, hd, -⟩ := Db.decodes_of_blobBytes h
    rw [hget] at hc
    cases hc
    exact hd
  · intro h
    exact Db.Decodes.blobBytes ⟨_, hget, h, rfl⟩ path idx

/-- A gzip stream of no bytes. -/
def gzipOfEmpty : Bytes :=
  [0x1f, 0x8b, 0x08, 0, 0, 0, 0, 0, 0, 0x03, 0x03, 0, 0, 0, 0, 0, 0, 0, 0, 0]

/-- Libraries that compress nothing, with the content itself for its key, and the gzip decoder on
`gzipOfEmpty`. -/
def rawExt : Ext Bytes where
  blobKey := id
  zstdCompress _ _ := none
  zstdCompressDict _ _ _ := none
  zstdFrameContentSize _ := none
  zstdDecompress _ _ := none
  zstdDecompressDict _ _ _ := none
  gunzip b := if b = gzipOfEmpty then some [] else none

/-- The codec that compresses nothing is lawful. -/
theorem rawExt_lawful : rawExt.Lawful := ⟨by simp [rawExt], by simp [rawExt]⟩

/-- A text is read back. -/
theorem blobBytes_blobEnsureWith_text : ∃ flag db' c,
    blobEnsureWith rawExt [104, 105] [104, 105] .interactive (initDb 0) = .ok flag db' ∧
      db'.blobs.get? [104, 105] = some c ∧
      decodeBlock rawExt db'.dicts c.val.toEnc = .ok [104, 105] ∧
      db'.blobBytes rawExt root 0 [104, 105] = .ok [104, 105] := by
  have hread : ¬ Misread rawExt [104, 105] := by
    rintro ⟨out, h, -⟩
    exact absurd h (by simp [autoDetect, hasZstdMagic, hasGzipMagic, List.isPrefixOf])
  obtain ⟨flag, db', c, h, hc, h1, h2⟩ := blobBytes_blobEnsureWith_iff rawExt_lawful (initDb 0)
    [104, 105] .interactive rfl root 0
  exact ⟨flag, db', c, h, hc, h1.2 fun _ => hread, h2.2 fun _ => hread⟩

/-- A file that is itself a gzip stream is stored raw and read back as what it unpacks to. -/
theorem blobEnsure_gzip_not_read_back :
    ∃ flag db', blobEnsure rawExt (rawExt.blobKey gzipOfEmpty) gzipOfEmpty (initDb 0) =
        .ok flag db' ∧
      decodeBlock rawExt db'.dicts ⟨gzipOfEmpty, 0, 0⟩ = .ok [] ∧
      (db'.blobs.get? (rawExt.blobKey gzipOfEmpty)).map (fun c => c.val.toEnc) =
        some ⟨gzipOfEmpty, 0, 0⟩ ∧
      db'.blobBytes rawExt root 0 (rawExt.blobKey gzipOfEmpty) = .error (.hashMismatch root 0) :=
  ⟨_, _, rfl, by decide, by decide, by decide⟩

/-! ## Rows -/

/-- The row of a directory. -/
def dirRow (mode mtime : ℤ) : FsRow K :=
  { kind := .dir, mode := mode, mtime := mtime, mtimeNs := 0, size := 0, linkTarget := none
    hash := .null, content := none, compressed := 0 }

/-- Create the parents of a path that are missing. -/
def ensureParentDirs (vmPath : Str) (now : ℤ) : Sql K Unit :=
  (parentDirs vmPath).forM fun d => insertFsIgnore d (dirRow 493 now)

/-- A row that has become a regular file. The source leaves `mtime_ns` as it was. -/
def FsRow.toFile (mode mtime : ℤ) (size : ℕ) (hash : FileHash K) (row : FsRow K) : FsRow K :=
  { row with
    kind := .file, mode := mode, mtime := mtime, size := size, hash := hash, content := none
    compressed := 0, linkTarget := none }

/-- A row that has become a directory or a link. -/
def FsRow.toNode (kind : Kind) (mode mtime : ℤ) (link : Option Str) (row : FsRow K) : FsRow K :=
  { row with
    kind := kind, mode := mode, mtime := mtime, size := 0, hash := .null, content := none
    compressed := 0, linkTarget := link }

/-- Write a regular file: its chunks and its row, as one unit (`fs_put_file`). -/
def fsPutFile (E : Ext K) (p : Str) (mode mtime : ℤ) (data : Bytes) : Sql K Unit := inSavepoint do
  chunksReplace E p data
  let hash := FileHash.key (E.blobKey data)
  upsertFs p ((dirRow mode mtime).toFile mode mtime data.length hash)
    (FsRow.toFile mode mtime data.length hash)

/-- Write a directory or a link (`fs_put_node`). -/
def fsPutNode (p : Str) (kind : Kind) (mode mtime : ℤ) (link : Option Str) : Sql K Unit :=
  inSavepoint do
    deleteChunks fun q _ => q = p
    upsertFs p ((dirRow mode mtime).toNode kind mode mtime link)
      (FsRow.toNode kind mode mtime link)

/-- `vm_add_bytes`. -/
def vmAddBytes (E : Ext K) (vmPath : Str) (data : Bytes) (mode mtime now : ℤ) : Sql K Unit := do
  let p := normalizeVmPath vmPath
  ensureParentDirs p now
  fsPutFile E p mode mtime data

/-- `vm_add_symlink`. -/
def vmAddSymlink (vmPath target : Str) (now : ℤ) : Sql K Unit := do
  let p := normalizeVmPath vmPath
  ensureParentDirs p now
  fsPutNode p .symlink 0o777 now (some target)

/-- `vm_add_dir`. -/
def vmAddDir (vmPath : Str) (mode mtime now : ℤ) : Sql K Unit := do
  let p := normalizeVmPath vmPath
  ensureParentDirs p now
  fsPutNode p .dir mode mtime none

/-! ## Streams -/

/-- What a call to `read` of a stream gives: some bytes, as many as the caller has room for at most,
or an error. No bytes, or no step left, is the end. -/
inductive ReadStep where
  /-- Bytes. -/
  | got (b : Bytes)
  /-- An error. -/
  | fail

/-- A stream: its calls to `read`, in order. -/
abbrev Reader := List ReadStep

/-- The inner loop of `fs_put_file_stream`: read until `room` bytes are there or the stream gives
none. What a call has beyond the room is left for the next one. -/
def fillChunk : ℕ → Reader → Except Err (Bytes × Reader)
  | _, [] => .ok ([], [])
  | 0, src => .ok ([], src)
  | _ + 1, .fail :: _ => .error .readFailed
  | room + 1, .got b :: rest =>
    if b = [] then .ok ([], rest)
    else if b.length ≤ room + 1 then do
      let (more, rest') ← fillChunk (room + 1 - b.length) rest
      .ok (b ++ more, rest')
    else .ok (b.take (room + 1), .got (b.drop (room + 1)) :: rest)

/-- The bytes of a stream. -/
def Reader.bytes (src : Reader) : Bytes :=
  src.flatMap fun
    | .got b => b
    | .fail => []

/-- The outer loop: store chunk after chunk until one is not full. Every round but the last takes a
chunk's worth of bytes from the stream, so their number is fuel enough. Returns what was read. -/
def putStreamChunks (E : Ext K) (p : Str) : ℕ → ℕ → Reader → Sql K Bytes
  | 0, _, _ => pure []
  | fuel + 1, idx, src => do
    let (piece, rest) ← Prog.query fun _ => fillChunk chunkSize src
    if piece = [] then return []
    appendChunk E p idx piece
    if piece.length < chunkSize then return piece
    let tail ← putStreamChunks E p fuel (idx + 1) rest
    return piece ++ tail

/-- Write a regular file from a stream; returns its size (`fs_put_file_stream_ns`). -/
def fsPutFileStreamNs (E : Ext K) (p : Str) (mode mtime mtimeNs : ℤ) (src : Reader) : Sql K ℕ :=
  inSavepoint do
    deleteChunks fun q _ => q = p
    let whole ← putStreamChunks E p (src.bytes.length + 1) 0 src
    let row : FsRow K :=
      { kind := .file, mode := mode, mtime := mtime, mtimeNs := mtimeNs, size := whole.length
        linkTarget := none, hash := .key (E.blobKey whole), content := none, compressed := 0 }
    upsertFs p row fun _ => row
    return whole.length

/-- `fs_put_file_stream`. -/
def fsPutFileStream (E : Ext K) (p : Str) (mode mtime : ℤ) (src : Reader) : Sql K ℕ :=
  fsPutFileStreamNs E p mode mtime 0 src

/-! ## Ranged writes -/

/-- The regular file a path leads to, with its size. -/
def regularFile (vmPath : Str) : Sql K (Str × ℕ) := Prog.query fun db => do
  let real ← resolvePath db vmPath
  match db.fs.get? real with
  | none => .error (.notFound real)
  | some row => if row.kind ≠ .file then .error (.notFile real) else .ok (real, row.size)

/-- Put a decoded chunk into the cache, if there is one. -/
def cachePut (k : K) (piece : Bytes) : Prg K Unit := fun c =>
  .ok () { c with cache := c.cache.map fun m => m.put k piece }

/-- Replace the row of one chunk: store the new blob, delete the old row, insert the new one. -/
def swapChunk (E : Ext K) (effort : Effort) (path : Str) (idx : ℕ) (piece : Bytes) :
    Sql K Unit := do
  let _ ← blobEnsureWith E (E.blobKey piece) piece effort
  deleteChunks fun q i => q = path && i = idx
  insertChunk path idx (E.blobKey piece)

/-- The state with a blob for `piece`. -/
def Db.withBlob (E : Ext K) (effort : Effort) (db : Db K) (piece : Bytes) : Db K :=
  if db.blobs.has (E.blobKey piece) then db
  else db.addBlob (E.blobKey piece) ⟨encodeBlock E db.dicts piece effort, piece.length⟩

/-- The state with `piece` for chunk `idx` of `p`. -/
def Db.withChunk (E : Ext K) (effort : Effort) (db : Db K) (p : Str) (idx : ℕ) (piece : Bytes) :
    Db K :=
  ((db.withBlob E effort piece).delChunks fun q i => q = p && i = idx).addChunk p idx
    (E.blobKey piece)

/-- Storing a piece under its key always succeeds. -/
theorem blobEnsureWith_eq (E : Ext K) (effort : Effort) (db : Db K) (piece : Bytes) :
    ∃ flag, blobEnsureWith E (E.blobKey piece) piece effort db =
      .ok flag (db.withBlob E effort piece) := by
  unfold Db.withBlob
  rcases hk : db.blobs.get? (E.blobKey piece) with _ | c
  · rw [Table.has_eq_false.2 hk, if_neg (by simp)]
    exact ⟨_, blobEnsureWith_new hk⟩
  · rw [Table.has_eq_true.2 ⟨c, hk⟩, if_pos rfl]
    exact ⟨_, blobEnsureWith_found hk⟩

/-- A chunk row that has been replaced is the one of the new blob. -/
theorem swapChunk_ok {E : Ext K} {effort : Effort} {p : Str} {idx : ℕ} {piece : Bytes}
    {db db' : Db K} {u : Unit} (h : swapChunk E effort p idx piece db = .ok u db') :
    db' = db.withChunk E effort p idx piece := by
  obtain ⟨flag, hflag⟩ := blobEnsureWith_eq E effort db piece
  unfold swapChunk at h
  rw [Prog.bind_of_ok hflag] at h
  obtain ⟨_, db₁, h₁, h₂⟩ := Prog.bind_eq_ok.1 h
  rw [deleteChunks_ok h₁] at h₂
  obtain ⟨-, rfl⟩ := insertChunk_ok h₂
  rfl

/-- A blob or a chunk row changes neither the rules nor the bypass. -/
theorem Db.Unpoliced.withBlob {E : Ext K} {db : Db K} (h : db.Unpoliced) (effort : Effort)
    (piece : Bytes) : (db.withBlob E effort piece).Unpoliced := by
  unfold Db.withBlob
  split_ifs
  · exact h
  · exact h.of_eq rfl rfl

/-- A replaced chunk brings no policy. -/
theorem Db.Unpoliced.withChunk {E : Ext K} {db : Db K} (h : db.Unpoliced) (effort : Effort)
    (p : Str) (idx : ℕ) (piece : Bytes) : (db.withChunk E effort p idx piece).Unpoliced :=
  (h.withBlob effort piece).of_eq rfl rfl

/-- Without policies in force a chunk row can be replaced. -/
theorem swapChunk_of_unpoliced {E : Ext K} {effort : Effort} {p : Str} {idx : ℕ} {piece : Bytes}
    {db : Db K} (h : db.Unpoliced) :
    swapChunk E effort p idx piece db = .ok () (db.withChunk E effort p idx piece) := by
  obtain ⟨flag, hflag⟩ := blobEnsureWith_eq E effort db piece
  have hdel : ((db.withBlob E effort piece).delChunks fun q i => q = p && i = idx).Unpoliced :=
    (h.withBlob effort piece).of_eq rfl rfl
  unfold swapChunk
  rw [Prog.bind_of_ok hflag,
    Prog.bind_of_ok (deleteChunks_of_unpoliced (h.withBlob effort piece) _),
    insertChunk_of_unpoliced hdel]
  · rfl
  · rw [Db.delChunks, Table.get?_deleteWhere]
    rcases (db.withBlob E effort piece).chunks.get? (p, idx) <;> simp

omit [DecidableEq K] in
/-- The keys of one chunk row are its key, if it is there. -/
theorem Db.chunkKeys_single (db : Db K) (p : Str) (idx : ℕ) :
    db.chunkKeys (fun q i => q = p && i = idx) = (db.chunks.get? (p, idx)).toList := by
  have hsel : (fun (c : Str × ℕ) (_ : K) => decide (c.1 = p) && decide (c.2 = idx)) =
      fun c _ => decide (c = (p, idx)) := by
    funext c _
    simp [Prod.ext_iff]
  rw [Db.chunkKeys, hsel, Table.select_key, List.map_map]
  exact List.map_id' _

section WithChunk

variable (E : Ext K) (effort : Effort) (db : Db K) (p : Str) (idx : ℕ) (piece : Bytes)

/-- A stored blob changes no chunk row. -/
@[simp] theorem Db.withBlob_chunks : (db.withBlob E effort piece).chunks = db.chunks := by
  unfold Db.withBlob
  split_ifs <;> rfl

/-- A stored blob changes no chunk row of a snapshot. -/
@[simp] theorem Db.withBlob_snapChunks :
    (db.withBlob E effort piece).snapChunks = db.snapChunks := by
  unfold Db.withBlob
  split_ifs <;> rfl

/-- A stored blob changes no chunk row of an undo record. -/
@[simp] theorem Db.withBlob_undoChunks :
    (db.withBlob E effort piece).undoChunks = db.undoChunks := by
  unfold Db.withBlob
  split_ifs <;> rfl

/-- A stored blob changes no row. -/
@[simp] theorem Db.withBlob_fs : (db.withBlob E effort piece).fs = db.fs := by
  unfold Db.withBlob
  split_ifs <;> rfl

/-- A stored blob changes no dictionary. -/
@[simp] theorem Db.withBlob_dicts : (db.withBlob E effort piece).dicts = db.dicts := by
  unfold Db.withBlob
  split_ifs <;> rfl

/-- A replaced chunk changes no row. -/
@[simp] theorem Db.withChunk_fs : (db.withChunk E effort p idx piece).fs = db.fs :=
  Db.withBlob_fs E effort db piece

/-- A replaced chunk changes no dictionary. -/
@[simp] theorem Db.withChunk_dicts : (db.withChunk E effort p idx piece).dicts = db.dicts :=
  Db.withBlob_dicts E effort db piece

/-- A replaced chunk changes no chunk row of a snapshot. -/
@[simp] theorem Db.withChunk_snapChunks :
    (db.withChunk E effort p idx piece).snapChunks = db.snapChunks :=
  Db.withBlob_snapChunks E effort db piece

/-- A replaced chunk changes no chunk row of an undo record. -/
@[simp] theorem Db.withChunk_undoChunks :
    (db.withChunk E effort p idx piece).undoChunks = db.undoChunks :=
  Db.withBlob_undoChunks E effort db piece

/-- The chunk rows afterwards: one is new, the others are the old ones. -/
theorem Db.get?_withChunk (q : Str) (i : ℕ) :
    (db.withChunk E effort p idx piece).chunks.get? (q, i) =
      if (q, i) = (p, idx) then some (E.blobKey piece) else db.chunks.get? (q, i) := by
  rw [Db.withChunk, Db.addChunk, Table.get?_insertIgnore, Db.delChunks, Table.get?_deleteWhere,
    Table.get?_deleteWhere, Db.withBlob_chunks]
  split_ifs with h
  · rcases db.chunks.get? (p, idx) <;> simp
  · have hsel : (decide (q = p) && decide (i = idx)) = false := by
      simpa [Prod.ext_iff] using h
    rcases db.chunks.get? (q, i) with _ | k
    · rfl
    · rw [Option.filter_some, hsel]
      rfl

/-- A blob that is neither stored nor released by the replacement stays as it is. -/
theorem Db.get?_blobs_withChunk {k : K} (hk : k ≠ E.blobKey piece)
    (hrow : db.chunks.get? (p, idx) ≠ some k) :
    (db.withChunk E effort p idx piece).blobs.get? k = db.blobs.get? k := by
  have hblob : (db.withBlob E effort piece).blobs.get? k = db.blobs.get? k := by
    unfold Db.withBlob
    split_ifs
    · rfl
    · rw [Db.addBlob, Table.get?_insertIgnore, if_neg hk]
  rw [Db.withChunk, Db.addChunk, Store.get?_acquire, if_neg hk, ← hblob]
  refine Store.get?_releaseAll_of_not_mem _ ?_
  rw [Db.chunkKeys_single, Db.withBlob_chunks, Option.mem_toList]
  exact hrow

end WithChunk

/-- Point chunk `idx` of `path` at `piece` (`put_chunk`). A chunk that is not changed is left
alone. -/
def putChunk (E : Ext K) (path : Str) (idx : ℕ) (piece : Bytes) : Prg K Unit := do
  let key := E.blobKey piece
  let old ← onDb (Prog.reads fun db => db.chunks.get? (path, idx))
  if old = some key then return
  onDb (swapChunk E .interactive path idx piece)
  cachePut key piece

/-- The new size and time of a file whose hash is now stale (`mark_dirty`). -/
def markDirty (path : Str) (size : ℕ) (mtime : ℤ) : Sql K Unit := do
  updateFs path fun row => { row with size := size, mtime := mtime }
  insertDirty path

/-- A chunk's old bytes, filled up with zeros to its new length, with the part of `data` that falls
into it on top. `base` is the offset of the chunk. -/
def overlayPiece (piece : Bytes) (base newSize off : ℕ) (data : Bytes) : Bytes :=
  let chunkEnd := min (base + chunkSize) newSize
  let piece := extendTo 0 piece (chunkEnd - base)
  let wFrom := max off base
  let wTo := min (off + data.length) chunkEnd
  if wFrom < wTo then patch piece (wFrom - base) (slice data (wFrom - off) (wTo - wFrom)) else piece

/-- One round of the loop of `write_range_deferred`. -/
def writeChunk (E : Ext K) (real : Str) (oldSize newSize off : ℕ) (data : Bytes) (idx : ℕ) :
    Prg K Unit := do
  let base := idx * chunkSize
  let piece ← if base < oldSize then readRangeCached E real base chunkSize else pure []
  putChunk E real idx (overlayPiece piece base newSize off data)

/-- `write_range_deferred`. -/
def writeRangeDeferred (E : Ext K) (vmPath : Str) (off : ℕ) (data : Bytes) (mtime : ℤ) :
    Prg K Unit := do
  let (real, oldSize) ← onDb (regularFile vmPath)
  if data = [] then return
  let newSize := max oldSize (off + data.length)
  -- From the chunk of the old end on, if that comes first: it may be short and must be filled up.
  let first := min off oldSize / chunkSize
  let last := (off + data.length - 1) / chunkSize
  connSavepoint do
    (List.range' first (last + 1 - first)).forM (writeChunk E real oldSize newSize off data)
    onDb (markDirty real newSize mtime)

/-- The chunk that the new end of a file falls into is cut there. -/
def cutTail (E : Ext K) (real : Str) (newSize : ℕ) : Prg K Unit :=
  if newSize > 0 ∧ newSize % chunkSize ≠ 0 then do
    let idx := numChunks chunkSize newSize - 1
    let piece ← chunkBytes E real idx
    putChunk E real idx (piece.take (newSize - idx * chunkSize))
  else pure ()

/-- `truncate_range_deferred`. -/
def truncateRangeDeferred (E : Ext K) (vmPath : Str) (newSize : ℕ) (mtime : ℤ) : Prg K Unit := do
  let (real, oldSize) ← onDb (regularFile vmPath)
  if newSize = oldSize then return
  if newSize > oldSize then
    writeRangeDeferred E real oldSize (List.replicate (newSize - oldSize) 0) mtime
  else connSavepoint do
    onDb (deleteChunks fun q i => q = real && numChunks chunkSize newSize ≤ i)
    cutTail E real newSize
    onDb (markDirty real newSize mtime)

/-! ## Whole-file hashes -/

/-- The chunks of a file, one by one, each of the length its size implies. -/
def collectPieces (E : Ext K) (path : Str) (size : ℕ) : List ℕ → Prg K Bytes
  | [] => pure []
  | idx :: rest => do
    let piece ← chunkBytes E path idx
    if piece.length ≠ min (size - idx * chunkSize) chunkSize then throw (.chunkLength path idx)
    let tail ← collectPieces E path size rest
    return piece ++ tail

/-- `whole_file_hash`. -/
def wholeFileHash (E : Ext K) (path : Str) (size : ℕ) : Sql K K := do
  let bytes ← uncached (collectPieces E path size (List.range (numChunks chunkSize size)))
  return E.blobKey bytes

/-- Recompute the hash of a file if it is stale; returns whether it was (`finalize_file`). -/
def finalizeFile (E : Ext K) (path : Str) : Sql K Bool := do
  let dirty ← Prog.reads fun db => decide (path ∈ db.dirty)
  if !dirty then return false
  inSavepoint do
    let size ← Prog.query fun db =>
      match db.fs.get? path with
      | some row => .ok row.size
      | none => .error (.notFound path)
    let whole ← wholeFileHash E path size
    updateFs path fun row => { row with hash := .key whole }
    deleteDirty path
    return true

/-- Recompute every stale hash; returns how many (`finalize_dirty`). -/
def finalizeDirty (E : Ext K) : Sql K ℕ := do
  let paths ← Prog.reads fun db => db.dirty
  paths.foldlM (fun n p => do return if ← finalizeFile E p then n + 1 else n) 0

/-- `write_range`. -/
def writeRange (E : Ext K) (vmPath : Str) (off : ℕ) (data : Bytes) (mtime : ℤ) : Sql K Unit :=
  inSavepoint do
    uncached (writeRangeDeferred E vmPath off data mtime)
    let real ← Prog.query fun db => resolvePath db vmPath
    let _ ← finalizeFile E real

/-- `truncate_range`. -/
def truncateRange (E : Ext K) (vmPath : Str) (newSize : ℕ) (mtime : ℤ) : Sql K Unit :=
  inSavepoint do
    uncached (truncateRangeDeferred E vmPath newSize mtime)
    let real ← Prog.query fun db => resolvePath db vmPath
    let _ ← finalizeFile E real

/-! ## Renames through the mount -/

/-- The rows of a rename: a replaced entry is deleted, then every moved row gets its new path, in
one savepoint. -/
def fuseRename (replaced : Option Str) (moves : List (Str × Str)) : Sql K Unit := inSavepoint do
  match replaced with
  | some d => deleteFs fun q => q = d
  | none => pure ()
  moves.forM fun m => do
    moveFs m.1 m.2
    moveChunks m.1 m.2

end Dbvm
