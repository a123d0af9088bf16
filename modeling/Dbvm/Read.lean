import Mathlib.Data.List.Sort
import Dbvm.Lib.Chunks
import Dbvm.Db

/-!
# Reading files

Path resolution, the chunk cache and the readers of file content (`src/vm/read.rs`). A reader takes
the keys of a file's chunks from `vm_file_chunks`, decodes each blob and checks it against its key,
so what it returns is determined by the chunk rows alone as long as every blob decodes
(`Db.Faithful`). `Db.Holds` says that a file is stored in the chunk layout with given bytes;
`readRangeCached_of_holds` and `vmCat_of_holds` say that the readers give those bytes back.
-/

namespace Dbvm

open Lib Lib.Chunks

variable {K : Type} [DecidableEq K]

/-- The size of a chunk. -/
def chunkSize : ℕ := 64 * 1024

/-- A chunk is not empty. -/
theorem chunkSize_pos : 0 < chunkSize := by decide

/-! ## Chunk rows -/

/-- The chunk rows of a path, ordered by index. -/
def Db.chunkList (db : Db K) (p : Str) : List (ℕ × K) :=
  ((db.chunks.select fun c _ => c.1 = p).map fun r => (r.1.2, r.2)).insertionSort
    fun a b => a.1 ≤ b.1

/-- A blob's bytes, decoded and checked against its key. `path` and `idx` only name the chunk in an
error. -/
def Db.blobBytes (E : Ext K) (db : Db K) (path : Str) (idx : ℕ) (key : K) : Except Err Bytes :=
  match db.blobs.get? key with
  | none => .error (.missingBlob path idx)
  | some c =>
    match decodeBlock E db.dicts c.val.toEnc with
    | .error e => .error (.undecodable path idx e)
    | .ok piece => if E.blobKey piece = key then .ok piece else .error (.hashMismatch path idx)

/-! ## The chunk cache -/

/-- Decoded chunks by key, the most recently used first, at most `cap` of them. -/
structure ChunkCache (K : Type) where
  /-- The capacity, at least 1. -/
  cap : ℕ
  /-- The entries. -/
  entries : List (K × Bytes)

/-- The entry with a key, moved to the front. -/
def ChunkCache.get (c : ChunkCache K) (k : K) : Option (Bytes × ChunkCache K) :=
  match c.entries.find? fun e => e.1 = k with
  | some e => some (e.2, { c with entries := e :: c.entries.filter fun e' => e'.1 ≠ k })
  | none => none

/-- A new entry at the front; the least recently used ones are dropped. -/
def ChunkCache.put (c : ChunkCache K) (k : K) (piece : Bytes) : ChunkCache K :=
  { c with entries := ((k, piece) :: c.entries.filter fun e => e.1 ≠ k).take c.cap }

/-- A connection with the chunk cache of its reader, if it has one. -/
structure Conn (K : Type) where
  /-- The database. -/
  db : Db K
  /-- The cache. -/
  cache : Option (ChunkCache K)

/-- A program on a connection with a cache. -/
abbrev Prg (K α : Type) := EStateM Err (Conn K) α

omit [DecidableEq K] in
/-- A program that does not look at the cache. -/
def onDb {α : Type} (x : Sql K α) : Prg K α := fun c =>
  match x c.db with
  | .ok a db => .ok a { c with db := db }
  | .error e db => .error e { c with db := db }

omit [DecidableEq K] in
/-- A program run with a cache that others may use as well: what it leaves there is not followed. -/
def withCache {α : Type} (cache : Option (ChunkCache K)) (x : Prg K α) : Sql K α := fun db =>
  match x ⟨db, cache⟩ with
  | .ok a c => .ok a c.db
  | .error e c => .error e c.db

omit [DecidableEq K] in
/-- A program run without a cache. -/
def uncached {α : Type} (x : Prg K α) : Sql K α := withCache none x

omit [DecidableEq K] in
/-- A savepoint of the database: a cache is not rolled back. -/
def connSavepoint {α : Type} (x : Prg K α) : Prg K α :=
  Prog.savepoint (fun c c' => { c' with db := c.db }) x

/-- The chunk with a key, from the cache or from its blob (`chunk_by_key`). -/
def chunkByKey (E : Ext K) (path : Str) (idx : ℕ) (key : K) : Prg K Bytes := fun c =>
  match c.cache.bind fun m => m.get key with
  | some (piece, m) => .ok piece { c with cache := some m }
  | none =>
    match c.db.blobBytes E path idx key with
    | .error e => .error e c
    | .ok piece => .ok piece { c with cache := c.cache.map fun m => m.put key piece }

/-- Chunk `idx` of `path` (`chunk_bytes`). -/
def chunkBytes (E : Ext K) (path : Str) (idx : ℕ) : Prg K Bytes := do
  let key ← onDb (Prog.query fun db =>
    match db.chunks.get? (path, idx) with
    | some k => .ok k
    | none => .error (.missingChunk path idx))
  chunkByKey E path idx key

/-! ## Paths -/

/-- Where a link at `cur` points, before normalisation. -/
def linkNext (cur target : Str) : Str :=
  if target.head? = some '/' then normalizeVmPath target
  else
    let dir := (pathParent cur).getD root
    if dir = root then '/' :: target else dir ++ '/' :: target

/-- The loop of `resolve_path`: at most `n` more hops, none to a path seen before. -/
def resolveFrom (db : Db K) (vmPath : Str) : ℕ → List Str → Str → Except Err Str
  | 0, _, _ => .error (.tooManyLinks vmPath)
  | n + 1, visited, cur =>
    if cur ∈ visited then .error (.linkLoop cur)
    else match db.fs.get? cur with
      | none => .error (.notFound cur)
      | some row =>
        if row.kind ≠ .symlink then .ok cur
        else resolveFrom db vmPath n (cur :: visited)
          (normalizeVmPath (linkNext cur (row.linkTarget.getD [])))

/-- The path a path leads to, following links. -/
def resolvePath (db : Db K) (vmPath : Str) : Except Err Str :=
  resolveFrom db vmPath 40 [] (normalizeVmPath vmPath)

/-! ## Ranges -/

/-- The part of a chunk that lies in the window from `start` to `stop`; `base` is the offset of the
chunk. -/
def pieceWindow (piece : Bytes) (base start stop : ℕ) : Bytes :=
  (piece.take (min (stop - base) piece.length)).drop (min (start - base) piece.length)

/-- The loop of `read_range` over the chunk rows of a range, which must not have a gap. -/
def readPieces (E : Ext K) (real : Str) (start stop : ℕ) : ℕ → List (ℕ × K) → Prg K Bytes
  | _, [] => pure []
  | expect, (idx, key) :: rest =>
    if idx ≠ expect then throw (.missingChunk real expect)
    else do
      let piece ← chunkByKey E real idx key
      let tail ← readPieces E real start stop (expect + 1) rest
      return pieceWindow piece (idx * chunkSize) start stop ++ tail

/-- The size of the regular file at `real`, reported under the name it was asked for. -/
def Db.readableSize (db : Db K) (vmPath real : Str) : Except Err ℕ :=
  match db.fs.get? real with
  | none => .error (.notFound real)
  | some row =>
    if row.kind = .dir then .error (.isDir vmPath)
    else if row.kind ≠ .file then .error (.notFile vmPath)
    else if row.hash = .null then .error (.noContent real)
    else .ok row.size

/-- `len` bytes of a file from `off` on, as far as it has them. -/
def readRangeCached (E : Ext K) (vmPath : Str) (off len : ℕ) : Prg K Bytes := do
  let real ← onDb (Prog.query fun db => resolvePath db vmPath)
  let size ← onDb (Prog.query fun db => db.readableSize vmPath real)
  let start := min off size
  let stop := min (start + len) size
  if start = stop then return []
  let first := start / chunkSize
  let last := (stop - 1) / chunkSize
  let keys ← onDb (Prog.reads fun db =>
    (db.chunkList real).filter fun r => first ≤ r.1 && r.1 ≤ last)
  let out ← readPieces E real start stop first keys
  if keys.length ≠ last - first + 1 then throw (.missingChunk real last)
  return out

/-- `read_range`: no cache. -/
def readRange (E : Ext K) (vmPath : Str) (off len : ℕ) : Sql K Bytes :=
  uncached (readRangeCached E vmPath off len)

/-! ## Whole files -/

/-- The loop of `file_bytes` over the chunk rows joined with their blobs. -/
def joinPieces (E : Ext K) (dicts : Table ℕ Bytes) (path : Str) :
    ℕ → List (ℕ × K × Block) → Except Err Bytes
  | _, [] => .ok []
  | expect, (idx, key, b) :: rest =>
    if idx ≠ expect then .error (.missingChunk path expect)
    else match decodeBlock E dicts b.toEnc with
      | .error e => .error (.undecodable path idx e)
      | .ok piece =>
        if E.blobKey piece ≠ key then .error (.hashMismatch path idx)
        else do
          let tail ← joinPieces E dicts path (expect + 1) rest
          .ok (piece ++ tail)

/-- The bytes of the regular file at `path`. -/
def fileBytes (E : Ext K) (db : Db K) (path : Str) : Except Err Bytes :=
  match db.fs.get? path with
  | none => .error (.notFile path)
  | some row =>
    if row.kind ≠ .file then .error (.notFile path)
    else do
      -- An inner join: a chunk whose blob is missing has no row here.
      let rows := (db.chunkList path).filterMap fun r =>
        (db.blobs.get? r.2).map fun c => (r.1, r.2, c.val)
      let out ← joinPieces E db.dicts path 0 rows
      if out.length ≠ row.size then .error (.sizeMismatch path) else .ok out

/-- Where a path ends up after following links. -/
structure Resolved where
  /-- The final path. -/
  path : Str
  /-- File or directory. -/
  kind : Kind
  /-- The content of a file. -/
  content : Option Bytes
  /-- Permission bits. -/
  mode : ℤ

/-- The content of a file row: its chunks, or the inline bytes of an old row. -/
def Db.rowContent (E : Ext K) (db : Db K) (path : Str) (row : FsRow K) : Except Err Bytes :=
  if row.hash ≠ .null then fileBytes E db path
  else match row.content with
    | some b =>
      match decompressBytesRaw E b row.compressed with
      | .ok out => .ok out
      | .error e => .error (.codec e)
    | none => .error (.noContent path)

/-- Resolve a path and load what is there (`vm_resolve`). -/
def vmResolve (E : Ext K) (db : Db K) (vmPath : Str) : Except Err Resolved := do
  let real ← resolvePath db vmPath
  match db.fs.get? real with
  | none => .error (.notFound real)
  | some row =>
    if row.kind = .dir then .ok ⟨real, row.kind, none, row.mode⟩
    else do
      let content ← db.rowContent E real row
      .ok ⟨real, row.kind, some content, row.mode⟩

/-- The content of a file, following links. -/
def vmCat (E : Ext K) (db : Db K) (vmPath : Str) : Except Err Bytes := do
  let r ← vmResolve E db vmPath
  if r.kind = .dir then .error (.isDir vmPath)
  else match r.content with
    | some b => .ok b
    | none => .error (.noContent vmPath)

/-! ## The rows of a path in order -/

omit [DecidableEq K] in
/-- The chunk list of a path has its rows. -/
theorem Db.mem_chunkList {db : Db K} {p : Str} {i : ℕ} {k : K} :
    (i, k) ∈ db.chunkList p ↔ db.chunks.get? (p, i) = some k := by
  rw [Db.chunkList, List.mem_insertionSort, Table.get?_eq_some_iff, Table.select, List.mem_map]
  constructor
  · rintro ⟨⟨⟨q, j⟩, k'⟩, hr, he⟩
    simp only [List.mem_filter, decide_eq_true_eq] at hr
    cases he
    rw [← hr.2]
    exact hr.1
  · intro h
    exact ⟨((p, i), k), by simpa using h, rfl⟩

omit [DecidableEq K] in
/-- They are in the order of their indices, none of which occurs twice. -/
theorem Db.pairwise_chunkList (db : Db K) (p : Str) :
    (db.chunkList p).Pairwise fun a b => a.1 < b.1 := by
  have hnd : (db.chunkList p).Nodup := by
    refine (List.perm_insertionSort _ _).nodup_iff.2 ?_
    -- Two rows of one path with the same index would have the same primary key.
    refine List.Nodup.map_on ?_ (List.Nodup.filter _ (List.Nodup.of_map Prod.fst db.chunks.nodup))
    intro r hr r' hr' he
    simp only [Table.select, List.mem_filter, decide_eq_true_eq] at hr hr'
    obtain ⟨⟨q, i⟩, k⟩ := r
    obtain ⟨⟨q', i'⟩, k'⟩ := r'
    simp_all
  have hsorted : (db.chunkList p).Pairwise fun a b => a.1 ≤ b.1 :=
    List.pairwise_insertionSort (fun a b : ℕ × K => a.1 ≤ b.1) _
  refine (hsorted.and hnd).imp_of_mem ?_
  rintro ⟨i, k⟩ ⟨j, k'⟩ ha hb ⟨hle, hne⟩
  refine lt_of_le_of_ne hle ?_
  rintro rfl
  have h1 := Db.mem_chunkList.1 ha
  rw [Db.mem_chunkList.1 hb] at h1
  cases h1
  exact hne rfl

omit [DecidableEq K] in
/-- The chunk list of a path is any list of its rows in the order of their indices. -/
theorem Db.chunkList_eq {db : Db K} {p : Str} {l : List (ℕ × K)}
    (hl : l.Pairwise fun a b => a.1 < b.1)
    (hmem : ∀ i k, (i, k) ∈ l ↔ db.chunks.get? (p, i) = some k) : db.chunkList p = l := by
  have hne : ∀ {m : List (ℕ × K)}, (m.Pairwise fun a b => a.1 < b.1) → m.Nodup := by
    intro m hm
    exact hm.imp fun h he => by rw [he] at h; exact lt_irrefl _ h
  have hperm : (db.chunkList p).Perm l := by
    refine (List.perm_ext_iff_of_nodup (hne (db.pairwise_chunkList p)) (hne hl)).2 ?_
    rintro ⟨i, k⟩
    rw [hmem, Db.mem_chunkList]
  exact List.Perm.eq_of_pairwise (fun a b _ _ hab hba => absurd hab (lt_asymm hba))
    (db.pairwise_chunkList p) hl hperm

omit [DecidableEq K] in
/-- The chunk list of a path depends on its rows only. -/
theorem Db.chunkList_congr {db db' : Db K} {p : Str}
    (h : ∀ i, db'.chunks.get? (p, i) = db.chunks.get? (p, i)) :
    db'.chunkList p = db.chunkList p := by
  refine Db.chunkList_eq (db.pairwise_chunkList p) fun i k => ?_
  rw [h i, Db.mem_chunkList]

omit [DecidableEq K] in
/-- The rows of a path whose chunks are the first `n`. -/
theorem Db.chunkList_of_dense {db : Db K} {p : Str} {n : ℕ} {key : ℕ → K}
    (h : ∀ i, db.chunks.get? (p, i) = if i < n then some (key i) else none) :
    db.chunkList p = (List.range n).map fun i => (i, key i) := by
  apply Db.chunkList_eq
  · rw [List.pairwise_map]
    exact List.pairwise_lt_range
  · intro i k
    rw [h]
    constructor
    · intro hm
      obtain ⟨j, hj, he⟩ := List.mem_map.1 hm
      cases he
      rw [if_pos (List.mem_range.1 hj)]
    · intro hk
      split_ifs at hk with hi
      cases hk
      exact List.mem_map.2 ⟨i, List.mem_range.2 hi, rfl⟩

/-- The numbers below `n` from `first` to `last`. -/
theorem filter_range_between {n first last : ℕ} (h : last < n) :
    (List.range n).filter (fun i => first ≤ i && i ≤ last) =
      List.range' first (last + 1 - first) := by
  have hs : ((List.range n).filter fun i => first ≤ i && i ≤ last).Pairwise (· < ·) :=
    List.pairwise_lt_range.filter _
  refine List.Perm.eq_of_pairwise (fun a b _ _ hab hba => absurd hab (lt_asymm hba)) hs
    List.pairwise_lt_range' ?_
  refine (List.perm_ext_iff_of_nodup (List.nodup_range.filter _) List.nodup_range').2 fun a => ?_
  simp only [List.mem_filter, List.mem_range, Bool.and_eq_true, decide_eq_true_eq,
    List.mem_range'_1]
  omega

/-! ## Files in the chunk layout -/

/-- The blob with key `k` is there and decodes to `piece`, whose key it is. -/
def Db.Decodes (E : Ext K) (db : Db K) (k : K) (piece : Bytes) : Prop :=
  ∃ c, db.blobs.get? k = some c ∧ decodeBlock E db.dicts c.val.toEnc = .ok piece ∧
    E.blobKey piece = k

/-- Every blob decodes to bytes whose key it has. -/
def Db.Faithful (E : Ext K) (db : Db K) : Prop :=
  ∀ k c, db.blobs.get? k = some c → ∃ piece, db.Decodes E k piece

/-- A blob that decodes is read as its bytes, whoever reads it. -/
theorem Db.Decodes.blobBytes {E : Ext K} {db : Db K} {k : K} {piece : Bytes}
    (h : db.Decodes E k piece) (path : Str) (idx : ℕ) :
    db.blobBytes E path idx k = .ok piece := by
  obtain ⟨c, hc, hd, hk⟩ := h
  simp only [Db.blobBytes, hc, hd, hk, if_true]

/-- What is read of a blob is what it decodes to. -/
theorem Db.decodes_of_blobBytes {E : Ext K} {db : Db K} {k : K} {piece : Bytes} {path : Str}
    {idx : ℕ} (h : db.blobBytes E path idx k = .ok piece) : db.Decodes E k piece := by
  unfold Db.blobBytes at h
  rcases hc : db.blobs.get? k with _ | c
  · rw [hc] at h
    cases h
  rw [hc] at h
  dsimp only at h
  rcases hd : decodeBlock E db.dicts c.val.toEnc with e | out
  · rw [hd] at h
    cases h
  rw [hd] at h
  dsimp only at h
  split_ifs at h with hk
  cases h
  exact ⟨c, hc, hd, hk⟩

/-- A file is stored in the chunk layout: its row is a regular file's and has the right size, its
chunks are the chunks of `b`, no more and no fewer, and their blobs decode. -/
structure Db.Holds (E : Ext K) (db : Db K) (p : Str) (b : Bytes) : Prop where
  /-- The row. -/
  row : ∃ row, db.fs.get? p = some row ∧ row.kind = .file ∧ row.size = b.length ∧ row.hash ≠ .null
  /-- The chunk rows. -/
  chunks : ∀ i, db.chunks.get? (p, i) =
    if i < numChunks chunkSize b.length then some (E.blobKey (chunkAt chunkSize b i)) else none
  /-- The blobs. -/
  blobs : ∀ i, i < numChunks chunkSize b.length →
    db.Decodes E (E.blobKey (chunkAt chunkSize b i)) (chunkAt chunkSize b i)

/-- Every cache entry is the content its key names. -/
def Conn.CacheOk (E : Ext K) (c : Conn K) : Prop :=
  ∀ m, c.cache = some m → ∀ e ∈ m.entries, E.blobKey e.2 = e.1

/-- A chunk is what its blob decodes to, whether it comes from the cache or not. -/
theorem chunkByKey_ok {E : Ext K} (hE : Function.Injective E.blobKey) {c : Conn K} (path : Str)
    (idx : ℕ) {k : K} {piece : Bytes} (hc : c.CacheOk E) (h : c.db.Decodes E k piece) :
    ∃ c', chunkByKey E path idx k c = .ok piece c' ∧ c'.db = c.db ∧ c'.CacheOk E := by
  have hk : E.blobKey piece = k := by
    obtain ⟨_, _, _, hk⟩ := h
    exact hk
  obtain ⟨db, cache⟩ := c
  unfold chunkByKey
  rcases hm : (cache.bind fun m => m.get k) with _ | ⟨hit, m'⟩
  · -- No entry: the blob is decoded and the cache gets it.
    simp only [h.blobBytes path idx]
    refine ⟨_, rfl, rfl, ?_⟩
    intro m hm' e he
    obtain ⟨m₀, hm₀, rfl⟩ := Option.map_eq_some_iff.1 hm'
    rcases List.mem_cons.1 (List.mem_of_mem_take he) with rfl | he
    · exact hk
    · exact hc m₀ hm₀ e (List.mem_of_mem_filter he)
  · dsimp only
    obtain ⟨m₀, hm₀, hget⟩ := Option.bind_eq_some_iff.1 hm
    unfold ChunkCache.get at hget
    rcases hf : (m₀.entries.find? fun e => e.1 = k) with _ | e
    · rw [hf] at hget
      cases hget
    rw [hf] at hget
    cases hget
    have hmem := List.mem_of_find?_eq_some hf
    -- The entry that is found has the key, and by the cache's invariant its bytes hash to it.
    have hek : e.1 = k := by simpa using List.find?_some hf
    have hkey := hc m₀ hm₀ e hmem
    have : e.2 = piece := hE (by rw [hkey, hek, hk])
    refine ⟨_, by rw [this], rfl, ?_⟩
    intro m hm' e' he'
    cases hm'
    rcases List.mem_cons.1 he' with rfl | he'
    · exact hkey
    · exact hc m₀ hm₀ e' (List.mem_of_mem_filter he')

omit [DecidableEq K] in
/-- A read that does not look at the cache. -/
theorem onDb_query_of_ok {α : Type} {f : Db K → Except Err α} {a : α} {c : Conn K}
    (h : f c.db = .ok a) : onDb (Prog.query f) c = .ok a c := by
  rw [onDb, Prog.query_of_ok h]

omit [DecidableEq K] in
/-- A read of the connection's database goes on with what it has read. -/
theorem onDb_reads_bind {α β : Type} (f : Db K → α) (g : α → Prg K β) (c : Conn K) :
    (onDb (Prog.reads f) >>= g) c = g (f c.db) c := Prog.bind_of_ok rfl

/-- The part of a chunk that a range needs is its window. -/
theorem pieceWindow_chunkAt (b : Bytes) (start stop i : ℕ) :
    pieceWindow (chunkAt chunkSize b i) (i * chunkSize) start stop =
      window chunkSize b start stop i := by
  rw [pieceWindow, window, slice]
  generalize chunkAt chunkSize b i = piece
  generalize i * chunkSize = base
  apply List.ext_getElem?
  intro j
  rw [List.getElem?_drop, List.getElem?_take, List.getElem?_take, List.getElem?_drop]
  rcases Nat.lt_or_ge piece.length (start - base) with h | h
  · -- The window begins past the end of the chunk.
    have h1 : piece[min (start - base) piece.length + j]? = none :=
      List.getElem?_eq_none (by omega)
    have h2 : piece[start - base + j]? = none := List.getElem?_eq_none (by omega)
    rw [h1, h2, ite_self, ite_self]
  · rw [Nat.min_eq_left h]
    rcases Nat.lt_or_ge (start - base + j) piece.length with hj | hj
    · split_ifs <;> first | rfl | omega
    · rw [List.getElem?_eq_none hj, ite_self, ite_self]

/-- The loop over the chunks of `b` from `first` on gives their windows. -/
theorem readPieces_ok {E : Ext K} (hE : Function.Injective E.blobKey) (real : Str) (b : Bytes)
    (start stop n : ℕ) : ∀ (first : ℕ) {c : Conn K}, c.CacheOk E →
      (∀ i, first ≤ i → i < first + n →
        c.db.Decodes E (E.blobKey (chunkAt chunkSize b i)) (chunkAt chunkSize b i)) →
      ∃ c', readPieces E real start stop first
          ((List.range' first n).map fun i => (i, E.blobKey (chunkAt chunkSize b i))) c =
          .ok ((List.range' first n).flatMap (window chunkSize b start stop)) c' ∧
        c'.db = c.db ∧ c'.CacheOk E := by
  induction n with
  | zero => exact fun _ {c} hc _ => ⟨c, rfl, rfl, hc⟩
  | succ n ih =>
    intro first c hc hdec
    obtain ⟨c₁, h₁, hdb₁, hc₁⟩ := chunkByKey_ok hE real first hc
      (hdec first le_rfl (by omega))
    obtain ⟨c₂, h₂, hdb₂, hc₂⟩ := ih (first + 1) hc₁ fun i h1 h2 => by
      rw [hdb₁]
      exact hdec i (by omega) (by omega)
    refine ⟨c₂, ?_, hdb₂.trans hdb₁, hc₂⟩
    rw [List.range'_succ, List.map_cons, readPieces, if_neg (by simp), Prog.bind_of_ok h₁,
      Prog.bind_of_ok h₂, pieceWindow_chunkAt]
    rfl

/-- A range read of a stored file returns that range of its bytes. -/
theorem readRangeCached_of_holds {E : Ext K} (hE : Function.Injective E.blobKey) {c : Conn K}
    {vmPath p : Str} {b : Bytes} (hc : c.CacheOk E) (hp : resolvePath c.db vmPath = .ok p)
    (h : c.db.Holds E p b) (off len : ℕ) :
    ∃ c', readRangeCached E vmPath off len c = .ok (slice b off len) c' ∧ c'.db = c.db ∧
      c'.CacheOk E := by
  obtain ⟨row, hrow, hkind, hsize, hhash⟩ := h.row
  have hread : c.db.readableSize vmPath p = .ok b.length := by
    simp [Db.readableSize, hrow, hkind, hsize, hhash]
  unfold readRangeCached
  rw [Prog.bind_of_ok (onDb_query_of_ok hp), Prog.bind_of_ok (onDb_query_of_ok hread)]
  dsimp only
  generalize hstart : min off b.length = start
  generalize hstop : min (start + len) b.length = stop
  rcases eq_or_ne start stop with hse | hse
  · -- Nothing to read.
    refine ⟨c, ?_, rfl, hc⟩
    have : slice b off len = [] := by
      rw [← List.length_eq_zero_iff, length_slice]
      omega
    rw [if_pos hse, this]
    rfl
  -- The window is read chunk by chunk, each one from the cache or from its blob.
  have hlt : start < stop := by omega
  have hlast : (stop - 1) / chunkSize < numChunks chunkSize b.length := by
    rw [lt_numChunks_iff chunkSize_pos]
    have := Nat.div_mul_le_self (stop - 1) chunkSize
    omega
  have hle : start / chunkSize ≤ (stop - 1) / chunkSize := Nat.div_le_div_right (by omega)
  have hkeys : (c.db.chunkList p).filter
      (fun r => start / chunkSize ≤ r.1 && r.1 ≤ (stop - 1) / chunkSize) =
      (List.range' (start / chunkSize) ((stop - 1) / chunkSize - start / chunkSize + 1)).map
        fun i => (i, E.blobKey (chunkAt chunkSize b i)) := by
    rw [Db.chunkList_of_dense h.chunks, List.filter_map, ← Nat.sub_add_comm hle,
      ← filter_range_between hlast]
    rfl
  obtain ⟨c', hpieces, hdb, hc'⟩ := readPieces_ok hE p b start stop
    ((stop - 1) / chunkSize - start / chunkSize + 1) (start / chunkSize) hc
    fun i _ h2 => h.blobs i (by omega)
  refine ⟨c', ?_, hdb, hc'⟩
  rw [if_neg hse, onDb_reads_bind, hkeys, Prog.bind_of_ok hpieces, if_neg (by simp),
    flatMap_window chunkSize_pos b hlt]
  have hs : slice b start (stop - start) = slice b off len := by
    have h1 : start = off := by omega
    rw [h1]
    apply List.ext_getElem?
    intro j
    rw [getElem?_slice, getElem?_slice]
    split_ifs <;> first | rfl | omega | exact List.getElem?_eq_none (by omega) |
      exact (List.getElem?_eq_none (by omega)).symm
  rw [hs]
  rfl

/-- The loop over the joined chunks of `b` from `first` on gives their bytes. -/
theorem joinPieces_ok {E : Ext K} {db : Db K} (p : Str) (b : Bytes) (n : ℕ) : ∀ first : ℕ,
    (∀ i, first ≤ i → i < first + n →
      db.Decodes E (E.blobKey (chunkAt chunkSize b i)) (chunkAt chunkSize b i)) →
    joinPieces E db.dicts p first
        (((List.range' first n).map fun i => (i, E.blobKey (chunkAt chunkSize b i))).filterMap
          fun r => (db.blobs.get? r.2).map fun c => (r.1, r.2, c.val)) =
      .ok ((List.range' first n).flatMap (chunkAt chunkSize b)) := by
  induction n with
  | zero => exact fun _ _ => rfl
  | succ n ih =>
    intro first hdec
    obtain ⟨c, hc, hd, hk⟩ := hdec first le_rfl (by omega)
    have htail := ih (first + 1) fun i h1 h2 => hdec i (by omega) (by omega)
    rw [List.range'_succ, List.map_cons, List.filterMap_cons]
    simp only [hc, Option.map_some, joinPieces, ne_eq, not_true_eq_false, if_false, hd, htail,
      bind, Except.bind, List.flatMap_cons]

/-- A stored file is read as its bytes. -/
theorem fileBytes_of_holds {E : Ext K} {db : Db K} {p : Str} {b : Bytes} (h : db.Holds E p b) :
    fileBytes E db p = .ok b := by
  obtain ⟨row, hrow, hkind, hsize, -⟩ := h.row
  have hjoin := joinPieces_ok p b (numChunks chunkSize b.length) 0 fun i _ hi =>
    h.blobs i (by omega)
  rw [← List.range_eq_range', flatMap_chunkAt chunkSize_pos] at hjoin
  rw [fileBytes, hrow]
  simp only [hkind, ne_eq, not_true_eq_false, if_false, Db.chunkList_of_dense h.chunks, hjoin, bind,
    Except.bind, hsize]

/-- `vm_cat` of a stored file returns its bytes. -/
theorem vmCat_of_holds {E : Ext K} {db : Db K} {vmPath p : Str} {b : Bytes}
    (hp : resolvePath db vmPath = .ok p) (h : db.Holds E p b) : vmCat E db vmPath = .ok b := by
  obtain ⟨row, hrow, hkind, -, hhash⟩ := h.row
  simp [vmCat, vmResolve, hp, hrow, hkind, Db.rowContent, hhash, fileBytes_of_holds h, bind,
    Except.bind]

end Dbvm
