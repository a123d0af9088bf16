import Dbvm.Snapshot

/-!
# Maintenance and injection

Rechunking, recompression and deep verification (`src/vm/maint.rs`), and the merge of a package
database (`src/inject.rs`).
-/

namespace Dbvm

open Lib Lib.Chunks

variable {K : Type} [DecidableEq K]

/-! ## Rechunking -/

/-- What `vm_rechunk` did. -/
structure RechunkReport where
  /-- Files split again. -/
  done : ℕ
  /-- Files that did not have one chunk. -/
  skipped : ℕ
  /-- Files left as they were because the result did not verify. -/
  failed : ℕ

/-- Split one file again and read it back. -/
def rechunkOne (E : Ext K) (path : Str) (before : Bytes) : Sql K Unit := inSavepoint do
  chunksReplace E path before
  let after ← Prog.query fun db => fileBytes E db path
  if E.blobKey after ≠ E.blobKey before ∨ after ≠ before then throw .verifyFailed

/-- One round of the loop of `vm_rechunk`. -/
def rechunkFile (E : Ext K) (rep : RechunkReport) (path : Str) : Sql K RechunkReport := do
  let n ← Prog.reads fun db => (db.chunkList path).length
  if n ≠ 1 then return { rep with skipped := rep.skipped + 1 }
  let before ← Prog.query fun db => fileBytes E db path
  match ← Prog.attempt (rechunkOne E path before) with
  | .ok _ => return { rep with done := rep.done + 1 }
  | .error _ => return { rep with failed := rep.failed + 1 }

/-- `vm_rechunk`. -/
def vmRechunk (E : Ext K) : Sql K RechunkReport := do
  let candidates ← Prog.reads fun db => (db.fs.select fun _ row =>
    row.kind = .file && chunkSize < row.size && row.hash ≠ .null).map Prod.fst
  candidates.foldlM (rechunkFile E) ⟨0, 0, 0⟩

/-! ## Recompression -/

/-- Move the inline content of an old row to a blob. -/
def recompressInline (E : Ext K) (r : Str × Bytes × ℕ) : Sql K Unit := do
  let raw ← Prog.query fun _ => (decompressBytesRaw E r.2.1 r.2.2).mapError Err.codec
  let key := E.blobKey raw
  let _ ← blobEnsure E key raw
  let flag ← Prog.reads fun db => ((db.blobs.get? key).map fun c => c.val.flag).getD 2
  updateFs r.1 fun row =>
    { row with hash := .key key, content := none, compressed := flag, size := raw.length }

/-- Encode a blob again, if that pays (`compress_bytes_with_conn`). -/
def recompressBlob (E : Ext K) (key : K) (raw : Bytes) : Sql K Unit := do
  let enc ← Prog.reads fun db => compressWithEffort E raw (latestDict db.dicts) .archive
  match enc with
  | some e => updateBlob key e
  | none => pure ()

/-- Raise a zstd blob to level 19, if that saves more than 32 bytes. -/
def recompress19 (E : Ext K) (r : K × Cell Block) : Sql K Unit := do
  let raw ← Prog.query fun _ => (decompressBytesRaw E r.2.val.body r.2.val.flag).mapError Err.codec
  match E.zstdCompress 19 raw with
  | some c =>
    if c.length + 64 < raw.length ∧ c.length + 32 < r.2.val.body.length then
      updateBlob r.1 { r.2.val.toEnc with body := c }
  | none => pure ()

/-- `vm_recompress`: inline rows, then gzip blobs, then raw ones, then zstd ones. A failure leaves
its transaction open, so nothing is rolled back here. -/
def vmRecompress (E : Ext K) : Sql K Unit := do
  let rows ← Prog.reads fun db => db.fs.rows.filterMap fun r =>
    if r.2.kind = .file then r.2.content.map fun b => (r.1, b, r.2.compressed) else none
  rows.forM (recompressInline E)
  let gz ← Prog.reads fun db => db.blobs.select fun _ c => c.val.flag = 1
  gz.forM fun r => do
    let raw ← Prog.query fun _ => (decompressBytesRaw E r.2.val.body 1).mapError Err.codec
    recompressBlob E r.1 raw
  let plain ← Prog.reads fun db =>
    (db.blobs.select fun _ c => c.val.flag = 0 && 1024 < c.val.rawSize).take 200
  plain.forM fun r => recompressBlob E r.1 r.2.val.body
  let zstd ← Prog.reads fun db => (db.blobs.select fun _ c => c.val.flag = 2).take 300
  zstd.forM (recompress19 E)

/-! ## Deep verification -/

/-- What a deep verification can find. -/
inductive Drift where
  /-- The number of rows differs from the counters. -/
  | files
  /-- The total of the file sizes differs from its counter. -/
  | logical
  /-- The total of the stored bytes differs from its counter. -/
  | blobBytes
  /-- "blobs with bad refcnt". -/
  | refcnt
  /-- "chunks reference missing blobs". -/
  | orphan
  /-- "snapshot files with chunk index gaps". -/
  | snapGaps
  /-- "files with chunk index gaps". -/
  | gaps
  /-- "non-empty files without chunks". -/
  | noChunks
  /-- "Delta files with no chunks in either layer". -/
  | uncovered
  /-- "Delta files whose chunks do not cover their size". -/
  | short
  deriving DecidableEq

/-- A list of indices that is not `0, 1, …, n - 1`: its maximum and its length disagree. -/
def hasGap (idxs : List ℕ) : Bool := idxs ≠ [] && idxs.foldl max 0 + 1 ≠ idxs.length

/-- The decoded length of the chunks of a path that have a blob. -/
def Db.coveredBytes (db : Db K) (p : Str) : ℕ :=
  ((db.chunkList p).map fun r => ((db.blobs.get? r.2).map fun c => c.val.rawSize).getD 0).sum

/-- The checks of a deep verification that hold for any database. -/
def Db.commonDrift (db : Db K) : List Drift :=
  (if db.counters.countFile + db.counters.countDir + db.counters.countSymlink ≠
      db.fs.rows.length then [.files] else []) ++
  (if db.counters.logicalBytes ≠ (db.fs.rows.map fun r => r.2.logical).sum then [.logical]
    else []) ++
  (if db.counters.blobBytes ≠ (db.blobs.rows.map fun r => (r.2.val.body.length : ℤ)).sum then
    [.blobBytes] else []) ++
  (if db.blobs.rows.any fun r => r.2.refcnt ≠ db.refs r.1 then [.refcnt] else []) ++
  (if (db.chunks.rows.any fun r => !db.blobs.has r.2) ||
      (db.snapChunks.rows.any fun r => !db.blobs.has r.2) ||
      (db.undoChunks.rows.any fun r => !db.blobs.has r.2) then [.orphan] else []) ++
  (if db.snapChunks.rows.any fun r => hasGap ((db.snapChunks.select
      fun c _ => c.1 = r.1.1 && c.2.1 = r.1.2.1).map fun r => r.1.2.2) then [.snapGaps] else [])

/-- The checks of the chunk lists: of a database on its own, and of a Delta over a Base. -/
def Db.layoutDrift (db : Db K) : Option (Db K) → List Drift
  | none =>
    (if db.chunks.rows.any fun r => hasGap ((db.chunkList r.1.1).map Prod.fst) then [.gaps]
      else []) ++
    (if db.fs.rows.any fun r => r.2.kind = .file && 0 < r.2.size &&
        (db.chunkList r.1).length = 0 then [.noChunks] else [])
  | some base =>
    (if db.fs.rows.any fun r => r.2.kind = .file && 0 < r.2.size &&
        (db.chunkList r.1).length = 0 && (base.chunkList r.1).length = 0 then [.uncovered]
      else []) ++
    (if db.fs.rows.any fun r => r.2.kind = .file &&
        db.coveredBytes r.1 + base.coveredBytes r.1 < r.2.size then [.short] else [])

/-- `vm_verify` with `deep`: what it reports as drift. -/
def vmVerifyDeep (E : Ext K) (base : Option (Db K)) : Sql K (List Drift) := do
  let _ ← finalizeDirty E
  Prog.reads fun db => db.commonDrift ++ db.layoutDrift base

/-! ## Injection -/

/-- What an injection changed. -/
structure InjectReport where
  /-- Paths of the package. -/
  paths : ℕ
  /-- Paths that were there before. -/
  replaced : ℕ
  /-- New blobs. -/
  blobsAdded : ℕ
  /-- New dictionaries. -/
  dictsAdded : ℕ

/-- Append the dictionaries the blobs of a package use; returns their new ids. -/
def injectDicts (pkg : Db K) : List ℕ → Sql K (List (ℕ × ℕ))
  | [] => pure []
  | pid :: rest => do
    let dict ← Prog.query fun _ =>
      match pkg.dicts.get? pid with
      | some d => .ok d
      | none => .error (.missingDict pid)
    let id ← vmSetDict dict
    let tail ← injectDicts pkg rest
    return (pid, id) :: tail

/-- Copy one blob of a package, its dictionary renamed. -/
def injectBlob (dictMap : List (ℕ × ℕ)) (r : K × Block) : Sql K Unit := do
  let mapped ← Prog.query fun _ =>
    if r.2.dictId = 0 then .ok 0
    else match dictMap.lookup r.2.dictId with
      | some id => .ok id
      | none => .error (.missingDict r.2.dictId)
  insertBlobIgnore r.1 { r.2 with dictId := mapped }

/-- The row of one path of a package, its blobs, then its chunk rows; returns the number of new
blobs. -/
def mergePath (pkg : Db K) (dictMap : List (ℕ × ℕ)) (p : Str) : Sql K ℕ := do
  insertFsRows ((pkg.fs.select fun q _ => q = p).map fun r => (r.1, { r.2 with content := none }))
  let before ← Prog.reads fun db => db.blobs.rows.length
  -- A chunk of the package without a blob drops out of the join.
  let blobs := ((pkg.chunkList p).filterMap fun r =>
    (pkg.blobs.get? r.2).map fun c => (r.2, c.val)).dedup
  blobs.forM (injectBlob dictMap)
  let after ← Prog.reads fun db => db.blobs.rows.length
  insertChunks ((pkg.chunkList p).map fun r => ((p, r.1), r.2))
  return after - before

/-- Merge one path of a package over what is there. -/
def injectPath (pkg : Db K) (dictMap : List (ℕ × ℕ)) (rep : InjectReport) (p : Str) :
    Sql K InjectReport := do
  let existed ← Prog.reads fun db => db.fs.has p
  (if existed then deleteFs fun q => q = p else pure () : Sql K Unit)
  let added ← mergePath pkg dictMap p
  return { rep with
    replaced := rep.replaced + if existed then 1 else 0
    blobsAdded := rep.blobsAdded + added }

/-- `inject`: merge every path of a package but the root, in one transaction that is kept only if
the result verifies. `base` is the Base attached to the target, if it is a Delta. -/
def inject (E : Ext K) (base : Option (Db K)) (pkg : Db K) : Sql K InjectReport := do
  if pkg.dirty ≠ [] then throw .pendingHashes
  inSavepoint do
    let needed := ((pkg.blobs.rows.map fun r => r.2.val.dictId).filter (· ≠ 0)).dedup.insertionSort
      (· ≤ ·)
    let dictMap ← injectDicts pkg needed
    let paths := ((pkg.fs.rows.map Prod.fst).filter (· ≠ root)).insertionSort
      fun a b => pathBefore a b
    let rep ← paths.foldlM (injectPath pkg dictMap) ⟨paths.length, 0, 0, needed.length⟩
    let drift ← vmVerifyDeep E base
    if drift ≠ [] then throw .drift
    return rep

end Dbvm
