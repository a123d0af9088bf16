import Dbvm.Store

/-!
# The overlay of a Base and a Delta

The copy-on-write overlay (`src/overlay.rs`): a Base that is never written, a Delta with its own
rows, chunks and blobs, and the whiteouts that hide paths of the Base. A path is looked up in the
Delta first and in the Base after that. A file of the Delta need not hold all its chunks: the reader
takes the missing ones from the Base.
-/

namespace Dbvm

open Lib Lib.Chunks

variable {K : Type} [DecidableEq K]

/-- An open overlay. -/
structure Overlay (K : Type) where
  /-- The Base, attached read-only. -/
  base : Db K
  /-- The Delta. -/
  main : Db K
  /-- `vm_whiteouts` of the Delta. -/
  whiteouts : List Str

/-- A program on an overlay. -/
abbrev Ov (K α : Type) := EStateM Err (Overlay K) α

/-- Which layer answers a lookup. -/
inductive Layer where
  /-- The Delta. -/
  | delta
  /-- The Base. -/
  | base
  /-- Neither. -/
  | missing
  deriving DecidableEq

/-- The two databases of the connection. -/
inductive Schema where
  /-- The Delta. -/
  | main
  /-- The Base. -/
  | base
  deriving DecidableEq

namespace Overlay

omit [DecidableEq K] in
/-- The database of a schema. -/
def db (o : Overlay K) : Schema → Db K
  | .main => o.main
  | .base => o.base

omit [DecidableEq K] in
/-- A program on the Delta. -/
def onMain {α : Type} (x : Sql K α) : Ov K α := fun o =>
  match x o.main with
  | .ok a db => .ok a { o with main := db }
  | .error e db => .error e { o with main := db }

omit [DecidableEq K] in
/-- `write_tx`: a failure rolls everything back. -/
def writeTx {α : Type} (x : Ov K α) : Ov K α := Prog.savepoint (fun o _ => o) x

/-! ## Lookups -/

/-- A path and its ancestors up to the root, as the walks of the source list them. -/
def selfAndAncestors (p : Str) : List Str :=
  p :: (ancestors p ++ if p.head? = some '/' then [root] else [])

/-- Whether the path or an ancestor has a whiteout. -/
def whitedOut (o : Overlay K) (p : Str) : Bool :=
  (selfAndAncestors p).any fun a => decide (a ∈ o.whiteouts)

/-- Where a path currently resolves. -/
def locate (o : Overlay K) (vmPath : Str) : Layer :=
  let p := normalizeVmPath vmPath
  if o.whitedOut p then .missing
  else if o.main.fs.has p then .delta
  else if o.base.fs.has p then .base
  else .missing

/-- The kind of a path in one layer. -/
def kindIn (o : Overlay K) (s : Schema) (p : Str) : Option Kind :=
  ((o.db s).fs.get? p).map fun row => row.kind

/-- The kind of a path in the merged view. -/
def kindInOverlay (o : Overlay K) (p : Str) : Option Kind :=
  match o.locate p with
  | .delta => o.kindIn .main p
  | .base => o.kindIn .base p
  | .missing => none

/-- Which layer holds the regular file the overlay shows at `p`. A row of the Delta counts without
a look at the whiteouts. -/
def lookupFile (o : Overlay K) (p : Str) : Option Schema :=
  match o.kindIn .main p with
  | some kind => if kind = .file then some .main else none
  | none =>
    match o.kindIn .base p with
    | some kind => if kind ≠ .file || o.whitedOut p then none else some .base
    | none => none

/-- The target of a link. -/
def readlink (o : Overlay K) (vmPath : Str) : Except Err Str :=
  let p := normalizeVmPath vmPath
  let target := fun s => ((o.db s).fs.get? p).bind fun row =>
    if row.kind = .symlink then row.linkTarget else none
  match o.locate p with
  | .missing => .error (.notFound p)
  | .delta => (target .main).elim (.error (.notLink p)) .ok
  | .base => (target .base).elim (.error (.notLink p)) .ok

/-- `s.get(n..)`: the text after its first `n` bytes of UTF-8, if a character begins there. -/
def dropBytes : ℕ → Str → Option Str
  | 0, s => some s
  | _ + 1, [] => none
  | n + 1, c :: s => if c.utf8Size ≤ n + 1 then dropBytes (n + 1 - c.utf8Size) s else none

/-- The length of a text in UTF-8. -/
def byteLen (s : Str) : ℕ := (s.map Char.utf8Size).sum

/-- The name of a path directly below a directory, by the length of the directory's prefix. -/
def directName (pfx path : Str) : Option Str :=
  (dropBytes (byteLen pfx) path).filter fun rest => rest ≠ [] && !rest.contains '/'

/-- The names of the direct children of a directory, merged across the layers. -/
def list (o : Overlay K) (vmPath : Str) : Except Err (List Str) :=
  let p := normalizeVmPath vmPath
  if o.kindInOverlay p ≠ some .dir then .error (.notDir p)
  else
    let pfx := if p = root then root else p ++ ['/']
    let pattern := pfx ++ ['%']
    let names := fun paths : List Str => (paths.filter fun q => like pattern q).filterMap
      (directName pfx)
    let deltaNames := names (o.main.fs.rows.map Prod.fst)
    let baseNames := names (o.base.fs.rows.map Prod.fst)
    -- The whiteouts on `p` or below it, and those on its ancestors.
    let near := o.whiteouts.filter fun w => w = p || like pattern w
    let hideAll := near.any (fun w => decide (w ∈ selfAndAncestors p)) ||
      (selfAndAncestors p).tail.any fun a => decide (a ∈ o.whiteouts)
    let hidden := near.filterMap (directName pfx)
    let shown := if hideAll then [] else baseNames.filter fun n => n ∉ hidden
    .ok ((deltaNames ++ shown).dedup.insertionSort fun a b => decide (a ≤ b))

/-- Every path of the merged view, with its kind. -/
def allPaths (o : Overlay K) : List (Str × Kind) :=
  ((o.base.fs.rows.filter fun r => r.1 ≠ root && !o.whitedOut r.1) ++
    (o.main.fs.rows.filter fun r => r.1 ≠ root)).map fun r => (r.1, r.2.kind)

/-! ## Reading -/

/-- One chunk of a file from one layer. -/
def readChunk (E : Ext K) (o : Overlay K) (s : Schema) (p : Str) (idx : ℕ) : Except Err Bytes :=
  match (o.db s).chunks.get? (p, idx) with
  | none => .error (.missingChunk p idx)
  | some k => (o.db s).blobBytes E p idx k

/-- One chunk of a file whose row is in a layer; a chunk the Delta does not hold comes from the
Base, and is empty if that has none. -/
def readChunkLayered (E : Ext K) (o : Overlay K) (s : Schema) (p : Str) (idx : ℕ) :
    Except Err Bytes :=
  if s = .main ∧ o.main.chunks.has (p, idx) = false then
    if o.base.chunks.has (p, idx) then o.readChunk E .base p idx else .ok []
  else o.readChunk E s p idx

/-- The windows of the chunks of a range. -/
def readWindows (E : Ext K) (o : Overlay K) (s : Schema) (p : Str) (start stop : ℕ) :
    List ℕ → Except Err Bytes
  | [] => .ok []
  | idx :: rest => do
    let piece ← o.readChunkLayered E s p idx
    let tail ← readWindows E o s p start stop rest
    .ok (pieceWindow piece (idx * chunkSize) start stop ++ tail)

/-- The size column of a path in one layer. -/
def sizeIn (o : Overlay K) (s : Schema) (p : Str) : ℕ :=
  ((o.db s).fs.get? p).elim 0 fun row => row.size

/-- `Overlay::read_range`. -/
def readRange (E : Ext K) (o : Overlay K) (vmPath : Str) (off len : ℕ) : Except Err Bytes :=
  let p := normalizeVmPath vmPath
  match o.lookupFile p with
  | none => .error (.notFound p)
  | some s =>
    let size := o.sizeIn s p
    let start := min off size
    let stop := min (start + len) size
    if start = stop then .ok []
    else do
      let first := start / chunkSize
      let last := (stop - 1) / chunkSize
      let out ← readWindows E o s p start stop (List.range' first (last + 1 - first))
      if out.length ≠ stop - start then .error (.sizeMismatch p) else .ok out

/-- Whether the chunk list of a layer is `0, 1, …, n - 1`. -/
def chunksAreDense (o : Overlay K) (s : Schema) (p : Str) : Bool :=
  let idxs := ((o.db s).chunkList p).map Prod.fst
  (if idxs = [] then 0 else idxs.foldl max 0 + 1) = idxs.length

/-- The loop of `read_dense` over the chunk rows, each with its blob or without. -/
def densePieces (E : Ext K) (db : Db K) (p : Str) : ℕ → List (ℕ × K) → Except Err Bytes
  | _, [] => .ok []
  | expect, (idx, key) :: rest =>
    if idx ≠ expect then .error (.missingChunk p expect)
    else do
      let piece ← db.blobBytes E p idx key
      let tail ← densePieces E db p (expect + 1) rest
      .ok (piece ++ tail)

/-- Read a file whose layer holds all its chunks, in one statement. -/
def readDense (E : Ext K) (o : Overlay K) (s : Schema) (p : Str) : Except Err Bytes :=
  match (o.db s).fs.get? p with
  | none => .error (.notFound p)
  | some row => do
    let out ← densePieces E (o.db s) p 0 ((o.db s).chunkList p)
    if row.kind ≠ .file then .error (.notFile p)
    else if out.length ≠ row.size then .error (.sizeMismatch p)
    else .ok out

/-- The chunks of a file of `size` bytes, each from the layer that holds it and cut to its length.
-/
def layeredPieces (E : Ext K) (o : Overlay K) (s : Schema) (p : Str) (size : ℕ) :
    List ℕ → Except Err Bytes
  | [] => .ok []
  | idx :: rest => do
    let piece ← o.readChunkLayered E s p idx
    let want := min (size - idx * chunkSize) chunkSize
    -- The last chunk may be longer than needed, the others must fit.
    if (if idx + 1 = numChunks chunkSize size then piece.length < want else piece.length ≠
      want) then
      .error (.chunkLength p idx)
    else do
      let tail ← layeredPieces E o s p size rest
      .ok (piece.take want ++ tail)

/-- Read a file chunk by chunk across the layers. -/
def readFileLayered (E : Ext K) (o : Overlay K) (s : Schema) (p : Str) : Except Err Bytes :=
  match (o.db s).fs.get? p with
  | none => .error (.notFound p)
  | some row =>
    if row.kind ≠ .file then .error (.notFile p)
    else do
      let out ← layeredPieces E o s p row.size (List.range (numChunks chunkSize row.size))
      if out.length ≠ row.size then .error (.sizeMismatch p) else .ok out

/-- The reader for a file: by the shape of its chunk list. -/
def readFrom (E : Ext K) (o : Overlay K) (s : Schema) (p : Str) : Except Err Bytes :=
  if o.chunksAreDense s p then o.readDense E s p else o.readFileLayered E s p

/-- `Overlay::read`. -/
def read (E : Ext K) (o : Overlay K) (vmPath : Str) : Except Err Bytes :=
  let p := normalizeVmPath vmPath
  match o.lookupFile p with
  | some s => o.readFrom E s p
  | none => .error (.notFound p)

/-! ## The Base's policies -/

/-- The total size of the regular files of the merged view. -/
def viewFileBytes (o : Overlay K) : ℤ :=
  (o.base.fs.rows.map fun r => r.2.logical).sum +
    ((o.main.fs.rows.filter fun r => !o.base.fs.has r.1).map fun r => r.2.logical).sum

/-- The disk quotas of the Base. -/
def quotas (o : Overlay K) : List ℕ := o.base.policies.filterMap fun
  | .diskQuota q => some q
  | _ => none

/-- A read-only prefix or a quota already passed refuses any write. -/
def checkBasePolicy (p : Str) : Ov K Unit := Prog.query fun o =>
  if o.base.policies.any fun
    | .readonlyPrefix pfx => covers pfx p
    | _ => false then .error .refused
  else if o.quotas.any fun q => (q : ℤ) < o.viewFileBytes then .error .refused
  else .ok ()

/-- A quota refuses a write that makes the Delta grow past it. -/
def checkBaseQuota (growth : Overlay K → ℤ) : Ov K Unit := Prog.query fun o =>
  if o.quotas.any fun q => (q : ℤ) < o.viewFileBytes + growth o then .error .refused else .ok ()

/-- A size limit refuses a larger file. -/
def checkBaseMaxFile (size : Overlay K → ℕ) : Ov K Unit := Prog.query fun o =>
  if o.base.policies.any fun
    | .maxFileSize n => n < size o
    | _ => false then .error .refused
  else .ok ()

/-! ## Whiteouts -/

/-- `INSERT OR IGNORE INTO vm_whiteouts`. -/
def addWhiteout (w : List Str) (p : Str) : List Str := if p ∈ w then w else w ++ [p]

/-- The paths of the Base below `anc`, by the `LIKE` pattern of the source. -/
def basePathsUnder (base : Db K) (anc : Str) : List Str :=
  (base.fs.rows.map Prod.fst).filter fun q => like (anc ++ ['/', '%']) q

/-- The whiteouts after those that hide `p` are cleared. Every path of the Base that one of them hid
besides gets a whiteout of its own first, except those the source leaves out. -/
def clearedWhiteouts (base : Db K) (w : List Str) (p : Str) : List Str :=
  let ancs := ancestors p
  let whited := ancs.filter fun a => a ∈ w
  let locked := whited.flatMap fun anc => (basePathsUnder base anc).filter fun bp =>
    !(bp = p || (p ++ ['/']).isPrefixOf bp || bp ∈ ancs)
  let w := locked.foldl addWhiteout w
  let w := if p ∈ w then (basePathsUnder base p).foldl addWhiteout w else w
  w.filter fun q => q ≠ p && q ∉ ancs

/-- `clear_whiteouts_for`. -/
def clearWhiteoutsFor (p : Str) : Ov K Unit :=
  modify fun o => { o with whiteouts := clearedWhiteouts o.base o.whiteouts p }

/-! ## Writing -/

/-- `Overlay::write`. -/
def write (E : Ext K) (vmPath : Str) (data : Bytes) (mode mtime now : ℤ) : Ov K Unit := do
  let p := normalizeVmPath vmPath
  checkBasePolicy p
  checkBaseMaxFile fun _ => data.length
  checkBaseQuota fun o => data.length - o.sizeIn .main p
  writeTx do
    clearWhiteoutsFor p
    onMain (vmAddBytes E p data mode mtime now)

/-- `Overlay::mkdir`. -/
def mkdir (vmPath : Str) (now : ℤ) : Ov K Unit := do
  let p := normalizeVmPath vmPath
  checkBasePolicy p
  writeTx do
    clearWhiteoutsFor p
    onMain (vmAddDir p 0o755 now now)

/-- `Overlay::symlink`. -/
def symlink (vmPath target : Str) (now : ℤ) : Ov K Unit := do
  let p := normalizeVmPath vmPath
  checkBasePolicy p
  writeTx do
    clearWhiteoutsFor p
    onMain (vmAddSymlink p target now)

/-- A path that a removal of `p` takes, by the `LIKE` pattern of the source. -/
def inSubtree (p q : Str) : Bool := q = p || like ((if p = root then [] else p) ++ ['/', '%']) q

/-- Whether the Base has the path or something below it. -/
def inBaseSubtree (base : Db K) (p : Str) : Bool := base.fs.rows.any fun r => inSubtree p r.1

/-- `Overlay::remove`. -/
def remove (vmPath : Str) : Ov K Unit := do
  let p := normalizeVmPath vmPath
  checkBasePolicy p
  writeTx do
    onMain (deleteFs (inSubtree p))
    modify fun o =>
      if inBaseSubtree o.base p then { o with whiteouts := addWhiteout o.whiteouts p } else o

/-- The row of a file a range write creates. Its hash is not known yet. -/
def deltaFileRow (mode mtime : ℤ) (size : ℕ) : FsRow K :=
  { kind := .file, mode := mode, mtime := mtime, mtimeNs := 0, size := size, linkTarget := none
    hash := .empty, content := none, compressed := 0 }

/-- Make sure the Delta has a row at `p` with this size (`ensure_delta_file_row`). A row that is
there keeps its kind. -/
def ensureDeltaFileRow (p : Str) (mode mtime : ℤ) (size : ℕ) : Sql K Unit := do
  let there ← Prog.reads fun db => db.fs.has p
  if there then updateFs p fun row => { row with size := size, mtime := mtime }
  else insertFs p (deltaFileRow mode mtime size)

/-- The bytes of a file, chunk by chunk across the layers. -/
def layeredBytes (E : Ext K) (o : Overlay K) (p : Str) : List ℕ → Except Err Bytes
  | [] => .ok []
  | idx :: rest => do
    let piece ← o.readChunkLayered E .main p idx
    let tail ← layeredBytes E o p rest
    .ok (piece ++ tail)

/-- Write the size and the hash of the whole file to its row (`refresh_delta_file`). -/
def refreshDeltaFile (E : Ext K) (p : Str) (size : ℕ) (mtime : ℤ) : Ov K Unit := do
  let bytes ← Prog.query fun o =>
    o.layeredBytes E p (List.range (numChunks chunkSize size))
  onMain (updateFs p fun row =>
    { row with size := size, hash := .key (E.blobKey bytes), mtime := mtime })

/-- A file as a range write finds it: its size, its mode and the layer that holds it. -/
def fileView (o : Overlay K) (p : Str) : ℕ × ℤ × Option Schema :=
  match o.lookupFile p with
  | some s => (o.sizeIn s p, ((o.db s).fs.get? p).elim 0 fun row => row.mode, some s)
  | none => (0, 0o644, none)

/-- One chunk of a range write: the bytes the file has there, `f` of them stored in the Delta. -/
def rewriteChunk (E : Ext K) (p : Str) (size : ℕ) (layer : Schema) (f : ℕ → Bytes → Bytes)
    (idx : ℕ) : Ov K Unit := do
  let piece ← Prog.query fun o =>
    if idx * chunkSize < size then o.readChunkLayered E layer p idx else .ok []
  onMain (swapChunk E .archive p idx (f idx piece))

/-- `Overlay::write_range`. -/
def writeRange (E : Ext K) (vmPath : Str) (off : ℕ) (data : Bytes) (mtime : ℤ) : Ov K Unit := do
  let p := normalizeVmPath vmPath
  checkBasePolicy p
  if data = [] then return
  checkBaseMaxFile fun o => max (o.fileView p).1 (off + data.length)
  checkBaseQuota fun o =>
    let after : ℤ := (max (o.fileView p).1 (off + data.length) : ℕ)
    if 0 < o.sizeIn .main p then after - o.sizeIn .main p else after
  writeTx do
    clearWhiteoutsFor p
    -- What the file is once its whiteouts are gone.
    let (size, mode, layer) ← Prog.reads fun o => o.fileView p
    let newSize := max size (off + data.length)
    let first := min off size / chunkSize
    let last := (off + data.length - 1) / chunkSize
    onMain (ensureDeltaFileRow p mode mtime newSize)
    (List.range' first (last + 1 - first)).forM (rewriteChunk E p size (layer.getD .main)
      fun idx piece => overlayPiece piece (idx * chunkSize) newSize off data)
    refreshDeltaFile E p newSize mtime

/-- `Overlay::truncate_range`. -/
def truncateRange (E : Ext K) (vmPath : Str) (newSize : ℕ) (mtime : ℤ) : Ov K Unit := do
  let p := normalizeVmPath vmPath
  checkBasePolicy p
  writeTx do
    clearWhiteoutsFor p
    let (size, mode, layer) ← Prog.reads fun o => o.fileView p
    match layer with
    | none => throw (.notFound p)
    | some s =>
      if newSize = size then return
      let keep := numChunks chunkSize newSize
      let tailStart := min newSize size / chunkSize
      onMain (ensureDeltaFileRow p mode mtime newSize)
      (List.range' tailStart (keep - tailStart)).forM (rewriteChunk E p size s
        fun idx piece => resize 0 piece (min (newSize - idx * chunkSize) chunkSize))
      onMain (deleteChunks fun q i => q = p && keep ≤ i)
      refreshDeltaFile E p newSize mtime

end Overlay

end Dbvm
