import Dbvm.Content
import Dbvm.Overlay.Refs

/-!
# Overlay operations that no policy refuses

With no rules in the Base and none in force in the Delta, the checks of the overlay's operations
pass and their statements take effect.
-/

namespace Dbvm.Overlay

open Lib Lib.Chunks Lib.Prog

variable {K : Type} [DecidableEq K] {E : Ext K} {o : Overlay K}

/-! ## Checks -/

omit [DecidableEq K] in
/-- A Base without policies refuses no path. -/
theorem checkBasePolicy_of_nil (h : o.base.policies = []) (p : Str) :
    checkBasePolicy p o = .ok () o := query_of_ok (by simp [quotas, h])

omit [DecidableEq K] in
/-- A Base without policies refuses no size. -/
theorem checkBaseMaxFile_of_nil (h : o.base.policies = []) (size : Overlay K → ℕ) :
    checkBaseMaxFile size o = .ok () o := query_of_ok (by simp [h])

omit [DecidableEq K] in
/-- A Base without policies refuses no growth. -/
theorem checkBaseQuota_of_nil (h : o.base.policies = []) (growth : Overlay K → ℤ) :
    checkBaseQuota growth o = .ok () o := query_of_ok (by simp [quotas, h])

omit [DecidableEq K] in
/-- A program on the Delta returns what it returns there. -/
theorem onMain_of_ok {α : Type} {x : Sql K α} {a : α} {db : Db K} (h : x o.main = .ok a db) :
    onMain x o = .ok a { o with main := db } := by rw [onMain, h]

/-! ## Reading -/

/-- A chunk the Delta holds. -/
theorem readChunkLayered_of_decodes {p : Str} {idx : ℕ} {k : K} {piece : Bytes}
    (hrow : o.main.chunks.get? (p, idx) = some k) (hdec : o.main.Decodes E k piece) :
    o.readChunkLayered E .main p idx = .ok piece := by
  have hread : o.readChunk E .main p idx = .ok piece := by
    simp only [readChunk, Overlay.db, hrow, hdec.blobBytes]
  rw [readChunkLayered, if_neg (by simp [Table.has_eq_true.2 ⟨k, hrow⟩]), hread]

/-! ## Range writes -/

/-- One chunk is read and stored. -/
theorem rewriteChunk_of_unpoliced (hu : o.main.Unpoliced) {p : Str} {size idx : ℕ} {s : Schema}
    (piece : Bytes) (f : ℕ → Bytes → Bytes)
    (hread : (if idx * chunkSize < size then o.readChunkLayered E s p idx else .ok []) =
      .ok piece) :
    rewriteChunk E p size s f idx o =
      .ok () { o with main := o.main.withChunk E .archive p idx (f idx piece) } := by
  have hq : (query fun o : Overlay K =>
      if idx * chunkSize < size then o.readChunkLayered E s p idx else .ok []) o = .ok piece o :=
    query_of_ok hread
  unfold rewriteChunk
  rw [bind_of_ok hq]
  exact onMain_of_ok (swapChunk_of_unpoliced hu)

/-- A range write without policies: its body, on the overlay with the whiteouts cleared. -/
theorem writeRange_of_unpoliced (hb : o.base.policies = []) {vmPath : Str} {off : ℕ} {data : Bytes}
    (hd : data ≠ []) {mtime : ℤ} {p : Str} (hp : normalizeVmPath vmPath = p) {size : ℕ} {mode : ℤ}
    {layer : Option Schema} (hv : (o.unhide p).fileView p = (size, mode, layer)) {o' : Overlay K}
    (hbody : (do
      onMain (ensureDeltaFileRow p mode mtime (max size (off + data.length)))
      (List.range' (min off size / chunkSize) ((off + data.length - 1) / chunkSize + 1 -
        min off size / chunkSize)).forM (rewriteChunk E p size (layer.getD .main) fun idx piece =>
          overlayPiece piece (idx * chunkSize) (max size (off + data.length)) off data)
      refreshDeltaFile E p (max size (off + data.length)) mtime) (o.unhide p) = .ok () o') :
    writeRange E vmPath off data mtime o = .ok () o' := by
  unfold writeRange
  rw [hp, bind_of_ok (checkBasePolicy_of_nil hb p), if_neg hd,
    bind_of_ok (checkBaseMaxFile_of_nil hb _), bind_of_ok (checkBaseQuota_of_nil hb _)]
  refine savepoint_eq_ok.2 ?_
  rw [bind_of_ok (clearWhiteoutsFor_apply p o), reads_bind, hv]
  exact hbody

/-- The size and the hash of a file whose chunks can be read. -/
theorem refreshDeltaFile_of_unpoliced (hu : o.main.Unpoliced) {p : Str} {size : ℕ} (mtime : ℤ)
    {bytes : Bytes} {row : FsRow K}
    (hread : o.layeredBytes E p (List.range (numChunks chunkSize size)) = .ok bytes)
    (hrow : o.main.fs.get? p = some row) :
    refreshDeltaFile E p size mtime o = .ok () { o with main := o.main.setFs p fun row =>
      { row with size := size, hash := .key (E.blobKey bytes), mtime := mtime } } := by
  have hq : (query fun o : Overlay K =>
      o.layeredBytes E p (List.range (numChunks chunkSize size))) o = .ok bytes o :=
    query_of_ok hread
  unfold refreshDeltaFile
  rw [bind_of_ok hq]
  exact onMain_of_ok (updateFs_of_unpoliced hu _ hrow)

/-- The row of a file that is in the Delta already. -/
theorem ensureDeltaFileRow_total {db : Db K} (h : Sound E db) (hu : db.Unpoliced) {p : Str}
    {row : FsRow K} (hrow : db.fs.get? p = some row) (mode mtime : ℤ) (size : ℕ) :
    ∃ db', ensureDeltaFileRow p mode mtime size db = .ok () db' ∧ Sound E db' ∧ db'.Unpoliced ∧
      db'.chunks = db.chunks ∧ db'.refs = db.refs ∧
      db'.fs.get? p = some { row with size := size, mtime := mtime } ∧
      ∀ q, q ≠ p → db'.fs.get? q = db.fs.get? q := by
  unfold ensureDeltaFileRow
  rw [reads_bind, if_pos (Table.has_eq_true.2 ⟨row, hrow⟩)]
  exact updateFs_total h hu hrow fun _ h => h

end Dbvm.Overlay
