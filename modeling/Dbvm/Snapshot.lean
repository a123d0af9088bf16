import Dbvm.Store

/-!
# Snapshots and undo records

Content snapshots (`src/vm/snapshot.rs`) and undo records (`src/vm/undo.rs`). Both copy rows of
`vm_fs` and chunk references into tables of their own, whose rows count as references to the blobs.
A restore deletes the live rows first; the copies keep every blob it needs.
-/

namespace Dbvm

open Lib

variable {K : Type} [DecidableEq K]

/-- `length(path)` of SQL: the characters before the first NUL. -/
def sqlLength (path : Str) : ℕ := (Sql.cText path).length

/-- `ORDER BY length(path), path`. -/
def pathBefore (a b : Str) : Bool :=
  sqlLength a < sqlLength b || (sqlLength a = sqlLength b && decide (a ≤ b))

/-- A row of `vm_fs` as a copy of it is put back. -/
def FsMeta.toRow (m : FsMeta K) : FsRow K := { m with content := none, compressed := 0 }

/-- The difference between two trees. -/
structure SnapDiff where
  /-- Paths that are new. -/
  created : List Str
  /-- Paths whose kind, hash, mode or link target changed. -/
  modified : List Str
  /-- Paths that are gone. -/
  deleted : List Str
  deriving DecidableEq

/-- Whether two rows count as different: kind, content hash, mode or link target. -/
def FsMeta.differs (a b : FsMeta K) : Bool :=
  a.kind ≠ b.kind || a.hash ≠ b.hash || a.mode ≠ b.mode || a.linkTarget ≠ b.linkTarget

/-! ## Snapshots -/

/-- The id of a snapshot. -/
def Db.snapshotId (db : Db K) (name : Str) : Except Err ℕ :=
  match db.snapshots.rows.find? fun r => r.2 = name with
  | some r => .ok r.1
  | none => .error (.noSnapshot name)

/-- Copy the live tree under the id of a snapshot. -/
def copyTree (id : ℕ) : Sql K Unit := do
  copySnapFs id
  copySnapChunks id

/-- `snapshot_create`. -/
def snapshotCreate (E : Ext K) (name : Str) : Sql K ℕ := do
  let _ ← finalizeDirty E
  inSavepoint do
    let id ← insertSnapshot name
    copyTree id
    return id

/-- `snapshot_create_named`: the name ends in the id of the row, which is inserted under a name
nobody else takes. -/
def snapshotCreateNamed (E : Ext K) (pfx placeholder : Str) : Sql K (ℕ × Str) := do
  let _ ← finalizeDirty E
  inSavepoint do
    let id ← insertSnapshot placeholder
    let name := pfx ++ '-' :: Nat.toDigits 10 id
    renameSnapshot id name
    copyTree id
    return (id, name)

/-- `snapshot_restore`: the live tree becomes the snapshot's, under the policy bypass. -/
def snapshotRestore (name : Str) : Sql K Unit := withBypass do
  let id ← Prog.query fun db => db.snapshotId name
  inSavepoint do
    deleteChunks fun _ _ => true
    deleteFs fun _ => true
    let rows ← Prog.reads fun db =>
      ((db.snapFs.select fun c _ => c.1 = id).map fun r => (r.1.2, r.2.toRow)).insertionSort
        fun a b => pathBefore a.1 b.1
    insertFsRows rows
    let chunks ← Prog.reads fun db =>
      (db.snapChunks.select fun c _ => c.1 = id).map fun r => (r.1.2, r.2)
    insertChunks chunks

/-- `snapshot_delete`. -/
def snapshotDelete (name : Str) : Sql K Unit := do
  let id ← Prog.query fun db => db.snapshotId name
  inSavepoint (deleteSnapshot id)

/-- `snapshot_retain`: all but the newest `keep` are deleted; returns their names. -/
def snapshotRetain (keep : ℕ) : Sql K (List Str) := do
  let names ← Prog.reads fun db =>
    (db.snapshots.rows.insertionSort fun a b => a.1 ≤ b.1).map Prod.snd
  let removed := names.take (names.length - keep)
  removed.forM snapshotDelete
  return removed

/-- The live tree compared with the rows `old` of a snapshot. -/
def Db.diffWith (db : Db K) (old : Str → Option (FsMeta K)) (oldPaths : List Str) : SnapDiff :=
  let live := (db.fs.rows.insertionSort fun a b => decide (a.1 ≤ b.1))
  { created := (live.filter fun r => (old r.1).isNone).map Prod.fst
    modified := (live.filter fun r => (old r.1).any fun m => m.differs r.2.toFsMeta).map Prod.fst
    deleted := (oldPaths.filter fun p => !db.fs.has p).insertionSort fun a b => decide (a ≤ b) }

/-- `snapshot_diff_live`. -/
def snapshotDiffLive (E : Ext K) (name : Str) : Sql K SnapDiff := do
  let _ ← finalizeDirty E
  let id ← Prog.query fun db => db.snapshotId name
  Prog.reads fun db => db.diffWith (fun p => db.snapFs.get? (id, p))
    ((db.snapFs.select fun c _ => c.1 = id).map fun r => r.1.2)

/-! ## Undo records -/

/-- `undo_begin`. -/
def undoBegin : Sql K ℕ := insertUndo

/-- `undo_capture`: the first capture of a path in a record counts. -/
def undoCapture (id : ℕ) (path : Str) : Sql K Unit := do
  let seen ← Prog.reads fun db => db.undoFs.has (id, path)
  if seen then return
  let row ← Prog.reads fun db => db.fs.get? path
  match row with
  | some r =>
    insertUndoFs id path (some r.toFsMeta)
    copyUndoChunks id path
  | none => insertUndoFs id path none

/-- A path without the `/` at its end. -/
def trimEndSlashes (p : Str) : Str := (p.reverse.dropWhile (· = '/')).reverse

/-- `undo_capture_tree`: a path and what is below it. -/
def undoCaptureTree (id : ℕ) (path : Str) : Sql K Unit := do
  let below ← Prog.reads fun db =>
    (db.fs.select fun p _ => p = path || like (trimEndSlashes path ++ ['/', '%']) p).map Prod.fst
  below.forM (undoCapture id)

/-- `undo_diff`. -/
def Db.undoDiff (db : Db K) (id : ℕ) : SnapDiff :=
  let rows := ((db.undoFs.select fun c _ => c.1 = id).map fun r => (r.1.2, r.2)).insertionSort
    fun a b => decide (a.1 ≤ b.1)
  { created := (rows.filter fun r => r.2.isNone && db.fs.has r.1).map Prod.fst
    modified := (rows.filter fun r => r.2.any fun m =>
      (db.fs.get? r.1).any fun row => m.differs row.toFsMeta).map Prod.fst
    deleted := (rows.filter fun r => r.2.isSome && !db.fs.has r.1).map Prod.fst }

/-- Put one path of a record back. -/
def undoPut (id : ℕ) (r : Str × Option (FsMeta K)) : Sql K Unit :=
  match r.2 with
  | none => pure ()
  | some m => do
    insertFs r.1 m.toRow
    let chunks ← Prog.reads fun db =>
      (db.undoChunks.select fun c _ => c.1 = id && c.2.1 = r.1).map fun c => (c.1.2, c.2)
    insertChunks chunks

/-- `undo_apply`: every path of the record as it was, under the policy bypass. -/
def undoApply (id : ℕ) : Sql K Unit := withBypass (inSavepoint do
  -- `ORDER BY length(path) DESC, path`: the deepest first, and the shallowest first to put back.
  let rows ← Prog.reads fun db =>
    ((db.undoFs.select fun c _ => c.1 = id).map fun r => (r.1.2, r.2)).insertionSort
      fun a b =>
        sqlLength b.1 < sqlLength a.1 || (sqlLength a.1 = sqlLength b.1 && decide (a.1 ≤ b.1))
  rows.forM fun r => deleteFs fun q => q = r.1
  rows.reverse.forM (undoPut id))

/-- `undo_delete`. -/
def undoDelete (id : ℕ) : Sql K Unit := deleteUndo id

/-! ## What a new snapshot holds -/

section Snapshot

variable {db d d' : Db K} {id : ℕ} {u : Unit}

/-- The snapshot `id` holds the live rows and chunks. -/
structure Db.IsSnapshot (db : Db K) (id : ℕ) : Prop where
  /-- The rows. -/
  rows : ∀ p, db.snapFs.get? (id, p) = (db.fs.get? p).map fun r => r.toFsMeta
  /-- The chunks. -/
  chunks : ∀ p i, db.snapChunks.get? (id, p, i) = db.chunks.get? (p, i)

/-- The rows of snapshots belong to snapshots. -/
structure Db.SnapsOwned (db : Db K) : Prop where
  /-- Rows. -/
  rows : ∀ id p, db.snapshots.get? id = none → db.snapFs.get? (id, p) = none
  /-- Chunks. -/
  chunks : ∀ id p i, db.snapshots.get? id = none → db.snapChunks.get? (id, p, i) = none

omit [DecidableEq K] in
/-- Rows are copied under a new id, one after the other. -/
theorem foldlM_copies {κ ρ ρ' : Type} [DecidableEq κ] {T : Db K → Table (ℕ × κ) ρ'} {f : ρ → ρ'}
    (ins : Db K → κ × ρ → Except Err (Db K))
    (hins : ∀ d r d', ins d r = .ok d' →
      (T d).get? (id, r.1) = none ∧ T d' = (T d).insertIgnore (id, r.1) (f r.2))
    (src : Table κ ρ) (hfree : ∀ k, (T d).get? (id, k) = none)
    (h : src.rows.foldlM ins d = .ok d') (k : κ) :
    (T d').get? (id, k) = (src.get? k).map f := by
  -- The invariant of the loop: the rows copied so far are those in `done`.
  obtain ⟨done, hdone, hmem⟩ := Prog.foldlM_rest
    (J := fun rest t => ∃ done, src.rows = done ++ rest ∧
      ∀ k v, (T t).get? (id, k) = some v ↔ ∃ r, (k, r) ∈ done ∧ f r = v)
    (by
      rintro ⟨k₀, r₀⟩ rest t t' ⟨done, hdone, hmem⟩ hstep
      obtain ⟨hnone, hT⟩ := hins t (k₀, r₀) t' hstep
      refine ⟨done ++ [(k₀, r₀)], by simp [hdone], fun k v => ?_⟩
      rw [hT, Table.get?_insertIgnore]
      by_cases hk : k = k₀
      · -- The key was free: no copied row has it.
        have hnew : ∀ r, (k, r) ∉ done := by
          intro r hr
          have hsome := (hmem k (f r)).2 ⟨r, hr, rfl⟩
          rw [hk, hnone] at hsome
          cases hsome
        rw [if_pos (by rw [hk]), hnone]
        simp [hk, hk ▸ hnew]
      · rw [if_neg fun he => hk (congrArg Prod.snd he), hmem]
        simp [hk]) ⟨[], rfl, by simp [hfree]⟩ h
  rw [List.append_nil] at hdone
  apply Option.ext
  intro v
  rw [hmem, Option.map_eq_some_iff, ← hdone]
  simp only [Table.get?_eq_some_iff]

/-- The copies hold what is live, and the live tables stay. -/
theorem copyTree_ok (hrows : ∀ p, d.snapFs.get? (id, p) = none)
    (hchunks : ∀ c, d.snapChunks.get? (id, c) = none) (h : copyTree id d = .ok u d') :
    d'.fs = d.fs ∧ d'.chunks = d.chunks ∧ d'.dirty = d.dirty ∧ d'.IsSnapshot id := by
  obtain ⟨_, d₁, hfs, hch⟩ := Prog.bind_eq_ok.1 h
  rw [copySnapFs, statement_eq_ok] at hfs
  rw [copySnapChunks, statement_eq_ok] at hch
  -- The rows are copied by the first statement, the chunks by the second; each leaves the other's
  -- table alone.
  have hcopied := foldlM_copies (T := Db.snapFs) (f := fun r => r.toFsMeta)
    (Db.insertSnapFs? id) (by
      intro t r t' hstep
      unfold Db.insertSnapFs? at hstep
      split_ifs at hstep with hhas
      cases hstep
      exact ⟨Table.get?_of_not_has hhas, rfl⟩) d.fs hrows hfs
  obtain ⟨hfs₁, hch₁, hd₁, hsn₁⟩ := Prog.foldlM_inv (f := Db.insertSnapFs? id)
    (I := fun t => t.fs = d.fs ∧ t.chunks = d.chunks ∧ t.dirty = d.dirty ∧
      t.snapChunks = d.snapChunks) (by
      rintro r - t t' ht hstep
      unfold Db.insertSnapFs? at hstep
      split_ifs at hstep
      cases hstep
      exact ht) ⟨rfl, rfl, rfl, rfl⟩ hfs
  have hcopied' := foldlM_copies (T := Db.snapChunks) (f := fun k => k) (Db.insertSnapChunk? id) (by
      intro t r t' hstep
      unfold Db.insertSnapChunk? at hstep
      split_ifs at hstep with hhas
      cases hstep
      exact ⟨Table.get?_of_not_has hhas, rfl⟩) d₁.chunks (by rw [hsn₁]; exact hchunks) hch
  obtain ⟨hfs₂, hch₂, hd₂, hsn₂⟩ := Prog.foldlM_inv (f := Db.insertSnapChunk? id)
    (I := fun t => t.fs = d₁.fs ∧ t.chunks = d₁.chunks ∧ t.dirty = d₁.dirty ∧ t.snapFs = d₁.snapFs)
      (by
      rintro r - t t' ht hstep
      unfold Db.insertSnapChunk? at hstep
      split_ifs at hstep
      cases hstep
      exact ht) ⟨rfl, rfl, rfl, rfl⟩ hch
  refine ⟨hfs₂.trans hfs₁, hch₂.trans hch₁, hd₂.trans hd₁, fun p => ?_, fun p i => ?_⟩
  · rw [hsn₂, hcopied, hfs₂, hfs₁]
  · rw [hcopied', hch₂, Option.map_id']

end Snapshot

end Dbvm
