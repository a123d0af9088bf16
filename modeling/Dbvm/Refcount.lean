import Dbvm.Maint
import Dbvm.RangeWrite
import Dbvm.Overlay.Total

/-!
# Reference counts along every run

The counts of `vm_blobs` over all the operations that write to a database: the store, renames,
snapshots, undo records, maintenance, injection and the overlay. `RefOk` is the invariant; an
operation keeps it in whatever state it ends, so it holds in every state of a run
(`refCounts_of_reaches`). The range writes of the overlay keep it only while they change every chunk
they rewrite; `reaches_bad_refcnt` is a run in which one does not.
-/

namespace Dbvm

open Lib Lib.Chunks Lib.Prog

variable {K : Type} [DecidableEq K]

variable {db db' : Db K}

/-! ## Rows from copies -/

/-- A row that comes from a snapshot or an undo record keeps its blob referenced. -/
theorem keeps_insertChunks {rows : List ((Str × ℕ) × K)} {I : Db K → Prop}
    (hI : ∀ db p i k, I db → I (db.addChunk p i k))
    (hpos : ∀ db, I db → ∀ r ∈ rows, 0 < db.refs r.2) :
    Keeps (fun db => RefOk db ∧ I db) (insertChunks rows) := by
  refine Keeps.statement fun db db' h hx => ?_
  refine foldlM_inv (I := fun db => RefOk db ∧ I db) ?_ h hx
  rintro r hr d d' ⟨hd, hId⟩ hstep
  obtain ⟨hfree, rfl⟩ := insertChunk?_ok hstep
  refine ⟨hd.acquire (hpos d hId r hr) rfl (fun k' => ?_) rfl, hI d _ _ _ hId⟩
  simp only [Db.refs, Db.addChunk, Table.count_insertIgnore hfree, eq_comm (a := r.2)]
  omega

omit [DecidableEq K] in
/-- What a single new row keeps, an insert of several rows keeps. -/
theorem keeps_insertFsRows {rows : List (Str × FsRow K)} {I : Db K → Prop}
    (hI : ∀ db p row, row.content = none → I db → I (db.addFs p row))
    (hrows : ∀ r ∈ rows, r.2.content = none) : Keeps I (insertFsRows rows) := by
  refine Keeps.statement fun db db' h hx => foldlM_inv (I := I) ?_ h hx
  intro r hr d d' hd hstep
  obtain ⟨-, rfl⟩ := insertFs?_ok hstep
  exact hI d _ _ (hrows r hr) hd

/-! ## Renames -/

/-- An update of the path of a row of `vm_fs` keeps the reference counts exact. -/
theorem keeps_moveFs (old new : Str) : Keeps RefOk (moveFs (K := K) old new) := by
  refine Keeps.statement fun db db' h hx => ?_
  rcases hrow : db.fs.get? old with _ | row
  · rw [hrow] at hx
    cases hx
    exact h
  · rw [hrow] at hx
    dsimp only at hx
    split_ifs at hx
    rcases hre : db.fs.rekey (fun p => if p = old then new else p) with _ | fs
    · rw [hre] at hx
      cases hx
    · rw [hre] at hx
      cases hx
      refine h.of_fs (fun p row hp => ?_) (fun _ => rfl) rfl
      obtain ⟨k, -, hk⟩ := (Table.get?_rekey hre).1 hp
      exact h.inline k row hk

/-- An update of the path of the chunk rows of a file keeps the reference counts exact. -/
theorem keeps_moveChunks (old new : Str) : Keeps RefOk (moveChunks (K := K) old new) := by
  refine Keeps.statement fun db db' h hx => ?_
  split_ifs at hx
  rcases hre : db.chunks.rekey (fun c => if c.1 = old then (new, c.2) else c) with _ | chunks
  · rw [hre] at hx
    cases hx
  · rw [hre] at hx
    cases hx
    refine h.of_fs h.inline (fun k => ?_) rfl
    simp only [Db.refs, Table.count_rekey hre]

/-- The transaction of a rename of the mount keeps the reference counts exact. -/
theorem keeps_fuseRename (replaced : Option Str) (moves : List (Str × Str)) :
    Keeps RefOk (fuseRename (K := K) replaced moves) := by
  have hmoves : Keeps RefOk (moves.forM fun m => do
      moveFs (K := K) m.1 m.2
      moveChunks m.1 m.2) :=
    Keeps.forM (fun m => Keeps.bind (keeps_moveFs m.1 m.2) fun _ => keeps_moveChunks m.1 m.2) moves
  refine Keeps.inSavepoint (Keeps.triple ?_)
  rcases replaced with _ | d
  · exact hmoves
  · exact Keeps.bind (keeps_refOk_of fun _ => keeps_deleteFs fun _ _ => trivial) fun _ => hmoves

/-! ## Snapshots -/

omit [DecidableEq K] in
/-- A program with the triggers bypassed keeps what the program in it keeps. -/
theorem Keeps.withBypass {α : Type} {I : Db K → Prop} {x : Sql K α}
    (hI : ∀ db b, I db → I { db with bypass := b }) (h : Keeps I x) : Keeps I (withBypass x) := by
  intro db hdb
  have := h _ (hI db true hdb)
  unfold endState Dbvm.withBypass at *
  rcases hx : x { db with bypass := true } with ⟨a, d⟩ | ⟨e, d⟩
  · rw [hx] at this
    exact hI d false this
  · rw [hx] at this
    exact hI d false this

/-- The bypass flag has nothing to do with the counts. -/
theorem RefOk.setBypass (h : RefOk db) (b : Bool) : RefOk { db with bypass := b } :=
  h.of_fs h.inline (fun _ => rfl) rfl

/-- An insert of a snapshot keeps the reference counts exact. -/
theorem keeps_insertSnapshot (name : Str) : Keeps RefOk (insertSnapshot (K := K) name) := by
  refine Keeps.bind (Keeps.reads _) fun id => Keeps.bind (Keeps.statement fun db db' h hx => ?_)
    fun _ => Keeps.pure _
  split_ifs at hx
  cases hx
  exact h.of_fs h.inline (fun _ => rfl) rfl

/-- An update of a snapshot's name keeps the reference counts exact. -/
theorem keeps_renameSnapshot (id : ℕ) (name : Str) :
    Keeps RefOk (renameSnapshot (K := K) id name) := by
  refine Keeps.statement fun db db' h hx => ?_
  split_ifs at hx
  cases hx
  exact h.of_fs h.inline (fun _ => rfl) rfl

/-- The copy of the rows into a snapshot keeps the reference counts exact. -/
theorem keeps_copySnapFs (id : ℕ) : Keeps RefOk (copySnapFs (K := K) id) := by
  refine Keeps.statement fun db db' h hx => foldlM_inv (I := RefOk) ?_ h hx
  intro r _ d d' hd hstep
  unfold Db.insertSnapFs? at hstep
  split_ifs at hstep
  cases hstep
  exact hd.of_fs hd.inline (fun _ => rfl) rfl

/-- The copy of a chunk row refers to a blob that the row itself keeps. -/
theorem keeps_copySnapChunks (id : ℕ) : Keeps RefOk (copySnapChunks (K := K) id) := by
  refine Keeps.statement fun db db' h hx => ?_
  refine (foldlM_inv (I := fun d => RefOk d ∧ d.chunks = db.chunks) ?_ ⟨h, rfl⟩ hx).1
  rintro r hr d d' ⟨hd, hch⟩ hstep
  unfold Db.insertSnapChunk? at hstep
  split_ifs at hstep with hhas
  cases hstep
  have hrow : d.chunks.get? r.1 = some r.2 := by
    rw [hch, Table.get?_eq_some_iff]
    exact hr
  refine ⟨hd.acquire (Db.refs_pos_of_chunk hrow) rfl (fun k' => ?_) rfl, hch⟩
  simp only [Db.refs, Table.count_insertIgnore (Table.get?_of_not_has hhas), eq_comm (a := r.2)]
  omega

/-- The copy of rows and chunk rows into a snapshot keeps the reference counts exact. -/
theorem keeps_copyTree (id : ℕ) : Keeps RefOk (copyTree (K := K) id) :=
  Keeps.bind (keeps_copySnapFs id) fun _ => keeps_copySnapChunks id

/-- `snapshot_create` keeps the reference counts exact. -/
theorem keeps_snapshotCreate (E : Ext K) (name : Str) : Keeps RefOk (snapshotCreate E name) :=
  Keeps.bind (keeps_refOk_of fun _ => keeps_finalizeDirty E) fun _ =>
    Keeps.inSavepoint (Keeps.triple (Keeps.bind (keeps_insertSnapshot name) fun id =>
      Keeps.bind (keeps_copyTree id) fun _ => Keeps.pure _))

/-- `snapshot_create_named` keeps the reference counts exact. -/
theorem keeps_snapshotCreateNamed (E : Ext K) (pfx placeholder : Str) :
    Keeps RefOk (snapshotCreateNamed E pfx placeholder) :=
  Keeps.bind (keeps_refOk_of fun _ => keeps_finalizeDirty E) fun _ =>
    Keeps.inSavepoint (Keeps.triple (Keeps.bind (keeps_insertSnapshot placeholder) fun id =>
      Keeps.bind (keeps_renameSnapshot id _) fun _ =>
        Keeps.bind (keeps_copyTree id) fun _ => Keeps.pure _))

/-- The delete of a snapshot, with the cascade to its copies keeps the reference counts exact. -/
theorem keeps_deleteSnapshot (id : ℕ) : Keeps RefOk (deleteSnapshot (K := K) id) := by
  refine Keeps.statement fun db db' h hx => ?_
  split_ifs at hx
  · cases hx
    refine h.releaseAll (db.snapKeys id) rfl (fun k => ?_) rfl
    have := Table.count_deleteWhere db.snapChunks (fun c _ => c.1 = id) k
    simp only [Db.refs, Db.releaseBlobs, Db.snapKeys]
    omega
  · cases hx
    exact h

/-- `snapshot_delete` keeps the reference counts exact. -/
theorem keeps_snapshotDelete (name : Str) : Keeps RefOk (snapshotDelete (K := K) name) :=
  Keeps.bind (Keeps.query _) fun id => Keeps.inSavepoint (Keeps.triple (keeps_deleteSnapshot id))

/-- `snapshot_retain` keeps the reference counts exact. -/
theorem keeps_snapshotRetain (keep : ℕ) : Keeps RefOk (snapshotRetain (K := K) keep) :=
  Keeps.bind (Keeps.reads _) fun _ => Keeps.bind (Keeps.forM keeps_snapshotDelete _) fun _ =>
    Keeps.pure _

/-- A restore refers to blobs that the rows of the snapshot keep. -/
theorem keeps_snapshotRestore (name : Str) : Keeps RefOk (snapshotRestore (K := K) name) := by
  refine Keeps.withBypass (fun _ b h => h.setBypass b) ?_
  refine Keeps.bind (Keeps.query _) fun id => Keeps.inSavepoint ?_
  -- The chunks and rows go first; what is put in their place has a blob, as the snapshot still
  -- refers to it.
  refine Triple.bind
    (Keeps.triple (keeps_refOk_of fun _ => keeps_deleteChunks fun _ _ _ => trivial))
    fun _ => Triple.bind (Keeps.triple (keeps_refOk_of fun _ => keeps_deleteFs fun _ _ => trivial))
      fun _ => ?_
  refine Triple.bind (q := fun rows d => RefOk d ∧ ∀ r ∈ rows, r.2.content = none)
    (Triple.reads fun d h => ⟨h, ?_⟩) fun rows => ?_
  · intro r hr
    obtain ⟨x, -, rfl⟩ := List.mem_map.1 ((List.perm_insertionSort _ _).subset hr)
    rfl
  refine Triple.bind (q := fun _ => RefOk) ?_ fun _ => ?_
  · rintro d _ d' ⟨hd, hrows⟩ hx
    exact Keeps.triple (keeps_insertFsRows (fun _ p _ hrow h => h.addFs p hrow) hrows) d _ d' hd hx
  · intro d _ d' hd hx
    rw [reads_bind] at hx
    refine (Keeps.triple (keeps_insertChunks (I := fun e => e.snapChunks = d.snapChunks)
      (fun _ _ _ _ h => h) ?_) d _ d' ⟨hd, rfl⟩ hx).1
    intro e he r hr
    obtain ⟨x, hx, rfl⟩ := List.mem_map.1 hr
    have hrow : e.snapChunks.get? x.1 = some x.2 := by
      rw [he, Table.get?_eq_some_iff]
      exact (List.mem_filter.1 hx).1
    exact Db.refs_pos_of_snap hrow

/-! ## Undo records -/

/-- `undo_begin` keeps the reference counts exact. -/
theorem keeps_undoBegin : Keeps RefOk (undoBegin (K := K)) := by
  refine Keeps.bind (Keeps.reads _) fun id => Keeps.bind (Keeps.statement fun db db' h hx => ?_)
    fun _ => Keeps.pure _
  cases hx
  exact h.of_fs h.inline (fun _ => rfl) rfl

/-- An entry of an undo record keeps the reference counts exact. -/
theorem keeps_insertUndoFs (id : ℕ) (p : Str) (m : Option (FsMeta K)) :
    Keeps RefOk (insertUndoFs id p m) := by
  refine Keeps.statement fun db db' h hx => ?_
  split_ifs at hx
  cases hx
  exact h.of_fs h.inline (fun _ => rfl) rfl

/-- The copy of a chunk list into an undo record keeps the reference counts exact. -/
theorem keeps_copyUndoChunks (id : ℕ) (p : Str) : Keeps RefOk (copyUndoChunks (K := K) id p) := by
  refine Keeps.statement fun db db' h hx => ?_
  refine (foldlM_inv (I := fun d => RefOk d ∧ d.chunks = db.chunks) ?_ ⟨h, rfl⟩ hx).1
  rintro r hr d d' ⟨hd, hch⟩ hstep
  unfold Db.insertUndoChunk? at hstep
  split_ifs at hstep with hundo hhas
  cases hstep
  have hrow : d.chunks.get? r.1 = some r.2 := by
    rw [hch, Table.get?_eq_some_iff]
    exact (List.mem_filter.1 hr).1
  refine ⟨hd.acquire (Db.refs_pos_of_chunk hrow) rfl (fun k' => ?_) rfl, hch⟩
  simp only [Db.refs, Table.count_insertIgnore (Table.get?_of_not_has hhas), eq_comm (a := r.2)]
  omega

/-- `undo_capture` keeps the reference counts exact. -/
theorem keeps_undoCapture (id : ℕ) (path : Str) : Keeps RefOk (undoCapture (K := K) id path) := by
  unfold undoCapture
  refine Keeps.bind (Keeps.reads _) fun seen => ?_
  split_ifs
  · exact Keeps.pure _
  · refine Keeps.bind (Keeps.reads _) fun row => ?_
    rcases row with _ | r
    · exact keeps_insertUndoFs id path none
    · exact Keeps.bind (keeps_insertUndoFs id path _) fun _ => keeps_copyUndoChunks id path

/-- `undo_capture_tree` keeps the reference counts exact. -/
theorem keeps_undoCaptureTree (id : ℕ) (path : Str) :
    Keeps RefOk (undoCaptureTree (K := K) id path) :=
  Keeps.bind (Keeps.reads _) fun below => Keeps.forM (keeps_undoCapture id) below

/-- A path put back refers to blobs that the rows of the record keep. -/
theorem keeps_undoPut (id : ℕ) (r : Str × Option (FsMeta K)) : Keeps RefOk (undoPut id r) := by
  rcases r with ⟨p, _ | m⟩
  · exact Keeps.pure _
  · refine Keeps.bind (Keeps.statement fun db db' h hx => ?_) fun _ => ?_
    · obtain ⟨-, rfl⟩ := insertFs?_ok hx
      exact h.addFs p rfl
    · intro d hd
      have hkeep : Keeps (fun e : Db K => RefOk e ∧ e.undoChunks = d.undoChunks) (insertChunks
          ((d.undoChunks.select fun c _ => c.1 = id && c.2.1 = p).map fun c => (c.1.2, c.2))) :=
        keeps_insertChunks (fun _ _ _ _ h => h) ?_
      · exact (hkeep d ⟨hd, rfl⟩).1
      · intro e he r hr
        obtain ⟨x, hx, rfl⟩ := List.mem_map.1 hr
        have hrow : e.undoChunks.get? x.1 = some x.2 := by
          rw [he, Table.get?_eq_some_iff]
          exact (List.mem_filter.1 hx).1
        exact Db.refs_pos_of_undo hrow

/-- `undo_apply` keeps the reference counts exact. -/
theorem keeps_undoApply (id : ℕ) : Keeps RefOk (undoApply (K := K) id) :=
  Keeps.withBypass (fun _ b h => h.setBypass b) (Keeps.inSavepoint (Keeps.triple
    (Keeps.bind (Keeps.reads _) fun rows => Keeps.bind
      (Keeps.forM (fun _ => keeps_refOk_of fun _ => keeps_deleteFs fun _ _ => trivial) rows)
        fun _ => Keeps.forM (keeps_undoPut id) _)))

/-- `undo_delete` keeps the reference counts exact. -/
theorem keeps_undoDelete (id : ℕ) : Keeps RefOk (undoDelete (K := K) id) := by
  refine Keeps.statement fun db db' h hx => ?_
  split_ifs at hx
  · cases hx
    refine h.releaseAll (db.undoKeys id) rfl (fun k => ?_) rfl
    have := Table.count_deleteWhere db.undoChunks (fun c _ => c.1 = id) k
    simp only [Db.refs, Db.releaseBlobs, Db.undoKeys]
    omega
  · cases hx
    exact h

/-! ## Maintenance -/

/-- One file of `vm_rechunk` keeps the reference counts exact. -/
theorem keeps_rechunkFile (E : Ext K) (rep : RechunkReport) (path : Str) :
    Keeps RefOk (rechunkFile E rep path) := by
  unfold rechunkFile
  refine Keeps.bind (Keeps.reads _) fun n => ?_
  split_ifs
  · exact Keeps.pure _
  · refine Keeps.bind (Keeps.query _) fun before => Keeps.bind (Keeps.attempt ?_) fun out => ?_
    · refine Keeps.inSavepoint (Triple.bind (q := fun _ => RefOk) ?_ fun _ =>
        Keeps.triple (Keeps.bind (Keeps.query _) fun after => ?_))
      · intro d _ d' hd hx
        exact (triple_chunksReplace E trivial before d _ d' (hd.refInv fun _ => True) hx).refOk
      · split_ifs
        · exact Keeps.throw _
        · exact Keeps.pure _
    · rcases out with e | _
      · exact Keeps.pure _
      · exact Keeps.pure _

/-- `vm_rechunk` keeps the reference counts exact. -/
theorem keeps_vmRechunk (E : Ext K) : Keeps RefOk (vmRechunk E) :=
  Keeps.bind (Keeps.reads _) fun candidates => Keeps.foldlM (keeps_rechunkFile E) candidates _

/-- Another encoding of a blob has the count of the old one. -/
theorem keeps_updateBlob (k : K) (e : Enc) : Keeps RefOk (updateBlob k e) := by
  refine Keeps.statement fun db db' h hx => ?_
  cases hx
  -- The encoding changes, and the count stays.
  have hget : ∀ k' c', (db.setBlob k e).blobs.get? k' = some c' →
      ∃ c, db.blobs.get? k' = some c ∧ c'.refcnt = c.refcnt := by
    intro k' c' hc'
    rw [Db.setBlob, Table.get?_update] at hc'
    split_ifs at hc' with hk
    · obtain ⟨c, hc, rfl⟩ := Option.map_eq_some_iff.1 hc'
      exact ⟨c, hk ▸ hc, rfl⟩
    · exact ⟨c', hc', rfl⟩
  refine ⟨⟨fun k' hn => ?_, fun k' c' hc' => ?_⟩, fun k' c' hc' hZ => ?_, h.inline⟩
  · refine h.exact.absent k' ?_
    rw [Db.setBlob, Table.get?_update] at hn
    split_ifs at hn with hk
    · rw [hk]
      exact Option.map_eq_none_iff.1 hn
    · exact hn
  · obtain ⟨c, hc, hcnt⟩ := hget k' c' hc'
    rw [hcnt]
    exact h.exact.count k' c hc
  · obtain ⟨c, hc, hcnt⟩ := hget k' c' hc'
    rw [hcnt]
    exact h.tight k' c hc hZ

/-- A blob that `vm_recompress` encodes again keeps the reference counts exact. -/
theorem keeps_recompressBlob (E : Ext K) (k : K) (raw : Bytes) :
    Keeps RefOk (recompressBlob E k raw) := by
  refine Keeps.bind (Keeps.reads _) fun enc => ?_
  rcases enc with _ | e
  · exact Keeps.pure _
  · exact keeps_updateBlob k e

/-- One blob of the last pass of `vm_recompress` keeps the reference counts exact. -/
theorem keeps_recompress19 (E : Ext K) (r : K × Cell Block) : Keeps RefOk (recompress19 E r) := by
  refine Keeps.bind (Keeps.query _) fun raw => ?_
  rcases E.zstdCompress 19 raw with _ | c
  · exact Keeps.pure _
  · dsimp only
    split_ifs
    · exact keeps_updateBlob _ _
    · exact Keeps.pure _

/-- No row has inline content, so the first loop has nothing to do: it would store blobs that no row
refers to. -/
theorem keeps_vmRecompress (E : Ext K) : Keeps RefOk (vmRecompress E) := by
  intro db h
  have hrows : (db.fs.rows.filterMap fun r =>
      if r.2.kind = .file then r.2.content.map fun b => (r.1, b, r.2.compressed) else none) =
      [] := by
    rw [List.filterMap_eq_nil_iff]
    intro r hr
    rw [h.inline r.1 r.2 (Table.get?_eq_some_iff.2 hr)]
    simp
  unfold vmRecompress
  rw [endState, reads_bind, hrows]
  refine Keeps.bind (Keeps.pure _) (fun _ => Keeps.bind (Keeps.reads _) fun gz => ?_) db h
  refine Keeps.bind (Keeps.forM (fun r => Keeps.bind (Keeps.query _) fun raw =>
    keeps_recompressBlob E r.1 raw) gz) fun _ => Keeps.bind (Keeps.reads _) fun plain => ?_
  exact Keeps.bind (Keeps.forM (fun r => keeps_recompressBlob E r.1 _) plain) fun _ =>
    Keeps.bind (Keeps.reads _) fun zstd => Keeps.forM (keeps_recompress19 E) zstd

/-! ## Injection -/

/-- What holds while a package is merged: its chunk rows may name blobs that are not there, but no
blob outside `Z` is without a count. -/
structure Merging (Z : K → Prop) (db : Db K) : Prop where
  /-- No count is negative. -/
  nonneg : Store.Nonneg db.blobs
  /-- Every blob outside `Z` has a positive count. -/
  tight : Store.Tight Z db.blobs
  /-- No row has inline content. -/
  inline : ∀ p row, db.fs.get? p = some row → row.content = none

/-- Before an injection no blob is without a reference. -/
theorem RefOk.merging (h : RefOk db) : Merging NoBlob db where
  nonneg := fun k c hc => le_of_lt (h.tight k c hc id)
  tight := h.tight
  inline := h.inline

variable {Z : K → Prop}

/-- Rows of `vm_fs` without inline content may change in the middle of an injection. -/
theorem Merging.of_fs (h : Merging Z db)
    (hfs : ∀ p row, db'.fs.get? p = some row → row.content = none) (hb : db'.blobs = db.blobs) :
    Merging Z db' where
  nonneg := by
    rw [hb]
    exact h.nonneg
  tight := by
    rw [hb]
    exact h.tight
  inline := hfs

/-- A new row without inline content keeps what holds in the middle of an injection. -/
theorem Merging.addFs (h : Merging Z db) (p : Str) {row : FsRow K} (hrow : row.content = none) :
    Merging Z (db.addFs p row) := by
  refine h.of_fs (fun q r hr => ?_) rfl
  rw [Db.addFs, Table.get?_insertIgnore] at hr
  split_ifs at hr with hq
  · rcases hp : db.fs.get? p with _ | old
    · rw [hp] at hr
      cases hr
      exact hrow
    · rw [hp] at hr
      cases hr
      exact h.inline p old hp
  · exact h.inline q r hr

/-- So does a delete of rows, with the chunk rows that go with them. -/
theorem Merging.delFs (h : Merging Z db) (sel : Str → Bool) : Merging Z (db.delFs sel) where
  nonneg := h.nonneg.releaseAll _
  tight := h.tight.releaseAll _
  inline := by
    intro q r hr
    rw [Db.delFs, Table.get?_deleteWhere, Option.filter_eq_some_iff] at hr
    exact h.inline q r hr.1

/-- `finalize_dirty` keeps what holds in the middle of an injection. -/
theorem keeps_merging_finalizeDirty (E : Ext K) : Keeps (Merging Z) (finalizeDirty E) := by
  refine keeps_finalizeDirty_of (fun p hash => Keeps.statement fun db db' h hx => ?_)
    (fun p => Keeps.statement fun db db' h hx => ?_) E
  · rcases updateFs_ok (u := ()) (statement_eq_ok.2 hx) with ⟨-, rfl⟩ | ⟨_, -, rfl⟩
    · exact h
    · refine h.of_fs (fun q r hr => ?_) rfl
      rw [Db.setFs, Table.get?_update] at hr
      split_ifs at hr
      · obtain ⟨old, hold, rfl⟩ := Option.map_eq_some_iff.1 hr
        exact h.inline p old hold
      · exact h.inline q r hr
  · cases hx
    exact h.of_fs h.inline rfl

/-- Dictionaries are no blobs: adding them keeps what holds in the middle of an injection. -/
theorem keeps_injectDicts (pkg : Db K) : ∀ pids : List ℕ,
    Keeps (Merging Z) (injectDicts pkg pids)
  | [] => Keeps.pure _
  | pid :: rest => by
    refine Keeps.bind (Keeps.query _) fun dict => Keeps.bind (Keeps.bind (Keeps.reads _) fun id =>
      Keeps.bind (Keeps.statement fun db db' h hx => ?_) fun _ => Keeps.pure _) fun id =>
        Keeps.bind (keeps_injectDicts pkg rest) fun _ => Keeps.pure _
    cases hx
    exact h.of_fs h.inline rfl

/-- A blob of an injection comes without a reference and is one of those that may. -/
theorem keeps_injectBlob (dictMap : List (ℕ × ℕ)) {r : K × Block} (hr : Z r.1) :
    Keeps (Merging Z) (injectBlob dictMap r) := by
  refine Keeps.bind (Keeps.query _) fun mapped => Keeps.statement fun db db' h hx => ?_
  split_ifs at hx
  · cases hx
    exact h
  · cases hx
    refine ⟨h.nonneg.insert _ _, (h.tight.insert _ _).mono ?_, h.inline⟩
    rintro k (hk | rfl)
    · exact hk
    · exact hr

/-- The chunk rows of a path refer to every blob the path brought along. -/
theorem merging_insertChunks {rows : List ((Str × ℕ) × K)} {u : Unit}
    (h : Merging (fun k => k ∈ rows.map Prod.snd) db) (hx : insertChunks rows db = .ok u db') :
    Merging NoBlob db' := by
  rw [insertChunks, statement_eq_ok] at hx
  have hend := foldlM_rest (J := fun rest d => Merging (fun k => k ∈ rest.map Prod.snd) d) ?_ h hx
  · exact ⟨hend.nonneg, hend.tight.mono (by simp), hend.inline⟩
  · intro r rest d d' hd hstep
    obtain ⟨-, rfl⟩ := insertChunk?_ok hstep
    refine ⟨hd.nonneg.acquire _, (hd.tight.acquire (hd.nonneg r.2)).mono ?_, hd.inline⟩
    rintro k ⟨hk, hne⟩
    rw [List.map_cons, List.mem_cons] at hk
    exact hk.resolve_left hne

/-- The chunks of one file of an injection keeps what holds in the middle of an injection. -/
theorem triple_mergePath (pkg : Db K) (dictMap : List (ℕ × ℕ)) (p : Str) :
    Triple (Merging NoBlob) (mergePath pkg dictMap p) fun _ => Merging NoBlob := by
  refine Triple.bind (Keeps.triple (keeps_insertFsRows (I := Merging NoBlob)
    (fun _ q _ hrow h => h.addFs q hrow) ?_)) fun _ => Triple.bind (Keeps.triple (Keeps.reads _))
      fun before => ?_
  · intro r hr
    obtain ⟨x, -, rfl⟩ := List.mem_map.1 hr
    rfl
  refine Triple.bind (q := fun _ =>
      Merging fun k => k ∈ ((pkg.chunkList p).map fun r => ((p, r.1), r.2)).map Prod.snd)
    (Triple.mono (Triple.forM_inv fun r hr => Keeps.triple (keeps_injectBlob dictMap ?_)) ?_
      fun _ _ h => h) fun _ => Triple.bind (Keeps.triple (Keeps.reads _)) fun after => ?_
  · obtain ⟨x, hx, he⟩ := List.mem_filterMap.1 (List.mem_dedup.1 hr)
    obtain ⟨c, -, rfl⟩ := Option.map_eq_some_iff.1 he
    rw [List.map_map]
    exact List.mem_map.2 ⟨x, hx, rfl⟩
  · exact fun d hd => ⟨hd.nonneg, hd.tight.mono fun _ hz => hz.elim, hd.inline⟩
  · refine Triple.bind (q := fun _ => Merging NoBlob) ?_ fun _ => Triple.pure fun _ h => h
    exact fun d _ d' hd hx => merging_insertChunks hd hx

/-- One file of an injection keeps what holds in the middle of an injection. -/
theorem triple_injectPath (pkg : Db K) (dictMap : List (ℕ × ℕ)) (rep : InjectReport) (p : Str) :
    Triple (Merging NoBlob) (injectPath pkg dictMap rep p) fun _ => Merging NoBlob := by
  refine Triple.bind (Keeps.triple (Keeps.reads _)) fun existed =>
    Triple.bind (q := fun _ => Merging NoBlob) ?_ fun _ =>
      Triple.bind (triple_mergePath pkg dictMap p) fun _ => Triple.pure fun _ h => h
  rcases existed with _ | _
  · exact Triple.pure fun _ h => h
  · intro d _ d' hd hx
    rw [if_pos rfl] at hx
    rw [deleteFs_ok hx]
    exact hd.delFs _

/-- A merge that verifies has exact counts. -/
theorem Merging.refOk (h : Merging NoBlob db) (hd : db.commonDrift = []) : RefOk db := by
  simp only [Db.commonDrift, List.append_eq_nil_iff, ite_eq_right_iff, imp_false,
    Bool.or_eq_true, not_or, List.any_eq_true, not_exists, not_and, Bool.not_eq_true,
    decide_eq_true_eq, ne_eq, not_not, List.cons_ne_self] at hd
  obtain ⟨⟨⟨-, hcnt⟩, ⟨hc, hs⟩, hu⟩, -⟩ := hd
  refine ⟨⟨fun k hn => ?_, fun k c hk => hcnt _ (Table.get?_eq_some_iff.1 hk)⟩, h.tight, h.inline⟩
  -- A row without a blob would have been reported.
  have hmiss : db.blobs.has k = false := Table.has_eq_false.2 hn
  have hzero : ∀ {κ : Type} [DecidableEq κ] (t : Table κ K),
      (∀ x ∈ t.rows, (!db.blobs.has x.2) = false) → t.count k = 0 := by
    intro κ _ t ht
    by_contra hpos
    obtain ⟨x, hx⟩ := Table.count_pos_iff.1 (Nat.pos_of_ne_zero hpos)
    have := ht _ (Table.get?_eq_some_iff.1 hx)
    simp [hmiss] at this
  rw [Db.refs, hzero _ hc, hzero _ hs, hzero _ hu]

/-- An injection keeps the reference counts exact, whether it returns or fails. -/
theorem keeps_inject (E : Ext K) (base : Option (Db K)) (pkg : Db K) :
    Keeps RefOk (inject E base pkg) := by
  unfold inject
  dsimp only
  split_ifs
  · exact Keeps.throw _
  · refine Keeps.inSavepoint fun d _ d' hd hx => ?_
    obtain ⟨dictMap, d₁, h₁, hx⟩ := bind_eq_ok.1 hx
    obtain ⟨rep, d₂, h₂, hx⟩ := bind_eq_ok.1 hx
    obtain ⟨drift, d₃, h₃, hx⟩ := bind_eq_ok.1 hx
    have hd₁ := Keeps.triple (keeps_injectDicts pkg _) _ _ _ hd.merging h₁
    have hd₂ := Triple.foldlM_inv (triple_injectPath pkg dictMap) _ _ _ _ _ hd₁ h₂
    obtain ⟨_, d₄, h₄, h₅⟩ := bind_eq_ok.1 h₃
    have hd₄ := Keeps.triple (keeps_merging_finalizeDirty E) _ _ _ hd₂ h₄
    cases h₅
    split_ifs at hx with hdrift
    · cases hx
    · cases hx
      rw [not_not, List.append_eq_nil_iff] at hdrift
      exact hd₄.refOk hdrift.1

/-! ## Runs -/

/-- The operations that write to a database. The deferred ones are given a cache, `inject` the Base
attached to the target, if there is one, and a package. -/
inductive StoreOp (K : Type) where
  /-- `vm_add_bytes`. -/
  | addBytes (vmPath : Str) (data : Bytes) (mode mtime now : ℤ)
  /-- `vm_add_dir`. -/
  | addDir (vmPath : Str) (mode mtime now : ℤ)
  /-- `vm_add_symlink`. -/
  | addSymlink (vmPath target : Str) (now : ℤ)
  /-- `fs_put_file_stream`. -/
  | putFileStream (p : Str) (mode mtime : ℤ) (src : Reader)
  /-- `write_range`. -/
  | writeRange (vmPath : Str) (off : ℕ) (data : Bytes) (mtime : ℤ)
  /-- `write_range_deferred`. -/
  | writeRangeDeferred (cache : Option (ChunkCache K)) (vmPath : Str) (off : ℕ) (data : Bytes)
    (mtime : ℤ)
  /-- `truncate_range`. -/
  | truncateRange (vmPath : Str) (newSize : ℕ) (mtime : ℤ)
  /-- `truncate_range_deferred`. -/
  | truncateRangeDeferred (cache : Option (ChunkCache K)) (vmPath : Str) (newSize : ℕ) (mtime : ℤ)
  /-- `DELETE FROM vm_fs`. -/
  | deleteRows (sel : Str → Bool)
  /-- A rename through the mount. -/
  | rename (replaced : Option Str) (moves : List (Str × Str))
  /-- `snapshot_create`. -/
  | snapshotCreate (name : Str)
  /-- `snapshot_create_named`. -/
  | snapshotCreateNamed (pfx placeholder : Str)
  /-- `snapshot_restore`. -/
  | snapshotRestore (name : Str)
  /-- `snapshot_delete`. -/
  | snapshotDelete (name : Str)
  /-- `snapshot_retain`. -/
  | snapshotRetain (keep : ℕ)
  /-- `undo_begin`. -/
  | undoBegin
  /-- `undo_capture`. -/
  | undoCapture (id : ℕ) (path : Str)
  /-- `undo_capture_tree`. -/
  | undoCaptureTree (id : ℕ) (path : Str)
  /-- `undo_apply`. -/
  | undoApply (id : ℕ)
  /-- `undo_delete`. -/
  | undoDelete (id : ℕ)
  /-- `vm_rechunk`. -/
  | rechunk
  /-- `vm_recompress`. -/
  | recompress
  /-- `inject`. -/
  | inject (base : Option (Db K)) (pkg : Db K)

/-- A program whose value is not used. -/
def ignoring {α : Type} (x : Sql K α) : Sql K Unit := do
  let _ ← x

/-- Run an operation. -/
def StoreOp.run (E : Ext K) : StoreOp K → Sql K Unit
  | .addBytes vmPath data mode mtime now => vmAddBytes E vmPath data mode mtime now
  | .addDir vmPath mode mtime now => vmAddDir vmPath mode mtime now
  | .addSymlink vmPath target now => vmAddSymlink vmPath target now
  | .putFileStream p mode mtime src => ignoring (fsPutFileStream E p mode mtime src)
  | .writeRange vmPath off data mtime => Dbvm.writeRange E vmPath off data mtime
  | .writeRangeDeferred cache vmPath off data mtime =>
    withCache cache (Dbvm.writeRangeDeferred E vmPath off data mtime)
  | .truncateRange vmPath newSize mtime => Dbvm.truncateRange E vmPath newSize mtime
  | .truncateRangeDeferred cache vmPath newSize mtime =>
    withCache cache (Dbvm.truncateRangeDeferred E vmPath newSize mtime)
  | .deleteRows sel => deleteFs sel
  | .rename replaced moves => fuseRename replaced moves
  | .snapshotCreate name => ignoring (Dbvm.snapshotCreate E name)
  | .snapshotCreateNamed pfx placeholder => ignoring (Dbvm.snapshotCreateNamed E pfx placeholder)
  | .snapshotRestore name => Dbvm.snapshotRestore name
  | .snapshotDelete name => Dbvm.snapshotDelete name
  | .snapshotRetain keep => ignoring (Dbvm.snapshotRetain keep)
  | .undoBegin => ignoring Dbvm.undoBegin
  | .undoCapture id path => Dbvm.undoCapture id path
  | .undoCaptureTree id path => Dbvm.undoCaptureTree id path
  | .undoApply id => Dbvm.undoApply id
  | .undoDelete id => Dbvm.undoDelete id
  | .rechunk => ignoring (vmRechunk E)
  | .recompress => vmRecompress E
  | .inject base pkg => ignoring (Dbvm.inject E base pkg)

omit [DecidableEq K] in
/-- A program whose error is ignored keeps what the program in it keeps. -/
theorem Keeps.ignoring {α : Type} {I : Db K → Prop} {x : Sql K α} (h : Keeps I x) :
    Keeps I (Dbvm.ignoring x) := Keeps.bind h fun _ => Keeps.pure _

/-- Every operation of a database keeps the counts, in whatever state it ends. -/
theorem StoreOp.keeps_refOk (E : Ext K) (op : StoreOp K) : Keeps RefOk (op.run E) := by
  -- One case for each operation, in the order of `StoreOp`.
  rcases op with _ | _ | _ | _ | _ | _ | _ | _ | _ | _ | _ | _ | _ | _ | _ | _ | _ | _ | _ | _ | _ |
    _ | _
  · exact keeps_refOk_of fun _ => keeps_vmAddBytes E trivial _ _ _ _
  · exact keeps_refOk_of fun _ => keeps_vmAddDir trivial _ _ _
  · exact keeps_refOk_of fun _ => keeps_vmAddSymlink trivial _ _
  · exact Keeps.ignoring (keeps_refOk_of fun _ => keeps_fsPutFileStreamNs E trivial _ _ _ _)
  · exact keeps_refOk_of fun _ => keeps_writeRange E _ _ _ _ fun _ => trivial
  · exact keeps_refOk_of fun _ => Keeps.withCache _
      (keeps_writeRangeDeferred E _ _ _ _ fun _ => trivial)
  · exact keeps_refOk_of fun _ => keeps_truncateRange E _ _ _ fun _ => trivial
  · exact keeps_refOk_of fun _ => Keeps.withCache _
      (keeps_truncateRangeDeferred E _ _ _ fun _ => trivial)
  · exact keeps_refOk_of fun _ => keeps_deleteFs fun _ _ => trivial
  · exact keeps_fuseRename _ _
  · exact Keeps.ignoring (keeps_snapshotCreate E _)
  · exact Keeps.ignoring (keeps_snapshotCreateNamed E _ _)
  · exact keeps_snapshotRestore _
  · exact keeps_snapshotDelete _
  · exact Keeps.ignoring (keeps_snapshotRetain _)
  · exact Keeps.ignoring keeps_undoBegin
  · exact keeps_undoCapture _ _
  · exact keeps_undoCaptureTree _ _
  · exact keeps_undoApply _
  · exact keeps_undoDelete _
  · exact Keeps.ignoring (keeps_vmRechunk E)
  · exact keeps_vmRecompress E
  · exact Keeps.ignoring (keeps_inject E _ _)

/-- A step of a run: an operation of the database, which is the Delta of an overlay if there is one,
or an operation of the overlay. -/
inductive DbStep (K : Type) where
  /-- An operation of the database. -/
  | store (op : StoreOp K)
  /-- An operation of the overlay. -/
  | overlay (op : OverlayOp)

/-- Take a step. -/
def DbStep.run (E : Ext K) : DbStep K → Ov K Unit
  | .store op => Overlay.onMain (op.run E)
  | .overlay op => op.run E

/-- The states of the runs from a fresh database, over a given Base, all of whose steps meet a
condition. A step that fails leaves the state it ends in; one that an outer transaction rolls back
leaves the state it began in. -/
inductive Reaches (C : Overlay K → DbStep K → Prop) (E : Ext K) (base : Db K) : Overlay K →
    Prop where
  /-- `init_vm_db`. -/
  | init (now : ℤ) : Reaches C E base ⟨base, initDb now, []⟩
  /-- One more step. -/
  | step {o : Overlay K} (h : Reaches C E base o) (s : DbStep K) (hs : C o s) :
    Reaches C E base (endState (s.run E) o)

/-- The condition on a step: an operation of the overlay does not drop a blob and store it again. -/
def DbStep.NoRevival (E : Ext K) (o : Overlay K) : DbStep K → Prop
  | .store _ => True
  | .overlay op => o.NoRevival E op

/-- Every blob's count is the number of rows that carry its hash, at least one, and every row of the
three chunk tables names a blob. -/
structure RefCounts (db : Db K) : Prop where
  /-- The counts. -/
  count : ∀ k c, db.blobs.get? k = some c →
    c.refcnt = (db.chunks.count k + db.snapChunks.count k + db.undoChunks.count k : ℕ) ∧
      1 ≤ db.chunks.count k + db.snapChunks.count k + db.undoChunks.count k
  /-- `vm_file_chunks`. -/
  chunks : ∀ x k, db.chunks.get? x = some k → ∃ c, db.blobs.get? k = some c
  /-- `vm_snapshot_chunks`. -/
  snaps : ∀ x k, db.snapChunks.get? x = some k → ∃ c, db.blobs.get? k = some c
  /-- `vm_undo_chunks`. -/
  undos : ∀ x k, db.undoChunks.get? x = some k → ∃ c, db.blobs.get? k = some c

/-- Exact counts as the verifier of the database states them. -/
theorem RefOk.refCounts (h : RefOk db) : RefCounts db where
  count := by
    intro k c hc
    have hcount := h.exact.count k c hc
    have hpos := h.tight k c hc id
    refine ⟨hcount, ?_⟩
    rw [hcount] at hpos
    have : 0 < db.refs k := by exact_mod_cast hpos
    unfold Db.refs at this
    omega
  chunks := fun _ _ hx => h.exact.get?_of_pos (Db.refs_pos_of_chunk hx)
  snaps := fun _ _ hx => h.exact.get?_of_pos (Db.refs_pos_of_snap hx)
  undos := fun _ _ hx => h.exact.get?_of_pos (Db.refs_pos_of_undo hx)

/-- Along every run the reference counts stay exact. -/
theorem refOk_of_reaches {E : Ext K} {base : Db K} {o : Overlay K}
    (h : Reaches (DbStep.NoRevival E) E base o) : RefOk o.main := by
  induction h with
  | init now => exact refOk_initDb now
  | step h s hs ih =>
    rcases s with op | op
    · exact (Overlay.Keeps.onMain (StoreOp.keeps_refOk E op) _ ⟨ih, rfl⟩).1
    · exact (Overlay.endState_op E (fun _ _ => trivial) ⟨ih.refInv fun _ => True, rfl⟩ hs).1.refOk

/-- In every run in which no range write of the overlay drops a blob and stores it again, the counts
are right in every state. -/
theorem refCounts_of_reaches {K : Type} [DecidableEq K] {E : Ext K} {base : Db K} {o : Overlay K}
    (h : Reaches (DbStep.NoRevival E) E base o) : RefCounts o.main := (refOk_of_reaches h).refCounts

/-- A file is written and one of its bytes overwritten through the overlay. -/
theorem refCounts_of_overwrite : RefCounts (endState
    ((DbStep.overlay (.writeRange "/a".toList 1 [111] 0)).run plainExt) (endState
      ((DbStep.store (.addBytes "/a".toList [104, 105] 420 0 0)).run plainExt)
        ⟨initDb 0, initDb 0, []⟩)).main := by
  have hrun : Reaches (DbStep.NoRevival plainExt) plainExt (initDb 0) _ := (Reaches.init 0).step
    (.store (.addBytes "/a".toList [104, 105] 420 0 0)) trivial
  refine refCounts_of_reaches (hrun.step _ ?_)
  rintro p r ⟨⟩ idx j k h
  -- One chunk is written.
  obtain ⟨hi, hj, hlt⟩ := h.order
  rw [List.mem_range'_1] at hi hj
  have hlast : (1 + ([111] : Bytes).length - 1) / chunkSize = 0 := by decide
  rw [hlast] at hi hj
  omega

/-! ## A run with a wrong count -/

section Revival

variable {X Y : Bytes}

/-- The first chunk of two joined chunks is the first. -/
theorem chunkAt_append_zero (hX : X.length = chunkSize) :
    chunkAt chunkSize (X ++ Y) 0 = X := by
  rw [chunkAt, slice, Nat.zero_mul, List.drop_zero, ← hX, List.take_left]

/-- The second chunk of two joined chunks is the second. -/
theorem chunkAt_append_one (hX : X.length = chunkSize) (hY : Y.length = chunkSize) :
    chunkAt chunkSize (X ++ Y) 1 = Y := by
  rw [chunkAt, slice, Nat.one_mul, ← hX, List.drop_left, hX, ← hY, List.take_length]

/-- A write over the whole content leaves what is written. -/
theorem writeAt_all {b data : Bytes} (hd : data ≠ []) (h : b.length = data.length) :
    writeAt 0 b 0 data = data := by
  rw [writeAt, if_neg hd, extendTo_of_le 0 (by omega), patch]
  simp [h]

/-- The file `/f` of two chunks. -/
abbrev twoChunks : Str := "/f".toList

/-- What becomes of the two chunks when the content `X ++ X` is written over `X ++ Y`. -/
theorem overlayPiece_twice (hX : X.length = chunkSize) (hY : Y.length = chunkSize) {i : ℕ}
    (hi : i = 0 ∨ i = 1) :
    overlayPiece (chunkAt chunkSize (X ++ Y) i) (i * chunkSize)
      (max (X ++ Y).length (0 + (X ++ X).length)) 0 (X ++ X) = X := by
  have hpos := chunkSize_pos
  have hlen : (X ++ X).length = chunkSize + chunkSize := by rw [List.length_append, hX]
  have hlenY : (X ++ Y).length = chunkSize + chunkSize := by rw [List.length_append, hX, hY]
  have hd : X ++ X ≠ [] := by
    intro h0
    rw [h0, List.length_nil] at hlen
    omega
  rw [overlayPiece_chunkAt (X ++ Y) (X ++ X) hd, writeAt_all hd (by omega)]
  · rcases hi with rfl | rfl
    · exact chunkAt_append_zero hX
    · exact chunkAt_append_one hX hX
  · rcases hi with rfl | rfl <;> omega

/-- A file of the contents `X` and `Y`, when no other row has the content `X`. -/
structure TwoChunks (E : Ext K) (X Y : Bytes) (d : Db K) : Prop where
  /-- The counts are exact and every blob decodes. -/
  sound : Sound E d
  /-- No rule refuses a write. -/
  unpoliced : d.Unpoliced
  /-- The first chunk. -/
  zero : d.chunks.get? (twoChunks, 0) = some (E.blobKey X)
  /-- The second chunk. -/
  one : d.chunks.get? (twoChunks, 1) = some (E.blobKey Y)
  /-- No other row has the content `X`. -/
  refs : d.refs (E.blobKey X) ≤ 1

/-- The state once chunk 0 has been written: its blob is gone, that of chunk 1 is there. -/
theorem TwoChunks.first {E : Ext K} {d : Db K} (h : TwoChunks E X Y d)
    (hE : Function.Injective E.blobKey) (hXY : X ≠ Y) :
    (d.withChunk E .archive twoChunks 0 X).blobs.get? (E.blobKey X) = none ∧
      (d.withChunk E .archive twoChunks 0 X).chunks.get? (twoChunks, 1) = some (E.blobKey Y) ∧
      (d.withChunk E .archive twoChunks 0 X).Decodes E (E.blobKey Y) Y := by
  have hkey : E.blobKey Y ≠ E.blobKey X := fun hk => hXY (hE hk).symm
  have hI : RefInv (fun _ => True) d NoBlob d := h.sound.refs.refInv _
  refine ⟨Db.withChunk_drops E .archive hI h.zero h.refs, ?_, ?_⟩
  · rw [Db.get?_withChunk, if_neg (by simp)]
    exact h.one
  · obtain ⟨c, hc, hdec, hk⟩ := h.sound.decodes hE h.one
    refine ⟨c, ?_, by rw [Db.withChunk_dicts]; exact hdec, hk⟩
    rw [Db.get?_blobs_withChunk E .archive d twoChunks 0 X hkey]
    · exact hc
    · rw [h.zero]
      exact fun hk => hkey (Option.some.inj hk).symm

/-- The state once chunk 1 has got the content of chunk 0 too: the blob that was gone is stored
again, with one reference. -/
theorem withChunk_revives {E : Ext K} {d : Db K} (hXY : E.blobKey Y ≠ E.blobKey X)
    (hdrop : d.blobs.get? (E.blobKey X) = none)
    (hrow : d.chunks.get? (twoChunks, 1) = some (E.blobKey Y)) :
    (d.withChunk E .archive twoChunks 1 X).blobs.get? (E.blobKey X) =
      some ⟨⟨encodeBlock E d.dicts X .archive, X.length⟩, 1⟩ := by
  have hnew : d.withBlob E .archive X =
      d.addBlob (E.blobKey X) ⟨encodeBlock E d.dicts X .archive, X.length⟩ := by
    rw [Db.withBlob, if_neg (by rw [Table.has_eq_false.2 hdrop]; simp)]
  rw [Db.withChunk, Db.addChunk, Store.get?_acquire, if_pos rfl, Db.delChunks, Db.releaseBlobs,
    Db.chunkKeys_single, Db.withBlob_chunks, hrow]
  rw [Store.get?_releaseAll_of_not_mem _ (by simpa using Ne.symm hXY), hnew, Db.addBlob,
    Table.get?_insertIgnore, if_pos rfl, hdrop]
  rfl

/-- The two chunks are written, and the hash of the file is taken. -/
theorem rewrite_revives {E : Ext K} (hE : Function.Injective E.blobKey) (hC : E.Faithful)
    (hX : X.length = chunkSize) (hY : Y.length = chunkSize) (hXY : X ≠ Y) {o : Overlay K}
    (h : TwoChunks E X Y o.main) {row : FsRow K} (hrow : o.main.fs.get? twoChunks = some row) :
    ∃ d', (do
        ([0, 1] : List ℕ).forM (Overlay.rewriteChunk E twoChunks (X ++ Y).length .main
          fun idx piece => overlayPiece piece (idx * chunkSize)
            (max (X ++ Y).length (0 + (X ++ X).length)) 0 (X ++ X))
        Overlay.refreshDeltaFile E twoChunks (max (X ++ Y).length (0 + (X ++ X).length)) 0) o =
          .ok () { o with main := d' } ∧
      (∃ c, d'.blobs.get? (E.blobKey X) = some c ∧ c.refcnt = 1) ∧
      ∀ i, i = 0 ∨ i = 1 → d'.chunks.get? (twoChunks, i) = some (E.blobKey X) := by
  have hpos := chunkSize_pos
  have hlen : (X ++ X).length = chunkSize + chunkSize := by rw [List.length_append, hX]
  have hlenY : (X ++ Y).length = chunkSize + chunkSize := by rw [List.length_append, hX, hY]
  have hnum : numChunks chunkSize (max (X ++ Y).length (0 + (X ++ X).length)) = 2 := by
    rw [hlen, hlenY]
    decide
  have hkXY : E.blobKey Y ≠ E.blobKey X := fun hk => hXY (hE hk).symm
  obtain ⟨hdrop, hrow₁, hdec₁⟩ := h.first hE hXY
  have hbody₁ : Overlay.rewriteChunk E twoChunks (X ++ Y).length .main (fun idx piece =>
      overlayPiece piece (idx * chunkSize) (max (X ++ Y).length (0 + (X ++ X).length)) 0 (X ++ X)) 0
        o =
        .ok () { o with main := o.main.withChunk E .archive twoChunks 0 X } := by
    rw [Overlay.rewriteChunk_of_unpoliced h.unpoliced (chunkAt chunkSize (X ++ Y) 0),
      overlayPiece_twice hX hY (Or.inl rfl)]
    rw [if_pos (by omega), chunkAt_append_zero hX]
    exact Overlay.readChunkLayered_of_decodes h.zero (h.sound.decodes hE h.zero)
  have hu₁ := h.unpoliced.withChunk (E := E) .archive twoChunks 0 X
  have hget₁ : (o.main.withChunk E .archive twoChunks 0 X).chunks.get? (twoChunks, 0) =
      some (E.blobKey X) := by rw [Db.get?_withChunk, if_pos rfl]
  have hfs₁ : (o.main.withChunk E .archive twoChunks 0 X).fs.get? twoChunks = some row := by
    rw [Db.withChunk_fs, hrow]
  generalize o.main.withChunk E .archive twoChunks 0 X = d₁ at *
  have hbody₂ : Overlay.rewriteChunk E twoChunks (X ++ Y).length .main (fun idx piece =>
      overlayPiece piece (idx * chunkSize) (max (X ++ Y).length (0 + (X ++ X).length)) 0 (X ++ X)) 1
      { o with main := d₁ } =
        .ok () { o with main := d₁.withChunk E .archive twoChunks 1 X } := by
    rw [Overlay.rewriteChunk_of_unpoliced hu₁ (chunkAt chunkSize (X ++ Y) 1),
      overlayPiece_twice hX hY (Or.inr rfl)]
    rw [if_pos (by omega), chunkAt_append_one hX hY]
    exact Overlay.readChunkLayered_of_decodes hrow₁ hdec₁
  have hblob := withChunk_revives hkXY hdrop hrow₁
  have hrow₂ : ∀ i, i = 0 ∨ i = 1 → (d₁.withChunk E .archive twoChunks 1 X).chunks.get?
      (twoChunks, i) = some (E.blobKey X) := by
    rintro i (rfl | rfl)
    · rw [Db.get?_withChunk, if_neg (by simp)]
      exact hget₁
    · rw [Db.get?_withChunk, if_pos rfl]
  have hdec₂ : (d₁.withChunk E .archive twoChunks 1 X).Decodes E (E.blobKey X) X := by
    refine ⟨_, hblob, ?_, rfl⟩
    rw [Db.withChunk_dicts]
    exact hC d₁.dicts X .archive
  have hu₂ := hu₁.withChunk (E := E) .archive twoChunks 1 X
  have hfs₂ : (d₁.withChunk E .archive twoChunks 1 X).fs.get? twoChunks = some row := by
    rw [Db.withChunk_fs, hfs₁]
  generalize d₁.withChunk E .archive twoChunks 1 X = d₂ at *
  -- Both rows read the blob that is back.
  have hbytes : ({ o with main := d₂ } : Overlay K).layeredBytes E twoChunks (List.range 2) =
      .ok (X ++ (X ++ [])) := by
    have hread : ∀ i, i = 0 ∨ i = 1 →
        ({ o with main := d₂ } : Overlay K).readChunkLayered E .main twoChunks i = .ok X :=
      fun i hi => Overlay.readChunkLayered_of_decodes (hrow₂ i hi) hdec₂
    simp only [show List.range 2 = [0, 1] from rfl, Overlay.layeredBytes, hread 0 (Or.inl rfl),
      hread 1 (Or.inr rfl)]
    rfl
  have hbody₃ := Overlay.refreshDeltaFile_of_unpoliced (E := E) (o := { o with main := d₂ })
    (p := twoChunks) hu₂ 0 (by rw [hnum]; exact hbytes) hfs₂
  refine ⟨d₂.setFs twoChunks fun row => { row with
    size := max (X ++ Y).length (0 + (X ++ X).length)
    hash := .key (E.blobKey (X ++ (X ++ [])))
    mtime := 0 }, ?_, ⟨_, hblob, rfl⟩, hrow₂⟩
  simp only [List.forM_eq_forM, List.forM_cons, List.forM_nil]
  rw [bind_of_ok ((bind_of_ok hbody₁).trans (bind_of_ok hbody₂))]
  exact hbody₃

/-- The range write of `X ++ X` over `X ++ Y`, when no other row has the content `X`: chunk 0 loses
its blob, which chunk 1 stores again, with a count of one for two rows. -/
theorem writeRange_revives {E : Ext K} (hE : Function.Injective E.blobKey) (hC : E.Faithful)
    (hX : X.length = chunkSize) (hY : Y.length = chunkSize) (hXY : X ≠ Y) {base d : Db K}
    (hb : base.policies = []) (hst : Stored E twoChunks (X ++ Y) d)
    (hone : d.refs (E.blobKey X) ≤ 1) :
    ∃ o', Overlay.writeRange E twoChunks 0 (X ++ X) 0 ⟨base, d, []⟩ = .ok () o' ∧
      (∃ c, o'.main.blobs.get? (E.blobKey X) = some c ∧ c.refcnt = 1) ∧
      ∀ i, i = 0 ∨ i = 1 → o'.main.chunks.get? (twoChunks, i) = some (E.blobKey X) := by
  have hpos := chunkSize_pos
  have hlen : (X ++ X).length = chunkSize + chunkSize := by rw [List.length_append, hX]
  have hlenY : (X ++ Y).length = chunkSize + chunkSize := by rw [List.length_append, hX, hY]
  have hd : X ++ X ≠ [] := by
    intro h0
    rw [h0, List.length_nil] at hlen
    omega
  have hlast : (0 + (X ++ X).length - 1) / chunkSize = 1 := by
    rw [hlen]
    decide
  obtain ⟨row, hrow, hkind, hsize, -⟩ := hst.file
  have hview : ((⟨base, d, []⟩ : Overlay K).unhide twoChunks).fileView twoChunks =
      ((X ++ Y).length, row.mode, some .main) := by
    have hlook : ((⟨base, d, []⟩ : Overlay K).unhide twoChunks).lookupFile twoChunks = some
      .main := by
      simp only [Overlay.lookupFile, Overlay.kindIn, Overlay.db, Overlay.unhide_main, hrow,
        Option.map_some, hkind, if_true]
    simp only [Overlay.fileView, hlook, Overlay.sizeIn, Overlay.db, Overlay.unhide_main, hrow,
      Option.elim_some, hsize]
  obtain ⟨d₂, hrun, hs, hu, hch, hrefs, hget, -⟩ := Overlay.ensureDeltaFileRow_total hst.sound
    hst.unpoliced hrow row.mode 0 (max (X ++ Y).length (0 + (X ++ X).length))
  -- The two chunks of the file are rewritten in turn: the first one releases the last reference
  -- to `X` that is left after the second one takes it.
  have htwo : TwoChunks E X Y d₂ := by
    refine ⟨hs, hu, ?_, ?_, by rw [hrefs]; exact hone⟩
    · rw [hch, hst.chunked, chunkRow, chunkAt_append_zero hX, if_pos]
      rw [hlenY]
      decide
    · rw [hch, hst.chunked, chunkRow, chunkAt_append_one hX hY, if_pos]
      rw [hlenY]
      decide
  have hpath : normalizeVmPath twoChunks = twoChunks := by decide
  have hfirst : Overlay.onMain (Overlay.ensureDeltaFileRow twoChunks row.mode 0
      (max (X ++ Y).length (0 + (X ++ X).length))) ((⟨base, d, []⟩ : Overlay K).unhide twoChunks) =
        .ok () { (⟨base, d, []⟩ : Overlay K).unhide twoChunks with main := d₂ } :=
    Overlay.onMain_of_ok hrun
  generalize ho : (⟨base, d, []⟩ : Overlay K).unhide twoChunks = o₀ at hfirst
  obtain ⟨d', hbody, hblob, hrows⟩ := rewrite_revives hE hC hX hY hXY
    (o := { o₀ with main := d₂ }) htwo hget
  refine ⟨{ o₀ with main := d' }, Overlay.writeRange_of_unpoliced hb hd hpath hview ?_, hblob,
    hrows⟩
  rw [ho, bind_of_ok hfirst, hlast, Nat.zero_min, Nat.zero_div]
  exact hbody

/-- A fresh database gets the file `X ++ Y`. -/
theorem vmAddBytes_twoChunks {E : Ext K} (hE : Function.Injective E.blobKey) (hC : E.Faithful)
    (hX : X.length = chunkSize) (hY : Y.length = chunkSize) (hXY : X ≠ Y) :
    ∃ d, vmAddBytes E twoChunks (X ++ Y) 420 0 0 (initDb 0) = .ok () d ∧
      Stored E twoChunks (X ++ Y) d ∧ d.refs (E.blobKey X) ≤ 1 := by
  obtain ⟨d, hrun, hs, hbeside, hchunked, row, hrow, hkind, -, hsize, hhash, -⟩ :=
    fsPutFile_total hC (sound_initDb E 0) (unpoliced_initDb 0) twoChunks 420 0 (X ++ Y)
  have hput : vmAddBytes E twoChunks (X ++ Y) 420 0 0 = fsPutFile E twoChunks 420 0 (X ++ Y) := by
    have hnormal : normalizeVmPath twoChunks = twoChunks := by decide
    have hparents : parentDirs twoChunks = [] := by decide
    unfold vmAddBytes ensureParentDirs
    dsimp only
    rw [hnormal, hparents]
    rfl
  refine ⟨d, (congrFun hput _).trans hrun,
    ⟨hs, hbeside.unpoliced, ⟨row, hrow, hkind, hsize, by simp [hhash]⟩, hchunked⟩, ?_⟩
  -- Only chunk 0 has the content `X`.
  have honly : ∀ c, d.chunks.get? c = some (E.blobKey X) → c = (twoChunks, 0) := by
    rintro ⟨q, i⟩ hc
    rcases eq_or_ne q twoChunks with rfl | hne
    · rw [hchunked, chunkRow] at hc
      split_ifs at hc with hi
      have hnum : numChunks chunkSize (X ++ Y).length = 2 := by
        rw [List.length_append, hX, hY]
        decide
      have hpiece := hE (Option.some.inj hc)
      rw [hnum] at hi
      obtain rfl | rfl : i = 0 ∨ i = 1 := Nat.le_one_iff_eq_zero_or_eq_one.1 (Nat.lt_succ_iff.1 hi)
      · rfl
      · rw [chunkAt_append_one hX hY] at hpiece
        exact absurd hpiece.symm hXY
    · rw [hbeside.chunks q i hne] at hc
      cases hc
  have hcount := Table.count_le_one honly
  unfold Db.refs
  rw [hbeside.snaps, hbeside.undos]
  exact hcount

end Revival

/-- Two chunks of bytes 0 and 1, then the content of the first written over both through the
overlay: the blob has two rows and a count of one. -/
theorem not_refCounts_of_revival : ∃ o : Overlay Bytes,
    Reaches (fun _ _ => True) plainExt (initDb 0) o ∧ ¬ RefCounts o.main := by
  have hX : (List.replicate chunkSize 0 : Bytes).length = chunkSize := List.length_replicate
  have hY : (List.replicate chunkSize 1 : Bytes).length = chunkSize := List.length_replicate
  have hXY : (List.replicate chunkSize 0 : Bytes) ≠ List.replicate chunkSize 1 := by
    rw [ne_eq, List.replicate_inj]
    decide
  generalize (List.replicate chunkSize 0 : Bytes) = X at *
  generalize (List.replicate chunkSize 1 : Bytes) = Y at *
  obtain ⟨d, hadd, hst, hone⟩ := vmAddBytes_twoChunks plainExt_injective plainExt_faithful hX hY hXY
  have hnil : (initDb 0 : Db Bytes).policies = [] := rfl
  -- The range write drops the last reference to a blob and then finds it as if it were stored.
  obtain ⟨o', hwrite, ⟨c, hc, hcnt⟩, hrows⟩ := writeRange_revives plainExt_injective
    plainExt_faithful hX hY hXY hnil hst hone
  have hfirst : endState ((DbStep.store (.addBytes twoChunks (X ++ Y) 420 0 0)).run plainExt)
      ⟨initDb 0, initDb 0, []⟩ = ⟨initDb 0, d, []⟩ := endState_of_ok (Overlay.onMain_of_ok hadd)
  have hsecond : endState ((DbStep.overlay (.writeRange twoChunks 0 (X ++ X) 0)).run plainExt)
      ⟨initDb 0, d, []⟩ = o' := endState_of_ok hwrite
  have hrun : Reaches (fun _ _ => True) plainExt (initDb 0) o' :=
    hsecond ▸ hfirst ▸ ((Reaches.init 0).step _ trivial).step _ trivial
  refine ⟨o', hrun, fun hcounts => ?_⟩
  have htwo := Table.two_le_count (by simp) (hrows 0 (Or.inl rfl)) (hrows 1 (Or.inr rfl))
  have hcount := (hcounts.count _ c hc).1
  rw [hcnt] at hcount
  omega

end Dbvm
