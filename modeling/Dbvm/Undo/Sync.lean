import Dbvm.Host.Sync
import Dbvm.Undo.Apply

/-!
# The undo record of a sync

Both syncs record a path before they write or delete its row, on every branch, so the record stays
exact whatever the sync does and wherever it fails (`keeps_recorded_syncBody`,
`keeps_recorded_syncPath`).
-/

namespace Dbvm

open Lib Lib.Prog Lib.Journal Lib.Posix

variable {K : Type} [DecidableEq K]

section Keeps

variable {id : ℕ} {db₀ : Db K} {p : Str}

/-! ## Writes to a recorded path -/

/-- The record is exact and has an entry for `p`. -/
def RecordedAt (id : ℕ) (db₀ : Db K) (p : Str) (db : Db K) : Prop :=
  Recorded id db₀ db ∧ db.undoFs.get? (id, p) ≠ none

/-- A write that changes one path, or fails and changes nothing. -/
theorem keeps_recordedAt_of {α : Type} {x : Sql K α}
    (hok : ∀ db a db', RefOk db → x db = .ok a db' → ∃ P, Touched P db db' ∧ ∀ q, P q → q = p)
    (herr : ∀ db e db', x db = .error e db' → db' = db) : Keeps (RecordedAt id db₀ p) x := by
  rintro db ⟨hrec, hcap⟩
  unfold endState
  rcases hx : x db with ⟨a, db'⟩ | ⟨e, db'⟩
  · obtain ⟨P, ht, hP⟩ := hok db a db' hrec.refs hx
    refine ⟨hrec.touched ht fun q hq => ?_, ?_⟩
    · rw [hP q hq]
      exact hcap
    · rw [ht.undoFs]
      exact hcap
  · rw [herr db e db' hx]
    exact ⟨hrec, hcap⟩

/-- `fs_put_node` at a recorded path leaves the record good. -/
theorem keeps_recordedAt_fsPutNode (kind : Kind) (mode mtime : ℤ) (link : Option Str) :
    Keeps (RecordedAt id db₀ p) (fsPutNode p kind mode mtime link) :=
  keeps_recordedAt_of (fun _ _ _ h hx => ⟨_, touched_fsPutNode h hx, fun _ hq => hq⟩)
    fun _ _ _ hx => inSavepoint_error hx

/-- An update of the row of a recorded path leaves the record good. -/
theorem keeps_recordedAt_updateFs {f : FsRow K → FsRow K}
    (hf : ∀ row, row.content = none → (f row).content = none) :
    Keeps (RecordedAt id db₀ p) (updateFs p f) :=
  keeps_recordedAt_of (fun _ _ _ h hx => ⟨_, touched_updateFs h hf hx, fun _ hq => hq.1⟩)
    fun _ _ _ hx => statement_error hx

/-- `write_file_checked` at a recorded path leaves the record good. -/
theorem keeps_recordedAt_writeFileChecked (E : Ext K) (mode mtime ns : ℤ) (src : Reader) :
    Keeps (RecordedAt id db₀ p) (writeFileChecked E p mode mtime ns src) := by
  refine Keeps.bind ?_ fun _ => ?_
  · exact keeps_recordedAt_of
      (fun _ _ _ h hx => ⟨_, (touched_fsPutFileStreamNs h hx).1, fun _ hq => hq⟩)
      fun _ _ _ hx => inSavepoint_error hx
  · split_ifs
    · exact keeps_recordedAt_updateFs fun _ h => h
    · exact Keeps.pure _

/-- What follows a capture may write the path. -/
theorem keeps_recorded_capture {α : Type} {ctx : SyncCtx} (hundo : ctx.undo = some id)
    {x : Sql K α} (hx : Keeps (RecordedAt id db₀ p) x) :
    Keeps (Recorded id db₀) (ctx.capture p >>= fun _ => x) := by
  intro db hrec
  obtain ⟨db', hrun, hrec', hcap, -⟩ := undoCapture_total hrec p
  have hcapture : ctx.capture p db = .ok () db' := by
    unfold SyncCtx.capture
    rw [hundo]
    exact hrun
  have hend := hx db' ⟨hrec', hcap⟩
  unfold endState at hend ⊢
  rw [bind_of_ok hcapture]
  rcases hres : x db' with ⟨a, d⟩ | ⟨e, d⟩
  · rw [hres] at hend
    exact hend.1
  · rw [hres] at hend
    exact hend.1

/-- `sync_one` captures an entry before it writes it. -/
theorem keeps_recorded_syncOne (E : Ext K) {ctx : SyncCtx} (hundo : ctx.undo = some id)
    (node : Node) (vmP : Str) (prev : Option (FsMeta K)) :
    Keeps (Recorded id db₀) (syncOne E ctx node vmP prev) :=
  keeps_syncOne_of (fun h => keeps_recorded_capture hundo h) keeps_recordedAt_fsPutNode
    (fun _ hf => keeps_recordedAt_updateFs hf) (keeps_recordedAt_writeFileChecked E) node prev

/-- The deletion of a row captures it first. -/
theorem keeps_recorded_syncDelete {ctx : SyncCtx} (hundo : ctx.undo = some id) (rep : SyncReport)
    (q : Str) : Keeps (Recorded id db₀) (syncDelete ctx rep q) := by
  refine keeps_recorded_capture hundo (Keeps.bind (Keeps.reads _) fun there => ?_)
  refine Keeps.bind (keeps_recordedAt_of (fun _ _ _ h hx => ⟨_, touched_deleteFs h hx, ?_⟩)
    fun _ _ _ hx => statement_error hx) fun _ => Keeps.pure _
  exact fun q' hq' => of_decide_eq_true hq'.1

/-- A full sync captures whatever it writes or deletes. -/
theorem keeps_recorded_syncBody (E : Ext K) (ctx : SyncCtx) (hundo : ctx.undo = some id)
    (fs : Posix.Fs) (tree : Loc) : Keeps (Recorded id db₀) (syncBody E ctx fs tree) := by
  refine Keeps.bind (Keeps.reads _) fun db => Keeps.bind (Keeps.foldlM ?_ _ _) fun st =>
    Keeps.foldlM (keeps_recorded_syncDelete hundo) _ _
  intro st e
  unfold syncEntry
  rcases e with _ | ⟨loc, node⟩
  · exact Keeps.pure _
  dsimp only
  split_ifs
  · exact Keeps.pure _
  split
  · exact Keeps.pure _
  · exact Keeps.bind (Keeps.attempt (keeps_recorded_syncOne E hundo _ _ _)) fun _ => Keeps.pure _

/-! ## A set of paths -/

/-- Every path of a list is captured. -/
theorem undoCaptureAll_total : ∀ (l : List Str) {db : Db K}, Recorded id db₀ db → ∃ db',
    l.forM (undoCapture id) db = .ok () db' ∧ Recorded id db₀ db' ∧ db'.fs = db.fs ∧
      (∀ q ∈ l, db'.undoFs.get? (id, q) ≠ none) ∧
      ∀ q, db.undoFs.get? (id, q) ≠ none → db'.undoFs.get? (id, q) ≠ none
  | [], db, h => ⟨db, rfl, h, rfl, by simp, fun _ hq => hq⟩
  | q :: l, db, h => by
    obtain ⟨d, hrun, hd, hcap, hfs, -, hmono⟩ := undoCapture_total h q
    obtain ⟨db', hrun', h', hfs', hall, hmono'⟩ := undoCaptureAll_total l hd
    refine ⟨db', ?_, h', hfs'.trans hfs, fun q' hq' => ?_, fun q' hq' => hmono' q' (hmono q' hq')⟩
    · rw [List.forM_eq_forM, List.forM_cons, bind_of_ok hrun]
      exact hrun'
    · rcases List.mem_cons.1 hq' with rfl | hq'
      · exact hmono' _ hcap
      · exact hall q' hq'

/-- A path and what is below it are captured, then deleted. -/
theorem keeps_recorded_deleteTree {α : Type} (row : Str) {x : ℕ → Sql K α}
    (hx : ∀ n, Keeps (Recorded id db₀) (x n)) : Keeps (Recorded id db₀) (do
      undoCaptureTree id row
      let n ← Prog.reads fun db => (db.fs.select fun q _ =>
        q = row || like (trimEndSlashes row ++ ['/', '%']) q).length
      deleteFs fun q => q = row || like (trimEndSlashes row ++ ['/', '%']) q
      x n) := by
  intro db hrec
  obtain ⟨d, hrun, hd, hfs, hall, -⟩ := undoCaptureAll_total
    ((db.fs.select fun q _ => q = row || like (trimEndSlashes row ++ ['/', '%']) q).map Prod.fst)
      hrec
  have hcapture : undoCaptureTree id row db = .ok () d := by
    unfold undoCaptureTree
    rw [reads_bind]
    exact hrun
  unfold endState
  rw [bind_of_ok hcapture, reads_bind]
  generalize hn : (d.fs.select fun q _ =>
    q = row || like (trimEndSlashes row ++ ['/', '%']) q).length = n
  rcases hdel : deleteFs (fun q => q = row || like (trimEndSlashes row ++ ['/', '%']) q) d with
    ⟨u, d'⟩ | ⟨e, d'⟩
  · rw [bind_of_ok hdel]
    refine hx n d' (hd.touched (touched_deleteFs hd.refs hdel) fun q hq => hall q ?_)
    -- Only rows that are there are deleted, and these have been captured.
    obtain ⟨r, hr⟩ := Option.ne_none_iff_exists'.1 hq.2
    rw [hfs] at hr
    refine List.mem_map.2 ⟨(q, r), ?_, rfl⟩
    rw [Table.select, List.mem_filter]
    exact ⟨Table.get?_eq_some_iff.1 hr, hq.1⟩
  · rw [bind_of_error hdel, statement_error hdel]
    exact hd

/-- One path of a sync of paths is captured before it is written. -/
theorem keeps_recorded_syncPath (E : Ext K) {ctx : SyncCtx} (hundo : ctx.undo = some id)
    (fs : Posix.Fs) (tree : Loc) (aliases : List (Str × Str)) (rep : SyncReport) (vmP : Str) :
    Keeps (Recorded id db₀) (syncPath E ctx fs tree aliases rep vmP) := by
  unfold syncPath
  split_ifs
  · exact Keeps.pure _
  split
  · split
    · exact Keeps.pure _
    · exact Keeps.bind (Keeps.reads _) fun prev =>
        Keeps.bind (Keeps.attempt (keeps_recorded_syncOne E hundo _ _ _)) fun _ => Keeps.pure _
  · rw [hundo]
    exact keeps_recorded_deleteTree _ fun _ => Keeps.pure _
  · exact Keeps.pure _

end Keeps

/-! ## Pending hashes -/

section Rehashed

variable {E : Ext K} {db db' db'' : Db K}

/-- A row without its hash. -/
def FsRow.unhashed (row : FsRow K) : FsRow K := { row with hash := .null }

/-- Stale hashes have been computed: only the hash of files marked dirty has changed. -/
structure Rehashed (db db' : Db K) : Prop where
  /-- The chunk rows. -/
  chunks : db'.chunks = db.chunks
  /-- The blobs. -/
  blobs : db'.blobs = db.blobs
  /-- The dictionaries. -/
  dicts : db'.dicts = db.dicts
  /-- The records. -/
  undo : db'.undo = db.undo
  /-- Their entries. -/
  undoFs : db'.undoFs = db.undoFs
  /-- Their chunks. -/
  undoChunks : db'.undoChunks = db.undoChunks
  /-- The snapshots. -/
  snapshots : db'.snapshots = db.snapshots
  /-- Their rows. -/
  snapFs : db'.snapFs = db.snapFs
  /-- Their chunks. -/
  snapChunks : db'.snapChunks = db.snapChunks
  /-- The other files. -/
  clean : ∀ p, p ∉ db.dirty → db'.fs.get? p = db.fs.get? p
  /-- The files themselves. -/
  rows : ∀ p, (db'.fs.get? p).map FsRow.unhashed = (db.fs.get? p).map FsRow.unhashed
  /-- The marks that are left. -/
  dirty : ∀ p ∈ db'.dirty, p ∈ db.dirty

omit [DecidableEq K] in
/-- Nothing is finished yet. -/
theorem Rehashed.refl (db : Db K) : Rehashed db db :=
  ⟨rfl, rfl, rfl, rfl, rfl, rfl, rfl, rfl, rfl, fun _ _ => rfl, fun _ => rfl, fun _ h => h⟩

omit [DecidableEq K] in
/-- Two changes of hashes and marks are one. -/
theorem Rehashed.trans (h : Rehashed db db') (h' : Rehashed db' db'') : Rehashed db db'' where
  chunks := h'.chunks.trans h.chunks
  blobs := h'.blobs.trans h.blobs
  dicts := h'.dicts.trans h.dicts
  undo := h'.undo.trans h.undo
  undoFs := h'.undoFs.trans h.undoFs
  undoChunks := h'.undoChunks.trans h.undoChunks
  snapshots := h'.snapshots.trans h.snapshots
  snapFs := h'.snapFs.trans h.snapFs
  snapChunks := h'.snapChunks.trans h.snapChunks
  clean := fun p hp => (h'.clean p fun hp' => hp (h.dirty p hp')).trans (h.clean p hp)
  rows := fun p => (h'.rows p).trans (h.rows p)
  dirty := fun p hp => h.dirty p (h'.dirty p hp)

/-- What is done for one file: nothing, or its hash is computed and its mark removed. -/
theorem finalizeFile_cases {p : Str} {b : Bool} (h : finalizeFile E p db = .ok b db') :
    (p ∉ db.dirty ∧ db' = db) ∨ (p ∈ db.dirty ∧ ∃ row whole, db.fs.get? p = some row ∧
      wholeFileHash E p row.size db = .ok whole db ∧
      db' = { db.setFs p (fun row => { row with hash := .key whole }) with
        dirty := db.dirty.filter (· ≠ p) }) := by
  unfold finalizeFile at h
  rw [reads_bind] at h
  split_ifs at h with hp
  · cases h
    exact Or.inl ⟨by simpa using hp, rfl⟩
  have hp : p ∈ db.dirty := by simpa using hp
  obtain ⟨size, d₁, hsize, hbody⟩ := bind_eq_ok.1 (savepoint_eq_ok.1 h)
  obtain ⟨hquery, hd₁⟩ := query_eq_ok.1 hsize
  rw [hd₁] at hbody
  obtain ⟨whole, d₂, hhash, hbody⟩ := bind_eq_ok.1 hbody
  -- The hash is computed without a write.
  have hd₂ : d₂ = db :=
    (keeps_wholeFileHash E p size (I := fun d => d = db)).triple db whole d₂ rfl hhash
  rw [hd₂] at hhash hbody
  obtain ⟨_, d₃, hset, hbody⟩ := bind_eq_ok.1 hbody
  obtain ⟨_, d₄, hdel, hbody⟩ := bind_eq_ok.1 hbody
  cases hbody
  rcases updateFs_ok hset with ⟨hnone, -⟩ | ⟨row, hrow, hd₃⟩
  · rw [hnone] at hquery
    cases hquery
  · rw [hrow] at hquery
    cases hquery
    refine Or.inr ⟨hp, row, whole, hrow, hhash, ?_⟩
    rw [deleteDirty, statement_eq_ok, hd₃] at hdel
    cases hdel
    rfl

/-- `finalize_file` changes the hash of its file and ends its mark. -/
theorem finalizeFile_ok {p : Str} {b : Bool} (h : finalizeFile E p db = .ok b db') :
    Rehashed db db' ∧ p ∉ db'.dirty := by
  rcases finalizeFile_cases h with ⟨hp, rfl⟩ | ⟨hp, row, whole, hrow, -, rfl⟩
  · exact ⟨Rehashed.refl db', hp⟩
  · refine ⟨⟨rfl, rfl, rfl, rfl, rfl, rfl, rfl, rfl, rfl, fun q hq => ?_, fun q => ?_,
      fun q hq => ?_⟩,
      by simp⟩
    · change (db.setFs p _).fs.get? q = _
      rw [Db.get?_setFs, if_neg]
      rintro rfl
      exact hq hp
    · change ((db.setFs p _).fs.get? q).map _ = _
      rw [Db.get?_setFs]
      split_ifs with hq
      · rw [hq, hrow]
        rfl
      · rfl
    · exact (List.mem_filter.1 hq).1

/-- One round of `finalize_dirty` leaves the state alone when it fails. -/
theorem finalizeFile_error {p : Str} {e : Err} (h : finalizeFile E p db = .error e db') :
    db' = db := by
  unfold finalizeFile at h
  rw [reads_bind] at h
  split_ifs at h
  · cases h
  · exact inSavepoint_error h

/-- `finalize_dirty` changes hashes and ends every mark. -/
theorem finalizeDirty_ok {n : ℕ} (h : finalizeDirty E db = .ok n db') :
    Rehashed db db' ∧ db'.dirty = [] := by
  unfold finalizeDirty at h
  rw [reads_bind] at h
  -- The marks of the paths already visited are gone.
  have hloop : ∀ (l : List Str) (m n : ℕ) (d d' : Db K),
      (l.foldlM (fun n p => do return if ← finalizeFile E p then n + 1 else n) m : Sql K ℕ) d =
        .ok n d' →
        Rehashed d d' ∧ ∀ p ∈ l, p ∉ d'.dirty := by
    intro l
    induction l with
    | nil =>
      intro m n d d' h
      cases h
      exact ⟨Rehashed.refl d, by simp⟩
    | cons p l ih =>
      intro m n d d' h
      rw [List.foldlM_cons] at h
      obtain ⟨m', d₁, hfile, hrest⟩ := bind_eq_ok.1 h
      obtain ⟨b, d₂, hfile, hret⟩ := bind_eq_ok.1 hfile
      cases hret
      obtain ⟨hre, hp⟩ := finalizeFile_ok hfile
      obtain ⟨hre', hl⟩ := ih _ _ _ _ hrest
      refine ⟨hre.trans hre', fun q hq => ?_⟩
      rcases List.mem_cons.1 hq with rfl | hq
      · exact fun hq => hp (hre'.dirty q hq)
      · exact hl q hq
  obtain ⟨hre, hgone⟩ := hloop _ _ _ _ _ h
  refine ⟨hre, List.eq_nil_iff_forall_not_mem.2 fun p hp => hgone p (hre.dirty p hp) hp⟩

/-- Wherever it fails, the files are the ones they were. -/
theorem rehashed_finalizeDirty (E : Ext K) (db : Db K) :
    Rehashed db (endState (finalizeDirty E) db) := by
  have hone : ∀ p, Keeps (Rehashed db) (finalizeFile E p) := by
    intro p d hd
    unfold endState
    rcases hx : finalizeFile E p d with ⟨b, d'⟩ | ⟨e, d'⟩
    · exact hd.trans (finalizeFile_ok hx).1
    · rw [finalizeFile_error hx]
      exact hd
  refine Keeps.bind (Keeps.reads _) (fun paths => Keeps.foldlM (fun n p => ?_) paths 0) db
    (Rehashed.refl db)
  exact Keeps.bind (hone p) fun b => Keeps.pure _

/-- No pending hash: nothing to compute. -/
theorem finalizeDirty_nil (h : db.dirty = []) : finalizeDirty E db = .ok 0 db := by
  unfold finalizeDirty
  rw [reads_bind, h]
  rfl

omit [DecidableEq K] in
/-- New hashes put no entry into a record. -/
theorem Rehashed.freshUndo (h : Rehashed db db') {id : ℕ} (hf : FreshUndo id db) :
    FreshUndo id db' where
  there := by
    rw [h.undo]
    exact hf.there
  entries := by
    rw [h.undoFs]
    exact hf.entries
  chunks := by
    rw [h.undoChunks]
    exact hf.chunks

/-- The bytes of a file do not depend on its hash. -/
theorem Rehashed.fileBytes (h : Rehashed db db') (p : Str) :
    fileBytes E db' p = fileBytes E db p := by
  have hrow := h.rows p
  have hlist : db'.chunkList p = db.chunkList p := by
    unfold Db.chunkList
    rw [h.chunks]
  unfold Dbvm.fileBytes
  rcases hr : db.fs.get? p with _ | row
  · rw [hr, Option.map_none, Option.map_eq_none_iff] at hrow
    rw [hrow]
  · rw [hr] at hrow
    obtain ⟨row', hr', heq⟩ := Option.map_eq_some_iff.1 hrow
    have hkind : row'.kind = row.kind := congrArg (fun r => r.toFsMeta.kind) heq
    have hsize : row'.size = row.size := congrArg (fun r => r.toFsMeta.size) heq
    rw [hr']
    simp only [hkind, hsize, hlist, h.blobs, h.dicts]

end Rehashed

/-! ## The record of a whole sync -/

section Sync

variable {E : Ext K} {db db' : Db K} {id : ℕ} {rep : SyncReport}

/-- A sync computes the stale hashes and then keeps its record exact. -/
theorem recorded_syncChanges (h : RefOk db) (hu : FreshUndo id db) {fs : Posix.Fs} {tree : Loc}
    {changes : Changes} {now : ℤ}
    (hrun : syncChanges E fs tree changes (some id) now db = .ok rep db') :
    ∃ n dbf, finalizeDirty E db = .ok n dbf ∧ RefOk dbf ∧ Recorded id dbf db' := by
  have hfinal : ∀ {n : ℕ} {dbf : Db K}, finalizeDirty E db = .ok n dbf →
      RefOk dbf ∧ Recorded id dbf dbf := by
    intro n dbf hn
    have hok : RefOk dbf :=
      (keeps_refOk_of fun _ => keeps_finalizeDirty E).triple db n dbf h hn
    exact ⟨hok, ((finalizeDirty_ok hn).1.freshUndo hu).recorded hok⟩
  unfold syncChanges at hrun
  split_ifs at hrun
  · obtain ⟨n, dbf, hn, hbody⟩ := bind_eq_ok.1 hrun
    obtain ⟨hok, hrec⟩ := hfinal hn
    exact ⟨n, dbf, hn, hok, (keeps_recorded_syncBody E _ rfl fs tree).triple dbf rep db' hrec hbody⟩
  · obtain ⟨n, dbf, hn, hbody⟩ := bind_eq_ok.1 hrun
    obtain ⟨hok, hrec⟩ := hfinal hn
    rw [reads_bind] at hbody
    refine ⟨n, dbf, hn, hok, ?_⟩
    exact (Keeps.foldlM (keeps_recorded_syncPath E rfl fs tree _) changes.paths {}).triple
      dbf rep db' hrec (savepoint_eq_ok.1 hbody)

/-- The undo record of a sync is exact with respect to the tree before the sync in which the pending
hashes `dbf` are computed: its change list is the difference of the trees, and applying it gives
back every path's row and chunk list, and the bytes of every file. -/
theorem undoRecord_exact {K : Type} [DecidableEq K] {E : Ext K} {db db' : Db K} {id : ℕ}
    {rep : SyncReport} (h : RefOk db) (hu : FreshUndo id db) {fs : Posix.Fs} {tree : Loc}
    {changes : Changes} {now : ℤ}
    (hrun : syncChanges E fs tree changes (some id) now db = .ok rep db') :
    ∃ n dbf, finalizeDirty E db = .ok n dbf ∧ Rehashed db dbf ∧
      (db'.undoDiff id).Between dbf db' ∧
      ∃ db'', undoApply id db' = .ok () db'' ∧ (∀ p, db''.entry p = dbf.entry p) ∧
        ∀ p, fileBytes E db'' p = fileBytes E db p := by
  obtain ⟨n, dbf, hn, hok, hrec⟩ := recorded_syncChanges h hu hrun
  obtain ⟨db'', happly, -, hentry, hbytes⟩ := hrec.undoApply hok
  have hre := (finalizeDirty_ok hn).1
  refine ⟨n, dbf, hn, hre, hrec.undoDiff, db'', happly, congrFun hentry, fun p => ?_⟩
  rw [hbytes E p, hre.fileBytes]

/-- A file whose last write has left its hash pending. -/
def pendingDb : Db Bytes := endState (do
  vmAddBytes plainExt "/f".toList [1] 0o644 0 0
  uncached (writeRangeDeferred plainExt "/f".toList 0 [2] 0)
  let _ ← undoBegin) (initDb 0)

/-- The counts of the example are exact. -/
theorem refOk_pendingDb : RefOk pendingDb := by
  refine Keeps.bind (keeps_refOk_of fun _ => keeps_vmAddBytes plainExt trivial [1] 0o644 0 0)
    (fun _ => Keeps.bind (keeps_refOk_of fun _ => Keeps.withCache none
      (keeps_writeRangeDeferred plainExt _ 0 [2] 0 fun _ => trivial)) fun _ =>
        Keeps.bind keeps_undoBegin fun _ => Keeps.pure _) _ (refOk_initDb 0)

/-- The record of the example has no entry. -/
theorem freshUndo_pendingDb : FreshUndo 1 pendingDb where
  there := by decide
  entries := fun _ => rfl
  chunks := fun _ _ => rfl

/-- A sync of that database with an empty tree records what it deletes. -/
theorem undoRecord_exact_empty : ∃ n dbf, finalizeDirty plainExt pendingDb = .ok n dbf ∧
    Rehashed pendingDb dbf ∧
    ∃ rep db', vmSyncTree plainExt Table.empty [] (some 1) 0 pendingDb = .ok rep db' ∧
      (db'.undoDiff 1).Between dbf db' ∧ "/f".toList ∈ (db'.undoDiff 1).deleted ∧
      ∃ db'', undoApply 1 db' = .ok () db'' ∧ ∀ p, db''.entry p = dbf.entry p := by
  obtain ⟨rep, hrun⟩ : ∃ rep, syncChanges plainExt Table.empty [] ⟨[], true⟩ (some 1) 0 pendingDb =
      .ok rep (endState (syncChanges plainExt Table.empty [] ⟨[], true⟩ (some 1) 0) pendingDb) :=
    exists_of_returns (by decide +kernel)
  obtain ⟨n, dbf, hn, hre, hdiff, db'', happly, hentry, -⟩ :=
    undoRecord_exact refOk_pendingDb freshUndo_pendingDb hrun
  exact ⟨n, dbf, hn, hre, rep, _, hrun, hdiff, by decide +kernel, db'', happly, hentry⟩

/-- A sync of no path at all gives the file its hash. The change list is empty although the hash is
not the one before the sync, and applying the record does not bring the stale hash back. -/
theorem undoRecord_pending_hash : ∃ (db' db'' : Db Bytes) (rep : SyncReport),
    RefOk pendingDb ∧ FreshUndo 1 pendingDb ∧
      vmSyncPaths plainExt Table.empty [] [] (some 1) 0 pendingDb = .ok rep db' ∧
      ¬ (db'.undoDiff 1).Between pendingDb db' ∧ undoApply 1 db' = .ok () db'' ∧
      db''.entry "/f".toList ≠ pendingDb.entry "/f".toList := by
  -- Both runs are evaluated; the record has no hash for the file that was still pending.
  obtain ⟨rep, hrun⟩ := exists_of_returns (s := pendingDb)
    (x := vmSyncPaths plainExt Table.empty [] [] (some 1) 0) (by decide +kernel)
  obtain ⟨u, happly⟩ := exists_of_returns (x := undoApply 1)
    (s := endState (vmSyncPaths plainExt Table.empty [] [] (some 1) 0) pendingDb)
    (by decide +kernel)
  refine ⟨_, _, rep, refOk_pendingDb, freshUndo_pendingDb, hrun, fun hdiff => ?_, happly, ?_⟩
  · have hmod : "/f".toList ∈ ((endState (vmSyncPaths plainExt Table.empty [] [] (some 1) 0)
        pendingDb).undoDiff 1).modified := by
      rcases hold : pendingDb.fs.get? "/f".toList with _ | r
      · exact absurd hold (by decide +kernel)
      rcases hnew : (endState (vmSyncPaths plainExt Table.empty [] [] (some 1) 0)
          pendingDb).fs.get? "/f".toList with _ | r'
      · exact absurd hnew (by decide +kernel)
      refine (hdiff.modified _).2 ⟨r, r', hold, hnew, Or.inr (Or.inl fun heq => ?_)⟩
      have hhash : (pendingDb.fs.get? "/f".toList).map (fun r => r.hash) =
          ((endState (vmSyncPaths plainExt Table.empty [] [] (some 1) 0)
            pendingDb).fs.get? "/f".toList).map fun r => r.hash := by
        rw [hold, hnew, Option.map_some, Option.map_some, heq]
      exact absurd hhash (by decide +kernel)
    exact absurd hmod (by decide +kernel)
  · intro heq
    have hhash := congrArg (Option.map fun e => e.1.hash) heq
    exact absurd hhash (by decide +kernel)

end Sync

end Dbvm
