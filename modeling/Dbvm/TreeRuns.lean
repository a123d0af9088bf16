import Dbvm.Host.Tree
import Dbvm.Overlay.Tree

/-!
# The shape of the tree in runs

The operations that write rows, on a database fresh from `init_vm_db`: an operation that commits in
several places is several steps. `TreeOp.Fits` is what an operation must find: the place of each
path it writes is below directories and links, and what becomes a regular file has nothing below it.
In every run whose steps fit, every row but the root stands below a directory or a link, in the live
tree, in every snapshot and in the merged view of every overlay on it (`treeShaped_of_run`). The
code creates parents with `INSERT OR IGNORE` and looks at none of this, so other runs leave rows
below a regular file (`below_file_of_run`).
-/

namespace Dbvm

open Lib Lib.Prog Lib.Posix

variable {K : Type} [DecidableEq K] {E : Ext K} {d d' : Db K} {T : SnapPart → Prop} {db₀ : Db K}

/-! ## The operations -/

/-- What writes rows, up to its next commit. -/
inductive TreeOp (K : Type) where
  /-- `vm_add_bytes`. -/
  | addBytes (vmPath : Str) (data : Bytes) (mode mtime now : ℤ)
  /-- `vm_add_dir`. -/
  | addDir (vmPath : Str) (mode mtime now : ℤ)
  /-- `vm_add_symlink`. -/
  | addSymlink (vmPath target : Str) (now : ℤ)
  /-- `vm_add_file`. -/
  | addFile (fs : Fs) (mtimeOf : Loc → ℤ) (now : ℤ) (fuel : ℕ) (loc : Loc) (vmPath : Str)
  /-- A batch of `vm_pack_host_dir`, or the directories and links of `vm_pack_host_dir_parallel`. -/
  | packBatch (entries : List PackEntry) (now : ℤ)
  /-- A batch of files of `vm_pack_host_dir_parallel`. -/
  | packFiles (entries : List PackEntry) (now : ℤ)
  /-- A batch of `vm_import_tar_filtered`. -/
  | importTar (opts : TarOptions) (entries : List (Except Err TarEntry)) (now : ℤ)
  /-- A step of `vm_import_closure`. -/
  | importClosure (fs : Fs) (mtimeOf : Loc → ℤ) (now : ℤ) (fuel : ℕ) (step : ClosureStep)
  /-- `inject`. -/
  | inject (base : Option (Db K)) (pkg : Db K)
  /-- `vm_sync_report`, `vm_sync_full` and `vm_sync_tree`. -/
  | syncReport (ctx : SyncCtx) (fs : Fs) (tree : Loc)
  /-- `vm_sync_paths`. -/
  | syncPaths (fs : Fs) (tree : Loc) (paths : List Str) (undo : Option ℕ) (now : ℤ)
  /-- `snapshot_create`. -/
  | snapshotCreate (name : Str)
  /-- `snapshot_create_named`. -/
  | snapshotCreateNamed (pfx placeholder : Str)
  /-- `snapshot_delete`. -/
  | snapshotDelete (name : Str)
  /-- `snapshot_retain`. -/
  | snapshotRetain (keep : ℕ)
  /-- `snapshot_restore`. -/
  | snapshotRestore (name : Str)
  /-- `undo_begin`. -/
  | undoBegin
  /-- `undo_capture`. -/
  | undoCapture (id : ℕ) (path : Str)
  /-- `undo_capture_tree`. -/
  | undoCaptureTree (id : ℕ) (path : Str)
  /-- `undo_apply`. -/
  | undoApply (id : ℕ)
  /-- `undo_delete`. -/
  | undoDelete (id : ℕ)

/-- The statements of an operation. `vm_import_tar_filtered` and `sync_report_impl` begin and commit
by hand and roll nothing back. -/
def TreeOp.run (E : Ext K) : TreeOp K → Sql K Unit
  | .addBytes vmPath data mode mtime now => vmAddBytes E vmPath data mode mtime now
  | .addDir vmPath mode mtime now => vmAddDir vmPath mode mtime now
  | .addSymlink vmPath target now => vmAddSymlink vmPath target now
  | .addFile fs mtimeOf now fuel loc vmPath => vmAddFile E fs mtimeOf now fuel loc vmPath
  | .packBatch entries now => inSavepoint (entries.forM (packEntry E now))
  | .packFiles entries now => inSavepoint (entries.forM (packFile E now))
  | .importTar opts entries now => entries.forM (importEntry E opts now)
  | .importClosure fs mtimeOf now fuel step => step.run E fs mtimeOf now fuel
  | .inject base pkg => ignoring (Dbvm.inject E base pkg)
  | .syncReport ctx fs tree => ignoring (syncReportImpl E ctx fs tree)
  | .syncPaths fs tree paths undo now => ignoring (vmSyncPaths E fs tree paths undo now)
  | .snapshotCreate name => ignoring (Dbvm.snapshotCreate E name)
  | .snapshotCreateNamed pfx placeholder => ignoring (Dbvm.snapshotCreateNamed E pfx placeholder)
  | .snapshotDelete name => Dbvm.snapshotDelete name
  | .snapshotRetain keep => ignoring (Dbvm.snapshotRetain keep)
  | .snapshotRestore name => Dbvm.snapshotRestore name
  | .undoBegin => ignoring Dbvm.undoBegin
  | .undoCapture id path => Dbvm.undoCapture id path
  | .undoCaptureTree id path => Dbvm.undoCaptureTree id path
  | .undoApply id => Dbvm.undoApply id
  | .undoDelete id => Dbvm.undoDelete id

/-- Each path that the operation writes has its place when its turn comes. -/
def TreeOp.Fits (E : Ext K) (d : Db K) : TreeOp K → Prop
  | .addBytes vmPath .. => d.Fits (normalizeVmPath vmPath) .file
  | .addDir vmPath .. => d.Fits (normalizeVmPath vmPath) .dir
  | .addSymlink vmPath .. => d.Fits (normalizeVmPath vmPath) .symlink
  | .addFile fs mtimeOf now fuel loc vmPath => AddFits E fs mtimeOf now fuel loc vmPath d
  | .packBatch entries now => InTurn (packEntry E now) PackEntry.TreeFits entries d
  | .packFiles entries now => InTurn (packFile E now) PackEntry.FileTreeFits entries d
  | .importTar opts entries now => InTurn (importEntry E opts now) opts.TreeFits entries d
  | .importClosure fs mtimeOf now fuel step => step.Fits E fs mtimeOf now fuel d
  | .inject _ pkg => d.InjectFits pkg
  | .syncReport ctx fs tree => d.SyncFits ctx fs tree
  | .syncPaths fs tree paths undo now => d.SyncPathsFits E fs tree paths undo now
  | .undoApply id => d.UndoFits id
  | _ => True

/-- The databases that runs lead to, from a fresh one, by steps that meet a condition. -/
inductive TreeRun (E : Ext K) (C : Db K → TreeOp K → Prop) : Db K → Prop where
  /-- A database fresh from `init_vm_db`. -/
  | init (now : ℤ) : TreeRun E C (initDb now)
  /-- One more operation, whether it returns or fails. -/
  | step {d : Db K} (h : TreeRun E C d) (op : TreeOp K) (hop : C d op) :
      TreeRun E C (endState (op.run E) d)

/-! ## Operations without their value -/

omit [DecidableEq K] in
/-- The value of a program does not matter for the state it ends in. -/
theorem endState_ignoring {α : Type} (x : Sql K α) (d : Db K) :
    endState (ignoring x) d = endState x d := by
  rcases hx : x d with ⟨a, d'⟩ | ⟨e, d'⟩
  · have hrun : ignoring x d = .ok () d' := bind_of_ok hx
    rw [endState_of_ok hrun, endState_of_ok hx]
  · have hrun : ignoring x d = .error e d' := bind_of_error hx
    unfold endState
    rw [hrun, hx]

/-! ## One operation -/

/-- A capture only writes the tables of the undo records. -/
theorem keeps_fs_undoCapture {fs : Table Str (FsRow K)} (id : ℕ) (path : Str) :
    Keeps (fun d => d.fs = fs) (undoCapture (K := K) id path) := by
  have hrow : ∀ m, Keeps (fun d : Db K => d.fs = fs) (insertUndoFs id path m) := by
    intro m
    refine keeps_fs_of fun d d' hx => ?_
    split_ifs at hx
    cases hx
    rfl
  have hchunks : Keeps (fun d : Db K => d.fs = fs) (copyUndoChunks id path) := by
    refine Keeps.statement fun d d' hd hx => foldlM_inv (I := fun d : Db K => d.fs = fs) ?_ hd hx
    intro r _ s s' hs hstep
    unfold Db.insertUndoChunk? at hstep
    split_ifs at hstep
    cases hstep
    exact hs
  unfold undoCapture
  refine Keeps.bind (Keeps.reads _) fun seen => ?_
  split_ifs
  · exact Keeps.pure _
  · refine Keeps.bind (Keeps.reads _) fun row => ?_
    cases row with
    | none => exact hrow none
    | some r => exact Keeps.bind (hrow _) fun _ => hchunks

omit [DecidableEq K] in
/-- A batch that is rolled back when it fails. -/
theorem Db.TreeShaped.batch {α : Type} {f : α → Sql K Unit} {C : Db K → α → Prop} {l : List α}
    (h : d.TreeShaped) (hf : ∀ s a s', s.TreeShaped → C s a → f a s = .ok () s' → s'.TreeShaped)
    (hl : InTurn f C l d) :
    (endState (inSavepoint (l.forM f)) d).TreeShaped := by
  refine (Atomic.savepoint _).endState h fun _ s' hx => ?_
  exact hl.returned hf h (savepoint_eq_ok.1 hx)

/-- An operation that fits keeps the shape of the live tree and of the snapshots. -/
theorem TreeOp.Fits.allShaped {op : TreeOp K} (hfits : op.Fits E d) (h : d.AllShaped) :
    (endState (op.run E) d).AllShaped := by
  -- Operations on the live tree leave the snapshots alone; those on snapshots copy a shaped tree
  -- or put one back.
  cases op with
  | addBytes vmPath data mode mtime now =>
    exact h.endState ((writerKept_effects E _ _).vmAddBytes vmPath data mtime now trivial)
      (treeShaped_vmAddBytes h.live hfits data mode mtime now)
  | addDir vmPath mode mtime now =>
    exact h.endState ((writerKept_effects E _ _).vmAddDir trivial
      trivial) (treeShaped_vmAddDir h.live hfits mode mtime now)
  | addSymlink vmPath target now =>
    exact h.endState ((writerKept_effects E _ _).vmAddSymlink
      trivial trivial) (treeShaped_vmAddSymlink h.live hfits now)
  | addFile fs mtimeOf now fuel loc vmPath =>
    exact h.endState ((writerKept_effects E _ _).vmAddFile (fun _ _ => trivial) fun _ _ _ =>
      trivial) (treeShaped_vmAddFile fuel h.live hfits)
  | packBatch entries now =>
    refine h.endState (Keeps.saved (Keeps.forM
      (fun _ => (writerKept_effects E _ _).packEntry (fun _ _ => trivial) trivial) entries)) ?_
    refine h.live.batch (fun s entry s' hs hentry hx => ?_) hfits
    have hend : (endState (packEntry E now entry) s).TreeShaped := hentry.packEntry hs
    rwa [endState_of_ok hx] at hend
  | packFiles entries now =>
    refine h.endState (Keeps.saved (Keeps.forM (effects_packFile E now) entries)) ?_
    exact h.live.batch (fun s entry s' hs hentry hx => hentry.packFile hs hx) hfits
  | importTar opts entries now =>
    refine h.endState (Keeps.forM
      (fun _ => (writerKept_effects E _ _).importEntry (fun _ _ => trivial) fun _ _ _ => trivial)
      entries) ?_
    exact InTurn.keeps (fun s entry hs hentry => hentry.importEntry hs) hfits h.live
  | importClosure fs mtimeOf now fuel step =>
    exact h.endState ((writerKept_effects E _ _).closureStep (fun _ _ => trivial) fun _ _ _ =>
      trivial) (hfits.run h.live)
  | inject base pkg =>
    have hend : (endState (Dbvm.inject E base pkg) d).TreeShaped :=
    Db.InjectFits.inject hfits h.live
    rw [← endState_ignoring] at hend
    exact h.endState (Keeps.ignoring (effects_inject E base pkg)) hend
  | syncReport ctx fs tree =>
    have hend := Db.SyncFits.syncReportImpl hfits h.live E
    rw [← endState_ignoring] at hend
    exact h.endState (Keeps.ignoring ((writerKept_effects E _ _).syncReportImpl (fun _ => trivial)
      (fun _ _ => trivial) ctx fs tree)) hend
  | syncPaths fs tree paths undo now =>
    have hend := Db.SyncPathsFits.vmSyncPaths hfits h.live
    rw [← endState_ignoring] at hend
    exact h.endState (Keeps.ignoring ((writerKept_effects E _ _).vmSyncPaths (fun _ => trivial)
      (fun _ _ => trivial) fs tree paths undo now)) hend
  | snapshotCreate name =>
    have hend := h.snapshotCreate E name
    rwa [← endState_ignoring] at hend
  | snapshotCreateNamed pfx placeholder =>
    have hend := h.snapshotCreateNamed E pfx placeholder
    rwa [← endState_ignoring] at hend
  | snapshotDelete name => exact Db.AllShaped.keeps_snapshotDelete name d h
  | snapshotRetain keep => exact Keeps.ignoring (Db.AllShaped.keeps_snapshotRetain keep) d h
  | snapshotRestore name => exact h.snapshotRestore name
  | undoBegin => exact h.endState (Keeps.ignoring effects_undoBegin) (h.live.of_fs rfl)
  | undoCapture id path =>
    exact h.endState (effects_undoCapture id path) (h.live.of_fs
      (keeps_fs_undoCapture id path d rfl))
  | undoCaptureTree id path =>
    have hkeeps : Keeps (fun s : Db K => s.fs = d.fs) (Dbvm.undoCaptureTree id path) :=
      Keeps.bind (Keeps.reads _) fun below => Keeps.forM (keeps_fs_undoCapture id) below
    exact h.endState (effects_undoCaptureTree id path) (h.live.of_fs (hkeeps d rfl))
  | undoApply id => exact h.endState (effects_undoApply id) (Db.UndoFits.undoApply hfits h.live)
  | undoDelete id =>
    refine h.endState (effects_deleteUndo id) (h.live.of_fs ?_)
    have hkeeps : Keeps (fun s : Db K => s.fs = d.fs) (Dbvm.undoDelete id) := by
      refine keeps_fs_of fun s s' hx => ?_
      split_ifs at hx
      · cases hx
        rfl
      · cases hx
        rfl
    exact hkeeps d rfl

/-! ## Runs -/

omit [DecidableEq K] in
/-- A fresh database has the root and nothing else. -/
theorem kindAt_initDb (now : ℤ) (q : Str) :
    (initDb now : Db K).kindAt q = if q = root then some .dir else none := by
  unfold initDb Db.kindAt
  rw [Db.get?_addFs _ rfl]
  split_ifs <;> rfl

omit [DecidableEq K] in
/-- A new database is shaped. -/
theorem allShaped_initDb (now : ℤ) : (initDb now : Db K).AllShaped where
  live := by
    intro q k hk hne
    rw [kindAt_initDb, if_neg hne] at hk
    cases hk
  snaps := fun _ _ _ hk => by cases hk
  owned := ⟨fun _ _ _ => rfl, fun _ _ _ _ => rfl⟩

/-- Every run of operations that fit keeps tree and snapshots shaped. -/
theorem TreeRun.allShaped (h : TreeRun E (TreeOp.Fits E) d) : d.AllShaped := by
  induction h with
  | init now => exact allShaped_initDb now
  | step _ op hop ih => exact hop.allShaped ih

/-- In every run whose steps fit, every row but the root has a row at its parent that is no regular
file, in the database and in the merged view of every overlay on it. -/
theorem treeShaped_of_run {K : Type} [DecidableEq K] {E : Ext K} {d : Db K}
    (h : TreeRun E (TreeOp.Fits E) d) :
    (∀ p row, d.fs.get? p = some row → p ≠ root →
      ∃ parent, d.fs.get? (parentOf p) = some parent ∧ parent.kind ≠ .file) ∧
    ∀ o, Overlay.Reachable Overlay.ShapeFits E d o → ∀ p kind, p.head? = some '/' → p ≠ root →
      o.seenKind p = some kind → ∃ parent, o.seenKind (parentOf p) = some parent ∧
      parent ≠ .file := by
  have hlive : d.TreeShaped := h.allShaped.live
  constructor
  · intro p row hrow hne
    exact Db.holdsEntries_iff.1 (hlive p row.kind (Db.kindAt_of_get? hrow) hne)
  · intro o ho p kind hp hne hk
    have hstands : o.Stands := Overlay.stands_of_reachable hlive ho
    exact hstands.shaped hp hne hk

omit [DecidableEq K] in
/-- In a fresh database every path in normal form has its place. -/
theorem fits_initDb {p : Str} (hp : Normal p) (now : ℤ) (kind : Kind) :
    (initDb now : Db K).Fits p kind := by
  have htop : (initDb now : Db K).HoldsEntries root :=
    ⟨.dir, by rw [kindAt_initDb, if_pos rfl], nofun⟩
  refine ⟨⟨⟨fun _ => htop, fun a _ row hrow => ?_⟩, fun _ => ?_⟩, fun _ q hq _ => ?_⟩
  · have hk := Db.kindAt_of_get? hrow
    rw [kindAt_initDb] at hk
    split_ifs at hk
    rw [← Option.some.inj hk]
    exact nofun
  · rcases List.mem_cons.1 (parentOf_mem hp) with hroot | hmem
    · right
      rw [hroot]
      exact htop
    · exact Or.inl hmem
  · rw [kindAt_initDb, if_neg hq]

/-- A file two levels down, in a fresh database. -/
abbrev deepFile : TreeOp Bytes := .addBytes "/a/b".toList [1] 0o644 0 0

/-- A file two levels down gets its directory. -/
theorem treeShaped_of_deepFile : ∃ row parent,
    (endState (deepFile.run plainExt) (initDb 0)).fs.get? "/a/b".toList = some row ∧
    (endState (deepFile.run plainExt) (initDb 0)).fs.get? (parentOf "/a/b".toList) = some parent ∧
    parent.kind ≠ .file := by
  have hrun : TreeRun plainExt (TreeOp.Fits plainExt)
    (endState (deepFile.run plainExt) (initDb 0)) :=
    (TreeRun.init 0).step deepFile (fits_initDb (by decide) 0 .file)
  obtain ⟨row, hrow⟩ := Option.isSome_iff_exists.1
    (show ((endState (deepFile.run plainExt) (initDb 0)).fs.get? "/a/b".toList).isSome =
      true by decide +kernel)
  obtain ⟨parent, hparent, hkind⟩ := (treeShaped_of_run hrun).1 _ row hrow (by decide)
  exact ⟨row, parent, hrow, hparent, hkind⟩

/-- A file, and then a file below it. -/
def fileUnderFile : Db Bytes :=
  endState (deepFile.run plainExt)
  (endState ((TreeOp.addBytes "/a".toList [] 0o644 0 0).run plainExt) (initDb 0))

/-- Without the condition a run can put a row below a file. -/
theorem below_file_of_run : ¬ ∀ d : Db Bytes, TreeRun plainExt (fun _ _ => True) d →
    ∀ p row, d.fs.get? p = some row → p ≠ root →
      ∃ parent, d.fs.get? (parentOf p) = some parent ∧ parent.kind ≠ .file := by
  intro hall
  have hrun : TreeRun plainExt (fun _ _ => True) fileUnderFile :=
    ((TreeRun.init 0).step _ trivial).step _ trivial
  obtain ⟨row, hrow⟩ := Option.isSome_iff_exists.1
    (show (fileUnderFile.fs.get? "/a/b".toList).isSome = true by decide +kernel)
  obtain ⟨parent, hparent, hkind⟩ := hall _ hrun _ row hrow (by decide)
  have hfile : fileUnderFile.kindAt (parentOf "/a/b".toList) = some .file := by decide +kernel
  rw [Db.kindAt_of_get? hparent] at hfile
  exact hkind (Option.some.inj hfile)

end Dbvm
