import Dbvm.Import
import Dbvm.Lib.Script
import Dbvm.Overlay.Refs
import Dbvm.Session

/-!
# Operations that fail

The operations that write, as sequences of parts: what each reads before it opens a transaction, and
what stands between `BEGIN` and `COMMIT`, or between `SAVEPOINT` and `RELEASE`. Any statement, read
or decode of a part may fail. `write_tx` and `in_savepoint` then bring the connection back to where
the part began; `sync_report_impl`, `vm_import_tar_filtered` and `vm_recompress` begin and commit by
hand and leave their transaction open. A failure with a full disk or an I/O error ends the
transaction instead. Some failures the code passes over: a sync counts the entries that it cannot
write, `latest_dict` goes without a dictionary, the last `UPDATE` of `vm_recompress` is tried only.
After one that has ended the transaction, what the body still writes is kept.
-/

namespace Dbvm

open Lib Lib.Chunks Lib.Prog Lib.Posix Lib.Tx

variable {K : Type} [DecidableEq K]

/-! ## The operations -/

/-- A program whose value does not matter. -/
def quietly {σ α : Type} (x : EStateM Err σ α) : EStateM Err σ Unit := do
  let _ ← x

/-- An operation on a connection to a database. -/
inductive Call (K : Type) where
  /-- `vm_sync_report`, `vm_sync_full` and `vm_sync_tree`. -/
  | syncReport (ctx : SyncCtx) (fs : Posix.Fs) (tree : Loc)
  /-- `vm_sync_paths`. -/
  | syncPaths (fs : Posix.Fs) (tree : Loc) (paths : List Str) (undo : Option ℕ) (now : ℤ)
  /-- `vm_import_tar_filtered`. The archive may not open. -/
  | importTar (opts : TarOptions) (tar : Except Err (List (Except Err TarEntry))) (now : ℤ)
  /-- `vm_recompress`. -/
  | recompress
  /-- `vm_pack_host_dir`. -/
  | packHostDir (plan : Except Err (List PackEntry)) (now : ℤ)
  /-- `vm_pack_host_dir_parallel`. -/
  | packHostDirParallel (plan : Except Err (List PackEntry)) (now : ℤ)
  /-- `inject`. -/
  | inject (base : Option (Db K)) (pkg : Db K)
  /-- `snapshot_create`. -/
  | snapshotCreate (name : Str)
  /-- `snapshot_restore`. -/
  | snapshotRestore (name : Str)
  /-- `snapshot_delete`. -/
  | snapshotDelete (name : Str)
  /-- `undo_apply`. -/
  | undoApply (id : ℕ)
  /-- `write_range`. -/
  | writeRange (vmPath : Str) (off : ℕ) (data : Bytes) (mtime : ℤ)
  /-- `truncate_range`. -/
  | truncateRange (vmPath : Str) (newSize : ℕ) (mtime : ℤ)

/-- `finalize_dirty`: one savepoint for each file whose hash is pending. -/
def finalizeParts (E : Ext K) (db : Db K) : Script Err (Db K) :=
  db.dirty.map fun p => .saved (quietly (finalizeFile E p))

/-- A step that touches no row that is modelled: the entry in `vm_log`, the indexes of a bulk load.
-/
def otherStep {σ : Type} : Part Err σ := .read fun _ => .ok ()

/-- The entries of a plan, or none. -/
def planned (plan : Except Err (List PackEntry)) : List PackEntry :=
  match plan with
  | .ok entries => entries
  | .error _ => []

/-- The batches of an archive, or none. -/
def tarParts (opts : TarOptions) (tar : Except Err (List (Except Err TarEntry))) :
    List (List (Except Err TarEntry)) :=
  match tar with
  | .ok entries => tarBatches opts entries
  | .error _ => []

/-- The parts of an operation that is called on a database. What is read in a part is read again in
the next where that needs it. -/
def callParts (E : Ext K) (db : Db K) : Call K → Script Err (Db K)
  | .syncReport ctx fs tree =>
    finalizeParts E db ++ [.unguarded (quietly (syncBody E ctx fs tree)), otherStep]
  | .syncPaths fs tree paths undo now =>
    finalizeParts E db ++ [.saved (quietly (vmSyncPaths E fs tree paths undo now)), otherStep]
  | .importTar opts tar now =>
    .read (fun _ => tar.map fun _ => ()) ::
      (tarParts opts tar).map (fun batch => .unguarded (batch.forM (importEntry E opts now))) ++
        [otherStep]
  | .recompress => [otherStep, .unguarded (vmRecompress E)]
  | .packHostDir plan now =>
    .read (fun _ => plan.map fun _ => ()) ::
      (chunksOf 2000 (planned plan)).map fun batch => .guarded (batch.forM (packEntry E now))
  | .packHostDirParallel plan now =>
    .read (fun _ => plan.map fun _ => ()) :: otherStep ::
      .guarded (((planned plan).filter fun e => !e.isFile).forM (packEntry E now)) ::
      ((chunksOf 256 ((planned plan).filter PackEntry.isFile)).map fun batch =>
        .guarded (batch.forM (packFile E now))) ++ [otherStep]
  | .inject base pkg => [otherStep, .guarded (quietly (inject E base pkg)), otherStep]
  | .snapshotCreate name => finalizeParts E db ++ [.saved (quietly (snapshotCreate E name))]
  | .snapshotRestore name =>
    [.read fun db => (db.snapshotId name).map fun _ => (), .saved (snapshotRestore name)]
  | .snapshotDelete name =>
    [.read fun db => (db.snapshotId name).map fun _ => (), .saved (snapshotDelete name)]
  | .undoApply id => [otherStep, .saved (undoApply id)]
  | .writeRange vmPath off data mtime => [.saved (writeRange E vmPath off data mtime)]
  | .truncateRange vmPath newSize mtime => [.saved (truncateRange E vmPath newSize mtime)]

/-- An operation on a database or on an overlay. -/
inductive Operation (K : Type) where
  /-- On a database. -/
  | db (call : Call K)
  /-- On an overlay. -/
  | overlay (op : OverlayOp)

/-- What a connection of the operation sees. -/
abbrev Operation.State : Operation K → Type
  | .db _ => Db K
  | .overlay _ => Overlay K

/-- The parts of an operation. The checks of an overlay operation only read. -/
def Operation.script (E : Ext K) : (op : Operation K) → op.State → Script Err op.State
  | .db call, s => callParts E s call
  | .overlay op, _ => [otherStep, .guarded (op.run E)]

/-- The operations that begin and commit without a rollback. -/
def Operation.bare : Operation K → Bool
  | .db (.syncReport ..) => true
  | .db (.importTar ..) => true
  | .db .recompress => true
  | _ => false

/-! ## The parts of a sync -/

section Sync

variable {E : Ext K}

/-- A program that returns is quiet about its value. -/
theorem quietly_of_ok {σ α : Type} {x : EStateM Err σ α} {s s' : σ} {a : α} (h : x s = .ok a s') :
    quietly x s = .ok () s' := bind_of_ok h

/-- A program that fails is not quieted. -/
theorem quietly_of_error {σ α : Type} {x : EStateM Err σ α} {s s' : σ} {e : Err}
    (h : x s = .error e s') :
    quietly x s = .error e s' := bind_of_error h

/-- One savepoint for each file is what `finalize_dirty` runs. -/
theorem run_finalizeParts (db : Db K) : Script.run .nestedTx (finalizeParts E db) ⟨db, []⟩ =
    Tx.lift (quietly (finalizeDirty E)) ⟨db, []⟩ := by
  -- Path by path: the count the script does not keep is lost in the quiet run as well.
  have hloop : ∀ (l : List Str) (n : ℕ) (d : Db K),
      Script.run .nestedTx (l.map fun p => .saved (quietly (finalizeFile E p))) ⟨d, []⟩ =
        Tx.lift
        (quietly (l.foldlM (fun n p => do return if ← finalizeFile E p then n + 1 else n) n))
          ⟨d, []⟩ := by
    intro l
    induction l with
    | nil => exact fun n d => rfl
    | cons p l ih =>
      intro n d
      unfold Script.run at ih ⊢
      rw [List.map_cons, List.forM_eq_forM, List.forM_cons, List.foldlM_cons]
      rcases hp : finalizeFile E p d with ⟨b, d'⟩ | ⟨e, d'⟩
      · have hpart : (Part.saved (quietly (finalizeFile E p))).run Err.nestedTx ⟨d, []⟩ = .ok ()
          ⟨d', []⟩ :=
          Part.run_of_ok (quietly_of_ok hp)
        have hround : (finalizeFile E p >>= fun b => pure (if b then n + 1 else n) : Sql K ℕ) d =
            .ok (if b then n + 1 else n) d' := bind_of_ok hp
        rw [bind_of_ok hpart, ← List.forM_eq_forM, ih (if b then n + 1 else n) d']
        unfold Tx.lift quietly
        dsimp only
        rw [bind_assoc, bind_of_ok hround]
      · have hpart : (Part.saved (quietly (finalizeFile E p))).run Err.nestedTx ⟨d, []⟩ =
            .error e ⟨d, []⟩ := Part.run_of_error (quietly_of_error hp)
        have hround : (finalizeFile E p >>= fun b => pure (if b then n + 1 else n) : Sql K ℕ) d =
            .error e d' := bind_of_error hp
        rw [bind_of_error hpart, Tx.lift_of_error (quietly_of_error (bind_of_error hround)),
          finalizeFile_error hp]
  exact hloop db.dirty 0 db

/-- The parts of a sync are the sync. -/
theorem run_syncReport (ctx : SyncCtx) (fs : Posix.Fs) (tree : Loc) (db : Db K) :
    Script.run .nestedTx ((Operation.db (.syncReport ctx fs tree)).script E db) ⟨db, []⟩ =
      quietly (syncReportTx E ctx fs tree) ⟨db, []⟩ := by
  have hparts := run_finalizeParts (E := E) db
  unfold Script.run at hparts ⊢
  rw [List.forM_eq_forM] at hparts
  change forM (finalizeParts E db ++ [.unguarded (quietly (syncBody E ctx fs tree)), otherStep])
    (Part.run Err.nestedTx) (⟨db, []⟩ : Link (Db K)) = _
  rw [List.forM_append]
  -- The marks are resolved first, path by path, and a failure ends the script there. Then comes
  -- the one part that the walk is.
  rcases hfin : finalizeDirty E db with ⟨n, d⟩ | ⟨e, d⟩
  · have hlift : Tx.lift (finalizeDirty E) (⟨db, []⟩ : Link (Db K)) = .ok n ⟨d, []⟩ :=
      Tx.lift_of_ok hfin
    have hdone := hparts.trans (Tx.lift_of_ok (quietly_of_ok hfin))
    rcases hbody : syncBody E ctx fs tree d with ⟨rep, d'⟩ | ⟨e, d'⟩
    · have hpart : (Part.unguarded (quietly (syncBody E ctx fs tree))).run Err.nestedTx ⟨d, []⟩ =
          .ok () ⟨d', []⟩ := Part.run_of_ok (quietly_of_ok hbody)
      have hsync : syncReportTx E ctx fs tree ⟨db, []⟩ = .ok rep ⟨d', []⟩ := by
        unfold syncReportTx
        rw [bind_of_ok hlift, Tx.bare_of_autocommit, hbody]
      rw [quietly_of_ok hsync, bind_of_ok hdone, List.forM_cons, bind_of_ok hpart]
      rfl
    · have hpart : (Part.unguarded (quietly (syncBody E ctx fs tree))).run Err.nestedTx ⟨d, []⟩ =
          .error e ⟨d', [d]⟩ := Part.run_of_error (quietly_of_error hbody)
      have hsync : syncReportTx E ctx fs tree ⟨db, []⟩ = .error e ⟨d', [d]⟩ := by
        unfold syncReportTx
        rw [bind_of_ok hlift, Tx.bare_of_autocommit, hbody]
      rw [quietly_of_error hsync, bind_of_ok hdone, List.forM_cons, bind_of_error hpart]
  · have hlift : Tx.lift (finalizeDirty E) (⟨db, []⟩ : Link (Db K)) = .error e ⟨d, []⟩ :=
      Tx.lift_of_error hfin
    have hsync : syncReportTx E ctx fs tree ⟨db, []⟩ = .error e ⟨d, []⟩ := by
      unfold syncReportTx
      rw [bind_of_error hlift]
    rw [quietly_of_error hsync]
    exact bind_of_error (hparts.trans (Tx.lift_of_error (quietly_of_error hfin)))

end Sync

/-! ## What a failure leaves -/

/-- All parts have a rollback. -/
def allGuarded {σ : Type} (script : Script Err σ) : Bool := script.all fun p => !p.isUnguarded

/-- All but three operations roll back in every part. -/
theorem Operation.allGuarded_of_bare {op : Operation K} (E : Ext K) (s : op.State)
    (h : op.bare = false) :
    allGuarded (op.script E s) = true := by
  rcases op with call | op
  · cases call <;> first
      | (simp [Operation.script, callParts, allGuarded, finalizeParts, otherStep,
          Part.isUnguarded]; done)
      | cases h
  · rfl

/-- A part without a rollback is a part of one of the three operations. -/
theorem Operation.bare_of_unguarded {op : Operation K} (E : Ext K) (s : op.State)
    {p : Part Err op.State} (hp : p ∈ op.script E s) (hu : p.isUnguarded = true) :
    op.bare = true := by
  rw [← Bool.not_eq_false]
  intro hbare
  have hguard := List.all_eq_true.1 (Operation.allGuarded_of_bare E s hbare) p hp
  rw [hu] at hguard
  cases hguard

/-- The disk is full while `vm_sync_paths` writes one of its paths: the failure is counted in the
report, the paths after it are committed statement by statement, and then there is no savepoint to
release. -/
theorem syncPaths_after_full {E : Ext K} {ctx : SyncCtx} {fs : Posix.Fs} {tree : Loc}
    {aliases : List (Str × Str)} {before after : List Str} {p : Str} {err : Err}
    {rep rep' : SyncReport} {t t' d : Db K}
    (hbefore : before.foldlM (syncPath E ctx fs tree aliases) {} t = .ok rep t')
    (hafter : after.foldlM (syncPath E ctx fs tree aliases)
      (rep.fail (some p) err) t = .ok rep' d) :
    savepointOf Err.nestedTx (do
      let r ← Tx.lift (before.foldlM (syncPath E ctx fs tree aliases) {})
      modify Link.close
      Tx.lift (after.foldlM (syncPath E ctx fs tree aliases) (r.fail (some p) err))) ⟨t, []⟩ =
        .error .nestedTx ⟨d, []⟩ := by
  have hfirst : Tx.lift (before.foldlM (syncPath E ctx fs tree aliases) {})
      (⟨t, [t]⟩ : Link (Db K)) =
      .ok rep ⟨t', [t]⟩ := Tx.lift_of_ok hbefore
  have hrest : Tx.lift (after.foldlM (syncPath E ctx fs tree aliases) (rep.fail (some p) err))
      (⟨t, []⟩ : Link (Db K)) = .ok rep' ⟨d, []⟩ := Tx.lift_of_ok hafter
  refine savepointOf_of_ended (a := rep') ?_
  rw [bind_of_ok hfirst, bind_of_ok (modify_apply _ _)]
  exact hrest

/-- A database with a read-only file. -/
def guardedDb : Db Bytes :=
  { (initDb 0).addFs "/ro".toList (dirRow 493 0) with policies := [.readonlyPrefix "/ro".toList] }

/-- A sync of an empty tree. -/
def emptySync : Operation Bytes := .db (.syncReport ⟨false, none, 0⟩ Table.empty ["t".toList])

end Dbvm
