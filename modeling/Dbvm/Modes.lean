import Dbvm.Host.Materialize
import Dbvm.TreeOps

/-!
# Stored modes

A row of `vm_fs` has permission bits and nothing else in its mode: a sync compares the mode of a row
with the permission bits of what is on the host, so that a row with more than these is reported as
changed at each sync. The writers of rows take modes from the host, from archives, from packages and
from the kernel, and every one of them has to leave only the permission bits. Two of them do not:
`setattr` of the mount stores the mode word that it is given, and the import of an archive stores
the mode of the header.

A link has all permission bits on the host, whatever its row says.
-/

namespace Dbvm

open Lib Lib.Prog Lib.Posix

variable {K : Type} [DecidableEq K] {E : Ext K} {p : Str} {db db' : Db K} {A : Str → Prop}

/-! ## Modes of the host -/

/-- The permission bits of an entry of the host are in the range. -/
theorem hostMode_range (node : Node) : 0 ≤ hostMode node ∧ hostMode node ≤ 0o7777 := by
  cases node <;> dsimp only [hostMode] <;> omega

/-- The permission bits of an entry of the host fit the kind of its row. -/
theorem modeFits_hostMode {node : Node} {kind : Kind} (h : nodeKind node = some kind) :
    ModeFits kind (hostMode node) := by
  refine ⟨(hostMode_range node).1, (hostMode_range node).2, fun hlink => ?_⟩
  subst hlink
  cases node with
  | link t => rfl
  | _ => cases h

/-! ## The invariant -/

/-- Modes fit their kinds, in the rows and in the copies of them that snapshots and undo records
keep, and links are at paths of `A` only. -/
structure Db.ModesFit (A : Str → Prop) (db : Db K) : Prop where
  /-- Rows. -/
  live : ∀ p row, db.fs.get? p = some row → ModeFits row.kind row.mode ∧ (row.kind = .symlink → A p)
  /-- Snapshots. -/
  snaps : ∀ id p m, db.snapFs.get? (id, p) = some m → ModeFits m.kind m.mode
  /-- Undo records. -/
  undos : ∀ id p m, db.undoFs.get? (id, p) = some (some m) → ModeFits m.kind m.mode

/-- The mode of a parent directory that is made fits a directory. -/
theorem modeFits_parent : ModeFits .dir 493 := ⟨by decide, by decide, fun h => by cases h⟩

/-- The mode of a link fits a link. -/
theorem modeFits_link : ModeFits .symlink 511 := ⟨by decide, by decide, fun _ => rfl⟩

/-- Links anywhere. -/
def Anywhere : Str → Prop := fun _ => True

omit [DecidableEq K] in
/-- Links may be allowed at more paths. -/
theorem Db.ModesFit.mono {B : Str → Prop} (h : db.ModesFit A)
    (hsub : ∀ p row, db.fs.get? p = some row → row.kind = .symlink → B p) : db.ModesFit B :=
  ⟨fun p row hrow => ⟨(h.live p row hrow).1, hsub p row hrow⟩, h.snaps, h.undos⟩

omit [DecidableEq K] in
/-- Wherever links are allowed, they are allowed somewhere. -/
theorem Db.ModesFit.anywhere (h : db.ModesFit A) :
    db.ModesFit Anywhere := h.mono fun _ _ _ _ => trivial

omit [DecidableEq K] in
/-- Modes that fit in rows and copies fit in the rows. -/
theorem Db.ModesFit.hold (h : db.ModesFit A) :
    db.ModesHold := fun p row hrow => (h.live p row hrow).1

omit [DecidableEq K] in
/-- The only row of a new database is its root, a directory with its mode. -/
theorem modesFit_initDb (now : ℤ) : (initDb now : Db K).ModesFit Anywhere := by
  refine ⟨fun p row hrow => ?_, fun id p m hm => (by cases hm), fun id p m hm => (by cases hm)⟩
  unfold initDb at hrow
  rw [Db.get?_addFs _ (by rfl)] at hrow
  split_ifs at hrow
  · cases hrow
    exact ⟨modeFits_parent, fun _ => trivial⟩
  · cases hrow

/-- The rows and their copies are the same. -/
structure SameModes (db db' : Db K) : Prop where
  /-- Rows. -/
  fs : db'.fs = db.fs
  /-- Snapshots. -/
  snapFs : db'.snapFs = db.snapFs
  /-- Undo records. -/
  undoFs : db'.undoFs = db.undoFs

omit [DecidableEq K] in
/-- A change of other columns leaves the modes fitting. -/
theorem Db.ModesFit.same (h : db.ModesFit A) (hs : SameModes db db') : db'.ModesFit A := by
  refine ⟨?_, ?_, ?_⟩
  · rw [hs.fs]
    exact h.live
  · rw [hs.snapFs]
    exact h.snaps
  · rw [hs.undoFs]
    exact h.undos

omit [DecidableEq K] in
/-- When one entry has changed, only its mode has to fit. -/
theorem Db.ModesFit.at (h : db.ModesFit A) (honly : OnlyAt p db db')
    (hrow : ∀ row, db'.fs.get? p = some row → ModeFits row.kind row.mode ∧
      (row.kind = .symlink → A p)) :
    db'.ModesFit A := by
  refine ⟨fun q row hq => ?_, fun id q m hm => ?_, fun id q m hm => ?_⟩
  · rcases eq_or_ne q p with rfl | hne
    · exact hrow row hq
    · exact h.live q row (honly.fs q hne ▸ hq)
  · exact h.snaps id q m (honly.snaps.snapFs ▸ hm)
  · exact h.undos id q m (honly.undoFs ▸ hm)

omit [DecidableEq K] in
/-- A written row with a mode that fits keeps all modes fitting. -/
theorem Db.ModesFit.put (h : db.ModesFit A) {row : FsRow K} (honly : OnlyAt p db db')
    (hget : db'.fs.get? p = some row) (hfits : ModeFits row.kind row.mode)
    (hlink : row.kind = .symlink → A p) :
    db'.ModesFit A := by
  refine h.at honly fun row' hrow' => ?_
  rw [hget] at hrow'
  cases hrow'
  exact ⟨hfits, hlink⟩

/-! ## Statements -/

omit [DecidableEq K] in
/-- A statement that leaves the rows and their copies alone. -/
theorem keeps_modes_of_same {f : Db K → Except Err (Db K)}
    (h : ∀ db db', f db = .ok db' → SameModes db db') :
    Keeps (Db.ModesFit A) (statement f) :=
  Keeps.statement fun db db' hI hf => hI.same (h db db' hf)

/-- An insert of several chunk rows keeps modes that fit their kinds, in rows and in copies. -/
theorem keeps_modes_insertChunks (rows : List ((Str × ℕ) × K)) :
    Keeps (Db.ModesFit A) (insertChunks rows) := by
  refine Keeps.statement fun db db' h hx => foldlM_inv (I := Db.ModesFit A) ?_ h hx
  intro r _ d d' hd hstep
  obtain ⟨-, rfl⟩ := insertChunk?_ok hstep
  exact hd.same ⟨rfl, rfl, rfl⟩

/-- A delete of chunk rows keeps modes that fit their kinds, in rows and in copies. -/
theorem keeps_modes_deleteChunks (sel : Str → ℕ → Bool) :
    Keeps (Db.ModesFit A) (deleteChunks (K := K) sel) := by
  refine keeps_modes_of_same fun db db' hf => ?_
  rw [deleteChunks_ok (u := ()) (statement_of_ok hf)]
  exact ⟨rfl, rfl, rfl⟩

/-- The statements on chunks and blobs change no mode. -/
theorem chunkKept_modes (p : Str) : ChunkKept p (Db.ModesFit (K := K) A) where
  out sel _ := keeps_modes_deleteChunks sel
  row idx k := by
    refine keeps_modes_of_same fun db db' hf => ?_
    obtain ⟨-, rfl⟩ := insertChunk?_ok hf
    exact ⟨rfl, rfl, rfl⟩
  blob k b := by
    refine keeps_modes_of_same fun db db' hf => ?_
    split_ifs at hf
    cases hf
    exact ⟨rfl, rfl, rfl⟩

omit [DecidableEq K] in
/-- A new row with a mode that fits keeps all modes fitting. -/
theorem Db.ModesFit.addFs (h : db.ModesFit A) {row : FsRow K} (hfree : db.fs.get? p = none)
    (hfits : ModeFits row.kind row.mode) (hlink : row.kind = .symlink → A p) :
    (db.addFs p row).ModesFit A := by
  refine ⟨fun q r hq => ?_, h.snaps, h.undos⟩
  rw [Db.get?_addFs _ hfree] at hq
  split_ifs at hq with hp
  · cases hq
    exact ⟨hfits, fun hk => hp ▸ hlink hk⟩
  · exact h.live q r hq

omit [DecidableEq K] in
/-- An insert of several rows into `vm_fs` keeps modes that fit their kinds, in rows and in
copies. -/
theorem keeps_modes_insertFsRows {rows : List (Str × FsRow K)}
    (hrows : ∀ r ∈ rows, ModeFits r.2.kind r.2.mode) :
    Keeps (Db.ModesFit Anywhere) (insertFsRows rows) := by
  refine Keeps.statement fun db db' h hx => foldlM_inv (I := Db.ModesFit Anywhere) ?_ h hx
  intro r hr d d' hd hstep
  obtain ⟨hfree, rfl⟩ := insertFs?_ok hstep
  exact hd.addFs hfree (hrows r hr) fun _ => trivial

omit [DecidableEq K] in
/-- An update of a row of `vm_fs` keeps modes that fit their kinds, in rows and in copies. -/
theorem keeps_modes_updateFs {f : FsRow K → FsRow K}
    (hf : ∀ row, ModeFits row.kind row.mode → (row.kind = .symlink → A p) →
      ModeFits (f row).kind (f row).mode ∧ ((f row).kind = .symlink → A p)) :
    Keeps (Db.ModesFit A) (updateFs p f) := by
  refine Keeps.statement fun db db' h hx => ?_
  rcases updateFs_ok (u := ()) (statement_of_ok hx) with ⟨-, rfl⟩ | ⟨row, hrow, rfl⟩
  · exact h
  · refine ⟨fun q r hq => ?_, h.snaps, h.undos⟩
    rw [Db.get?_setFs] at hq
    split_ifs at hq with hp
    · subst hp
      rw [hrow] at hq
      cases hq
      exact hf row (h.live q row hrow).1 (h.live q row hrow).2
    · exact h.live q r hq

omit [DecidableEq K] in
/-- An upsert of a row of `vm_fs` keeps modes that fit their kinds, in rows and in copies. -/
theorem keeps_modes_upsertFs {row : FsRow K} {upd : FsRow K → FsRow K}
    (hrow : ModeFits row.kind row.mode ∧ (row.kind = .symlink → A p))
    (hupd : ∀ old, ModeFits (upd old).kind (upd old).mode ∧ ((upd old).kind = .symlink → A p)) :
    Keeps (Db.ModesFit A) (upsertFs p row upd) := by
  refine Keeps.statement fun db db' h hx => ?_
  rcases upsertFs_ok (u := ()) (statement_of_ok hx) with ⟨old, hold, rfl⟩ | ⟨hfree, rfl⟩
  · refine ⟨fun q r hq => ?_, h.snaps, h.undos⟩
    rw [Db.get?_setFs] at hq
    split_ifs at hq with hp
    · subst hp
      rw [hold] at hq
      cases hq
      exact hupd old
    · exact h.live q r hq
  · exact h.addFs hfree hrow.1 hrow.2

/-- A delete of rows of `vm_fs` keeps modes that fit their kinds, in rows and in copies. -/
theorem keeps_modes_deleteFs (sel : Str → Bool) :
    Keeps (Db.ModesFit A) (deleteFs (K := K) sel) := by
  refine Keeps.statement fun db db' h hx => ?_
  rw [deleteFs_ok (u := ()) (statement_of_ok hx)]
  refine ⟨fun q r hq => ?_, h.snaps, h.undos⟩
  rw [Db.get?_delFs] at hq
  split_ifs at hq
  exact h.live q r hq

omit [DecidableEq K] in
/-- The end of a mark in `vm_dirty` keeps modes that fit their kinds, in rows and in copies. -/
theorem keeps_modes_deleteDirty (p : Str) : Keeps (Db.ModesFit A) (deleteDirty (K := K) p) := by
  refine keeps_modes_of_same fun db db' hf => ?_
  cases hf
  exact ⟨rfl, rfl, rfl⟩

/-! ## Writers -/

omit [DecidableEq K] in
/-- Making the parent directories keeps all modes fitting. -/
theorem keeps_modes_parents (vmPath : Str) (now : ℤ) :
    Keeps (Db.ModesFit A) (ensureParentDirs (K := K) vmPath now) := by
  refine Keeps.forM (fun d => Keeps.statement fun db db' h hx => ?_) _
  rcases insertFsIgnore_ok (u := ()) (statement_of_ok hx) with ⟨-, rfl⟩ | ⟨hfree, rfl⟩
  · exact h
  · exact h.addFs hfree modeFits_parent fun hlink => by cases hlink

/-- A file is no link. -/
theorem file_not_link {P : Prop} (h : Kind.file = .symlink) : P := by cases h

/-- `fs_put_file` keeps modes that fit their kinds, in rows and in copies. -/
theorem keeps_modes_fsPutFile {mode mtime : ℤ} {data : Bytes} (hfits : ModeFits .file mode) :
    Keeps (Db.ModesFit A) (fsPutFile E p mode mtime data) := by
  refine fun db h => Atomic.endState (Atomic.savepoint _) h fun u db' hx => ?_
  obtain ⟨honly, -, hrow, -⟩ := fsPutFile_entry hx
  exact h.put honly hrow hfits file_not_link

/-- `fs_put_node` keeps modes that fit their kinds, in rows and in copies. -/
theorem keeps_modes_fsPutNode {kind : Kind} {mode mtime : ℤ} {link : Option Str}
    (hfits : ModeFits kind mode) (hlink : kind = .symlink → A p) :
    Keeps (Db.ModesFit A) (fsPutNode (K := K) p kind mode mtime link) := by
  refine fun db h => Atomic.endState (Atomic.savepoint _) h fun u db' hx => ?_
  obtain ⟨honly, -, hrow, -⟩ := fsPutNode_entry hx
  exact h.put honly hrow hfits hlink

/-- `fs_put_file_stream_ns` keeps modes that fit their kinds, in rows and in copies. -/
theorem keeps_modes_stream {mode mtime ns : ℤ} {src : Reader} (hfits : ModeFits .file mode) :
    Keeps (Db.ModesFit A) (fsPutFileStreamNs E p mode mtime ns src) := by
  refine fun db h => Atomic.endState (Atomic.savepoint _) h fun n db' hx => ?_
  obtain ⟨honly, -, whole, hrow, -⟩ := fsPutFileStreamNs_entry hx
  exact h.put honly hrow hfits file_not_link

/-- An entry is copied into an undo record. -/
theorem keeps_modes_capture (id : ℕ) (p : Str) :
    Keeps (Db.ModesFit A) (undoCapture (K := K) id p) := by
  -- An entry takes over the kind and mode of a row, and rows fit already.
  have hins : ∀ m : Option (FsMeta K), (∀ r, m = some r → ModeFits r.kind r.mode) →
      Keeps (Db.ModesFit A) (insertUndoFs id p m) := by
    refine fun m hm => Keeps.statement fun d d' hd hx => ?_
    split_ifs at hx with hrec hseen
    cases hx
    refine ⟨hd.live, hd.snaps, fun id' q r hr => ?_⟩
    dsimp only at hr
    rw [Table.get?_insertIgnore] at hr
    split_ifs at hr with hnew
    · rw [Table.get?_of_not_has hseen] at hr
      exact hm r (Option.some.inj hr)
    · exact hd.undos id' q r hr
  have hcopy : Keeps (Db.ModesFit A) (copyUndoChunks (K := K) id p) := by
    refine Keeps.statement fun db db' h hx => foldlM_inv (I := Db.ModesFit A) ?_ h hx
    intro r _ d d' hd hstep
    unfold Db.insertUndoChunk? at hstep
    split_ifs at hstep
    cases hstep
    exact hd.same ⟨rfl, rfl, rfl⟩
  intro db h
  unfold undoCapture endState
  rw [reads_bind]
  split_ifs
  · exact h
  · rw [reads_bind]
    rcases hrow : db.fs.get? p with _ | row
    · exact hins none (fun r hr => by cases hr) db h
    · have hrow' : ∀ r, some row.toFsMeta = some r → ModeFits r.kind r.mode := by
        rintro r ⟨⟩
        exact (h.live p row hrow).1
      exact (Keeps.bind (hins (some row.toFsMeta) hrow') fun _ => hcopy) db h

/-- `finalize_dirty` keeps modes that fit their kinds, in rows and in copies. -/
theorem keeps_modes_finalizeDirty (E : Ext K) : Keeps (Db.ModesFit A) (finalizeDirty E) :=
  keeps_finalizeDirty_of (fun _ _ => keeps_modes_updateFs fun _ hfits hlink => ⟨hfits, hlink⟩)
    keeps_modes_deleteDirty E

/-- Imports, packs and syncs store modes that fit, since the host shows only such modes. -/
theorem writerKept_modes (E : Ext K) :
    WriterKept E Anywhere ModeFits (Db.ModesFit (K := K) Anywhere) where
  parents := keeps_modes_parents
  putFile p mode mtime data hM := keeps_modes_fsPutFile hM
  putNode p kind mode mtime link _ _ hM := keeps_modes_fsPutNode hM fun _ => trivial
  stream p mode mtime ns src hM := keeps_modes_stream hM
  touch p f hf hM := keeps_modes_updateFs fun row hfits _ => by
    rw [(hf row).2.1]
    exact ⟨hM row hfits, fun _ => trivial⟩
  delFs := keeps_modes_deleteFs
  capture id p _ := keeps_modes_capture id p
  finalize := keeps_modes_finalizeDirty E

/-! ## Snapshots and undo records -/

section Copies

variable {id : ℕ}

omit [DecidableEq K] in
/-- An insert of a snapshot keeps modes that fit their kinds, in rows and in copies. -/
theorem keeps_modes_insertSnapshot (name : Str) :
    Keeps (Db.ModesFit A) (insertSnapshot (K := K) name) := by
  refine Keeps.bind (Keeps.reads _) fun id => Keeps.bind (keeps_modes_of_same fun db db' hf => ?_)
    fun _ => Keeps.pure _
  split_ifs at hf
  cases hf
  exact ⟨rfl, rfl, rfl⟩

omit [DecidableEq K] in
/-- An update of a snapshot's name keeps modes that fit their kinds, in rows and in copies. -/
theorem keeps_modes_renameSnapshot (id : ℕ) (name : Str) :
    Keeps (Db.ModesFit A) (renameSnapshot (K := K) id name) := by
  refine keeps_modes_of_same fun db db' hf => ?_
  split_ifs at hf
  cases hf
  exact ⟨rfl, rfl, rfl⟩

/-- The rows of a snapshot are the live ones. -/
theorem keeps_modes_copyTree (id : ℕ) : Keeps (Db.ModesFit A) (copyTree (K := K) id) := by
  refine Keeps.bind (Keeps.statement fun db db' h hx => foldlM_inv (I := Db.ModesFit A) ?_ h hx)
    fun _ =>
    Keeps.statement fun db db' h hx => foldlM_inv (I := Db.ModesFit A) ?_ h hx
  · intro r hr d d' hd hstep
    have hfits := (h.live r.1 r.2 (Table.get?_eq_some_iff.2 hr)).1
    unfold Db.insertSnapFs? at hstep
    split_ifs at hstep with hthere
    cases hstep
    refine ⟨hd.live, fun id' q m hm => ?_, hd.undos⟩
    dsimp only at hm
    rw [Table.get?_insertIgnore] at hm
    split_ifs at hm with hnew
    · rw [Table.get?_of_not_has hthere] at hm
      cases hm
      exact hfits
    · exact hd.snaps id' q m hm
  · intro r _ d d' hd hstep
    unfold Db.insertSnapChunk? at hstep
    split_ifs at hstep
    cases hstep
    exact hd.same ⟨rfl, rfl, rfl⟩

/-- `snapshot_create` keeps modes that fit their kinds, in rows and in copies. -/
theorem keeps_modes_snapshotCreate (E : Ext K) (name : Str) :
    Keeps (Db.ModesFit A) (snapshotCreate E name) :=
  Keeps.bind (keeps_modes_finalizeDirty E) fun _ =>
    Keeps.saved (Keeps.bind (keeps_modes_insertSnapshot name)
    fun id => Keeps.bind (keeps_modes_copyTree id) fun _ => Keeps.pure _)

/-- `snapshot_create_named` keeps modes that fit their kinds, in rows and in copies. -/
theorem keeps_modes_snapshotCreateNamed (E : Ext K) (pfx placeholder : Str) :
    Keeps (Db.ModesFit A) (snapshotCreateNamed E pfx placeholder) :=
  Keeps.bind (keeps_modes_finalizeDirty E) fun _ =>
    Keeps.saved (Keeps.bind (keeps_modes_insertSnapshot placeholder)
    fun id => Keeps.bind (keeps_modes_renameSnapshot id _) fun _ =>
      Keeps.bind (keeps_modes_copyTree id) fun _ =>
      Keeps.pure _)

/-- The delete of a snapshot, with the cascade to its copies keeps modes that fit their kinds, in
rows and in copies. -/
theorem keeps_modes_deleteSnapshot (id : ℕ) :
    Keeps (Db.ModesFit A) (deleteSnapshot (K := K) id) := by
  refine Keeps.statement fun db db' h hx => ?_
  split_ifs at hx
  · cases hx
    refine ⟨h.live, fun id' q m hm => ?_, h.undos⟩
    dsimp only at hm
    rw [Table.get?_deleteWhere_key _ fun c : ℕ × Str => decide (c.1 = id)] at hm
    split_ifs at hm
    exact h.snaps id' q m hm
  · cases hx
    exact h

/-- `snapshot_delete` keeps modes that fit their kinds, in rows and in copies. -/
theorem keeps_modes_snapshotDelete (name : Str) :
    Keeps (Db.ModesFit A) (snapshotDelete (K := K) name) :=
  Keeps.bind (Keeps.query _) fun id => Keeps.saved (keeps_modes_deleteSnapshot id)

/-- `snapshot_retain` keeps modes that fit their kinds, in rows and in copies. -/
theorem keeps_modes_snapshotRetain (keep : ℕ) :
    Keeps (Db.ModesFit A) (snapshotRetain (K := K) keep) :=
  Keeps.bind (Keeps.reads _) fun _ => Keeps.bind (Keeps.forM keeps_modes_snapshotDelete _) fun _ =>
  Keeps.pure _

omit [DecidableEq K] in
/-- A program with the triggers bypassed keeps modes that fit their kinds, in rows and in copies. -/
theorem keeps_modes_bypassed {α : Type} {x : Sql K α} (h : Keeps (Db.ModesFit A) x) :
    Keeps (Db.ModesFit A) (withBypass x) :=
  Keeps.withBypass (fun _ _ hd => hd.same ⟨rfl, rfl, rfl⟩) h

omit [DecidableEq K] in
/-- What is done with rows that are read from the database, as they are in the state that is read.
-/
theorem keeps_reads_bind {α β : Type} {I : Db K → Prop} {f : Db K → α} {g : α → Sql K β}
    (h : ∀ db, I db → Keeps I (g (f db))) : Keeps I (Prog.reads f >>= g) := by
  intro db hI
  unfold endState
  rw [reads_bind]
  exact h db hI db hI

/-- The rows that a restore inserts are those of a snapshot. -/
theorem keeps_modes_snapshotRestore (name : Str) :
    Keeps (Db.ModesFit Anywhere) (snapshotRestore (K := K) name) := by
  refine keeps_modes_bypassed (Keeps.bind (Keeps.query _) fun id => Keeps.saved (Keeps.bind
    (keeps_modes_deleteChunks _) fun _ => Keeps.bind (keeps_modes_deleteFs _) fun _ =>
      keeps_reads_bind fun db h => Keeps.bind (keeps_modes_insertFsRows ?_) fun _ =>
        Keeps.bind (Keeps.reads _) fun chunks => keeps_modes_insertChunks chunks))
  intro r hr
  obtain ⟨c, hc, rfl⟩ := List.mem_map.1 ((List.mem_insertionSort _).1 hr)
  exact h.snaps c.1.1 c.1.2 c.2 (Table.get?_eq_some_iff.2 (List.mem_filter.1 hc).1)

omit [DecidableEq K] in
/-- `undo_begin` keeps modes that fit their kinds, in rows and in copies. -/
theorem keeps_modes_undoBegin : Keeps (Db.ModesFit A) (undoBegin (K := K)) := by
  intro db h
  exact h.same ⟨rfl, rfl, rfl⟩

/-- `undo_capture_tree` keeps modes that fit their kinds, in rows and in copies. -/
theorem keeps_modes_captureTree (id : ℕ) (path : Str) :
    Keeps (Db.ModesFit A) (undoCaptureTree (K := K) id path) :=
  Keeps.bind (Keeps.reads _) fun below => Keeps.forM (keeps_modes_capture id) below

/-- A row that is put back is one of the record. -/
theorem keeps_modes_undoPut (id : ℕ) {r : Str × Option (FsMeta K)}
    (hr : ∀ m, r.2 = some m → ModeFits m.kind m.mode) :
    Keeps (Db.ModesFit Anywhere) (undoPut id r) := by
  rcases r with ⟨p, _ | m⟩
  · exact Keeps.pure _
  · refine Keeps.bind (Keeps.statement fun db db' h hx => ?_) fun _ =>
      Keeps.bind (Keeps.reads _) fun chunks =>
      keeps_modes_insertChunks chunks
    obtain ⟨hfree, rfl⟩ := insertFs?_ok hx
    exact h.addFs hfree (hr m rfl) fun _ => trivial

/-- `undo_apply` keeps modes that fit their kinds, in rows and in copies. -/
theorem keeps_modes_undoApply (id : ℕ) : Keeps (Db.ModesFit Anywhere) (undoApply (K := K) id) := by
  refine keeps_modes_bypassed (Keeps.saved (keeps_reads_bind fun db h =>
    Keeps.bind (Keeps.forM (fun _ => keeps_modes_deleteFs _) _) fun _ => Keeps.forM_mem fun r hr =>
      keeps_modes_undoPut id fun m hm => ?_))
  obtain ⟨c, hc, rfl⟩ := List.mem_map.1 ((List.mem_insertionSort _).1 (List.mem_reverse.1 hr))
  have hrow := Table.get?_eq_some_iff.2 (List.mem_filter.1 hc).1
  dsimp only at hm
  rw [hm] at hrow
  exact h.undos c.1.1 c.1.2 m hrow

/-- `undo_delete` keeps modes that fit their kinds, in rows and in copies. -/
theorem keeps_modes_undoDelete (id : ℕ) : Keeps (Db.ModesFit A) (undoDelete (K := K) id) := by
  refine Keeps.statement fun db db' h hx => ?_
  split_ifs at hx
  · cases hx
    refine ⟨h.live, h.snaps, fun id' q m hm => ?_⟩
    dsimp only at hm
    rw [Table.get?_deleteWhere_key _ fun c : ℕ × Str => decide (c.1 = id)] at hm
    split_ifs at hm
    exact h.undos id' q m hm
  · cases hx
    exact h

end Copies

/-! ## Packages -/

section Packages

variable {pkg : Db K} {dictMap : List (ℕ × ℕ)}

omit [DecidableEq K] in
/-- The dictionaries of an injection keeps modes that fit their kinds, in rows and in copies. -/
theorem keeps_modes_injectDicts (pkg : Db K) :
    ∀ pids : List ℕ, Keeps (Db.ModesFit A) (injectDicts pkg pids)
  | [] => Keeps.pure _
  | _ :: rest => Keeps.bind (Keeps.query _) fun _ =>
      Keeps.bind (fun _ h => h.same ⟨rfl, rfl, rfl⟩) fun _ =>
      Keeps.bind (keeps_modes_injectDicts pkg rest) fun _ => Keeps.pure _

/-- One blob of an injection keeps modes that fit their kinds, in rows and in copies. -/
theorem keeps_modes_injectBlob (dictMap : List (ℕ × ℕ)) (r : K × Block) :
    Keeps (Db.ModesFit A) (injectBlob dictMap r) := by
  refine Keeps.bind (Keeps.query _) fun _ => keeps_modes_of_same fun db db' hf => ?_
  split_ifs at hf
  · cases hf
    exact ⟨rfl, rfl, rfl⟩
  · cases hf
    exact ⟨rfl, rfl, rfl⟩

/-- The rows that an injection inserts are those of the package. -/
theorem keeps_modes_mergePath (hpkg : pkg.ModesHold) (p : Str) :
    Keeps (Db.ModesFit Anywhere) (mergePath pkg dictMap p) := by
  refine Keeps.bind (keeps_modes_insertFsRows ?_) fun _ => Keeps.bind (Keeps.reads _) fun _ =>
    Keeps.bind (Keeps.forM (keeps_modes_injectBlob dictMap) _) fun _ =>
      Keeps.bind (Keeps.reads _) fun _ =>
      Keeps.bind (keeps_modes_insertChunks _) fun _ => Keeps.pure _
  intro r hr
  obtain ⟨c, hc, rfl⟩ := List.mem_map.1 hr
  exact hpkg c.1 c.2 (Table.get?_eq_some_iff.2 (List.mem_filter.1 hc).1)

/-- One file of an injection keeps modes that fit their kinds, in rows and in copies. -/
theorem keeps_modes_injectPath (hpkg : pkg.ModesHold) (rep : InjectReport) (p : Str) :
    Keeps (Db.ModesFit Anywhere) (injectPath pkg dictMap rep p) := by
  refine Keeps.bind (Keeps.reads _) fun existed => Keeps.bind ?_ fun _ =>
    Keeps.bind (keeps_modes_mergePath hpkg p) fun _ => Keeps.pure _
  cases existed with
  | false => exact Keeps.pure _
  | true => exact keeps_modes_deleteFs _

/-- An injection of a package keeps modes that fit their kinds, in rows and in copies. -/
theorem keeps_modes_inject (E : Ext K) (base : Option (Db K)) (hpkg : pkg.ModesHold) :
    Keeps (Db.ModesFit Anywhere) (inject E base pkg) := by
  unfold inject
  dsimp only
  split_ifs
  · exact Keeps.throw _
  · refine Keeps.saved (Keeps.bind (keeps_modes_injectDicts pkg _) fun dictMap =>
      Keeps.bind (Keeps.foldlM (keeps_modes_injectPath hpkg) _ _) fun rep =>
        Keeps.bind (Keeps.bind (keeps_modes_finalizeDirty E) fun _ => Keeps.reads _) fun drift =>
        ?_)
    split_ifs
    · exact Keeps.throw _
    · exact Keeps.pure _

end Packages

/-! ## Syncs -/

section Syncs

variable {ctx : SyncCtx} {fs : Fs} {tree : Loc} {node : Node} {prev : Option (FsMeta K)}

/-- `write_file_checked` keeps modes that fit their kinds, in rows and in copies. -/
theorem keeps_modes_writeFileChecked {mode mtime ns : ℤ} {src : Reader}
    (hfits : ModeFits .file mode) :
    Keeps (Db.ModesFit A) (writeFileChecked E p mode mtime ns src) := by
  unfold writeFileChecked
  refine Keeps.bind (keeps_modes_stream hfits) fun _ => ?_
  split_ifs
  · exact keeps_modes_updateFs fun row hrow hlink => ⟨hrow, hlink⟩
  · exact Keeps.pure _

/-- The capture of an entry before a sync writes it keeps modes that fit their kinds, in rows and
in copies. -/
theorem keeps_modes_syncCapture (ctx : SyncCtx) (p : Str) :
    Keeps (Db.ModesFit A) (ctx.capture (K := K) p) := by
  unfold SyncCtx.capture
  cases ctx.undo with
  | none => exact Keeps.pure _
  | some u => exact keeps_modes_capture u p

/-- One entry of a sync. A directory is not taken for a link, nor a link for a directory. -/
theorem keeps_modes_syncOne (ctx : SyncCtx) (hlink : nodeKind node = some .symlink → A p)
    (hdir : ∀ m, prev = some m → m.kind = .dir → nodeKind node = some .dir → ¬ A p) :
    Keeps (Db.ModesFit A) (syncOne E ctx node p prev) := by
  refine keeps_syncOne_at (J := Db.ModesFit A) node prev
    (fun hx => Keeps.bind (keeps_modes_syncCapture ctx p) fun _ => hx) ?_ ?_ ?_
  · intro kind mtime link hn _
    exact keeps_modes_fsPutNode (modeFits_hostMode hn) fun hk => hlink (hk ▸ hn)
  · rintro m f hprev hn hfile ⟨mtime, link, hf⟩
    refine keeps_modes_updateFs fun row hrow hrowlink => ?_
    rw [hf]
    refine ⟨⟨(hostMode_range node).1, (hostMode_range node).2, fun hk => ?_⟩, hrowlink⟩
    -- The row is a link, so the row that was read was no directory.
    have hA : A p := hrowlink hk
    have hm : m.kind = .symlink := by
      rcases hmk : m.kind with _ | _ | _
      · exact absurd hmk hfile
      · exact absurd hA (hdir m hprev hmk (hmk ▸ hn))
      · rfl
    exact (modeFits_hostMode hn).2.2 hm
  · rintro data mode ns readable rfl
    exact keeps_modes_writeFileChecked (modeFits_hostMode rfl)

/-- The paths at which a tree of the host has links. -/
def linkPaths (fs : Fs) (tree : Loc) (q : Str) : Prop :=
  ∃ loc t, some (loc, .link t) ∈ walk fs tree ∧ vmPathOf tree loc = q

/-- No link of the tree has the VM path of a directory of it. Two names have one VM path only when
blanks around a name are dropped. -/
def LinksApart (fs : Fs) (tree : Loc) : Prop :=
  ∀ loc mode listable, some (loc, .dir mode listable) ∈ walk fs tree →
  ¬ linkPaths fs tree (vmPathOf tree loc)

/-- Where links may be during a sync of a tree: where there was one before, or the tree has one. -/
def LinkOrWas (fs : Fs) (tree : Loc) (db : Db K) (q : Str) : Prop :=
  linkPaths fs tree q ∨ ∃ row, db.fs.get? q = some row ∧ row.kind = .symlink

/-- One entry of the walk of a sync keeps modes that fit their kinds, in rows and in copies. -/
theorem keeps_modes_syncEntry {db₀ : Db K} {aliases : List (Str × Str)}
    (hapart : LinksApart fs tree) {e : Option (Loc × Node)} (he : e ∈ walk fs tree)
    (st : List Str × SyncReport) :
    Keeps (Db.ModesFit (LinkOrWas fs tree db₀)) (syncEntry E ctx tree db₀.fs aliases st e) := by
  rcases e with _ | ⟨loc, node⟩
  · exact Keeps.pure _
  · have hone : Keeps (Db.ModesFit (LinkOrWas fs tree db₀)) (do
        let res ← Prog.attempt (syncOne E ctx node (vmPathOf tree loc)
          ((db₀.fs.get? (vmPathOf tree loc)).map fun r => r.toFsMeta))
        pure (vmPathOf tree loc :: st.1, st.2.count (vmPathOf tree loc) res)) := by
      refine Keeps.bind
        (Keeps.attempt (keeps_modes_syncOne ctx (fun hn => ?_) fun m hm hk hn hA => ?_)) fun _ =>
        Keeps.pure _
      · cases node with
        | link t => exact Or.inl ⟨loc, t, he, rfl⟩
        | _ => cases hn
      · cases node with
        | dir mode listable =>
          obtain ⟨row, hrow, rfl⟩ := Option.map_eq_some_iff.1 hm
          rcases hA with hlinks | ⟨row', hrow', hk'⟩
          · exact hapart loc mode listable he hlinks
          · rw [hrow] at hrow'
            cases hrow'
            rw [hk] at hk'
            cases hk'
        | _ => cases hn
    -- A link that stands for a link of the database is passed over, every other entry is synced.
    unfold syncEntry
    dsimp only
    split_ifs
    · exact Keeps.pure _
    · cases node with
      | link t =>
        rcases aliases.lookup (vmPathOf tree loc) with _ | row
        · exact hone
        · exact Keeps.pure _
      | _ => exact hone

/-- One row that a sync deletes keeps modes that fit their kinds, in rows and in copies. -/
theorem keeps_modes_syncDelete (rep : SyncReport) (p : Str) :
    Keeps (Db.ModesFit A) (syncDelete (K := K) ctx rep p) :=
  Keeps.bind (keeps_modes_syncCapture ctx p) fun _ => Keeps.bind (Keeps.reads _) fun _ =>
    Keeps.bind (keeps_modes_deleteFs _) fun _ => Keeps.pure _

/-- `sync_report_impl` keeps modes that fit their kinds, in rows and in copies. -/
theorem keeps_modes_sync (ctx : SyncCtx) (hapart : LinksApart fs tree) :
    Keeps (Db.ModesFit Anywhere) (syncReportImpl E ctx fs tree) := by
  refine Keeps.bind (keeps_modes_finalizeDirty E) fun _ db h => ?_
  have hbody : Keeps (Db.ModesFit (LinkOrWas fs tree db)) (do
      let st ← (walk fs tree).foldlM (syncEntry E ctx tree db.fs (linkAliases db.links))
        (db.servedLinks (linkAliases db.links), {})
      let gone := (db.fs.rows.map Prod.fst).filter fun p => !isReservedVmPath p && p ∉ st.1
      (gone.insertionSort fun a b => utf8Len b ≤ utf8Len a).foldlM (syncDelete ctx) st.2) :=
    Keeps.bind (Keeps.foldlM_mem (fun e he st => keeps_modes_syncEntry hapart he st) _) fun st =>
      Keeps.foldlM (keeps_modes_syncDelete (A := LinkOrWas fs tree db)) _ _
  have hstart : db.ModesFit (LinkOrWas fs tree db) :=
    h.mono fun p row hrow hk => Or.inr ⟨row, hrow, hk⟩
  have hend := hbody db hstart
  unfold endState at hend ⊢
  rw [syncBody_eq]
  exact hend.anywhere

/-- One path of a sync of paths. The row it is compared with is the one that is there. -/
theorem keeps_modes_syncPath (fs : Fs) (tree : Loc) (aliases : List (Str × Str))
    (rep : SyncReport) (vmP : Str) :
    Keeps (Db.ModesFit Anywhere) (syncPath E ctx fs tree aliases rep vmP) := by
  have hone : ∀ node, Keeps (Db.ModesFit Anywhere) (do
      let prev ← Prog.reads fun db => (db.fs.get? vmP).map fun r => r.toFsMeta
      let res ← Prog.attempt (syncOne E ctx node vmP prev)
      pure (rep.count vmP res)) := by
    intro node db h
    let A : Str → Prop := fun q => q = vmP → nodeKind node = some .symlink ∨
      ∃ row, db.fs.get? vmP = some row ∧ row.kind = .symlink
    have hrun : Keeps (Db.ModesFit A) (do
        let res ← Prog.attempt (syncOne E ctx node vmP ((db.fs.get? vmP).map fun r => r.toFsMeta))
        pure (rep.count vmP res)) := by
      refine Keeps.bind
        (Keeps.attempt (keeps_modes_syncOne ctx (fun hn _ => Or.inl hn) fun m hm hk hn hA => ?_))
        fun _ => Keeps.pure _
      obtain ⟨row, hrow, rfl⟩ := Option.map_eq_some_iff.1 hm
      rcases hA rfl with hlink | ⟨row', hrow', hk'⟩
      · rw [hn] at hlink
        cases hlink
      · rw [hrow] at hrow'
        cases hrow'
        rw [hk] at hk'
        cases hk'
    have hstart : db.ModesFit A := h.mono fun p row hrow hk hp => Or.inr ⟨row, hp ▸ hrow, hk⟩
    exact (hrun db hstart).anywhere
  have hdel : ∀ below : Str → Bool, Keeps (Db.ModesFit Anywhere) (do
      let n ← Prog.reads fun db : Db K => (db.fs.select fun q _ => below q).length
      deleteFs below
      pure { rep with deleted := rep.deleted + n }) := fun below =>
    Keeps.bind (Keeps.reads _) fun _ => Keeps.bind (keeps_modes_deleteFs below) fun _ =>
    Keeps.pure _
  -- A missing path is deleted; the others go through `sync_one`, whose modes come from the host.
  unfold syncPath
  split_ifs
  · exact Keeps.pure _
  · rcases lstat fs tree (trimStartSlashes vmP) with e | ⟨loc, node⟩
    · cases e with
      | noent =>
        dsimp only
        rcases ctx.undo with _ | u
        · exact hdel _
        · exact Keeps.bind (keeps_modes_captureTree u _) fun _ => hdel _
      | _ => exact Keeps.pure _
    · cases node with
      | link t =>
        dsimp only
        rcases aliases.lookup vmP with _ | row
        · exact hone _
        · exact Keeps.pure _
      | _ => exact hone _

/-- `vm_sync_paths` keeps modes that fit their kinds, in rows and in copies. -/
theorem keeps_modes_syncPaths (fs : Fs) (tree : Loc) (paths : List Str) (undo : Option ℕ)
    (now : ℤ) :
    Keeps (Db.ModesFit Anywhere) (vmSyncPaths E fs tree paths undo now) :=
  Keeps.bind (keeps_modes_finalizeDirty E) fun _ => Keeps.bind (Keeps.reads _) fun aliases =>
    Keeps.saved (Keeps.foldlM (keeps_modes_syncPath fs tree aliases) paths _)

end Syncs

/-! ## The mount -/

namespace Mount

/-- `create`: a new file at the path that the node table gives. -/
def create (E : Ext K) (dbPath : Str) (mode : ℕ) (now : ℤ) : Sql K Unit :=
  vmAddBytes E dbPath [] (mode % 4096 : ℕ) now now

/-- `mkdir`. -/
def mkdir (dbPath : Str) (mode : ℕ) (now : ℤ) : Sql K Unit :=
  vmAddDir dbPath (mode % 4096 : ℕ) now now

/-- `mknod`: only regular files are supported; for anything else the answer is `ENOSYS`. -/
def mknod (E : Ext K) (dbPath : Str) (mode : ℕ) (now : ℤ) : Sql K Unit :=
  let fileType := mode &&& 0o170000
  if fileType ≠ 0 ∧ fileType ≠ 0o100000 then pure ()
  else vmAddBytes E dbPath [] (mode % 4096 : ℕ) now now

/-- `setattr`: the mode word as it comes, then the time, then the size. -/
def setattr (E : Ext K) (cache : Option (ChunkCache K)) (path : Str) (mode : Option ℕ)
    (mtime : Option ℤ)
    (size : Option ℕ) (now : ℤ) : Sql K Unit := do
  match mode with
  | some m => updateFs path fun row => { row with mode := m }
  | none => pure ()
  match mtime with
  | some t => updateFs path fun row => { row with mtime := t }
  | none => pure ()
  match size with
  | some n => (RangeOp.truncateDeferred path n now cache).run E
  | none => pure ()

end Mount

/-- A size that is set leaves the modes. -/
theorem keeps_modes_range (op : RangeOp K) : Keeps (Db.ModesFit A) (op.run E) := by
  refine fun db h => Atomic.endState op.atomic h fun u db' hx => ?_
  obtain ⟨mid, hranged, hrest⟩ := RangeOp.parts_of_run hx
  have hmid : mid.ModesFit A := by
    rcases htarget : op.writes db with _ | ⟨q, size⟩
    · rw [htarget] at hranged
      have hsame : mid = db := hranged
      rw [hsame]
      exact h
    · rw [htarget] at hranged
      have hresized : Resized q size op.time db mid := hranged
      obtain ⟨row, hrow, -, hrow'⟩ := hresized.row
      have hlive := h.live q row hrow
      exact h.put hresized.only hrow' hlive.1 hlive.2
  rcases hrest with rfl | ⟨real, b, hfin⟩
  · exact hmid
  · exact (keeps_finalizeFile_of (fun _ _ => keeps_modes_updateFs fun _ hfits hlink =>
      ⟨hfits, hlink⟩)
      keeps_modes_deleteDirty E real).triple mid b db' hmid hfin

/-- A mode word without its upper bits fits a file and a directory. -/
theorem modeFits_masked {kind : Kind} (hkind : kind ≠ .symlink) (mode : ℕ) :
    ModeFits kind (mode % 4096 : ℕ) :=
  ⟨by omega, by omega, fun h => absurd h hkind⟩

/-- `setattr` of the mount keeps modes that fit their kinds, in rows and in copies. -/
theorem Mount.keeps_modes_setattr (cache : Option (ChunkCache K)) (path : Str) {mode : Option ℕ}
    (mtime : Option ℤ) (size : Option ℕ) (now : ℤ) (h : db.ModesFit Anywhere)
    (hmode : ∀ m row, mode = some m → db.fs.get? path = some row → ModeFits row.kind m) :
    (endState (Mount.setattr E cache path mode mtime size now) db).ModesFit Anywhere := by
  have hsize : Keeps (Db.ModesFit (K := K) Anywhere) (match size with
      | some n => (RangeOp.truncateDeferred path n now cache).run E
      | none => pure ()) := by
    cases size with
    | none => exact Keeps.pure _
    | some n => exact keeps_modes_range _
  have hrest : Keeps (Db.ModesFit (K := K) Anywhere) (do
      match mtime with
      | some t => updateFs path fun row => { row with mtime := t }
      | none => pure ()
      match size with
      | some n => (RangeOp.truncateDeferred path n now cache).run E
      | none => pure ()) := by
    cases mtime with
    | none => exact hsize
    | some t => exact Keeps.bind (keeps_modes_updateFs fun _ hfits hlink => ⟨hfits, hlink⟩) fun _ =>
        hsize
  cases mode with
  | none => exact hrest db h
  | some m =>
    -- The mode is written to the row that is there, if there is one.
    refine endState_bind (fun e d hx => ?_) fun _ d hx => hrest d ?_
    · rw [statement_error hx]
      exact h
    · rcases updateFs_ok hx with ⟨-, rfl⟩ | ⟨row, hrow, rfl⟩
      · exact h
      · refine ⟨fun q r hq => ?_, h.snaps, h.undos⟩
        rw [Db.get?_setFs] at hq
        split_ifs at hq with hp
        · subst hp
          rw [hrow] at hq
          cases hq
          exact ⟨hmode m row rfl hrow, fun _ => trivial⟩
        · exact h.live q r hq

/-! ## Packed directories -/

/-- Entries of a plan that are written together. -/
structure PackBatch where
  /-- The entries. -/
  entries : List PackEntry
  /-- They are planned from a directory of the host. -/
  planned : ∃ fs dirMtime dir vmPrefix now plan,
    planHostDir fs dirMtime dir vmPrefix now = .ok plan ∧
    ∀ e ∈ entries, e ∈ plan

/-- What every step of a fold keeps. -/
theorem foldrM_ok {α β : Type} {J : β → Prop} {f : α → β → Except Err β}
    (hf : ∀ a b b', J b → f a b = .ok b' → J b') :
    ∀ {as : List α} {b b' : β}, J b → as.foldrM f b = .ok b' → J b'
  | [], b, b', hJ, h => by
    cases h
    exact hJ
  | a :: as, b, b', hJ, h => by
    rw [List.foldrM_cons] at h
    rcases hrest : as.foldrM f b with e | b₁
    · rw [hrest] at h
      cases h
    · rw [hrest] at h
      exact hf a b₁ b' (foldrM_ok hf hJ hrest) h

/-- The modes of a plan are those of the host. -/
theorem modeFits_of_planned {fs : Fs} {dirMtime : Loc → ℤ} {dir : Loc} {vmPrefix : Str} {now : ℤ}
    {plan : List PackEntry} (h : planHostDir fs dirMtime dir vmPrefix now = .ok plan) :
    ∀ e ∈ plan, ModeFits (WriterKept.packMode e).1 (WriterKept.packMode e).2 := by
  refine foldrM_ok (J := fun plan => ∀ e ∈ plan,
    ModeFits (WriterKept.packMode e).1 (WriterKept.packMode e).2)
    (fun a plan plan' hJ hstep => ?_) (fun e he => by cases he) h
  have hcons : ∀ e, ModeFits (WriterKept.packMode e).1 (WriterKept.packMode e).2 →
      ∀ e' ∈ e :: plan, ModeFits (WriterKept.packMode e').1 (WriterKept.packMode e').2 :=
      fun e he =>
    List.forall_mem_cons.2 ⟨he, hJ⟩
  -- Directories and files have the mode of the host, masked; links have their own.
  rcases a with _ | ⟨loc, node⟩
  · cases hstep
  · cases node with
    | dir mode listable =>
      cases hstep
      have hn : nodeKind (.dir mode listable) = some .dir := rfl
      exact hcons _ (modeFits_hostMode hn)
    | link t =>
      cases hstep
      exact hcons _ modeFits_link
    | file data mode ns readable =>
      cases hstep
      have hn : nodeKind (.file data mode ns readable) = some .file := rfl
      exact hcons _ (modeFits_hostMode hn)
    | special mode =>
      cases hstep
      exact hJ

/-- The modes of a packed batch fit: they are those of the host's files, directories and links. -/
theorem PackBatch.modeFits (b : PackBatch) :
    ∀ e ∈ b.entries, ModeFits (WriterKept.packMode e).1 (WriterKept.packMode e).2 := by
  obtain ⟨fs, dirMtime, dir, vmPrefix, now, plan, hplan, hmem⟩ := b.planned
  exact fun e he => modeFits_of_planned hplan e (hmem e he)

/-- Packing a file with a mode that fits keeps all modes fitting. -/
theorem keeps_modes_packFile (E : Ext K) (now : ℤ) {entry : PackEntry}
    (h : ModeFits (WriterKept.packMode entry).1 (WriterKept.packMode entry).2) :
    Keeps (Db.ModesFit Anywhere) (packFile E now entry) := by
  cases entry with
  | file p data mode mtime readable =>
    refine Keeps.bind (Keeps.query _) fun _ => Keeps.bind (keeps_modes_parents p now) fun _ =>
      Keeps.bind ((chunkKept_modes p).chunksReplace data) fun _ =>
      keeps_modes_upsertFs ?_ fun old => ?_
    · exact ⟨h, file_not_link⟩
    · exact ⟨h, file_not_link⟩
  | _ => exact Keeps.pure _

/-! ## Runs -/

/-- An operation that writes rows, or copies of rows. -/
inductive ModeOp (K : Type) where
  /-- `vm_add_file`. -/
  | addFile (fs : Fs) (mtimeOf : Loc → ℤ) (fuel : ℕ) (loc : Loc) (vmPath : Str) (now : ℤ)
  /-- Entries of a host directory are packed. -/
  | pack (batch : PackBatch) (now : ℤ)
  /-- Files of the parallel packer are written. -/
  | packFiles (batch : PackBatch) (now : ℤ)
  /-- Members of an archive are imported. -/
  | importTar (opts : TarOptions) (entries : List (Except Err TarEntry)) (now : ℤ)
  /-- `vm_sync_report`, `vm_sync_full` and `vm_sync_tree`. -/
  | sync (ctx : SyncCtx) (fs : Fs) (tree : Loc)
  /-- `vm_sync_paths`. -/
  | syncPaths (fs : Fs) (tree : Loc) (paths : List Str) (undo : Option ℕ) (now : ℤ)
  /-- `create` of the mount. -/
  | create (dbPath : Str) (mode : ℕ) (now : ℤ)
  /-- `mkdir` of the mount. -/
  | mkdir (dbPath : Str) (mode : ℕ) (now : ℤ)
  /-- `mknod` of the mount. -/
  | mknod (dbPath : Str) (mode : ℕ) (now : ℤ)
  /-- `setattr` of the mount. -/
  | setattr (cache : Option (ChunkCache K)) (path : Str) (mode : Option ℕ) (mtime : Option ℤ)
      (size : Option ℕ)
    (now : ℤ)
  /-- `snapshot_create`. -/
  | snapshotCreate (name : Str)
  /-- `snapshot_create_named`. -/
  | snapshotCreateNamed (pfx placeholder : Str)
  /-- `vm_checkpoint`. -/
  | checkpoint (name : Str)
  /-- `snapshot_restore`. -/
  | snapshotRestore (name : Str)
  /-- `snapshot_delete`. -/
  | snapshotDelete (name : Str)
  /-- `snapshot_retain`. -/
  | snapshotRetain (keep : ℕ)
  /-- `undo_begin`. -/
  | undoBegin
  /-- `undo_capture`. -/
  | undoCapture (id : ℕ) (path : Str)
  /-- `undo_capture_tree`. -/
  | undoCaptureTree (id : ℕ) (path : Str)
  /-- `undo_apply`. -/
  | undoApply (id : ℕ)
  /-- `undo_delete`. -/
  | undoDelete (id : ℕ)
  /-- `inject`. -/
  | inject (base : Option (Db K)) (pkg : Db K)
  /-- `vm_materialize_tree`. -/
  | materialize (umask : ℕ) (workers : List (Str × FsRow K) → List (Str × FsRow K)) (fs : Fs)
      (dest : Loc)

/-- Run an operation. -/
def ModeOp.run (E : Ext K) : ModeOp K → Sql K Unit
  | .addFile fs mtimeOf fuel loc vmPath now => vmAddFile E fs mtimeOf now fuel loc vmPath
  | .pack batch now => batch.entries.forM (packEntry E now)
  | .packFiles batch now => batch.entries.forM (packFile E now)
  | .importTar opts entries now => entries.forM (importEntry E opts now)
  | .sync ctx fs tree => ignoring (syncReportImpl E ctx fs tree)
  | .syncPaths fs tree paths undo now => ignoring (vmSyncPaths E fs tree paths undo now)
  | .create dbPath mode now => Mount.create E dbPath mode now
  | .mkdir dbPath mode now => Mount.mkdir dbPath mode now
  | .mknod dbPath mode now => Mount.mknod E dbPath mode now
  | .setattr cache path mode mtime size now => Mount.setattr E cache path mode mtime size now
  | .snapshotCreate name => ignoring (Dbvm.snapshotCreate E name)
  | .snapshotCreateNamed pfx placeholder => ignoring (Dbvm.snapshotCreateNamed E pfx placeholder)
  | .checkpoint name => vmCheckpoint name
  | .snapshotRestore name => Dbvm.snapshotRestore name
  | .snapshotDelete name => Dbvm.snapshotDelete name
  | .snapshotRetain keep => ignoring (Dbvm.snapshotRetain keep)
  | .undoBegin => ignoring Dbvm.undoBegin
  | .undoCapture id path => Dbvm.undoCapture id path
  | .undoCaptureTree id path => Dbvm.undoCaptureTree id path
  | .undoApply id => Dbvm.undoApply id
  | .undoDelete id => Dbvm.undoDelete id
  | .inject base pkg => ignoring (Dbvm.inject E base pkg)
  | .materialize umask workers fs dest => ignoring (vmMaterializeTree E umask workers fs dest)

/-- A package that is injected has the property itself. -/
def ModeOp.Packaged : ModeOp K → Prop
  | .inject _ pkg => pkg.ModesHold
  | _ => True

/-- What the code does not check: the modes of the members of an archive that are stored, and the
mode word of a `setattr`, are permission bits, all of them for a link; and no name of a link is
taken for the name of a directory. -/
def ModeOp.Fits (db : Db K) : ModeOp K → Prop
  | .importTar opts entries _ => ∀ e ∈ entries, ∀ kind mode,
      WriterKept.tarMode opts e = some (kind, mode) →
      ModeFits kind mode
  | .setattr _ path mode _ _ _ => ∀ m row, mode = some m → db.fs.get? path = some row →
      ModeFits row.kind m
  | .sync _ fs tree => LinksApart fs tree
  | _ => True

/-- The states of the runs from a new database whose steps meet a condition. A step that fails
leaves the state it ends in. -/
inductive ModeRun (C : Db K → ModeOp K → Prop) (E : Ext K) : Db K → Prop where
  /-- `init_vm_db`. -/
  | init (now : ℤ) : ModeRun C E (initDb now)
  /-- One more step. -/
  | step {db : Db K} (h : ModeRun C E db) (op : ModeOp K) (hop : C db op) :
      ModeRun C E (endState (op.run E) db)

/-- Every operation that fits keeps all modes fitting, by cases on the operation. -/
theorem Db.ModesFit.step (h : db.ModesFit Anywhere) {op : ModeOp K} (hpkg : op.Packaged)
    (hfits : op.Fits db) :
    (endState (op.run E) db).ModesFit Anywhere := by
  have hw : WriterKept E Anywhere ModeFits (Db.ModesFit Anywhere) := writerKept_modes E
  have hhost : ∀ node kind, nodeKind node = some kind → ModeFits kind (hostMode node) := fun _ _ =>
    modeFits_hostMode
  -- Each operation masks its mode or takes it from the host, where it fits.
  cases op with
  | addFile fs mtimeOf fuel loc vmPath now => exact hw.vmAddFile (fun _ _ => trivial) hhost db h
  | pack batch now =>
    exact Keeps.forM_mem (fun e he => hw.packEntry (fun _ _ => trivial) (batch.modeFits e he)) db h
  | packFiles batch now =>
      exact Keeps.forM_mem (fun e he => keeps_modes_packFile E now (batch.modeFits e he)) db h
  | importTar opts entries now =>
    exact Keeps.forM_mem (fun e he => hw.importEntry (fun _ _ => trivial) (hfits e he)) db h
  | sync ctx fs tree => exact Keeps.ignoring (keeps_modes_sync ctx hfits) db h
  | syncPaths fs tree paths undo now =>
      exact Keeps.ignoring (keeps_modes_syncPaths fs tree paths undo now) db h
  | create dbPath mode now =>
      exact hw.vmAddBytes _ [] now now (modeFits_masked (by decide) mode) db h
  | mkdir dbPath mode now => exact hw.vmAddDir trivial (modeFits_masked (by decide) mode) db h
  | mknod dbPath mode now =>
    show (endState (Mount.mknod E dbPath mode now) db).ModesFit Anywhere
    unfold Mount.mknod
    dsimp only
    split_ifs
    · exact h
    · exact hw.vmAddBytes _ [] now now (modeFits_masked (by decide) mode) db h
  | setattr cache path mode mtime size now =>
    exact Mount.keeps_modes_setattr cache path mtime size now h hfits
  | snapshotCreate name => exact Keeps.ignoring (keeps_modes_snapshotCreate E name) db h
  | snapshotCreateNamed pfx placeholder =>
    exact Keeps.ignoring (keeps_modes_snapshotCreateNamed E pfx placeholder) db h
  | checkpoint name => exact Keeps.ignoring (keeps_modes_insertSnapshot name) db h
  | snapshotRestore name => exact keeps_modes_snapshotRestore name db h
  | snapshotDelete name => exact keeps_modes_snapshotDelete name db h
  | snapshotRetain keep => exact Keeps.ignoring (keeps_modes_snapshotRetain keep) db h
  | undoBegin => exact Keeps.ignoring keeps_modes_undoBegin db h
  | undoCapture id path => exact keeps_modes_capture id path db h
  | undoCaptureTree id path => exact keeps_modes_captureTree id path db h
  | undoApply id => exact keeps_modes_undoApply id db h
  | undoDelete id => exact keeps_modes_undoDelete id db h
  | inject base pkg => exact Keeps.ignoring (keeps_modes_inject E base hpkg) db h
  | materialize umask workers fs dest =>
    exact Keeps.ignoring (Keeps.bind (keeps_modes_finalizeDirty E) fun _ => Keeps.reads _) db h

/-- The modes fit in every state of a run whose steps store permission bits. -/
theorem modesFit_of_run (h : ModeRun (fun db op => op.Packaged ∧ op.Fits db) E db) :
    db.ModesFit Anywhere := by
  induction h with
  | init now => exact modesFit_initDb now
  | step _ op hop ih => exact ih.step hop.1 hop.2

/-- The modes hold in every state of a run whose steps store permission bits, and a sync of what a
materialize leaves then sees no other mode: the materialize of a state whose rows have room, into a
directory that is new or has nothing in the way of the rows, sets every entry to the mode of its
row. -/
theorem modesHold_of_run {K : Type} [DecidableEq K] {E : Ext K} {db : Db K}
    (h : ModeRun (fun db op => op.Packaged ∧ op.Fits db) E db) :
    db.ModesHold ∧
      ∀ (umask : ℕ) (workers : List (Str × FsRow K) → List (Str × FsRow K)) (fs : Fs) (dest : Loc)
      (n : ℕ) (db' : Db K), finalizeDirty E db = .ok n db' → (∀ l, (workers l).Perm l) →
      db'.Placeable →
      db'.Reusable E umask fs dest →
      ∃ fs', vmMaterializeTree E umask workers fs dest db = .ok (.ok fs') db' ∧
      db'.ModesShown fs' dest := by
  have hfits := modesFit_of_run h
  refine ⟨hfits.hold, fun umask workers fs dest n db' hfin hworkers hplace hreuse => ?_⟩
  have hfits' : db'.ModesFit Anywhere := (keeps_modes_finalizeDirty E).triple db n db' hfits hfin
  obtain ⟨fs', hrun, hshown⟩ := modesShown_materializeTree hplace hfits'.hold hworkers hreuse
  exact ⟨fs', (vmMaterializeTree_of_finalized hfin umask workers fs dest).trans (by rw [hrun]),
    hshown⟩

/-- A tree of the host with a directory, a file in it and a link, beside an empty directory. -/
def hostTree : Fs :=
  ⟨[(["d".toList], .dir 0o755 true), (["d".toList, "s".toList], .dir 0o750 true),
    (["d".toList, "s".toList, "f".toList], .file [104, 105] 0o640 7000000000 true),
    (["d".toList, "l".toList], .link "s/f".toList), (["e".toList], .dir 0o755 true)], by decide⟩

/-- The database after a sync of the tree. -/
@[irreducible] def syncedTree : Db Bytes :=
  endState ((ModeOp.sync ⟨false, none, 5⟩ hostTree ["d".toList]).run plainExt) (initDb 0)

/-- The tree of the example has no link. -/
theorem linksApart_hostTree : LinksApart hostTree ["d".toList] := by
  have hwalk : walk hostTree ["d".toList] = [some (["d".toList, "s".toList], .dir 0o750 true),
      some (["d".toList, "s".toList, "f".toList], .file [104, 105] 0o640 7000000000 true),
      some (["d".toList, "l".toList], .link "s/f".toList)] := by decide +kernel
  rintro loc mode listable hdir ⟨loc', t, hlink, heq⟩
  rw [hwalk] at hdir hlink
  simp only [List.mem_cons, Option.some.injEq, Prod.mk.injEq, List.not_mem_nil, or_false,
    reduceCtorEq, and_false,
    false_or] at hdir hlink
  rw [hdir.1, hlink.1] at heq
  exact absurd heq (by decide +kernel)

/-- The database of the example is reached by a run that meets the condition. -/
theorem modeRun_syncedTree :
    ModeRun (fun db op => op.Packaged ∧ op.Fits db) plainExt syncedTree := by
  unfold syncedTree
  exact .step (.init 0) _ ⟨trivial, linksApart_hostTree⟩

/-- The sync stores the permission bits of the host, and a materialize into the empty directory
shows them again. -/
theorem modesHold_syncedTree :
    (syncedTree.fs.get? "/s/f".toList).any (fun row => row.mode = 0o640) = true ∧
    syncedTree.ModesHold ∧ ∃ fs', vmMaterializeTree plainExt 0o022 id hostTree ["e".toList]
      syncedTree =
      .ok (.ok fs') syncedTree ∧ syncedTree.ModesShown fs' ["e".toList] := by
  refine ⟨by decide +kernel, (modesHold_of_run modeRun_syncedTree).1, ?_⟩
  have hhost : HostTree hostTree := HostTree.of_rows (by decide) (by decide)
  have hempty : ∀ loc, Loc.below ["e".toList] loc = true → hostTree.get? loc = none := by
    intro loc hbelow
    refine Table.get?_eq_none_iff.2 fun hmem => ?_
    have hall : ∀ loc ∈ hostTree.rows.map Prod.fst, Loc.below ["e".toList] loc = false := by decide
    rw [hall loc hmem] at hbelow
    cases hbelow
  exact (modesHold_of_run modeRun_syncedTree).2 0o022 id hostTree ["e".toList] 0 syncedTree
    (finalizeDirty_nil (by decide +kernel)) (fun l => .refl l) (by decide +kernel)
    (reusable_of_empty hhost (by rfl) hempty)

/-- The tree after another materialize of the database in which the file was given other permission
bits on the host. -/
def usedTree : Fs :=
  ⟨[(["e".toList], .dir 0o755 true), (["e".toList, "s".toList], .dir 0o750 true),
    (["e".toList, "s".toList, "f".toList], .file [104, 105] 0o600 7000000000 true)], by decide⟩

/-- A file whose size and time are those of its row is not written again, and keeps the permission
bits that it has in a directory that was used before. -/
theorem not_modesShown_usedTree :
    ∃ fs', vmMaterializeTree plainExt 0o022 id usedTree ["e".toList] syncedTree = .ok (.ok fs')
      syncedTree ∧
      ¬ syncedTree.ModesShown fs' ["e".toList] := by
  -- The materialization is evaluated: it leaves the file of the used directory with its old
  -- permissions.
  have hrun : (syncedTree.materializeTree plainExt 0o022 ["e".toList] id usedTree).toOption.any
      (fun fs' =>
      fs'.get? ["e".toList, "s".toList, "f".toList] = some
      (.file [104, 105] 0o600 7000000000 true)) = true := by
    decide +kernel
  obtain ⟨fs', hok, hnode⟩ := (Option.any_eq_true _ _).1 hrun
  refine ⟨fs', ?_, fun hshown => ?_⟩
  · have hfin : finalizeDirty plainExt syncedTree = .ok 0 syncedTree :=
      finalizeDirty_nil (by decide +kernel)
    rw [vmMaterializeTree_of_finalized hfin]
    rcases hres : syncedTree.materializeTree plainExt 0o022 ["e".toList] id usedTree with e | fs₁
    · rw [hres] at hok
      cases hok
    · rw [hres] at hok
      cases hok
      rfl
  · have hrow : (syncedTree.fs.get? "/s/f".toList).any (fun row => row.mode = 0o640) = true :=
      by decide +kernel
    obtain ⟨row, hrow, hmode⟩ := (Option.any_eq_true _ _).1 hrow
    have hpath : vmPathOf ["e".toList] ["e".toList, "s".toList, "f".toList] = "/s/f".toList :=
      by decide +kernel
    have hsame :=
      (hshown _ _ row
        ⟨of_decide_eq_true hnode, by decide, fun m hm => (by cases hm), by decide +kernel⟩
      rfl (hpath ▸ hrow)).2
    rw [of_decide_eq_true hmode] at hsame
    exact absurd hsame (by decide)

/-- The database of a mount in which a directory has been made. -/
def madeDir : Db Bytes := endState ((ModeOp.mkdir "/a".toList 0o40755 0).run plainExt) (initDb 0)

/-- The kernel sends the type of a file along with its permission bits when they are changed: a
`chmod` of a directory stores both. -/
theorem not_modesHold_chmod :
    ¬ ∀ db, ModeRun (fun _ op => op.Packaged) plainExt db → db.ModesHold := by
  intro h
  have hrun : ModeRun (fun _ op => op.Packaged) plainExt
      (endState ((ModeOp.setattr none "/a".toList (some 0o40755) none none 0).run plainExt)
        madeDir) :=
    .step (.step (.init 0) (.mkdir "/a".toList 0o40755 0) trivial) _ trivial
  have hmode :
      ((endState ((ModeOp.setattr none "/a".toList (some 0o40755) none none 0).run plainExt)
      madeDir).fs.get? "/a".toList).any fun row => row.mode = 0o40755 := by decide +kernel
  obtain ⟨row, hrow, hrm⟩ := (Option.any_eq_true _ _).1 hmode
  have hbits := (h _ hrun _ row hrow).2.1
  rw [of_decide_eq_true hrm] at hbits
  exact absurd hbits (by decide)

end Dbvm
