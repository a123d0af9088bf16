import Dbvm.Import
import Dbvm.Refcount

/-!
# What the operations can do to a database

The effects of single statements as a relation on databases, `Db.Effect`, and for every operation
the fact that it gets from one database to another by such effects alone (`Db.Effects`), whether it
returns or fails. A property that every effect keeps holds then after every operation
(`Keeps.of_effects`). A snapshot is one effect: its row and the copies of the live rows come in one
savepoint.
-/

namespace Dbvm

open Lib Lib.Chunks Lib.Prog Lib.Posix

variable {K : Type} [DecidableEq K]

/-- One database after one statement on another. -/
inductive Db.Effect : Db K → Db K → Prop where
  /-- A new row of `vm_fs`. -/
  | addFs {db : Db K} {p : Str} (row : FsRow K) (h : db.fs.get? p = none) :
      Effect db (db.addFs p row)
  /-- A row of `vm_fs` changes. -/
  | setFs {db : Db K} (p : Str) (f : FsRow K → FsRow K) : Effect db (db.setFs p f)
  /-- Rows of `vm_fs` are deleted. -/
  | delFs {db : Db K} (sel : Str → Bool) : Effect db (db.delFs sel)
  /-- A row of `vm_fs` gets another path. -/
  | moveFs {db : Db K} {old new : Str} {fs : Table Str (FsRow K)}
      (h : db.fs.rekey (fun p => if p = old then new else p) = some fs) :
      Effect db { db with fs := fs, dirty := db.dirty.map fun p => if p = old then new else p }
  /-- A new chunk row. -/
  | addChunk {db : Db K} {p : Str} {idx : ℕ} (k : K) (h : db.chunks.get? (p, idx) = none) :
      Effect db (db.addChunk p idx k)
  /-- Chunk rows are deleted. -/
  | delChunks {db : Db K} (sel : Str → ℕ → Bool) : Effect db (db.delChunks sel)
  /-- The chunk rows of a file get another path. -/
  | moveChunks {db : Db K} {old new : Str} {chunks : Table (Str × ℕ) K}
      (h : db.chunks.rekey (fun c => if c.1 = old then (new, c.2) else c) = some chunks) :
      Effect db { db with chunks := chunks }
  /-- A new blob. -/
  | addBlob {db : Db K} {k : K} (b : Block) (h : db.blobs.get? k = none) :
      Effect db (db.addBlob k b)
  /-- A blob is encoded again. -/
  | setBlob {db : Db K} (k : K) (e : Enc) : Effect db (db.setBlob k e)
  /-- A new dictionary. -/
  | addDict {db : Db K} (dict : Bytes) :
      Effect db { db with dicts := db.dicts.insertIgnore (nextId db.dicts) dict }
  /-- The dirty marks change. -/
  | setDirty {db : Db K} (dirty : List Str) : Effect db { db with dirty := dirty }
  /-- The rules change. -/
  | setPolicies {db : Db K} (rules : List Rule) : Effect db { db with policies := rules }
  /-- The bypass is entered or left. -/
  | setBypass {db : Db K} (bypass : Bool) : Effect db { db with bypass := bypass }
  /-- A snapshot is taken. -/
  | snapshot {db db' : Db K} {u : Unit} {name : Str}
      (h : copyTree (nextId db.snapshots)
        { db with snapshots := db.snapshots.insertIgnore (nextId db.snapshots) name } = .ok u db') :
      Effect db db'
  /-- A snapshot row without content. -/
  | checkpoint {db : Db K} (name : Str) :
      Effect db { db with snapshots := db.snapshots.insertIgnore (nextId db.snapshots) name }
  /-- A snapshot is deleted. -/
  | delSnapshot {db db' : Db K} {u : Unit} {id : ℕ} (h : deleteSnapshot id db = .ok u db') :
      Effect db db'
  /-- A new undo record. -/
  | addUndo {db : Db K} : Effect db { db with undo := db.undo.insertIgnore (nextId db.undo) () }
  /-- A row of an undo record. -/
  | addUndoFs {db : Db K} (id : ℕ) (p : Str) (m : Option (FsMeta K)) :
      Effect db { db with undoFs := db.undoFs.insertIgnore (id, p) m }
  /-- A chunk row of an undo record. -/
  | addUndoChunk {db db' : Db K} {id : ℕ} {r : (Str × ℕ) × K}
      (h : db.insertUndoChunk? id r = .ok db') :
      Effect db db'
  /-- An undo record is deleted. -/
  | delUndo {db db' : Db K} {u : Unit} {id : ℕ} (h : deleteUndo id db = .ok u db') : Effect db db'

/-- What happens to snapshots. -/
inductive SnapPart where
  /-- One is taken. -/
  | take
  /-- One is deleted. -/
  | drop

/-- The snapshots are as they were. -/
structure SameSnaps (db db' : Db K) : Prop where
  /-- The table. -/
  snapshots : db'.snapshots = db.snapshots
  /-- The rows. -/
  snapFs : db'.snapFs = db.snapFs
  /-- The chunks. -/
  snapChunks : db'.snapChunks = db.snapChunks

omit [DecidableEq K] in
/-- Two changes that leave the snapshots alone leave them alone together. -/
theorem SameSnaps.trans {db₁ db₂ db₃ : Db K} (h : SameSnaps db₁ db₂) (h' : SameSnaps db₂ db₃) :
    SameSnaps db₁ db₃ :=
  ⟨h'.snapshots.trans h.snapshots, h'.snapFs.trans h.snapFs, h'.snapChunks.trans h.snapChunks⟩

/-- What a statement does to the snapshots, out of the parts `T`. -/
inductive Db.SnapEffect (T : SnapPart → Prop) : Db K → Db K → Prop where
  /-- Nothing. -/
  | same {db db' : Db K} (h : SameSnaps db db') : SnapEffect T db db'
  /-- A snapshot is taken. -/
  | take {db db' : Db K} {u : Unit} {name : Str} (hT : T .take)
      (h : copyTree (nextId db.snapshots)
        { db with snapshots := db.snapshots.insertIgnore (nextId db.snapshots) name } = .ok u db') :
      SnapEffect T db db'
  /-- A row without content is inserted. -/
  | checkpoint {db : Db K} (name : Str) (hT : T .take) :
      SnapEffect T db { db with snapshots := db.snapshots.insertIgnore (nextId db.snapshots) name }
  /-- A snapshot is deleted. -/
  | drop {db db' : Db K} {u : Unit} {id : ℕ} (hT : T .drop) (h : deleteSnapshot id db = .ok u db') :
      SnapEffect T db db'

/-- One database after statements on another. -/
abbrev Db.Effects (T : SnapPart → Prop) : Db K → Db K → Prop :=
  Relation.ReflTransGen fun db db' => Db.Effect db db' ∧ Db.SnapEffect T db db'

variable {T : SnapPart → Prop}

/-- What every effect keeps, statements keep. -/
theorem Db.Effects.keeps {I : Db K → Prop}
    (hI : ∀ db db', Db.Effect db db' → Db.SnapEffect T db db' → I db → I db') {db db' : Db K}
    (h : Db.Effects T db db') (hdb : I db) : I db' := by
  induction h with
  | refl => exact hdb
  | tail _ hstep ih => exact hI _ _ hstep.1 hstep.2 ih

/-- What every effect keeps, a program keeps that has no other effects. -/
theorem Keeps.of_effects {α : Type} {I : Db K → Prop}
    (hI : ∀ db db', Db.Effect db db' → Db.SnapEffect T db db' → I db → I db') {x : Sql K α}
    (hx : ∀ db, Keeps (Db.Effects T db) x) : Keeps I x := by
  intro db hdb
  have hend : Db.Effects T db (endState x db) := hx db db Relation.ReflTransGen.refl
  exact Db.Effects.keeps hI hend hdb

variable {db₀ : Db K}

/-- A statement with one effect, or none, that leaves the snapshots. -/
theorem Keeps.effect {f : Db K → Except Err (Db K)}
    (h : ∀ db db', f db = .ok db' → db' = db ∨ (Db.Effect db db' ∧ SameSnaps db db')) :
    Keeps (Db.Effects T db₀) (Dbvm.statement f) := by
  refine Keeps.statement fun db db' h₀ hx => ?_
  rcases h db db' hx with rfl | hstep
  · exact h₀
  · exact h₀.tail ⟨hstep.1, .same hstep.2⟩

omit [DecidableEq K] in
/-- A savepoint keeps what the program in it keeps. -/
theorem Keeps.saved {α : Type} {I : Db K → Prop} {x : Sql K α} (h : Keeps I x) :
    Keeps I (Dbvm.inSavepoint x) :=
  Keeps.inSavepoint (Keeps.triple h)

/-! ## Statements -/

/-- An insert into `vm_fs` that leaves a row that is there is a run of effects of single
statements. -/
theorem effects_insertFsIgnore (p : Str) (row : FsRow K) :
    Keeps (Db.Effects T db₀) (insertFsIgnore p row) := by
  refine Keeps.effect fun db db' hx => ?_
  rcases insertFsIgnore_ok (u := ()) (statement_eq_ok.2 hx) with ⟨-, rfl⟩ | ⟨hfree, rfl⟩
  · exact Or.inl rfl
  · exact Or.inr ⟨.addFs row hfree, ⟨rfl, rfl, rfl⟩⟩

/-- An insert into `vm_fs` is a run of effects of single statements. -/
theorem effects_insertFs (p : Str) (row : FsRow K) : Keeps (Db.Effects T db₀) (insertFs p row) := by
  refine Keeps.effect fun db db' hx => ?_
  obtain ⟨hfree, rfl⟩ := insertFs?_ok hx
  exact Or.inr ⟨.addFs row hfree, ⟨rfl, rfl, rfl⟩⟩

/-- An upsert of a row of `vm_fs` is a run of effects of single statements. -/
theorem effects_upsertFs (p : Str) (row : FsRow K) (upd : FsRow K → FsRow K) :
    Keeps (Db.Effects T db₀) (upsertFs p row upd) := by
  refine Keeps.effect fun db db' hx => ?_
  rcases upsertFs_ok (u := ()) (statement_eq_ok.2 hx) with ⟨old, -, rfl⟩ | ⟨hfree, rfl⟩
  · exact Or.inr ⟨.setFs p upd, ⟨rfl, rfl, rfl⟩⟩
  · exact Or.inr ⟨.addFs row hfree, ⟨rfl, rfl, rfl⟩⟩

/-- An insert of several rows into `vm_fs` is a run of effects of single statements. -/
theorem effects_insertFsRows (rows : List (Str × FsRow K)) :
    Keeps (Db.Effects T db₀) (insertFsRows rows) := by
  refine Keeps.statement fun db db' h hx => foldlM_inv (I := Db.Effects T db₀) ?_ h hx
  intro r _ d d' hd hstep
  obtain ⟨hfree, rfl⟩ := insertFs?_ok hstep
  exact hd.tail ⟨.addFs r.2 hfree, .same ⟨rfl, rfl, rfl⟩⟩

/-- An update of a row of `vm_fs` is a run of effects of single statements. -/
theorem effects_updateFs (p : Str) (f : FsRow K → FsRow K) :
    Keeps (Db.Effects T db₀) (updateFs p f) := by
  refine Keeps.effect fun db db' hx => ?_
  rcases updateFs_ok (u := ()) (statement_eq_ok.2 hx) with ⟨-, rfl⟩ | ⟨_, -, rfl⟩
  · exact Or.inl rfl
  · exact Or.inr ⟨.setFs p f, ⟨rfl, rfl, rfl⟩⟩

/-- A delete of rows of `vm_fs` is a run of effects of single statements. -/
theorem effects_deleteFs (sel : Str → Bool) : Keeps (Db.Effects T db₀) (deleteFs (K := K) sel) := by
  refine Keeps.effect fun db db' hx => ?_
  rw [deleteFs_ok (u := ()) (statement_eq_ok.2 hx)]
  exact Or.inr ⟨.delFs sel, ⟨rfl, rfl, rfl⟩⟩

/-- An update of the path of a row of `vm_fs` is a run of effects of single statements. -/
theorem effects_moveFs (old new : Str) : Keeps (Db.Effects T db₀) (moveFs (K := K) old new) := by
  refine Keeps.effect fun db db' hx => ?_
  rcases hrow : db.fs.get? old with _ | row
  · rw [hrow] at hx
    cases hx
    exact Or.inl rfl
  · rw [hrow] at hx
    dsimp only at hx
    split_ifs at hx
    rcases hre : db.fs.rekey (fun p => if p = old then new else p) with _ | fs
    · rw [hre] at hx
      cases hx
    · rw [hre] at hx
      cases hx
      exact Or.inr ⟨.moveFs hre, ⟨rfl, rfl, rfl⟩⟩

/-- An insert of a chunk row is a run of effects of single statements. -/
theorem effects_insertChunk (p : Str) (idx : ℕ) (k : K) :
    Keeps (Db.Effects T db₀) (insertChunk p idx k) := by
  refine Keeps.effect fun db db' hx => ?_
  obtain ⟨hfree, rfl⟩ := insertChunk?_ok hx
  exact Or.inr ⟨.addChunk k hfree, ⟨rfl, rfl, rfl⟩⟩

/-- An insert of several chunk rows is a run of effects of single statements. -/
theorem effects_insertChunks (rows : List ((Str × ℕ) × K)) :
    Keeps (Db.Effects T db₀) (insertChunks rows) := by
  refine Keeps.statement fun db db' h hx => foldlM_inv (I := Db.Effects T db₀) ?_ h hx
  intro r _ d d' hd hstep
  obtain ⟨hfree, rfl⟩ := insertChunk?_ok hstep
  exact hd.tail ⟨.addChunk r.2 hfree, .same ⟨rfl, rfl, rfl⟩⟩

/-- A delete of chunk rows is a run of effects of single statements. -/
theorem effects_deleteChunks (sel : Str → ℕ → Bool) :
    Keeps (Db.Effects T db₀) (deleteChunks (K := K) sel) := by
  refine Keeps.effect fun db db' hx => ?_
  rw [deleteChunks_ok (u := ()) (statement_eq_ok.2 hx)]
  exact Or.inr ⟨.delChunks sel, ⟨rfl, rfl, rfl⟩⟩

/-- An update of the path of the chunk rows of a file is a run of effects of single statements. -/
theorem effects_moveChunks (old new : Str) :
    Keeps (Db.Effects T db₀) (moveChunks (K := K) old new) := by
  refine Keeps.effect fun db db' hx => ?_
  split_ifs at hx
  rcases hre : db.chunks.rekey (fun c => if c.1 = old then (new, c.2) else c) with _ | chunks
  · rw [hre] at hx
    cases hx
  · rw [hre] at hx
    cases hx
    exact Or.inr ⟨.moveChunks hre, ⟨rfl, rfl, rfl⟩⟩

/-- An insert of a blob is a run of effects of single statements. -/
theorem effects_insertBlob (k : K) (b : Block) : Keeps (Db.Effects T db₀) (insertBlob k b) := by
  refine Keeps.effect fun db db' hx => ?_
  obtain ⟨hfree, rfl⟩ := insertBlob_ok (u := ()) (statement_eq_ok.2 hx)
  exact Or.inr ⟨.addBlob b hfree, ⟨rfl, rfl, rfl⟩⟩

/-- An insert of a blob that leaves one that is there is a run of effects of single statements. -/
theorem effects_insertBlobIgnore (k : K) (b : Block) :
    Keeps (Db.Effects T db₀) (insertBlobIgnore k b) := by
  refine Keeps.effect fun db db' hx => ?_
  split_ifs at hx with hhas
  · cases hx
    exact Or.inl rfl
  · cases hx
    exact Or.inr ⟨.addBlob b (Table.get?_of_not_has hhas), ⟨rfl, rfl, rfl⟩⟩

/-- A new encoding of a blob is a run of effects of single statements. -/
theorem effects_updateBlob (k : K) (e : Enc) : Keeps (Db.Effects T db₀) (updateBlob k e) := by
  refine Keeps.effect fun db db' hx => ?_
  cases hx
  exact Or.inr ⟨.setBlob k e, ⟨rfl, rfl, rfl⟩⟩

/-- `vm_set_dict` is a run of effects of single statements. -/
theorem effects_vmSetDict (dict : Bytes) : Keeps (Db.Effects T db₀) (vmSetDict (K := K) dict) := by
  intro db h
  exact h.tail ⟨.addDict dict, .same ⟨rfl, rfl, rfl⟩⟩

/-- A mark in `vm_dirty` is a run of effects of single statements. -/
theorem effects_insertDirty (p : Str) : Keeps (Db.Effects T db₀) (insertDirty (K := K) p) := by
  refine Keeps.effect fun db db' hx => ?_
  rw [insertDirty_ok (u := ()) (statement_eq_ok.2 hx)]
  exact Or.inr ⟨.setDirty _, ⟨rfl, rfl, rfl⟩⟩

/-- The end of a mark in `vm_dirty` is a run of effects of single statements. -/
theorem effects_deleteDirty (p : Str) : Keeps (Db.Effects T db₀) (deleteDirty (K := K) p) := by
  refine Keeps.effect fun db db' hx => ?_
  cases hx
  exact Or.inr ⟨.setDirty _, ⟨rfl, rfl, rfl⟩⟩

/-- The delete of a snapshot, with the cascade to its copies is a run of effects of single
statements. -/
theorem effects_deleteSnapshot (hT : T .drop) (id : ℕ) :
    Keeps (Db.Effects T db₀) (deleteSnapshot (K := K) id) := by
  refine Keeps.statement fun db db' h hx => ?_
  have hdel : deleteSnapshot id db = .ok () db' := statement_eq_ok.2 hx
  exact h.tail ⟨.delSnapshot hdel, .drop hT hdel⟩

/-- An entry of an undo record is a run of effects of single statements. -/
theorem effects_insertUndoFs (id : ℕ) (p : Str) (m : Option (FsMeta K)) :
    Keeps (Db.Effects T db₀) (insertUndoFs id p m) := by
  refine Keeps.effect fun db db' hx => ?_
  split_ifs at hx
  cases hx
  exact Or.inr ⟨.addUndoFs id p m, ⟨rfl, rfl, rfl⟩⟩

/-- The copy of a chunk list into an undo record is a run of effects of single statements. -/
theorem effects_copyUndoChunks (id : ℕ) (p : Str) :
    Keeps (Db.Effects T db₀) (copyUndoChunks (K := K) id p) := by
  refine Keeps.statement fun db db' h hx => foldlM_inv (I := Db.Effects T db₀) ?_ h hx
  intro r _ d d' hd hstep
  refine hd.tail ⟨.addUndoChunk hstep, .same ?_⟩
  unfold Db.insertUndoChunk? at hstep
  split_ifs at hstep
  cases hstep
  exact ⟨rfl, rfl, rfl⟩

/-- The delete of an undo record is a run of effects of single statements. -/
theorem effects_deleteUndo (id : ℕ) : Keeps (Db.Effects T db₀) (deleteUndo (K := K) id) := by
  refine Keeps.effect fun db db' hx => Or.inr ⟨.delUndo (u := ()) (statement_eq_ok.2 hx), ?_⟩
  split_ifs at hx
  · cases hx
    exact ⟨rfl, rfl, rfl⟩
  · cases hx
    exact ⟨rfl, rfl, rfl⟩

/-- A program with the triggers bypassed keeps what the program in it keeps. -/
theorem Keeps.bypassed {α : Type} {x : Sql K α} (h : Keeps (Db.Effects T db₀) x) :
    Keeps (Db.Effects T db₀) (Dbvm.withBypass x) :=
  Keeps.withBypass (fun _ b hd => hd.tail ⟨.setBypass b, .same ⟨rfl, rfl, rfl⟩⟩) h

/-! ## Files -/

/-- `blob_ensure` is a run of effects of single statements. -/
theorem effects_blobEnsureWith (E : Ext K) (key : K) (data : Bytes) (effort : Effort) :
    Keeps (Db.Effects T db₀) (blobEnsureWith E key data effort) := by
  refine Keeps.bind (Keeps.reads _) fun found => ?_
  rcases found with _ | c
  · exact Keeps.bind (Keeps.reads _) fun enc => Keeps.bind (effects_insertBlob key _) fun _ =>
      Keeps.pure _
  · exact Keeps.pure _

/-- A chunk that is stored and listed is a run of effects of single statements. -/
theorem effects_appendChunk (E : Ext K) (p : Str) (idx : ℕ) (piece : Bytes) :
    Keeps (Db.Effects T db₀) (appendChunk E p idx piece) :=
  Keeps.bind (effects_blobEnsureWith E _ piece .archive) fun _ => effects_insertChunk p idx _

/-- `chunks_replace` is a run of effects of single statements. -/
theorem effects_chunksReplace (E : Ext K) (p : Str) (data : Bytes) :
    Keeps (Db.Effects T db₀) (chunksReplace E p data) :=
  Keeps.bind (effects_deleteChunks _) fun _ => Keeps.forM (fun _ => effects_appendChunk E p _ _) _

/-- `ensure_parent_dirs` is a run of effects of single statements. -/
theorem effects_ensureParentDirs (vmPath : Str) (now : ℤ) :
    Keeps (Db.Effects T db₀) (ensureParentDirs vmPath now) :=
  Keeps.forM (fun d => effects_insertFsIgnore d _) _

/-- `fs_put_file` is a run of effects of single statements. -/
theorem effects_fsPutFile (E : Ext K) (p : Str) (mode mtime : ℤ) (data : Bytes) :
    Keeps (Db.Effects T db₀) (fsPutFile E p mode mtime data) :=
  Keeps.saved (Keeps.bind (effects_chunksReplace E p data) fun _ => effects_upsertFs p _ _)

/-- `fs_put_node` is a run of effects of single statements. -/
theorem effects_fsPutNode (p : Str) (kind : Kind) (mode mtime : ℤ) (link : Option Str) :
    Keeps (Db.Effects T db₀) (fsPutNode p kind mode mtime link) :=
  Keeps.saved (Keeps.bind (effects_deleteChunks _) fun _ => effects_upsertFs p _ _)

/-- The loop of `fs_put_file_stream` is a run of effects of single statements. -/
theorem effects_putStreamChunks (E : Ext K) (p : Str) : ∀ (fuel idx : ℕ) (src : Reader),
    Keeps (Db.Effects T db₀) (putStreamChunks E p fuel idx src)
  | 0, _, _ => Keeps.pure _
  | fuel + 1, idx, src => by
    rw [putStreamChunks]
    refine Keeps.bind (Keeps.query _) ?_
    rintro ⟨piece, rest⟩
    dsimp only
    split_ifs
    · exact Keeps.pure _
    · exact Keeps.bind (effects_appendChunk E p idx piece) fun _ => Keeps.pure _
    · exact Keeps.bind (effects_appendChunk E p idx piece) fun _ =>
        Keeps.bind (effects_putStreamChunks E p fuel (idx + 1) rest) fun _ => Keeps.pure _

/-- `fs_put_file_stream_ns` is a run of effects of single statements. -/
theorem effects_fsPutFileStreamNs (E : Ext K) (p : Str) (mode mtime mtimeNs : ℤ) (src : Reader) :
    Keeps (Db.Effects T db₀) (fsPutFileStreamNs E p mode mtime mtimeNs src) :=
  Keeps.saved (Keeps.bind (effects_deleteChunks _) fun _ =>
    Keeps.bind (effects_putStreamChunks E p _ 0 src) fun _ =>
      Keeps.bind (effects_upsertFs p _ _) fun _ => Keeps.pure _)

/-! ## Ranged writes -/

/-- A chunk row that is replaced by one of another blob is a run of effects of single statements. -/
theorem effects_swapChunk (E : Ext K) (effort : Effort) (p : Str) (idx : ℕ) (piece : Bytes) :
    Keeps (Db.Effects T db₀) (swapChunk E effort p idx piece) :=
  Keeps.bind (effects_blobEnsureWith E _ piece effort) fun _ =>
    Keeps.bind (effects_deleteChunks _) fun _ => effects_insertChunk p idx _

/-- `put_chunk` is a run of effects of single statements. -/
theorem effects_putChunk (E : Ext K) (p : Str) (idx : ℕ) (piece : Bytes) :
    Keeps (fun c : Conn K => Db.Effects T db₀ c.db) (putChunk E p idx piece) := by
  unfold putChunk
  refine Keeps.bind (ReadOnly.reads _).keeps fun old => ?_
  split_ifs
  · exact Keeps.pure _
  · exact Keeps.bind (Keeps.onDb (effects_swapChunk E .interactive p idx piece)) fun _ =>
      keeps_cachePut _ piece

/-- `mark_dirty` is a run of effects of single statements. -/
theorem effects_markDirty (p : Str) (size : ℕ) (mtime : ℤ) :
    Keeps (Db.Effects T db₀) (markDirty (K := K) p size mtime) :=
  Keeps.bind (effects_updateFs p _) fun _ => effects_insertDirty p

/-- One chunk of a range write is a run of effects of single statements. -/
theorem effects_writeChunk (E : Ext K) (p : Str) (oldSize newSize off : ℕ) (data : Bytes)
    (idx : ℕ) :
    Keeps (fun c : Conn K => Db.Effects T db₀ c.db)
    (writeChunk E p oldSize newSize off data idx) := by
  unfold writeChunk
  dsimp only
  split_ifs
  · exact Keeps.bind (readOnly_readRangeCached E p _ _).keeps fun _ => effects_putChunk E p idx _
  · exact effects_putChunk E p idx _

/-- `write_range_deferred` is a run of effects of single statements. -/
theorem effects_writeRangeDeferred (E : Ext K) (vmPath : Str) (off : ℕ) (data : Bytes) (mtime : ℤ) :
    Keeps (fun c : Conn K => Db.Effects T db₀ c.db)
    (writeRangeDeferred E vmPath off data mtime) := by
  unfold writeRangeDeferred
  refine Keeps.bind (ReadOnly.query _).keeps ?_
  rintro ⟨real, oldSize⟩
  dsimp only
  split_ifs
  · exact Keeps.pure _
  · exact Keeps.connSavepoint (Keeps.triple (Keeps.bind
      (Keeps.forM (fun idx => effects_writeChunk E real _ _ _ _ idx) _) fun _ =>
        Keeps.onDb (effects_markDirty real _ mtime)))

/-- The cut of the last chunk in a truncation is a run of effects of single statements. -/
theorem effects_cutTail (E : Ext K) (p : Str) (newSize : ℕ) :
    Keeps (fun c : Conn K => Db.Effects T db₀ c.db) (cutTail E p newSize) := by
  unfold cutTail
  split_ifs
  · exact Keeps.bind (readOnly_chunkBytes E p _).keeps fun _ => effects_putChunk E p _ _
  · exact Keeps.pure _

/-- `truncate_range_deferred` is a run of effects of single statements. -/
theorem effects_truncateRangeDeferred (E : Ext K) (vmPath : Str) (newSize : ℕ) (mtime : ℤ) :
    Keeps (fun c : Conn K => Db.Effects T db₀ c.db)
    (truncateRangeDeferred E vmPath newSize mtime) := by
  unfold truncateRangeDeferred
  refine Keeps.bind (ReadOnly.query _).keeps ?_
  rintro ⟨real, oldSize⟩
  dsimp only
  split_ifs
  · exact Keeps.pure _
  · exact effects_writeRangeDeferred E real _ _ mtime
  · exact Keeps.connSavepoint
      (Keeps.triple (Keeps.bind (Keeps.onDb (effects_deleteChunks _)) fun _ =>
      Keeps.bind (effects_cutTail E real newSize) fun _ =>
      Keeps.onDb (effects_markDirty real _ mtime)))

/-- `finalize_file` is a run of effects of single statements. -/
theorem effects_finalizeFile (E : Ext K) (p : Str) : Keeps (Db.Effects T db₀) (finalizeFile E p) :=
  keeps_finalizeFile_of (fun q _ => effects_updateFs q _) effects_deleteDirty E p

/-- `finalize_dirty` is a run of effects of single statements. -/
theorem effects_finalizeDirty (E : Ext K) : Keeps (Db.Effects T db₀) (finalizeDirty E) :=
  keeps_finalizeDirty_of (fun q _ => effects_updateFs q _) effects_deleteDirty E

/-- `write_range` is a run of effects of single statements. -/
theorem effects_writeRange (E : Ext K) (vmPath : Str) (off : ℕ) (data : Bytes) (mtime : ℤ) :
    Keeps (Db.Effects T db₀) (writeRange E vmPath off data mtime) :=
  Keeps.saved
    (Keeps.bind (Keeps.withCache none (effects_writeRangeDeferred E vmPath off data mtime)) fun _ =>
    Keeps.bind (Keeps.query _) fun real => Keeps.bind (effects_finalizeFile E real) fun _ =>
    Keeps.pure _)

/-- `truncate_range` is a run of effects of single statements. -/
theorem effects_truncateRange (E : Ext K) (vmPath : Str) (newSize : ℕ) (mtime : ℤ) :
    Keeps (Db.Effects T db₀) (truncateRange E vmPath newSize mtime) :=
  Keeps.saved
    (Keeps.bind (Keeps.withCache none (effects_truncateRangeDeferred E vmPath newSize mtime))
      fun _ =>
    Keeps.bind (Keeps.query _) fun real => Keeps.bind (effects_finalizeFile E real) fun _ =>
    Keeps.pure _)

/-- The transaction of a rename of the mount is a run of effects of single statements. -/
theorem effects_fuseRename (replaced : Option Str) (moves : List (Str × Str)) :
    Keeps (Db.Effects T db₀) (fuseRename (K := K) replaced moves) := by
  have hmoves : Keeps (Db.Effects T db₀) (moves.forM fun m => do
      moveFs (K := K) m.1 m.2
      moveChunks m.1 m.2) :=
    Keeps.forM (fun m => Keeps.bind (effects_moveFs m.1 m.2) fun _ => effects_moveChunks m.1 m.2)
    moves
  refine Keeps.saved ?_
  rcases replaced with _ | d
  · exact hmoves
  · exact Keeps.bind (effects_deleteFs _) fun _ => hmoves

/-! ## Snapshots and undo records -/

omit [DecidableEq K] in
/-- An insert of a snapshot fails when the name is taken, and gives the next number otherwise. -/
theorem insertSnapshot_eq (db : Db K) (name : Str) : insertSnapshot name db =
    if db.snapshots.rows.any fun r => r.2 = name then .error .unique db
    else .ok (nextId db.snapshots)
      { db with snapshots := db.snapshots.insertIgnore (nextId db.snapshots) name } := by
  unfold insertSnapshot
  rw [reads_bind]
  change EStateM.bind _ _ db = _
  unfold EStateM.bind statement
  dsimp only
  split_ifs <;> rfl

omit [DecidableEq K] in
/-- The row of a snapshot has a new id and a new name. -/
theorem insertSnapshot_ok {db db' : Db K} {name : Str} {id : ℕ}
    (h : insertSnapshot name db = .ok id db') :
    id = nextId db.snapshots ∧ (∀ r ∈ db.snapshots.rows, r.2 ≠ name) ∧
      db' = { db with snapshots := db.snapshots.insertIgnore (nextId db.snapshots) name } := by
  rw [insertSnapshot_eq] at h
  split_ifs at h with hname
  cases h
  refine ⟨rfl, fun r hr he => hname ?_, rfl⟩
  exact List.any_eq_true.2 ⟨r, hr, decide_eq_true he⟩

omit [DecidableEq K] in
/-- A snapshot that has been renamed was the only one of that name. -/
theorem renameSnapshot_ok {db db' : Db K} {name : Str} {id : ℕ} {u : Unit}
    (h : renameSnapshot id name db = .ok u db') :
    (∀ r ∈ db.snapshots.rows, r.2 = name → r.1 = id) ∧
      db' = { db with snapshots := db.snapshots.update id fun _ => name } := by
  rw [renameSnapshot, statement_eq_ok] at h
  split_ifs at h with hname
  cases h
  refine ⟨fun r hr he => ?_, rfl⟩
  by_contra hne
  refine hname (List.any_eq_true.2 ⟨r, hr, ?_⟩)
  simp [he, hne]

/-- A row that is inserted and then named is a row that is inserted under its name. -/
theorem update_insertIgnore_nextId (t : Table ℕ Str) (placeholder name : Str) :
    ((t.insertIgnore (nextId t) placeholder).update (nextId t) fun _ => name) =
      t.insertIgnore (nextId t) name := by
  have hfree := get?_nextId t
  have hrows : ((t.insertIgnore (nextId t) placeholder).update (nextId t) fun _ => name).rows =
      (t.insertIgnore (nextId t) name).rows := by
    change (t.insertIgnore (nextId t) placeholder).rows.map
      (fun r => if r.1 = nextId t then (r.1, name) else r) = _
    rw [Table.rows_insertIgnore hfree, Table.rows_insertIgnore hfree, List.map_append,
      List.map_singleton,
      if_pos rfl]
    congr 1
    -- The other rows have other ids.
    conv_rhs => rw [← List.map_id t.rows]
    refine List.map_congr_left fun r hr => if_neg fun he => ?_
    have hsome := Table.get?_eq_some_iff.2 hr
    rw [he, hfree] at hsome
    cases hsome
  rcases hl : ((t.insertIgnore (nextId t) placeholder).update (nextId t) fun _ => name) with ⟨rows,
    _⟩
  rcases hr : t.insertIgnore (nextId t) name with ⟨rows', _⟩
  rw [hl, hr] at hrows
  subst hrows
  rfl

/-- A named snapshot is one that is taken under its name. -/
theorem snapshot_named_ok {db db' : Db K} {placeholder pfx : Str} {r : ℕ × Str}
    (h : (do
      let id ← insertSnapshot placeholder
      let name := pfx ++ '-' :: Nat.toDigits 10 id
      renameSnapshot id name
      copyTree id
      return (id, name)) db = .ok r db') :
    r = (nextId db.snapshots, pfx ++ '-' :: Nat.toDigits 10 (nextId db.snapshots)) ∧
      (∀ row ∈ db.snapshots.rows, row.2 ≠ r.2) ∧
      copyTree r.1 { db with snapshots := db.snapshots.insertIgnore r.1 r.2 } = .ok () db' := by
  -- The number of the new snapshot is the next one, and the name has it as its end.
  obtain ⟨id, d₁, hins, h⟩ := bind_eq_ok.1 h
  obtain ⟨_, d₂, hren, h⟩ := bind_eq_ok.1 h
  obtain ⟨_, d₃, hcopy, h⟩ := bind_eq_ok.1 h
  cases h
  obtain ⟨rfl, -, rfl⟩ := insertSnapshot_ok hins
  obtain ⟨hname, rfl⟩ := renameSnapshot_ok hren
  refine ⟨rfl, fun row hrow he => ?_, ?_⟩
  · -- A row with this name would be the new one.
    have hmem : row ∈ (db.snapshots.insertIgnore (nextId db.snapshots) placeholder).rows := by
      rw [Table.rows_insertIgnore (get?_nextId _)]
      exact List.mem_append_left _ hrow
    have hid := hname row hmem he
    have hsome := Table.get?_eq_some_iff.2 hrow
    rw [hid, get?_nextId] at hsome
    cases hsome
  · dsimp only at hcopy ⊢
    rw [update_insertIgnore_nextId] at hcopy
    exact hcopy

/-- `snapshot_create` is a run of effects of single statements. -/
theorem effects_snapshotCreate (hT : T .take) (E : Ext K) (name : Str) :
    Keeps (Db.Effects T db₀) (snapshotCreate E name) := by
  refine Keeps.bind (effects_finalizeDirty E) fun _ => Keeps.inSavepoint fun db _ db' h hx => ?_
  obtain ⟨id, d₁, hins, hx⟩ := bind_eq_ok.1 hx
  obtain ⟨_, d₂, hcopy, hx⟩ := bind_eq_ok.1 hx
  cases hx
  obtain ⟨rfl, -, rfl⟩ := insertSnapshot_ok hins
  exact h.tail ⟨.snapshot hcopy, .take hT hcopy⟩

/-- `snapshot_create_named` is a run of effects of single statements. -/
theorem effects_snapshotCreateNamed (hT : T .take) (E : Ext K) (pfx placeholder : Str) :
    Keeps (Db.Effects T db₀) (snapshotCreateNamed E pfx placeholder) := by
  refine Keeps.bind (effects_finalizeDirty E) fun _ => Keeps.inSavepoint fun db r db' h hx => ?_
  obtain ⟨rfl, -, hcopy⟩ := snapshot_named_ok hx
  exact h.tail ⟨.snapshot hcopy, .take hT hcopy⟩

/-- `snapshot_delete` is a run of effects of single statements. -/
theorem effects_snapshotDelete (hT : T .drop) (name : Str) :
    Keeps (Db.Effects T db₀) (snapshotDelete (K := K) name) :=
  Keeps.bind (Keeps.query _) fun id => Keeps.saved (effects_deleteSnapshot hT id)

/-- `snapshot_retain` is a run of effects of single statements. -/
theorem effects_snapshotRetain (hT : T .drop) (keep : ℕ) :
    Keeps (Db.Effects T db₀) (snapshotRetain (K := K) keep) :=
  Keeps.bind (Keeps.reads _) fun _ => Keeps.bind (Keeps.forM (effects_snapshotDelete hT) _) fun _ =>
  Keeps.pure _

/-- `snapshot_restore` is a run of effects of single statements. -/
theorem effects_snapshotRestore (name : Str) :
    Keeps (Db.Effects T db₀) (snapshotRestore (K := K) name) :=
  Keeps.bypassed (Keeps.bind (Keeps.query _) fun _ => Keeps.saved
    (Keeps.bind (effects_deleteChunks _) fun _ => Keeps.bind (effects_deleteFs _) fun _ =>
      Keeps.bind (Keeps.reads _) fun rows => Keeps.bind (effects_insertFsRows rows) fun _ =>
        Keeps.bind (Keeps.reads _) fun chunks => effects_insertChunks chunks))

/-- `undo_begin` is a run of effects of single statements. -/
theorem effects_undoBegin : Keeps (Db.Effects T db₀) (undoBegin (K := K)) := by
  intro db h
  exact h.tail ⟨.addUndo, .same ⟨rfl, rfl, rfl⟩⟩

/-- `undo_capture` is a run of effects of single statements. -/
theorem effects_undoCapture (id : ℕ) (path : Str) :
    Keeps (Db.Effects T db₀) (undoCapture (K := K) id path) := by
  unfold undoCapture
  refine Keeps.bind (Keeps.reads _) fun seen => ?_
  split_ifs
  · exact Keeps.pure _
  · refine Keeps.bind (Keeps.reads _) fun row => ?_
    rcases row with _ | r
    · exact effects_insertUndoFs id path none
    · exact Keeps.bind (effects_insertUndoFs id path _) fun _ => effects_copyUndoChunks id path

/-- `undo_capture_tree` is a run of effects of single statements. -/
theorem effects_undoCaptureTree (id : ℕ) (path : Str) :
    Keeps (Db.Effects T db₀) (undoCaptureTree (K := K) id path) :=
  Keeps.bind (Keeps.reads _) fun below => Keeps.forM (effects_undoCapture id) below

/-- One entry of `undo_apply` is a run of effects of single statements. -/
theorem effects_undoPut (id : ℕ) (r : Str × Option (FsMeta K)) :
    Keeps (Db.Effects T db₀) (undoPut id r) := by
  rcases r with ⟨p, _ | m⟩
  · exact Keeps.pure _
  · exact Keeps.bind (effects_insertFs p _) fun _ => Keeps.bind (Keeps.reads _) fun chunks =>
      effects_insertChunks chunks

/-- `undo_apply` is a run of effects of single statements. -/
theorem effects_undoApply (id : ℕ) : Keeps (Db.Effects T db₀) (undoApply (K := K) id) :=
  Keeps.bypassed (Keeps.saved (Keeps.bind (Keeps.reads _) fun rows =>
    Keeps.bind (Keeps.forM (fun _ => effects_deleteFs _) rows) fun _ =>
    Keeps.forM (effects_undoPut id) _))

/-! ## Maintenance and injection -/

/-- One file of `vm_rechunk` is a run of effects of single statements. -/
theorem effects_rechunkFile (E : Ext K) (rep : RechunkReport) (path : Str) :
    Keeps (Db.Effects T db₀) (rechunkFile E rep path) := by
  unfold rechunkFile
  refine Keeps.bind (Keeps.reads _) fun n => ?_
  split_ifs
  · exact Keeps.pure _
  · refine Keeps.bind (Keeps.query _) fun before => Keeps.bind (Keeps.attempt ?_) fun out => ?_
    · refine Keeps.saved (Keeps.bind (effects_chunksReplace E path before) fun _ =>
        Keeps.bind (Keeps.query _) fun after => ?_)
      split_ifs
      · exact Keeps.throw _
      · exact Keeps.pure _
    · rcases out with e | _
      · exact Keeps.pure _
      · exact Keeps.pure _

/-- `vm_rechunk` is a run of effects of single statements. -/
theorem effects_vmRechunk (E : Ext K) : Keeps (Db.Effects T db₀) (vmRechunk E) :=
  Keeps.bind (Keeps.reads _) fun candidates => Keeps.foldlM (effects_rechunkFile E) candidates _

/-- The inline content of one row in `vm_recompress` is a run of effects of single statements. -/
theorem effects_recompressInline (E : Ext K) (r : Str × Bytes × ℕ) :
    Keeps (Db.Effects T db₀) (recompressInline E r) :=
  Keeps.bind (Keeps.query _) fun raw => Keeps.bind (effects_blobEnsureWith E _ raw .archive)
    fun _ =>
    Keeps.bind (Keeps.reads _) fun _ => effects_updateFs r.1 _

/-- A blob that `vm_recompress` encodes again is a run of effects of single statements. -/
theorem effects_recompressBlob (E : Ext K) (k : K) (raw : Bytes) :
    Keeps (Db.Effects T db₀) (recompressBlob E k raw) := by
  refine Keeps.bind (Keeps.reads _) fun enc => ?_
  rcases enc with _ | e
  · exact Keeps.pure _
  · exact effects_updateBlob k e

/-- One blob of the last pass of `vm_recompress` is a run of effects of single statements. -/
theorem effects_recompress19 (E : Ext K) (r : K × Cell Block) :
    Keeps (Db.Effects T db₀) (recompress19 E r) := by
  refine Keeps.bind (Keeps.query _) fun raw => ?_
  rcases E.zstdCompress 19 raw with _ | c
  · exact Keeps.pure _
  · dsimp only
    split_ifs
    · exact effects_updateBlob _ _
    · exact Keeps.pure _

/-- `vm_recompress` is a run of effects of single statements. -/
theorem effects_vmRecompress (E : Ext K) : Keeps (Db.Effects T db₀) (vmRecompress E) :=
  Keeps.bind (Keeps.reads _) fun rows => Keeps.bind (Keeps.forM (effects_recompressInline E) rows)
    fun _ =>
    Keeps.bind (Keeps.reads _) fun gz => Keeps.bind (Keeps.forM (fun r => Keeps.bind (Keeps.query _)
      fun raw => effects_recompressBlob E r.1 raw) gz) fun _ =>
        Keeps.bind (Keeps.reads _) fun plain =>
        Keeps.bind (Keeps.forM (fun r => effects_recompressBlob E r.1 _) plain) fun _ =>
          Keeps.bind (Keeps.reads _) fun zstd => Keeps.forM (effects_recompress19 E) zstd

/-- The dictionaries of an injection is a run of effects of single statements. -/
theorem effects_injectDicts (pkg : Db K) :
    ∀ pids : List ℕ, Keeps (Db.Effects T db₀) (injectDicts pkg pids)
  | [] => Keeps.pure _
  | _ :: rest => Keeps.bind (Keeps.query _) fun dict => Keeps.bind (effects_vmSetDict dict) fun _ =>
      Keeps.bind (effects_injectDicts pkg rest) fun _ => Keeps.pure _

/-- One blob of an injection is a run of effects of single statements. -/
theorem effects_injectBlob (dictMap : List (ℕ × ℕ)) (r : K × Block) :
    Keeps (Db.Effects T db₀) (injectBlob dictMap r) :=
  Keeps.bind (Keeps.query _) fun _ => effects_insertBlobIgnore r.1 _

/-- The chunks of one file of an injection is a run of effects of single statements. -/
theorem effects_mergePath (pkg : Db K) (dictMap : List (ℕ × ℕ)) (p : Str) :
    Keeps (Db.Effects T db₀) (mergePath pkg dictMap p) :=
  Keeps.bind (effects_insertFsRows _) fun _ => Keeps.bind (Keeps.reads _) fun _ =>
    Keeps.bind (Keeps.forM (effects_injectBlob dictMap) _) fun _ =>
      Keeps.bind (Keeps.reads _) fun _ =>
      Keeps.bind (effects_insertChunks _) fun _ => Keeps.pure _

/-- One file of an injection is a run of effects of single statements. -/
theorem effects_injectPath (pkg : Db K) (dictMap : List (ℕ × ℕ)) (rep : InjectReport) (p : Str) :
    Keeps (Db.Effects T db₀) (injectPath pkg dictMap rep p) := by
  refine Keeps.bind (Keeps.reads _) fun existed => Keeps.bind ?_ fun _ =>
    Keeps.bind (effects_mergePath pkg dictMap p) fun _ => Keeps.pure _
  rcases existed with _ | _
  · exact Keeps.pure _
  · exact effects_deleteFs _

/-- An injection of a package is a run of effects of single statements. -/
theorem effects_inject (E : Ext K) (base : Option (Db K)) (pkg : Db K) :
    Keeps (Db.Effects T db₀) (inject E base pkg) := by
  unfold inject
  dsimp only
  split_ifs
  · exact Keeps.throw _
  · refine Keeps.saved (Keeps.bind (effects_injectDicts pkg _) fun dictMap =>
      Keeps.bind (Keeps.foldlM (effects_injectPath pkg dictMap) _ _) fun rep =>
        Keeps.bind (Keeps.bind (effects_finalizeDirty E) fun _ => Keeps.reads _) fun drift => ?_)
    split_ifs
    · exact Keeps.throw _
    · exact Keeps.pure _

/-! ## Imports and syncs -/

/-- Columns that no content depends on. -/
def Touches (f : FsRow K → FsRow K) : Prop := ∀ row, (f row).content = row.content ∧
  (f row).kind = row.kind ∧
  (f row).size = row.size ∧ (f row).hash = row.hash

/-- Kept by the programs that imports and syncs consist of, as far as directories and links are
written, and entries captured, at paths of `N` only, and the modes that are stored are those of `M`.
-/
structure WriterKept (E : Ext K) (N : Str → Prop) (M : Kind → ℤ → Prop) (I : Db K → Prop) :
    Prop where
  /-- Missing parent directories are made. -/
  parents : ∀ vmPath now, Keeps I (ensureParentDirs vmPath now)
  /-- A file is written. -/
  putFile : ∀ p mode mtime data, M .file mode → Keeps I (fsPutFile E p mode mtime data)
  /-- A directory or a link is written. -/
  putNode : ∀ p kind mode mtime link, kind ≠ .file → N p → M kind mode →
    Keeps I (fsPutNode p kind mode mtime link)
  /-- A file is written from a stream. -/
  stream : ∀ p mode mtime ns src, M .file mode → Keeps I (fsPutFileStreamNs E p mode mtime ns src)
  /-- Columns of a row change. -/
  touch : ∀ p f, Touches f → (∀ row, M row.kind row.mode → M row.kind (f row).mode) →
    Keeps I (updateFs p f)
  /-- Rows are deleted. -/
  delFs : ∀ sel, Keeps I (deleteFs sel)
  /-- An entry is captured. -/
  capture : ∀ id p, N p → Keeps I (undoCapture id p)
  /-- Stale hashes are computed. -/
  finalize : Keeps I (finalizeDirty E)

namespace WriterKept

variable {E : Ext K} {N : Str → Prop} {M : Kind → ℤ → Prop} {I : Db K → Prop} {vmPath target : Str}
  {mode mtime now : ℤ}

/-- `vm_add_bytes` keeps what the writers of `WriterKept` keep. -/
theorem vmAddBytes (h : WriterKept E N M I) (vmPath : Str) (data : Bytes) (mtime now : ℤ)
    (hM : M .file mode) :
    Keeps I (Dbvm.vmAddBytes E vmPath data mode mtime now) :=
  Keeps.bind (h.parents _ now) fun _ => h.putFile _ mode mtime data hM

/-- `vm_add_dir` keeps what the writers of `WriterKept` keep. -/
theorem vmAddDir (h : WriterKept E N M I) (hN : N (normalizeVmPath vmPath)) (hM : M .dir mode) :
    Keeps I (Dbvm.vmAddDir vmPath mode mtime now) :=
  Keeps.bind (h.parents _ now) fun _ => h.putNode _ _ _ _ _ (by decide) hN hM

/-- `vm_add_symlink` keeps what the writers of `WriterKept` keep. -/
theorem vmAddSymlink (h : WriterKept E N M I) (hN : N (normalizeVmPath vmPath))
    (hM : M .symlink 511) :
    Keeps I (Dbvm.vmAddSymlink vmPath target now) :=
  Keeps.bind (h.parents _ now) fun _ => h.putNode _ _ _ _ _ (by decide) hN hM

/-- The path at which a packed entry becomes a directory or a link. -/
def packNode : PackEntry → Option Str
  | .dir vmPath _ _ => some (normalizeVmPath vmPath)
  | .symlink vmPath _ => some (normalizeVmPath vmPath)
  | .file .. => none

/-- The kind and the mode with which a packed entry is stored. -/
def packMode : PackEntry → Kind × ℤ
  | .dir _ mode _ => (.dir, mode)
  | .symlink .. => (.symlink, 511)
  | .file _ _ mode _ _ => (.file, mode)

/-- One entry of a pack keeps what the writers of `WriterKept` keep. -/
theorem packEntry (h : WriterKept E N M I) {entry : PackEntry}
    (hN : ∀ p, packNode entry = some p → N p) (hM : M (packMode entry).1 (packMode entry).2) :
    Keeps I (Dbvm.packEntry E now entry) := by
  rcases entry with ⟨p, mode, mtime⟩ | ⟨p, target⟩ | ⟨p, data, mode, mtime, readable⟩
  · exact h.vmAddDir (hN _ rfl) hM
  · exact h.vmAddSymlink (hN _ rfl) hM
  · exact Keeps.bind (h.parents _ now) fun _ => Keeps.bind (Keeps.query _) fun _ =>
      h.vmAddBytes _ data mtime now hM

/-- The path at which a member of an archive becomes a directory or a link. -/
def tarNode (opts : TarOptions) : Except Err TarEntry → Option Str
  | .error _ => none
  | .ok e =>
    match e.path, e.kind with
    | .error _, _ => none
    | .ok path, .dir => some (normalizeVmPath (tarVmPath path opts.strip))
    | .ok path, .symlink _ => some (normalizeVmPath (tarVmPath path opts.strip))
    | .ok _, _ => none

/-- The kind and the mode with which a member of an archive is stored, if it is. -/
def tarMode (opts : TarOptions) : Except Err TarEntry → Option (Kind × ℤ)
  | .error _ => none
  | .ok e =>
    match e.path, e.kind with
    | .error _, _ => none
    | .ok path, kind =>
      let p := tarVmPath path opts.strip
      if p = [] ∨ p = root then none else if opts.skips p then none
      else match kind with
        | .dir => some (.dir, e.mode)
        | .symlink (.ok (some _)) => some (.symlink, 511)
        | .hardLink (.ok (some _)) => some (.file, e.mode)
        | .file (.ok _) => some (.file, e.mode)
        | _ => none

/-- One member of an archive keeps what the writers of `WriterKept` keep. -/
theorem importEntry (h : WriterKept E N M I) {opts : TarOptions} {entry : Except Err TarEntry}
    (hN : ∀ p, tarNode opts entry = some p → N p)
    (hM : ∀ k m, tarMode opts entry = some (k, m) → M k m) :
    Keeps I (Dbvm.importEntry E opts now entry) := by
  rcases entry with e | ⟨epath, ekind, emode, emtime⟩
  · exact fun _ hI => hI
  rcases epath with e | path
  · exact fun _ hI => hI
  show Keeps I (let p := tarVmPath path opts.strip
    if p = [] ∨ p = root then pure () else if opts.skips p then pure () else _)
  dsimp only [tarMode] at hM ⊢
  split_ifs with hroot hskip
  · exact Keeps.pure _
  · exact Keeps.pure _
  · rw [if_neg hroot, if_neg hskip] at hM
    intro db hI
    -- A directory, a symbolic link, a hard link, a file; other kinds are passed over.
    rcases ekind with _ | target | target | data | _
    · exact h.vmAddDir (hN _ rfl) (hM _ _ rfl) db hI
    · refine endState_query_bind hI fun t ht => ?_
      subst ht
      rcases t with _ | t
      · exact hI
      · exact h.vmAddSymlink (hN _ rfl) (hM _ _ rfl) db hI
    · refine endState_query_bind hI fun t ht => ?_
      subst ht
      rcases t with _ | t
      · exact hI
      · exact Keeps.bind (Keeps.query _) (fun data => h.vmAddBytes _ data _ now (hM _ _ rfl)) db hI
    · refine endState_query_bind hI fun bytes hbytes => ?_
      subst hbytes
      exact h.vmAddBytes _ bytes _ now (hM _ _ rfl) db hI
    · exact hI

/-! ### One entry of a sync -/

/-- The capture of an entry before a sync writes it keeps what the writers of `WriterKept` keep. -/
theorem syncCapture (h : WriterKept E N M I) (ctx : SyncCtx) {p : Str} (hN : N p) :
    Keeps I (ctx.capture (K := K) p) := by
  unfold SyncCtx.capture
  rcases ctx.undo with _ | u
  · exact Keeps.pure _
  · exact h.capture u p hN

/-- `write_file_checked` keeps what the writers of `WriterKept` keep. -/
theorem writeFileChecked (h : WriterKept E N M I) (p : Str) (mtime ns : ℤ) (src : Reader)
    (hM : M .file mode) :
    Keeps I (Dbvm.writeFileChecked E p mode mtime ns src) := by
  unfold Dbvm.writeFileChecked
  refine Keeps.bind (h.stream p mode mtime ns src hM) fun _ => ?_
  split_ifs
  · exact h.touch p _ (fun _ => ⟨rfl, rfl, rfl, rfl⟩) fun _ hrow => hrow
  · exact Keeps.pure _

/-- `sync_one` keeps what the writers of `WriterKept` keep. -/
theorem syncOne (h : WriterKept E N M I) (ctx : SyncCtx) (node : Node) {p : Str} (hN : N p)
    (hM : ∀ kind, M kind (hostMode node)) (prev : Option (FsMeta K)) :
    Keeps I (Dbvm.syncOne E ctx node p prev) := by
  refine keeps_syncOne_at (J := I) node prev (fun hx => Keeps.bind (h.syncCapture ctx hN) fun _ =>
    hx)
    (fun kind mtime link _ hkind => h.putNode p kind _ mtime link hkind hN (hM kind)) ?_
    fun _ _ _ _ _ => h.writeFileChecked p _ _ _ (hM .file)
  rintro m f - - - ⟨mtime, link, hf⟩
  refine h.touch p f (fun row => ?_) fun row _ => ?_
  · rw [hf]
    exact ⟨rfl, rfl, rfl, rfl⟩
  · rw [hf]
    exact hM row.kind

/-! ### Syncs -/

variable (h : WriterKept E N M I) (hN : ∀ p, N p) (hM : ∀ kind node, M kind (hostMode node))

include h hN hM

/-- One entry of the walk of a sync keeps what the writers of `WriterKept` keep. -/
theorem syncEntry (ctx : SyncCtx) (tree : Loc) (rows : Table Str (FsRow K))
    (aliases : List (Str × Str)) (st : List Str × SyncReport) (e : Option (Loc × Node)) :
    Keeps I (Dbvm.syncEntry E ctx tree rows aliases st e) := by
  have hone : ∀ vmP node, Keeps I (do
      let res ← Prog.attempt (Dbvm.syncOne E ctx node vmP ((rows.get? vmP).map fun r => r.toFsMeta))
      pure (vmP :: st.1, st.2.count vmP res)) := fun vmP node =>
    Keeps.bind (Keeps.attempt (h.syncOne ctx node (hN vmP) (fun kind => hM kind node) _)) fun _ =>
    Keeps.pure _
  rcases e with _ | ⟨loc, node⟩
  · exact Keeps.pure _
  · unfold Dbvm.syncEntry
    dsimp only
    split_ifs
    · exact Keeps.pure _
    · rcases node with _ | _ | t | _
      · exact hone _ _
      · exact hone _ _
      · rcases aliases.lookup (vmPathOf tree loc) with _ | row
        · exact hone _ _
        · exact Keeps.pure _
      · exact hone _ _

omit hM in
/-- One row that a sync deletes keeps what the writers of `WriterKept` keep. -/
theorem syncDelete (ctx : SyncCtx) (rep : SyncReport) (p : Str) :
    Keeps I (Dbvm.syncDelete (K := K) ctx rep p) :=
  Keeps.bind (h.syncCapture ctx (hN p)) fun _ => Keeps.bind (Keeps.reads _) fun _ =>
    Keeps.bind (h.delFs _) fun _ => Keeps.pure _

/-- The savepoint of a full sync keeps what the writers of `WriterKept` keep. -/
theorem syncBody (ctx : SyncCtx) (fs : Posix.Fs) (tree : Loc) :
    Keeps I (Dbvm.syncBody E ctx fs tree) := by
  refine Keeps.bind (Keeps.reads _) fun db => Keeps.bind (Keeps.foldlM
    (h.syncEntry hN hM ctx tree db.fs _) _ _) ?_
  rintro ⟨seen, rep⟩
  exact Keeps.foldlM (h.syncDelete hN ctx) _ _

/-- `sync_report_impl` keeps what the writers of `WriterKept` keep. -/
theorem syncReportImpl (ctx : SyncCtx) (fs : Posix.Fs) (tree : Loc) :
    Keeps I (Dbvm.syncReportImpl E ctx fs tree) :=
  Keeps.bind h.finalize fun _ => h.syncBody hN hM ctx fs tree

omit hM in
/-- `undo_capture_tree` keeps what the writers of `WriterKept` keep. -/
theorem undoCaptureTree (id : ℕ) (path : Str) : Keeps I (Dbvm.undoCaptureTree id path) :=
  Keeps.bind (Keeps.reads _) fun below => Keeps.forM (fun p => h.capture id p (hN p)) below

/-- One path of `vm_sync_paths` keeps what the writers of `WriterKept` keep. -/
theorem syncPath (ctx : SyncCtx) (fs : Posix.Fs) (tree : Loc) (aliases : List (Str × Str))
    (rep : SyncReport) (vmP : Str) : Keeps I (Dbvm.syncPath E ctx fs tree aliases rep vmP) := by
  have hone : ∀ node, Keeps I (do
      let prev ← Prog.reads fun db => (db.fs.get? vmP).map fun r => r.toFsMeta
      let res ← Prog.attempt (Dbvm.syncOne E ctx node vmP prev)
      pure (rep.count vmP res)) := fun node =>
    Keeps.bind (Keeps.reads _) fun prev => Keeps.bind
      (Keeps.attempt (h.syncOne ctx node (hN vmP) (fun kind => hM kind node) prev))
      fun _ => Keeps.pure _
  unfold Dbvm.syncPath
  split_ifs
  · exact Keeps.pure _
  -- What is not there any more is deleted; what is there goes by its kind.
  · rcases lstat fs tree (trimStartSlashes vmP) with e | ⟨loc, node⟩
    · by_cases he : e = .noent
      · subst he
        dsimp only
        rcases ctx.undo with _ | u
        · exact Keeps.bind (Keeps.reads _) fun _ => Keeps.bind (h.delFs _) fun _ => Keeps.pure _
        · exact Keeps.bind (h.undoCaptureTree hN u _) fun _ => Keeps.bind (Keeps.reads _) fun _ =>
            Keeps.bind (h.delFs _) fun _ => Keeps.pure _
      · rcases e with _ | _ | _ | _ | _ | _ | _ | _
        all_goals first | exact absurd rfl he | exact Keeps.pure _
    · rcases node with _ | _ | t | _
      · exact hone _
      · exact hone _
      · dsimp only
        rcases aliases.lookup vmP with _ | row
        · exact hone _
        · exact Keeps.pure _
      · exact hone _

/-- The part of `vm_sync_paths` after the hashes. -/
theorem syncPathsBody (ctx : SyncCtx) (fs : Posix.Fs) (tree : Loc) (paths : List Str) : Keeps I (do
    let aliases ← Prog.reads fun db => linkAliases db.links
    inSavepoint (paths.foldlM (Dbvm.syncPath E ctx fs tree aliases) {})) :=
  Keeps.bind (Keeps.reads _) fun aliases =>
  Keeps.saved (Keeps.foldlM (h.syncPath hN hM ctx fs tree aliases) paths _)

/-- `vm_sync_paths` keeps what the writers of `WriterKept` keep. -/
theorem vmSyncPaths (fs : Posix.Fs) (tree : Loc) (paths : List Str) (undo : Option ℕ) (now : ℤ) :
    Keeps I (Dbvm.vmSyncPaths E fs tree paths undo now) :=
  Keeps.bind h.finalize fun _ => h.syncPathsBody hN hM _ fs tree paths

end WriterKept

/-- Every such program has effects of statements only. -/
theorem writerKept_effects (E : Ext K) (T : SnapPart → Prop) (db₀ : Db K) :
    WriterKept E (fun _ => True) (fun _ _ => True) (Db.Effects T db₀) where
  parents := effects_ensureParentDirs
  putFile p mode mtime data _ := effects_fsPutFile E p mode mtime data
  putNode p kind mode mtime link _ _ _ := effects_fsPutNode p kind mode mtime link
  stream p mode mtime ns src _ := effects_fsPutFileStreamNs E p mode mtime ns src
  touch p f _ _ := effects_updateFs p f
  delFs := effects_deleteFs
  capture id p _ := effects_undoCapture id p
  finalize := effects_finalizeDirty E

/-- What an operation does to the snapshots. -/
def StoreOp.snapParts : StoreOp K → SnapPart → Prop
  | .snapshotCreate _, part => part = .take
  | .snapshotCreateNamed _ _, part => part = .take
  | .snapshotDelete _, part => part = .drop
  | .snapshotRetain _, part => part = .drop
  | _, _ => False

/-- Every operation of a database has effects of statements only. -/
theorem StoreOp.effects (E : Ext K) (op : StoreOp K) (hT : ∀ part, op.snapParts part → T part) :
    Keeps (Db.Effects T db₀) (op.run E) := by
  rcases op with _ | _ | _ | _ | _ | _ | _ | _ | _ | _ | _ | _ | _ | _ | _ | _ | _ | _ | _ | _ | _ |
    _ | _
  · exact (writerKept_effects E T db₀).vmAddBytes _ _ _ _ trivial
  · exact (writerKept_effects E T db₀).vmAddDir trivial trivial
  · exact (writerKept_effects E T db₀).vmAddSymlink trivial trivial
  · exact Keeps.ignoring (effects_fsPutFileStreamNs E _ _ _ _ _)
  · exact effects_writeRange E _ _ _ _
  · exact Keeps.withCache _ (effects_writeRangeDeferred E _ _ _ _)
  · exact effects_truncateRange E _ _ _
  · exact Keeps.withCache _ (effects_truncateRangeDeferred E _ _ _)
  · exact effects_deleteFs _
  · exact effects_fuseRename _ _
  · exact Keeps.ignoring (effects_snapshotCreate (hT _ rfl) E _)
  · exact Keeps.ignoring (effects_snapshotCreateNamed (hT _ rfl) E _ _)
  · exact effects_snapshotRestore _
  · exact effects_snapshotDelete (hT _ rfl) _
  · exact Keeps.ignoring (effects_snapshotRetain (hT _ rfl) _)
  · exact Keeps.ignoring effects_undoBegin
  · exact effects_undoCapture _ _
  · exact effects_undoCaptureTree _ _
  · exact effects_undoApply _
  · exact effects_deleteUndo _
  · exact Keeps.ignoring (effects_vmRechunk E)
  · exact effects_vmRecompress E
  · exact Keeps.ignoring (effects_inject E _ _)

/-- One file of a parallel pack is a run of effects of single statements. -/
theorem effects_packFile (E : Ext K) (now : ℤ) (entry : PackEntry) :
    Keeps (Db.Effects T db₀) (packFile E now entry) := by
  rcases entry with ⟨p, mode, mtime⟩ | ⟨p, target⟩ | ⟨p, data, mode, mtime, readable⟩
  · exact Keeps.pure _
  · exact Keeps.pure _
  · exact Keeps.bind (Keeps.query _) fun _ => Keeps.bind (effects_ensureParentDirs p now) fun _ =>
      Keeps.bind (effects_chunksReplace E p data) fun _ => effects_upsertFs p _ _

/-! ## The overlay -/

namespace Overlay

variable {b : Db K}

/-- The Delta after statements on another database, with the Base as it was. -/
abbrev MainEffects (T : SnapPart → Prop) (db₀ b : Db K) (o : Overlay K) : Prop :=
  Db.Effects T db₀ o.main ∧ o.base = b

/-- The copy of a file's row into Delta is a run of effects of single statements. -/
theorem effects_ensureDeltaFileRow (p : Str) (mode mtime : ℤ) (size : ℕ) :
    Keeps (Db.Effects T db₀) (ensureDeltaFileRow (K := K) p mode mtime size) := by
  unfold ensureDeltaFileRow
  refine Keeps.bind (Keeps.reads _) fun there => ?_
  split_ifs
  · exact effects_updateFs p _
  · exact effects_insertFs p _

/-- One chunk of a range write of the overlay is a run of effects of single statements. -/
theorem effects_rewriteChunk (E : Ext K) (p : Str) (size : ℕ) (layer : Schema)
    (f : ℕ → Bytes → Bytes) (idx : ℕ) :
    Keeps (MainEffects T db₀ b) (rewriteChunk E p size layer f idx) :=
  Keeps.bind (Keeps.query _) fun _ => Keeps.onMain (effects_swapChunk E .archive p idx _)

/-- The new size and hash of a Delta file is a run of effects of single statements. -/
theorem effects_refreshDeltaFile (E : Ext K) (p : Str) (size : ℕ) (mtime : ℤ) :
    Keeps (MainEffects T db₀ b) (refreshDeltaFile E p size mtime) :=
  Keeps.bind (Keeps.query _) fun _ => Keeps.onMain (effects_updateFs p _)

/-- `write_range` is a run of effects of single statements. -/
theorem effects_writeRange (E : Ext K) (vmPath : Str) (off : ℕ) (data : Bytes) (mtime : ℤ) :
    Keeps (MainEffects T db₀ b) (writeRange E vmPath off data mtime) := by
  unfold writeRange
  refine Keeps.bind (Keeps.query _) fun _ => ?_
  dsimp only
  split_ifs
  · exact Keeps.pure _
  · refine Keeps.bind (Keeps.query _) fun _ => Keeps.bind (Keeps.query _) fun _ =>
      Keeps.writeTx (Keeps.triple (Keeps.bind (keeps_clearWhiteoutsFor _) fun _ =>
        Keeps.bind (Keeps.reads _) ?_))
    rintro ⟨size, mode, layer⟩
    exact Keeps.bind (Keeps.onMain (effects_ensureDeltaFileRow _ mode mtime _)) fun _ =>
      Keeps.bind (Keeps.forM (effects_rewriteChunk E _ size _ _) _) fun _ =>
        effects_refreshDeltaFile E _ _ mtime

/-- `truncate_range` is a run of effects of single statements. -/
theorem effects_truncateRange (E : Ext K) (vmPath : Str) (newSize : ℕ) (mtime : ℤ) :
    Keeps (MainEffects T db₀ b) (truncateRange E vmPath newSize mtime) := by
  unfold truncateRange
  refine Keeps.bind (Keeps.query _) fun _ => Keeps.writeTx (Keeps.triple
    (Keeps.bind (keeps_clearWhiteoutsFor _) fun _ => Keeps.bind (Keeps.reads _) ?_))
  rintro ⟨size, mode, layer⟩
  dsimp only
  rcases layer with _ | s
  · exact Keeps.throw _
  · dsimp only
    split_ifs
    · exact Keeps.pure _
    · exact Keeps.bind (Keeps.onMain (effects_ensureDeltaFileRow _ mode mtime newSize)) fun _ =>
        Keeps.bind (Keeps.forM (effects_rewriteChunk E _ size s _) _) fun _ =>
          Keeps.bind (Keeps.onMain (effects_deleteChunks _)) fun _ =>
            effects_refreshDeltaFile E _ newSize mtime

/-- Every operation of the overlay has effects of statements on the Delta only. -/
theorem effects_op (E : Ext K) (op : OverlayOp) : Keeps (MainEffects T db₀ b) (op.run E) := by
  rcases op with ⟨p, data, mode, mtime, now⟩ | ⟨p, now⟩ | ⟨p, target, now⟩ | ⟨p, off, data, mtime⟩ |
    ⟨p, newSize, mtime⟩ | p
  · exact Keeps.bind (Keeps.query _) fun _ => Keeps.bind (Keeps.query _) fun _ =>
      Keeps.bind (Keeps.query _) fun _ => Keeps.writeTx (Keeps.triple (Keeps.bind
        (keeps_clearWhiteoutsFor _) fun _ =>
        Keeps.onMain ((writerKept_effects E T db₀).vmAddBytes _ data mtime now trivial)))
  · exact Keeps.bind (Keeps.query _) fun _ => Keeps.writeTx (Keeps.triple (Keeps.bind
      (keeps_clearWhiteoutsFor _) fun _ =>
      Keeps.onMain ((writerKept_effects E T db₀).vmAddDir trivial trivial)))
  · exact Keeps.bind (Keeps.query _) fun _ => Keeps.writeTx (Keeps.triple (Keeps.bind
      (keeps_clearWhiteoutsFor _) fun _ =>
      Keeps.onMain ((writerKept_effects E T db₀).vmAddSymlink trivial trivial)))
  · exact effects_writeRange E p off data mtime
  · exact effects_truncateRange E p newSize mtime
  · refine Keeps.bind (Keeps.query _) fun _ => Keeps.writeTx (Keeps.triple (Keeps.bind
      (Keeps.onMain (effects_deleteFs _)) fun _ => ?_))
    rintro o ⟨hI, hb⟩
    dsimp only [endState, modify_apply]
    split_ifs <;> exact ⟨hI, hb⟩

end Overlay

/-! ## Runs -/

/-- An operation that writes to a database, which is the Delta of an overlay if there is one. -/
inductive DbOp (K : Type) where
  /-- An operation of the store. -/
  | store (op : StoreOp K)
  /-- An operation of the overlay. -/
  | overlay (op : OverlayOp)
  /-- `vm_sync_report`, `vm_sync_full` and `vm_sync_tree`. -/
  | sync (ctx : SyncCtx) (fs : Posix.Fs) (tree : Loc)
  /-- `vm_sync_paths`. -/
  | syncPaths (fs : Posix.Fs) (tree : Loc) (paths : List Str) (undo : Option ℕ) (now : ℤ)
  /-- Members of an archive are imported. -/
  | importTar (opts : TarOptions) (entries : List (Except Err TarEntry)) (now : ℤ)
  /-- Entries of a host directory are packed. -/
  | pack (entries : List PackEntry) (now : ℤ)
  /-- Files of the parallel packer are written. -/
  | packFiles (entries : List PackEntry) (now : ℤ)
  /-- `finalize_dirty`, as `vm_open` calls it. -/
  | finalize
  /-- `setattr` of the mount: the mode. -/
  | setMode (p : Str) (mode : ℤ)
  /-- `setattr` of the mount: the time. -/
  | setMtime (p : Str) (mtime : ℤ)
  /-- `vm_set_dict`. -/
  | setDict (dict : Bytes)
  /-- `vm_checkpoint`. -/
  | checkpoint (name : Str)
  /-- The triggers are rebuilt from other rules. -/
  | setPolicies (rules : List Rule)

/-- `vm_checkpoint`: a row of `vm_snapshots` and nothing else. -/
def vmCheckpoint (name : Str) : Sql K Unit := ignoring (insertSnapshot name)

/-- An operation of the database alone. -/
def DbOp.onDb (E : Ext K) : DbOp K → Sql K Unit
  | .store op => op.run E
  | .overlay _ => pure ()
  | .sync ctx fs tree => ignoring (syncReportImpl E ctx fs tree)
  | .syncPaths fs tree paths undo now => ignoring (vmSyncPaths E fs tree paths undo now)
  | .importTar opts entries now => entries.forM (importEntry E opts now)
  | .pack entries now => entries.forM (packEntry E now)
  | .packFiles entries now => entries.forM (packFile E now)
  | .finalize => ignoring (finalizeDirty E)
  | .setMode p mode => updateFs p fun row => { row with mode := mode }
  | .setMtime p mtime => updateFs p fun row => { row with mtime := mtime }
  | .setDict dict => ignoring (vmSetDict dict)
  | .checkpoint name => vmCheckpoint name
  | .setPolicies rules => statement fun db => .ok { db with policies := rules }

/-- Run an operation. -/
def DbOp.run (E : Ext K) : DbOp K → Ov K Unit
  | .overlay op => op.run E
  | op => Overlay.onMain (op.onDb E)

/-- An operation that is not one of the overlay runs on its main database. -/
theorem DbOp.run_eq {E : Ext K} {op : DbOp K} (h : ∀ o, op ≠ .overlay o) :
    op.run E = Overlay.onMain (op.onDb E) := by
  cases op with
  | overlay o => exact absurd rfl (h o)
  | _ => rfl

/-- What an operation does to the snapshots. -/
def DbOp.snapParts : DbOp K → SnapPart → Prop
  | .store op, part => op.snapParts part
  | .checkpoint _, part => part = .take
  | _, _ => False

/-- Every operation on a database is a run of effects of single statements. -/
theorem DbOp.effects_onDb (E : Ext K) (op : DbOp K) (hT : ∀ part, op.snapParts part → T part) :
    Keeps (Db.Effects T db₀) (op.onDb E) := by
  -- One case for each operation, in the order of `DbOp`. Each is made of writers whose effects
  -- are known.
  rcases op with op | op | ⟨ctx, fs, tree⟩ | ⟨fs, tree, paths, undo, now⟩ | ⟨opts, entries, now⟩ |
    ⟨entries, now⟩ | ⟨entries, now⟩ | _ | ⟨p, mode⟩ | ⟨p, mtime⟩ | dict | name | rules
  · exact StoreOp.effects E op hT
  · exact Keeps.pure _
  · exact Keeps.ignoring ((writerKept_effects E T db₀).syncReportImpl (fun _ => trivial)
      (fun _ _ => trivial) ctx fs
      tree)
  · exact Keeps.ignoring ((writerKept_effects E T db₀).vmSyncPaths (fun _ => trivial)
      (fun _ _ => trivial) fs tree
      paths undo now)
  · exact Keeps.forM (fun _ => (writerKept_effects E T db₀).importEntry (fun _ _ => trivial)
      fun _ _ _ => trivial)
      entries
  · exact Keeps.forM (fun _ => (writerKept_effects E T db₀).packEntry (fun _ _ => trivial) trivial)
      entries
  · exact Keeps.forM (effects_packFile E now) entries
  · exact Keeps.ignoring (effects_finalizeDirty E)
  · exact effects_updateFs p _
  · exact effects_updateFs p _
  · exact Keeps.ignoring (effects_vmSetDict dict)
  · have hrow : Keeps (Db.Effects T db₀) (insertSnapshot (K := K) name) := by
      intro db h
      unfold endState
      rw [insertSnapshot_eq]
      split_ifs
      · exact h
      · exact h.tail ⟨.checkpoint name, .checkpoint name (hT _ rfl)⟩
    exact Keeps.ignoring hrow
  · refine Keeps.effect (f := fun db : Db K => .ok { db with policies := rules }) ?_
    rintro db db' ⟨⟩
    exact Or.inr ⟨.setPolicies rules, ⟨rfl, rfl, rfl⟩⟩

/-- Every operation has effects of statements only, and never writes to the Base. -/
theorem DbOp.effects (E : Ext K) (op : DbOp K) (hT : ∀ part, op.snapParts part → T part)
    {b : Db K} :
    Keeps (Overlay.MainEffects T db₀ b) (op.run E) := by
  by_cases hov : ∃ o, op = .overlay o
  · obtain ⟨o, rfl⟩ := hov
    exact Overlay.effects_op E o
  · rw [DbOp.run_eq fun o he => hov ⟨o, he⟩]
    exact Overlay.Keeps.onMain (DbOp.effects_onDb E op hT)

/-- The states of the runs from the databases `S` whose steps meet a condition, over a given Base. A
step that fails leaves the state it ends in; one that an outer transaction rolls back leaves the
state it began in. -/
inductive Runs (C : Overlay K → DbOp K → Prop) (E : Ext K) (base : Db K) (S : Db K → Prop) :
    Overlay K → Prop where
  /-- A database that is opened, with the whiteouts it has. -/
  | start {db : Db K} (h : S db) (whiteouts : List Str) : Runs C E base S ⟨base, db, whiteouts⟩
  /-- One more step. -/
  | step {o : Overlay K} (h : Runs C E base S o) (op : DbOp K) (hop : C o op) :
    Runs C E base S (endState (op.run E) o)

/-- What every effect keeps holds in every state of a run. -/
theorem Runs.keeps {C : Overlay K → DbOp K → Prop} {E : Ext K} {base : Db K} {S I : Db K → Prop}
    (hI : ∀ db db', Db.Effect db db' → I db → I db') (hS : ∀ db, S db → I db) {o : Overlay K}
    (h : Runs C E base S o) : I o.main := by
  induction h with
  | start hdb _ => exact hS _ hdb
  | @step o _ op _ ih =>
    have hop : Overlay.MainEffects (fun _ => True) o.main o.base (endState (op.run E) o) :=
      DbOp.effects E op (fun _ _ => trivial) o ⟨Relation.ReflTransGen.refl, rfl⟩
    exact hop.1.keeps (fun db db' hstep _ => hI db db' hstep) ih

end Dbvm
