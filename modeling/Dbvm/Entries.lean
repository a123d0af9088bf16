import Dbvm.Effects
import Dbvm.Host.Entry
import Dbvm.RangeWrite
import Dbvm.Undo.Sync

/-!
# Writes to one entry

The writers of the store work on the row and the chunk rows of one path. What is kept by every
statement on one path (`ChunkKept`, `RowKept`) is kept by all of them; in particular the entries of
the other paths, the snapshots and the undo records (`OnlyAt`). The rows that the writers leave are
given column by column.
-/

namespace Dbvm

open Lib Lib.Chunks Lib.Prog

variable {K : Type} [DecidableEq K] {E : Ext K} {p : Str} {I : Db K → Prop} {db db' db₀ : Db K}

/-! ## What every statement on one path keeps -/

/-- Kept by the statements on the chunks of `p`. -/
structure ChunkKept (p : Str) (I : Db K → Prop) : Prop where
  /-- Chunk rows are deleted. -/
  out : ∀ sel : Str → ℕ → Bool, (∀ q i, sel q i = true → q = p) → Keeps I (deleteChunks sel)
  /-- A chunk row is inserted. -/
  row : ∀ idx k, Keeps I (insertChunk p idx k)
  /-- A blob is inserted. -/
  blob : ∀ k b, Keeps I (insertBlob k b)

/-- Kept by the statements on the row of `p`. -/
structure RowKept (p : Str) (I : Db K → Prop) : Prop extends ChunkKept p I where
  /-- A row is written. -/
  upsert : ∀ row upd, Keeps I (upsertFs p row upd)
  /-- A row is changed. -/
  update : ∀ f, Keeps I (updateFs p f)
  /-- A mark is set. -/
  mark : Keeps I (insertDirty p)
  /-- A mark is taken away. -/
  unmark : Keeps I (deleteDirty p)

section Writers

/-- Storing a blob keeps what the statements on a file's chunks keep. -/
theorem ChunkKept.blobEnsureWith (h : ChunkKept p I) (key : K) (data : Bytes) (effort : Effort) :
    Keeps I (Dbvm.blobEnsureWith E key data effort) := by
  refine Keeps.bind (Keeps.reads _) fun found => ?_
  rcases found with _ | c
  · exact Keeps.bind (Keeps.reads _) fun enc => Keeps.bind (h.blob key _) fun _ => Keeps.pure _
  · exact Keeps.pure _

/-- A chunk that is stored and listed keeps what the statements on a file's chunks keep. -/
theorem ChunkKept.appendChunk (h : ChunkKept p I) (idx : ℕ) (piece : Bytes) :
    Keeps I (Dbvm.appendChunk E p idx piece) :=
  Keeps.bind (h.blobEnsureWith _ piece _) fun _ => h.row idx _

/-- `chunks_replace` keeps what the statements on a file's chunks keep. -/
theorem ChunkKept.chunksReplace (h : ChunkKept p I) (data : Bytes) :
    Keeps I (Dbvm.chunksReplace E p data) :=
  Keeps.bind (h.out _ fun _ _ hq => of_decide_eq_true hq) fun _ =>
    Keeps.forM (fun piece : Bytes × ℕ => h.appendChunk piece.2 piece.1) _

/-- So does the loop over the chunks of a stream. -/
theorem ChunkKept.putStreamChunks (h : ChunkKept p I) : ∀ (fuel idx : ℕ) (src : Reader),
    Keeps I (Dbvm.putStreamChunks E p fuel idx src)
  | 0, _, _ => Keeps.pure _
  | fuel + 1, idx, src => by
    rw [Dbvm.putStreamChunks]
    refine Keeps.bind (Keeps.query _) ?_
    rintro ⟨piece, rest⟩
    dsimp only
    split_ifs
    · exact Keeps.pure _
    · exact Keeps.bind (h.appendChunk idx piece) fun _ => Keeps.pure _
    · exact Keeps.bind (h.appendChunk idx piece) fun _ =>
        Keeps.bind (h.putStreamChunks fuel (idx + 1) rest) fun _ => Keeps.pure _

/-- So does a chunk row that is replaced by one of another blob. -/
theorem ChunkKept.swapChunk (h : ChunkKept p I) (effort : Effort) (idx : ℕ) (piece : Bytes) :
    Keeps I (Dbvm.swapChunk E effort p idx piece) :=
  Keeps.bind (h.blobEnsureWith _ piece effort) fun _ =>
    Keeps.bind (h.out _ fun q i hq => by simp at hq; exact hq.1) fun _ => h.row idx _

/-- So does `put_chunk`, on the connection's database. -/
theorem ChunkKept.putChunk (h : ChunkKept p I) (idx : ℕ) (piece : Bytes) :
    Keeps (fun c : Conn K => I c.db) (Dbvm.putChunk E p idx piece) := by
  unfold Dbvm.putChunk
  refine Keeps.bind (ReadOnly.reads _).keeps fun old => ?_
  split_ifs
  · exact Keeps.pure _
  · exact Keeps.bind (Keeps.onDb (h.swapChunk .interactive idx piece)) fun _ =>
      keeps_cachePut _ piece

/-- So does one chunk of a range write. -/
theorem ChunkKept.writeChunk (h : ChunkKept p I) (oldSize newSize off : ℕ) (data : Bytes)
    (idx : ℕ) :
    Keeps (fun c : Conn K => I c.db) (Dbvm.writeChunk E p oldSize newSize off data idx) := by
  unfold Dbvm.writeChunk
  dsimp only
  split_ifs
  · exact Keeps.bind (readOnly_readRangeCached E p _ _).keeps fun _ => h.putChunk idx _
  · exact h.putChunk idx _

/-- So does the cut of the last chunk in a truncation. -/
theorem ChunkKept.cutTail (h : ChunkKept p I) (newSize : ℕ) :
    Keeps (fun c : Conn K => I c.db) (Dbvm.cutTail E p newSize) := by
  unfold Dbvm.cutTail
  split_ifs
  · exact Keeps.bind (readOnly_chunkBytes E p _).keeps fun _ => h.putChunk _ _
  · exact Keeps.pure _

/-- `fs_put_file` keeps what the statements on a file's row and chunks keep. -/
theorem RowKept.fsPutFile (h : RowKept p I) (mode mtime : ℤ) (data : Bytes) :
    Keeps I (Dbvm.fsPutFile E p mode mtime data) :=
  Keeps.saved (Keeps.bind (h.chunksReplace data) fun _ => h.upsert _ _)

/-- So does `fs_put_node`. -/
theorem RowKept.fsPutNode (h : RowKept p I) (kind : Kind) (mode mtime : ℤ) (link : Option Str) :
    Keeps I (Dbvm.fsPutNode p kind mode mtime link) :=
  Keeps.saved (Keeps.bind (h.out _ fun _ _ hq => of_decide_eq_true hq) fun _ => h.upsert _ _)

/-- So does `fs_put_file_stream_ns`. -/
theorem RowKept.fsPutFileStreamNs (h : RowKept p I) (mode mtime ns : ℤ) (src : Reader) :
    Keeps I (Dbvm.fsPutFileStreamNs E p mode mtime ns src) :=
  Keeps.saved (Keeps.bind (h.out _ fun _ _ hq => of_decide_eq_true hq) fun _ =>
    Keeps.bind (h.putStreamChunks _ _ _) fun _ => Keeps.bind (h.upsert _ _) fun _ => Keeps.pure _)

/-- So does `mark_dirty`. -/
theorem RowKept.markDirty (h : RowKept p I) (size : ℕ) (mtime : ℤ) :
    Keeps I (Dbvm.markDirty p size mtime) :=
  Keeps.bind (h.update _) fun _ => h.mark

end Writers

/-! ## Frames -/

/-- Compared with `db₀`, only the entry of `p` has changed. -/
structure OnlyAt (p : Str) (db₀ db : Db K) : Prop where
  /-- The rows of other paths. -/
  fs : ∀ q, q ≠ p → db.fs.get? q = db₀.fs.get? q
  /-- Their chunks. -/
  chunks : ∀ q i, q ≠ p → db.chunks.get? (q, i) = db₀.chunks.get? (q, i)
  /-- Their dirty marks. -/
  dirty : ∀ q, q ≠ p → (q ∈ db.dirty ↔ q ∈ db₀.dirty)
  /-- The snapshots. -/
  snaps : SameSnaps db₀ db
  /-- The undo records. -/
  undo : db.undo = db₀.undo
  /-- Their entries. -/
  undoFs : db.undoFs = db₀.undoFs
  /-- Their chunks. -/
  undoChunks : db.undoChunks = db₀.undoChunks

omit [DecidableEq K] in
/-- Nothing has changed. -/
theorem OnlyAt.refl (p : Str) (db : Db K) : OnlyAt p db db :=
  ⟨fun _ _ => rfl, fun _ _ _ => rfl, fun _ _ => Iff.rfl, ⟨rfl, rfl, rfl⟩, rfl, rfl, rfl⟩

omit [DecidableEq K] in
/-- Two changes of one entry are a change of that entry. -/
theorem OnlyAt.trans {db'' : Db K} (h : OnlyAt p db db') (h' : OnlyAt p db' db'') :
    OnlyAt p db db'' where
  fs q hq := (h'.fs q hq).trans (h.fs q hq)
  chunks q i hq := (h'.chunks q i hq).trans (h.chunks q i hq)
  dirty q hq := (h'.dirty q hq).trans (h.dirty q hq)
  snaps := h.snaps.trans h'.snaps
  undo := h'.undo.trans h.undo
  undoFs := h'.undoFs.trans h.undoFs
  undoChunks := h'.undoChunks.trans h.undoChunks

omit [DecidableEq K] in
/-- A statement that changes only `p` keeps the frame of `p`. -/
theorem keeps_onlyAt_of {f : Db K → Except Err (Db K)}
    (h : ∀ db db', f db = .ok db' → OnlyAt p db db') :
    Keeps (OnlyAt p db₀) (statement f) :=
  Keeps.statement fun db db' hI hf => hI.trans (h db db' hf)

/-- The statements on one path change its entry only. -/
theorem rowKept_onlyAt (p : Str) (db₀ : Db K) : RowKept p (OnlyAt p db₀) where
  -- Each statement names its path, so no other row, chunk row or mark changes.
  out sel hsel := by
    refine keeps_onlyAt_of fun db db' hf => ?_
    rw [deleteChunks_ok (u := ()) (statement_of_ok hf)]
    refine ⟨fun _ _ => rfl, fun q i hq => ?_, fun _ _ => Iff.rfl, ⟨rfl, rfl, rfl⟩, rfl, rfl, rfl⟩
    rw [Db.get?_delChunks, if_neg fun h => hq (hsel q i h)]
  row idx k := by
    refine keeps_onlyAt_of fun db db' hf => ?_
    obtain ⟨hfree, rfl⟩ := insertChunk?_ok hf
    refine ⟨fun _ _ => rfl, fun q i hq => ?_, fun _ _ => Iff.rfl, ⟨rfl, rfl, rfl⟩, rfl, rfl, rfl⟩
    rw [Db.addChunk, Table.get?_insertIgnore, if_neg fun h => hq (congrArg Prod.fst h)]
  blob k b := by
    refine keeps_onlyAt_of fun db db' hf => ?_
    split_ifs at hf
    cases hf
    exact ⟨fun _ _ => rfl, fun _ _ _ => rfl, fun _ _ => Iff.rfl, ⟨rfl, rfl, rfl⟩, rfl, rfl, rfl⟩
  upsert row upd := by
    refine keeps_onlyAt_of fun db db' hf => ?_
    rcases upsertFs_ok (u := ()) (statement_of_ok hf) with ⟨old, -, rfl⟩ | ⟨hfree, rfl⟩
    · refine ⟨fun q hq => ?_, fun _ _ _ => rfl, fun _ _ => Iff.rfl, ⟨rfl, rfl, rfl⟩, rfl, rfl, rfl⟩
      rw [Db.get?_setFs, if_neg hq]
    · refine ⟨fun q hq => ?_, fun _ _ _ => rfl, fun _ _ => Iff.rfl, ⟨rfl, rfl, rfl⟩, rfl, rfl, rfl⟩
      rw [Db.get?_addFs _ hfree, if_neg hq]
  update f := by
    refine keeps_onlyAt_of fun db db' hf => ?_
    rcases updateFs_ok (u := ()) (statement_of_ok hf) with ⟨-, rfl⟩ | ⟨_, -, rfl⟩
    · exact OnlyAt.refl p db'
    · refine ⟨fun q hq => ?_, fun _ _ _ => rfl, fun _ _ => Iff.rfl, ⟨rfl, rfl, rfl⟩, rfl, rfl, rfl⟩
      rw [Db.get?_setFs, if_neg hq]
  mark := by
    refine keeps_onlyAt_of fun db db' hf => ?_
    rw [insertDirty_ok (u := ()) (statement_of_ok hf)]
    refine ⟨fun _ _ => rfl, fun _ _ _ => rfl, fun q hq => ?_, ⟨rfl, rfl, rfl⟩, rfl, rfl, rfl⟩
    dsimp only
    split_ifs
    · exact Iff.rfl
    · simp [hq]
  unmark := by
    refine keeps_onlyAt_of fun db db' hf => ?_
    cases hf
    refine ⟨fun _ _ => rfl, fun _ _ _ => rfl, fun q hq => ?_, ⟨rfl, rfl, rfl⟩, rfl, rfl, rfl⟩
    simp [hq]

/-- Statements on chunks leave the rows and the marks. -/
theorem chunkKept_fs (p : Str) (fs : Table Str (FsRow K)) (dirty : List Str) :
    ChunkKept p fun d : Db K => d.fs = fs ∧ d.dirty = dirty where
  out sel _ := Keeps.statement fun d d' hd hf => by
    rw [deleteChunks_ok (u := ()) (statement_of_ok hf)]
    exact hd
  row idx k := Keeps.statement fun d d' hd hf => by
    obtain ⟨-, rfl⟩ := insertChunk?_ok hf
    exact hd
  blob k b := Keeps.statement fun d d' hd hf => by
    split_ifs at hf
    cases hf
    exact hd

/-! ## The rows that the writers leave -/

section Rows

variable {u : Unit}

omit [DecidableEq K] in
/-- An upsert leaves the updated row, or the new one where there was none. -/
theorem upsertFs_row {row : FsRow K} {upd : FsRow K → FsRow K}
    (h : upsertFs p row upd db = .ok u db') :
    db'.fs.get? p = some (((db.fs.get? p).map upd).getD row) ∧ db'.dirty = db.dirty := by
  rcases upsertFs_ok h with ⟨old, hold, rfl⟩ | ⟨hfree, rfl⟩
  · refine ⟨?_, rfl⟩
    rw [Db.get?_setFs, if_pos rfl, hold]
    rfl
  · refine ⟨?_, rfl⟩
    rw [Db.get?_addFs _ hfree, if_pos rfl, hfree]
    rfl

/-- The nanoseconds of the row of a path, 0 if there is none. -/
def Db.stampAt (db : Db K) (p : Str) : ℤ := (db.fs.get? p).elim 0 fun row => row.mtimeNs

/-- The row of a directory or a link. -/
def nodeRow (kind : Kind) (mode mtime ns : ℤ) (link : Option Str) : FsRow K :=
  { kind := kind, mode := mode, mtime := mtime, mtimeNs := ns, size := 0, linkTarget := link
    hash := .null, content := none, compressed := 0 }

/-- A row that `fs_put_file` writes has the nanoseconds of the row that was there. -/
theorem fsPutFile_entry {mode mtime : ℤ} {data : Bytes}
    (h : fsPutFile E p mode mtime data db = .ok u db') :
    OnlyAt p db db' ∧ db'.dirty = db.dirty ∧
      db'.fs.get? p = some (fileRow E mode mtime (db.stampAt p) data) ∧
      ∀ i, db'.chunks.get? (p, i) = chunkRow E data i := by
  have honly :=
    ((rowKept_onlyAt p db).fsPutFile mode mtime data).triple db u db' (OnlyAt.refl p db) h
  have hchunks := (fsPutFile_ok h).2
  unfold fsPutFile inSavepoint at h
  obtain ⟨_, d, hrep, hput⟩ := bind_eq_ok.1 (savepoint_eq_ok.1 h)
  obtain ⟨hfs, hdirty⟩ :=
    ((chunkKept_fs p db.fs db.dirty).chunksReplace data).triple db _ d ⟨rfl, rfl⟩ hrep
  obtain ⟨hrow, hmarks⟩ := upsertFs_row hput
  refine ⟨honly, by rw [hmarks, hdirty], ?_, hchunks⟩
  rw [hrow, hfs, Db.stampAt]
  rcases db.fs.get? p with _ | old
  · rfl
  · rfl

/-- `fs_put_node` leaves the node's row and no chunk. -/
theorem fsPutNode_entry {kind : Kind} {mode mtime : ℤ} {link : Option Str}
    (h : fsPutNode p kind mode mtime link db = .ok u db') :
    OnlyAt p db db' ∧ db'.dirty = db.dirty ∧
      db'.fs.get? p = some (nodeRow kind mode mtime (db.stampAt p) link) ∧
      ∀ i, db'.chunks.get? (p, i) = none := by
  have honly :=
    ((rowKept_onlyAt p db).fsPutNode kind mode mtime link).triple db u db' (OnlyAt.refl p db) h
  have hchunks := (fsPutNode_ok h).2
  unfold fsPutNode inSavepoint at h
  obtain ⟨_, d, hdel, hput⟩ := bind_eq_ok.1 (savepoint_eq_ok.1 h)
  rw [deleteChunks_ok hdel] at hput
  obtain ⟨hrow, hmarks⟩ := upsertFs_row hput
  refine ⟨honly, hmarks, ?_, hchunks⟩
  rw [hrow, Db.stampAt]
  show some (((db.fs.get? p).map _).getD _) = _
  rcases db.fs.get? p with _ | old
  · rfl
  · rfl

/-- A piece is not longer than the room for it. -/
theorem fillChunk_length : ∀ {room : ℕ} {src rest : Reader} {b : Bytes},
    fillChunk room src = .ok (b, rest) → b.length ≤ room
  | 0, [], rest, b, h => by
    cases h
    exact le_refl 0
  | _ + 1, [], rest, b, h => by
    cases h
    exact Nat.zero_le _
  | 0, _ :: _, rest, b, h => by
    cases h
    exact le_refl 0
  | _ + 1, .fail :: _, rest, b, h => by cases h
  | room + 1, .got c :: src, rest, b, h => by
    unfold fillChunk at h
    split_ifs at h with hc hle
    · cases h
      exact Nat.zero_le _
    · rcases hm : fillChunk (room + 1 - c.length) src with e | ⟨more, rest'⟩
      · rw [hm] at h
        cases h
      · rw [hm] at h
        cases h
        have hlen := fillChunk_length hm
        rw [List.length_append]
        omega
    · cases h
      rw [List.length_take]
      exact Nat.min_le_left _ _

/-- The chunks of a stream are those of the bytes that were read. -/
theorem putStreamChunks_rows : ∀ (fuel idx : ℕ) {src : Reader} {whole : Bytes} {d d' : Db K},
    (∀ j, d.chunks.get? (p, idx + j) = none) → putStreamChunks E p fuel idx src d = .ok whole d' →
      (∀ j, d'.chunks.get? (p, idx + j) = chunkRow E whole j) ∧
        ∀ i, i < idx → d'.chunks.get? (p, i) = d.chunks.get? (p, i)
  | 0, idx, src, whole, d, d', hfree, h => by
    cases h
    exact ⟨fun j => by rw [chunkRow_nil, hfree], fun _ _ => rfl⟩
  | fuel + 1, idx, src, whole, d, d', hfree, h => by
    rw [putStreamChunks] at h
    obtain ⟨⟨piece, rest⟩, d₀, hq, hbody⟩ := bind_eq_ok.1 h
    obtain ⟨hfill, rfl⟩ := query_eq_ok.1 hq
    have hlen := fillChunk_length hfill
    have hlater : ∀ i, i ≠ idx → ((p, i) : Str × ℕ) ≠ (p, idx) :=
      fun i hi he => hi (congrArg Prod.snd he)
    dsimp only at hbody
    -- By induction on the fuel: a piece is stored at `idx`, the later ones behind it.
    by_cases hnil : piece = []
    · rw [if_pos hnil] at hbody
      cases hbody
      exact ⟨fun j => by rw [chunkRow_nil, hfree], fun _ _ => rfl⟩
    rw [if_neg hnil] at hbody
    obtain ⟨_, d₁, happ, hbody⟩ := bind_eq_ok.1 hbody
    obtain ⟨-, hch⟩ := appendChunk_ok happ
    split_ifs at hbody with hlt
    · -- The last piece.
      cases hbody
      refine ⟨fun j => ?_, fun i hi => ?_⟩
      · rw [hch]
        rcases j with _ | j
        · rw [Nat.add_zero, if_pos rfl, chunkRow_zero hnil, List.take_of_length_le hlen]
        · rw [if_neg (hlater _ (by omega)), hfree, ← chunkRow_drop, List.drop_eq_nil_of_le hlen,
            chunkRow_nil]
      · rw [hch, if_neg (hlater i (by omega))]
    · -- A full piece, and what comes after it.
      obtain ⟨tail, d₂, htail, hret⟩ := bind_eq_ok.1 hbody
      cases hret
      have hfull : piece.length = chunkSize := by omega
      obtain ⟨hrows, hbelow⟩ := putStreamChunks_rows fuel (idx + 1) (fun j => by
        rw [hch, if_neg (hlater _ (by omega)), Nat.add_assoc, hfree]) htail
      refine ⟨fun j => ?_, fun i hi => ?_⟩
      · rcases j with _ | j
        · rw [Nat.add_zero, hbelow _ (by omega), hch, if_pos rfl, chunkRow_zero (by simp [hnil]),
            List.take_left' hfull]
        · rw [← chunkRow_drop, List.drop_left' hfull, ← hrows j]
          congr 2
          omega
      · rw [hbelow i (by omega), hch, if_neg (hlater i (by omega))]

/-- A file written from a stream, with the nanoseconds it is given. -/
theorem fsPutFileStreamNs_entry {mode mtime ns : ℤ} {src : Reader} {n : ℕ}
    (h : fsPutFileStreamNs E p mode mtime ns src db = .ok n db') :
    OnlyAt p db db' ∧ db'.dirty = db.dirty ∧ ∃ whole,
      db'.fs.get? p = some (fileRow E mode mtime ns whole) ∧
      ∀ i, db'.chunks.get? (p, i) = chunkRow E whole i := by
  have honly :=
    ((rowKept_onlyAt p db).fsPutFileStreamNs mode mtime ns src).triple db n db' (OnlyAt.refl p db) h
  unfold fsPutFileStreamNs inSavepoint at h
  -- The chunks of the path go, those of the stream come, and the row is put with the hash of the
  -- whole.
  obtain ⟨_, d₁, hdel, h⟩ := bind_eq_ok.1 (savepoint_eq_ok.1 h)
  obtain ⟨whole, d₂, hput, h⟩ := bind_eq_ok.1 h
  obtain ⟨_, d₃, hups, hret⟩ := bind_eq_ok.1 h
  cases hret
  rw [deleteChunks_ok hdel] at hput
  obtain ⟨hfs, hdirty⟩ := ((chunkKept_fs p db.fs db.dirty).putStreamChunks _ _ src).triple
    (db.delChunks fun q _ => q = p) _ d₂ ⟨rfl, rfl⟩ hput
  obtain ⟨hrows, -⟩ := putStreamChunks_rows _ 0 (fun j => by
    rw [Db.get?_delChunks, if_pos (decide_eq_true rfl)]) hput
  obtain ⟨hrow, hmarks⟩ := upsertFs_row hups
  refine ⟨honly, by rw [hmarks, hdirty], whole, ?_, fun i => ?_⟩
  · rw [hrow]
    rcases d₂.fs.get? p with _ | old
    · rfl
    · rfl
  · have hch : db'.chunks = d₂.chunks := by
      rcases upsertFs_ok hups with ⟨old, -, rfl⟩ | ⟨-, rfl⟩
      · rfl
      · rfl
    rw [hch, ← hrows i, Nat.zero_add]

/-- `mark_dirty` sets size and time of the row and puts the mark. -/
theorem markDirty_entry {row : FsRow K} {size : ℕ} {mtime : ℤ} (hp : db.fs.get? p = some row)
    (h : markDirty p size mtime db = .ok u db') :
    OnlyAt p db db' ∧ db'.fs.get? p = some { row with size := size, mtime := mtime } ∧
      db'.chunks = db.chunks ∧ p ∈ db'.dirty := by
  refine ⟨((rowKept_onlyAt p db).markDirty size mtime).triple db u db' (OnlyAt.refl p db) h, ?_⟩
  obtain ⟨_, d, hupd, hmark⟩ := bind_eq_ok.1 h
  rw [insertDirty_ok hmark]
  rcases updateFs_ok hupd with ⟨hnone, -⟩ | ⟨row', hrow', rfl⟩
  · rw [hp] at hnone
    cases hnone
  · refine ⟨?_, rfl, ?_⟩
    · show (db.setFs p _).fs.get? p = _
      rw [Db.get?_setFs, if_pos rfl, hp]
      rfl
    · dsimp only
      split_ifs with hin
      · exact hin
      · simp

end Rows

/-! ## Ranged writes -/

section Ranges

/-- The regular file a path leads to, with its size, if it leads to one. -/
def Db.fileOf (db : Db K) (vmPath : Str) : Option (Str × ℕ) :=
  match regularFile vmPath db with
  | .ok found _ => some found
  | .error _ _ => none

/-- The file that `write_range_deferred` writes, and its new size. -/
def Db.writeTarget (db : Db K) (vmPath : Str) (off : ℕ) (data : Bytes) : Option (Str × ℕ) :=
  if data = [] then none else (db.fileOf vmPath).map fun f => (f.1, max f.2 (off + data.length))

/-- The file that `truncate_range_deferred` writes, and its new size. A file that grows is looked up
again. -/
def Db.truncateTarget (db : Db K) (vmPath : Str) (newSize : ℕ) : Option (Str × ℕ) :=
  (db.fileOf vmPath).bind fun f =>
    if newSize = f.2 then none
    else if newSize > f.2 then db.writeTarget f.1 f.2 (List.replicate (newSize - f.2) 0)
    else some (f.1, newSize)

namespace RangeOp

/-- The file that an operation writes, and its new size. -/
def writes (db : Db K) : RangeOp K → Option (Str × ℕ)
  | .write vmPath off data _ => db.writeTarget vmPath off data
  | .writeDeferred vmPath off data _ _ => db.writeTarget vmPath off data
  | .truncate vmPath newSize _ => db.truncateTarget vmPath newSize
  | .truncateDeferred vmPath newSize _ _ => db.truncateTarget vmPath newSize

/-- The time it gives the file. -/
def time : RangeOp K → ℤ
  | .write _ _ _ mtime => mtime
  | .writeDeferred _ _ _ mtime _ => mtime
  | .truncate _ _ mtime => mtime
  | .truncateDeferred _ _ mtime _ => mtime

end RangeOp

/-- A file has a new size and time, and is marked. -/
structure Resized (p : Str) (size : ℕ) (mtime : ℤ) (db db' : Db K) : Prop where
  /-- Only its entry has changed. -/
  only : OnlyAt p db db'
  /-- The row. -/
  row : ∃ row, db.fs.get? p = some row ∧ row.kind = .file ∧
    db'.fs.get? p = some { row with size := size, mtime := mtime }
  /-- The mark. -/
  mark : p ∈ db'.dirty

/-- What a deferred operation has done. -/
def Ranged (target : Option (Str × ℕ)) (mtime : ℤ) (db db' : Db K) : Prop :=
  match target with
  | none => db' = db
  | some t => Resized t.1 t.2 mtime db db'

omit [DecidableEq K] in
/-- `regular_file` writes nothing and answers with a file and the size of its row. -/
theorem regularFile_ok {vmPath : Str} {found : Str × ℕ}
    (h : regularFile vmPath db = .ok found db') :
    db' = db ∧ db.fileOf vmPath = some found ∧
      ∃ row, db.fs.get? found.1 = some row ∧ row.kind = .file ∧ found.2 = row.size := by
  have hdb : db' = db := (query_eq_ok.1 h).2
  subst hdb
  refine ⟨rfl, by rw [Db.fileOf, h], ?_⟩
  have hf := (query_eq_ok.1 h).1
  rcases hres : resolvePath db' vmPath with e | real
  · rw [hres] at hf
    cases hf
  · rw [hres] at hf
    dsimp only [bind, Except.bind] at hf
    rcases hrow : db'.fs.get? real with _ | row
    · rw [hrow] at hf
      cases hf
    · rw [hrow] at hf
      dsimp only at hf
      split_ifs at hf with hkind
      cases hf
      exact ⟨row, hrow, not_not.1 hkind, rfl⟩

/-- Chunks of a file are written, then its size and time. -/
theorem resized_of_body {x : Prg K Unit} {c c' : Conn K} {size : ℕ} {mtime : ℤ} {row : FsRow K}
    (hx : ∀ I : Db K → Prop, ChunkKept p I → Keeps (fun c : Conn K => I c.db) x)
    (hrow : c.db.fs.get? p = some row) (hkind : row.kind = .file)
    (h : connSavepoint (x >>= fun _ => onDb (markDirty p size mtime)) c = .ok () c') :
    Resized p size mtime c.db c'.db := by
  obtain ⟨_, c₁, hrun, hmark⟩ := bind_eq_ok.1 (savepoint_eq_ok.1 h)
  have hchunks := (hx _ (rowKept_onlyAt p c.db).toChunkKept).triple c _ c₁ (OnlyAt.refl p c.db) hrun
  obtain ⟨hfs, -⟩ := (hx _ (chunkKept_fs p c.db.fs c.db.dirty)).triple c _ c₁ ⟨rfl, rfl⟩ hrun
  unfold onDb at hmark
  rcases hm : markDirty p size mtime c₁.db with ⟨v, d⟩ | ⟨e, d⟩
  · rw [hm] at hmark
    cases hmark
    have hp : c₁.db.fs.get? p = some row := by
      rw [hfs]
      exact hrow
    obtain ⟨honly, hrow', -, hin⟩ := markDirty_entry hp hm
    exact ⟨hchunks.trans honly, ⟨row, hrow, hkind, hrow'⟩, hin⟩
  · rw [hm] at hmark
    cases hmark

omit [DecidableEq K] in
/-- A statement on the database at the start of a program on a connection. -/
theorem onDb_regularFile_ok {vmPath : Str} {c c' : Conn K} {found : Str × ℕ}
    (h : onDb (regularFile vmPath) c = .ok found c') : c' = c ∧ c.db.fileOf vmPath = some found ∧
      ∃ row, c.db.fs.get? found.1 = some row ∧ row.kind = .file ∧ found.2 = row.size := by
  unfold onDb at h
  rcases hr : regularFile vmPath c.db with ⟨f, d⟩ | ⟨e, d⟩
  · rw [hr] at h
    cases h
    obtain ⟨rfl, hfile, hrow⟩ := regularFile_ok hr
    exact ⟨rfl, hfile, hrow⟩
  · rw [hr] at h
    cases h

/-- A range write that returns has changed the file it resolves to, its size and its mark. -/
theorem writeRangeDeferred_ranged {vmPath : Str} {off : ℕ} {data : Bytes} {mtime : ℤ}
    {c c' : Conn K} (h : writeRangeDeferred E vmPath off data mtime c = .ok () c') :
    Ranged (c.db.writeTarget vmPath off data) mtime c.db c'.db := by
  obtain ⟨⟨real, size⟩, c₁, hreg, hbody⟩ := bind_eq_ok.1 h
  obtain ⟨rfl, hfile, row, hrow, hkind, -⟩ := onDb_regularFile_ok hreg
  dsimp only at hbody hrow
  unfold Db.writeTarget
  split_ifs at hbody with hdata
  · cases hbody
    rw [if_pos hdata]
    rfl
  · rw [if_neg hdata, hfile]
    exact resized_of_body (fun I hI => Keeps.forM (fun idx => hI.writeChunk _ _ _ _ idx) _) hrow
      hkind hbody

/-- A truncation that returns has changed the file it resolves to, its size and its mark. -/
theorem truncateRangeDeferred_ranged {vmPath : Str} {newSize : ℕ} {mtime : ℤ} {c c' : Conn K}
    (h : truncateRangeDeferred E vmPath newSize mtime c = .ok () c') :
    Ranged (c.db.truncateTarget vmPath newSize) mtime c.db c'.db := by
  obtain ⟨⟨real, size⟩, c₁, hreg, hbody⟩ := bind_eq_ok.1 h
  obtain ⟨rfl, hfile, row, hrow, hkind, -⟩ := onDb_regularFile_ok hreg
  dsimp only at hbody hrow
  unfold Db.truncateTarget
  rw [hfile]
  dsimp only [Option.bind_some]
  split_ifs at hbody with heq hgt
  · cases hbody
    rw [if_pos heq]
    rfl
  · rw [if_neg heq, if_pos hgt]
    exact writeRangeDeferred_ranged hbody
  · rw [if_neg heq, if_neg hgt]
    refine resized_of_body (x := do
      onDb (deleteChunks fun q i => q = real && numChunks chunkSize newSize ≤ i)
      cutTail E real newSize) (fun I hI => ?_) hrow hkind (by rw [bind_assoc]; exact hbody)
    exact Keeps.bind (Keeps.onDb (hI.out _ fun q i hq => by simp at hq; exact hq.1)) fun _ =>
      hI.cutTail _

omit [DecidableEq K] in
/-- A program that returns under a cache returns on the connection with that cache. -/
theorem withCache_ok {α : Type} {cache : Option (ChunkCache K)} {x : Prg K α} {a : α}
    (h : withCache cache x db = .ok a db') : ∃ c', x ⟨db, cache⟩ = .ok a c' ∧ c'.db = db' := by
  unfold withCache at h
  rcases hx : x ⟨db, cache⟩ with ⟨b, c⟩ | ⟨e, c⟩
  · rw [hx] at h
    cases h
    exact ⟨c, rfl, rfl⟩
  · rw [hx] at h
    cases h

/-- An operation with a new hash is its deferred part and `finalize_file` after it. -/
theorem exists_of_finalized {x : Prg K Unit} {vmPath : Str}
    (h : (inSavepoint do
      uncached x
      let real ← Prog.query fun db => resolvePath db vmPath
      let _ ← finalizeFile E real) db = .ok () db') :
    ∃ c' real b, x ⟨db, none⟩ = .ok () c' ∧ finalizeFile E real c'.db = .ok b db' := by
  obtain ⟨_, d₁, hrun, hrest⟩ := bind_eq_ok.1 (savepoint_eq_ok.1 h)
  obtain ⟨c', hx, rfl⟩ := withCache_ok hrun
  obtain ⟨real, d₂, hq, hrest⟩ := bind_eq_ok.1 hrest
  obtain ⟨-, rfl⟩ := query_eq_ok.1 hq
  obtain ⟨flag, d₃, hfin, hret⟩ := bind_eq_ok.1 hrest
  cases hret
  exact ⟨c', real, flag, hx, hfin⟩

/-- The deferred part of an operation has been run, and then the hash may have been computed. -/
theorem RangeOp.parts_of_run {op : RangeOp K} (h : op.run E db = .ok () db') :
    ∃ mid, Ranged (op.writes db) op.time db mid ∧
    (db' = mid ∨ ∃ real b, finalizeFile E real mid = .ok b db') := by
  rcases op with ⟨v, off, data, t⟩ | ⟨v, off, data, t, cache⟩ | ⟨v, n, t⟩ | ⟨v, n, t, cache⟩
  all_goals rw [RangeOp.writes, RangeOp.time]
  · obtain ⟨c', real, b, hx, hfin⟩ := exists_of_finalized h
    exact ⟨c'.db, writeRangeDeferred_ranged hx, Or.inr ⟨real, b, hfin⟩⟩
  · obtain ⟨c', hx, rfl⟩ := withCache_ok h
    exact ⟨c'.db, writeRangeDeferred_ranged hx, Or.inl rfl⟩
  · obtain ⟨c', real, b, hx, hfin⟩ := exists_of_finalized h
    exact ⟨c'.db, truncateRangeDeferred_ranged hx, Or.inr ⟨real, b, hfin⟩⟩
  · obtain ⟨c', hx, rfl⟩ := withCache_ok h
    exact ⟨c'.db, truncateRangeDeferred_ranged hx, Or.inl rfl⟩

/-- A program on a connection that leaves the database as it was when it fails. -/
def DbAtomic {α : Type} (x : Prg K α) : Prop := ∀ c e c', x c = .error e c' → c'.db = c.db

omit [DecidableEq K] in
/-- A savepoint on a connection leaves the database as it was when it fails. -/
theorem dbAtomic_savepoint {α : Type} (x : Prg K α) : DbAtomic (connSavepoint x) := by
  intro c e c' h
  unfold connSavepoint Prog.savepoint at h
  rcases hx : x c with ⟨a, c₁⟩ | ⟨e₁, c₁⟩
  · rw [hx] at h
    cases h
  · rw [hx] at h
    cases h
    rfl

omit [DecidableEq K] in
/-- Finding the file changes nothing. -/
theorem dbAtomic_regularFile {α : Type} {vmPath : Str} {f : Str × ℕ → Prg K α}
    (hf : ∀ found, DbAtomic (f found)) :
    DbAtomic (onDb (regularFile vmPath) >>= f) := by
  intro c e c' h
  rcases hreg : onDb (regularFile vmPath) c with ⟨found, c₁⟩ | ⟨e₁, c₁⟩
  · rw [bind_of_ok hreg] at h
    rw [hf found c₁ e c' h, (onDb_regularFile_ok hreg).1]
  · rw [bind_of_error hreg] at h
    cases h
    have hkeep : Keeps (fun c₂ : Conn K => c₂.db = c.db) (onDb (regularFile vmPath)) :=
      Keeps.onDb (I := fun d => d = c.db) (Keeps.query _)
    have hend := hkeep c rfl
    unfold endState at hend
    rw [hreg] at hend
    exact hend

omit [DecidableEq K] in
/-- A value does not fail. -/
theorem dbAtomic_pure {α : Type} (a : α) : DbAtomic (pure a : Prg K α) := by
  intro c e c' h
  cases h

/-- A range write that fails leaves the database as it was. -/
theorem writeRangeDeferred_dbAtomic (vmPath : Str) (off : ℕ) (data : Bytes) (mtime : ℤ) :
    DbAtomic (writeRangeDeferred E vmPath off data mtime) := by
  refine dbAtomic_regularFile fun found => ?_
  dsimp only
  split_ifs
  · exact dbAtomic_pure ()
  · exact dbAtomic_savepoint _

/-- A truncation that fails leaves the database as it was. -/
theorem truncateRangeDeferred_dbAtomic (vmPath : Str) (newSize : ℕ) (mtime : ℤ) :
    DbAtomic (truncateRangeDeferred E vmPath newSize mtime) := by
  refine dbAtomic_regularFile fun found => ?_
  dsimp only
  split_ifs
  · exact dbAtomic_pure ()
  · exact writeRangeDeferred_dbAtomic _ _ _ _
  · exact dbAtomic_savepoint _

omit [DecidableEq K] in
/-- The cache does not matter for what a failure leaves. -/
theorem DbAtomic.withCache {α : Type} {x : Prg K α} (hx : DbAtomic x)
    (cache : Option (ChunkCache K)) :
    Atomic (Dbvm.withCache cache x) := by
  intro db e db' h
  unfold Dbvm.withCache at h
  rcases hrun : x ⟨db, cache⟩ with ⟨a, c⟩ | ⟨e₁, c⟩
  · rw [hrun] at h
    cases h
  · rw [hrun] at h
    cases h
    exact hx _ _ _ hrun

/-- An operation on a range that fails leaves the database as it was. -/
theorem RangeOp.atomic (op : RangeOp K) : Atomic (op.run E) := by
  rcases op with ⟨v, off, data, t⟩ | ⟨v, off, data, t, cache⟩ | ⟨v, n, t⟩ | ⟨v, n, t, cache⟩
  · exact Atomic.savepoint _
  · exact (writeRangeDeferred_dbAtomic v off data t).withCache cache
  · exact Atomic.savepoint _
  · exact (truncateRangeDeferred_dbAtomic v n t).withCache cache

end Ranges

end Dbvm
