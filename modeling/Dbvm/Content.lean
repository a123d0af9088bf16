import Dbvm.Refs

/-!
# Stored content

A database is sound when its reference counts are exact and every blob decodes to the bytes its key
names. In a sound database the chunk rows alone say what the files contain (`Sound.decodes`): a row
has a blob because the counts are exact, and the blob has the right bytes because keys do not
collide. So a write need only be followed in the chunk rows. The section on whole files shows that
a file written by `vm_add_bytes` is stored (`vmAddBytes_total`).
-/

namespace Dbvm

open Lib Lib.Chunks Lib.Prog

variable {K : Type} [DecidableEq K]

/-- The codec is faithful: what it stores for a block decodes to the block. -/
def Ext.Faithful (E : Ext K) : Prop := ∀ dicts data effort,
  decodeBlock E dicts (encodeBlock E dicts data effort) = .ok data

/-- Exact counts and blobs that decode. -/
structure Sound (E : Ext K) (db : Db K) : Prop where
  /-- The counts. -/
  refs : RefOk db
  /-- The blobs. -/
  faithful : db.Faithful E

variable {E : Ext K} {db db' : Db K}

/-- In a sound database the chunk row of a piece decodes to the piece. -/
theorem Sound.decodes (h : Sound E db) (hE : Function.Injective E.blobKey) {p : Str} {i : ℕ}
    {piece : Bytes} (hrow : db.chunks.get? (p, i) = some (E.blobKey piece)) :
    db.Decodes E (E.blobKey piece) piece := by
  obtain ⟨c, hc⟩ := h.refs.exact.get?_of_pos (Db.refs_pos_of_chunk hrow)
  obtain ⟨piece', hdec⟩ := h.faithful _ c hc
  have hsame : piece' = piece := hE hdec.choose_spec.2.2
  rw [hsame] at hdec
  exact hdec

/-- The chunk row of index `i` of a file with content `b`. -/
def chunkRow (E : Ext K) (b : Bytes) (i : ℕ) : Option K :=
  if i < numChunks chunkSize b.length then some (E.blobKey (chunkAt chunkSize b i)) else none

/-- The chunk rows of a path are those of `b`. -/
def Db.Chunked (E : Ext K) (db : Db K) (p : Str) (b : Bytes) : Prop :=
  ∀ i, db.chunks.get? (p, i) = chunkRow E b i

/-- A regular file of a given size. -/
def Db.IsFile (db : Db K) (p : Str) (size : ℕ) : Prop :=
  ∃ row, db.fs.get? p = some row ∧ row.kind = .file ∧ row.size = size ∧ row.hash ≠ .null

/-- In a sound database the rows are enough. -/
theorem Sound.holds (h : Sound E db) (hE : Function.Injective E.blobKey) {p : Str} {b : Bytes}
    (hrow : db.IsFile p b.length) (hch : db.Chunked E p b) : db.Holds E p b := by
  refine ⟨hrow, hch, fun i hi => ?_⟩
  refine h.decodes hE (p := p) (i := i) ?_
  rw [hch, chunkRow, if_pos hi]

/-! ## Effects -/

/-- Blobs that were there before keep the codec faithful. -/
theorem Db.Faithful.of_blobs (h : db.Faithful E) (hd : db'.dicts = db.dicts)
    (hb : ∀ k c', db'.blobs.get? k = some c' → ∃ c, db.blobs.get? k = some c ∧ c'.val = c.val) :
    db'.Faithful E := by
  intro k c' hc'
  obtain ⟨c, hc, hv⟩ := hb k c' hc'
  obtain ⟨piece, c₁, hc₁, hdec, hkey⟩ := h k c hc
  rw [hc] at hc₁
  cases hc₁
  exact ⟨piece, c', hc', by rw [hd, hv, hdec], hkey⟩

/-- A new blob decodes, if its encoding does. -/
theorem Db.Faithful.withBlob_of (h : db.Faithful E) {effort : Effort} {piece : Bytes}
    (hdec : db.blobs.get? (E.blobKey piece) = none →
      decodeBlock E db.dicts (encodeBlock E db.dicts piece effort) = .ok piece) :
    (db.withBlob E effort piece).Faithful E := by
  unfold Db.withBlob
  split_ifs with hhas
  · exact h
  intro k c hc
  rcases eq_or_ne k (E.blobKey piece) with rfl | hk
  · refine ⟨piece, c, hc, ?_, rfl⟩
    rw [Db.addBlob, Table.get?_insertIgnore, if_pos rfl, Table.get?_of_not_has hhas] at hc
    cases hc
    exact hdec (Table.get?_of_not_has hhas)
  · have hc₀ := hc
    rw [Db.addBlob, Table.get?_insertIgnore, if_neg hk] at hc₀
    obtain ⟨piece', c₁, hc₁, hdec, hkey⟩ := h k c hc₀
    rw [hc₀] at hc₁
    cases hc₁
    exact ⟨piece', c, hc, hdec, hkey⟩

/-- A stored piece decodes to itself. -/
theorem Db.Faithful.withBlob (h : db.Faithful E) (hC : E.Faithful) (effort : Effort)
    (piece : Bytes) : (db.withBlob E effort piece).Faithful E :=
  h.withBlob_of fun _ => hC db.dicts piece effort

/-- References come and go: the bytes of the blobs stay. -/
theorem Db.Faithful.releaseBlobs (h : db.Faithful E) (ks : List K) :
    (db.releaseBlobs ks).Faithful E :=
  h.of_blobs rfl fun _ _ hc => Store.get?_of_releaseAll ks hc

/-- A chunk row changes no blob. -/
theorem Db.Faithful.addChunk (h : db.Faithful E) (p : Str) (i : ℕ) (k : K) :
    (db.addChunk p i k).Faithful E := by
  refine h.of_blobs rfl fun k' c' hc' => ?_
  rw [Db.addChunk, Store.get?_acquire] at hc'
  split_ifs at hc' with hk
  · obtain ⟨c, hc, rfl⟩ := Option.map_eq_some_iff.1 hc'
    exact ⟨c, hk ▸ hc, rfl⟩
  · exact ⟨c', hc', rfl⟩

/-- Only blobs and dictionaries decide what blobs decode to. -/
theorem Db.Faithful.of_eq (h : db.Faithful E) (hb : db'.blobs = db.blobs)
    (hd : db'.dicts = db.dicts) : db'.Faithful E :=
  h.of_blobs hd fun _ c hc => ⟨c, hb ▸ hc, rfl⟩

/-- A chunk is replaced by one with another key, or while its key has another row. -/
theorem Sound.withChunk (h : Sound E db) (hC : E.Faithful) (effort : Effort) {p : Str} {idx : ℕ}
    {piece : Bytes}
    (hor : db.chunks.get? (p, idx) ≠ some (E.blobKey piece) ∨ 1 < db.refs (E.blobKey piece)) :
    Sound E (db.withChunk E effort p idx piece) where
  refs := ((h.refs.refInv fun _ => True).withChunk E effort trivial hor).refOk
  faithful := by
    have hdel : ((db.withBlob E effort piece).delChunks
        fun q i => q = p && i = idx).Faithful E :=
      ((h.faithful.withBlob hC effort piece).releaseBlobs _).of_eq rfl rfl
    exact hdel.addChunk p idx _

/-- A delete of chunk rows keeps a database sound. -/
theorem Sound.delChunks (h : Sound E db) (sel : Str → ℕ → Bool) : Sound E (db.delChunks sel) where
  refs := ((h.refs.refInv fun _ => True).delChunks fun _ _ _ => trivial).refOk
  faithful := (h.faithful.releaseBlobs _).of_eq rfl rfl

/-- A delete of rows keeps a database sound. -/
theorem Sound.delFs (h : Sound E db) (sel : Str → Bool) : Sound E (db.delFs sel) where
  refs := ((h.refs.refInv fun _ => True).delFs fun _ _ => trivial).refOk
  faithful := (h.faithful.releaseBlobs _).of_eq rfl rfl

/-- A new row without inline content keeps a database sound. -/
theorem Sound.addFs (h : Sound E db) (p : Str) {row : FsRow K} (hrow : row.content = none) :
    Sound E (db.addFs p row) := ⟨h.refs.addFs p hrow, h.faithful.of_eq rfl rfl⟩

/-- An update that brings no inline content keeps a database sound. -/
theorem Sound.setFs (h : Sound E db) (p : Str) {f : FsRow K → FsRow K}
    (hf : ∀ row, row.content = none → (f row).content = none) : Sound E (db.setFs p f) where
  refs := ((h.refs.refInv fun _ => True).setFs p hf).refOk
  faithful := h.faithful.of_eq rfl rfl

/-- Marks are no matter of soundness. -/
theorem Sound.setDirty (h : Sound E db) (d : List Str) : Sound E { db with dirty := d } where
  refs := ((h.refs.refInv fun _ => True).setDirty d).refOk
  faithful := h.faithful.of_eq rfl rfl

/-- A new row for content that is stored or becomes so. -/
theorem Sound.addChunk (h : Sound E db) (hC : E.Faithful) (effort : Effort) {p : Str} {idx : ℕ}
    {piece : Bytes} (hfree : db.chunks.get? (p, idx) = none) :
    Sound E ((db.withBlob E effort piece).addChunk p idx (E.blobKey piece)) := by
  have hI : RefInv (fun _ => True) db NoBlob db := h.refs.refInv _
  obtain ⟨hw, c, hc⟩ := hI.withBlob E effort piece
  have hadd : RefInv (fun _ => True) db NoBlob
      ((db.withBlob E effort piece).addChunk p idx (E.blobKey piece)) :=
    (hw.addChunk trivial (by rw [Db.withBlob_chunks]; exact hfree) hc).mono fun k hk => hk.2 hk.1
  exact ⟨hadd.refOk, (h.faithful.withBlob hC effort piece).addChunk p idx _⟩

/-! ## Whole files -/

/-- What a program that succeeds leaves alone: the rows at other paths and the policies. -/
structure Beside (p : Str) (db db' : Db K) : Prop where
  /-- The rows of `vm_fs` at other paths. -/
  fs : ∀ q, q ≠ p → db'.fs.get? q = db.fs.get? q
  /-- The chunk rows of other paths. -/
  chunks : ∀ q i, q ≠ p → db'.chunks.get? (q, i) = db.chunks.get? (q, i)
  /-- The chunk rows of snapshots. -/
  snaps : db'.snapChunks = db.snapChunks
  /-- The chunk rows of undo records. -/
  undos : db'.undoChunks = db.undoChunks
  /-- No policy is in force. -/
  unpoliced : db'.Unpoliced

/-- One chunk of a file that has none at this index. -/
theorem appendChunk_of_unpoliced (h : db.Unpoliced) {p : Str} {idx : ℕ} (piece : Bytes)
    (hfree : db.chunks.get? (p, idx) = none) : appendChunk E p idx piece db =
      .ok () ((db.withBlob E .archive piece).addChunk p idx (E.blobKey piece)) := by
  obtain ⟨flag, hflag⟩ := blobEnsureWith_eq E .archive db piece
  unfold appendChunk blobEnsure
  rw [bind_of_ok hflag]
  refine insertChunk_of_unpoliced (h.withBlob .archive piece) _ ?_
  rw [Db.withBlob_chunks]
  exact hfree

/-- The rows of `p` are the first `n` chunks of `data`, and nothing else has changed since `db₀`. -/
structure Filling (E : Ext K) (db₀ : Db K) (p : Str) (data : Bytes) (n : ℕ) (db : Db K) : Prop where
  /-- Counts and blobs. -/
  sound : Sound E db
  /-- No policy is in force. -/
  unpoliced : db.Unpoliced
  /-- `vm_fs` has not changed. -/
  fs : db.fs = db₀.fs
  /-- The chunk rows of other paths. -/
  others : ∀ q i, q ≠ p → db.chunks.get? (q, i) = db₀.chunks.get? (q, i)
  /-- The chunk rows of snapshots. -/
  snaps : db.snapChunks = db₀.snapChunks
  /-- The chunk rows of undo records. -/
  undos : db.undoChunks = db₀.undoChunks
  /-- The chunk rows of `p`. -/
  rows : ∀ i, db.chunks.get? (p, i) =
    if i < n then some (E.blobKey (chunkAt chunkSize data i)) else none

/-- One more piece of a file is stored and listed. -/
theorem Filling.step (hC : E.Faithful) {db₀ : Db K} {p : Str} {data : Bytes} {n : ℕ}
    (h : Filling E db₀ p data n db) :
    ∃ db', appendChunk E p n (chunkAt chunkSize data n) db = .ok () db' ∧
      Filling E db₀ p data (n + 1) db' := by
  have hfree : db.chunks.get? (p, n) = none := by rw [h.rows, if_neg (lt_irrefl n)]
  have hget : ∀ q i, ((db.withBlob E .archive (chunkAt chunkSize data n)).addChunk p n
      (E.blobKey (chunkAt chunkSize data n))).chunks.get? (q, i) =
        if (q, i) = (p, n) then some (E.blobKey (chunkAt chunkSize data n))
        else db.chunks.get? (q, i) := by
    intro q i
    rw [Db.addChunk, Table.get?_insertIgnore, Db.withBlob_chunks, hfree, Option.getD_none]
  refine ⟨_, appendChunk_of_unpoliced h.unpoliced _ hfree, h.sound.addChunk hC .archive hfree,
    (h.unpoliced.withBlob .archive _).of_eq rfl rfl, ?_, fun q i hq => ?_, ?_, ?_, fun i => ?_⟩
  · exact (Db.withBlob_fs E .archive db _).trans h.fs
  · rw [hget, if_neg (by rintro ⟨⟩; exact hq rfl)]
    exact h.others q i hq
  · exact (Db.withBlob_snapChunks E .archive db _).trans h.snaps
  · exact (Db.withBlob_undoChunks E .archive db _).trans h.undos
  · rw [hget, h.rows]
    rcases lt_trichotomy i n with hi | rfl | hi
    · rw [if_neg (by rintro ⟨⟩; exact lt_irrefl _ hi), if_pos hi, if_pos (by omega)]
    · rw [if_pos rfl, if_pos (by omega)]
    · rw [if_neg (by rintro ⟨⟩; exact lt_irrefl _ hi), if_neg (by omega), if_neg (by omega)]

/-- The pieces of a file come with their numbers. -/
theorem zipIdx_chunksOf (cs : ℕ) (b : Bytes) : (chunksOf cs b).zipIdx =
    (List.range' 0 (numChunks cs b.length)).map fun i => (chunkAt cs b i, i) := by
  rw [chunksOf, List.range_eq_range']
  apply List.ext_getElem?
  intro i
  rw [List.getElem?_zipIdx, List.getElem?_map, List.getElem?_map, Option.map_map]
  rcases Nat.lt_or_ge i (numChunks cs b.length) with hi | hi
  · rw [List.getElem?_range' hi]
    simp
  · rw [List.getElem?_eq_none (by simpa using hi)]
    rfl

/-- The content of a file is replaced. -/
theorem chunksReplace_total (hC : E.Faithful) (h : Sound E db) (hu : db.Unpoliced) (p : Str)
    (data : Bytes) : ∃ db', chunksReplace E p data db = .ok () db' ∧
      Filling E db p data (numChunks chunkSize data.length) db' := by
  have hdel : Filling E db p data 0 (db.delChunks fun q _ => q = p) := by
    refine ⟨h.delChunks _, hu.of_eq rfl rfl, rfl, fun q i hq => ?_, rfl, rfl, fun i => ?_⟩
    · rw [Db.delChunks, Table.get?_deleteWhere]
      rcases db.chunks.get? (q, i) <;> simp [hq]
    · rw [Db.delChunks, Table.get?_deleteWhere]
      rcases db.chunks.get? (p, i) <;> simp
  -- `n` chunks are there when the loop comes to chunk `n`.
  have hloop := forM_total (f := fun piece : Bytes × ℕ => appendChunk E p piece.2 piece.1)
    (J := fun rest d => ∃ n m, n + m = numChunks chunkSize data.length ∧
      rest = (List.range' n m).map (fun i => (chunkAt chunkSize data i, i)) ∧
      Filling E db p data n d) ?_
    (chunksOf chunkSize data).zipIdx ⟨0, _, Nat.zero_add _, zipIdx_chunksOf _ _, hdel⟩
  · obtain ⟨db', hrun, n, m, hnm, hnil, hfill⟩ := hloop
    have hm : m = 0 := by
      have := congrArg List.length hnil
      simpa using this.symm
    rw [hm, Nat.add_zero] at hnm
    refine ⟨db', ?_, hnm ▸ hfill⟩
    unfold chunksReplace
    rw [bind_of_ok (deleteChunks_of_unpoliced hu _)]
    exact hrun
  · rintro x rest d ⟨n, m, hnm, heq, hfill⟩
    rcases m with _ | m
    · cases heq
    · rw [List.range'_succ, List.map_cons] at heq
      cases heq
      obtain ⟨d', hrun, hfill'⟩ := hfill.step hC
      exact ⟨d', hrun, n + 1, m, by omega, rfl, hfill'⟩

/-- A row is written: the others stay. -/
theorem upsertFs_total (h : Sound E db) (hu : db.Unpoliced) (p : Str) (row : FsRow K)
    (upd : FsRow K → FsRow K) (hrow : row.content = none) (hupd : ∀ r, (upd r).content = none) :
    ∃ db', upsertFs p row upd db = .ok () db' ∧ Sound E db' ∧ db'.Unpoliced ∧
      db'.chunks = db.chunks ∧ db'.snapChunks = db.snapChunks ∧ db'.undoChunks = db.undoChunks ∧
      db'.fs.get? p = some ((db.fs.get? p).elim row upd) ∧
      ∀ q, q ≠ p → db'.fs.get? q = db.fs.get? q := by
  have hput := upsertFs_of_unpoliced hu p row upd
  rcases hp : db.fs.get? p with _ | old
  · rw [Table.has_eq_false.2 hp, if_neg (by simp)] at hput
    refine ⟨_, hput, h.addFs p hrow, hu.of_eq rfl rfl, rfl, rfl, rfl, ?_, fun q hq => ?_⟩
    · rw [Db.addFs, Table.get?_insertIgnore, if_pos rfl, hp]
      rfl
    · rw [Db.addFs, Table.get?_insertIgnore, if_neg hq]
  · rw [Table.has_eq_true.2 ⟨old, hp⟩, if_pos rfl] at hput
    refine ⟨_, hput, h.setFs p fun r _ => hupd r, hu.of_eq rfl rfl, rfl, rfl, rfl, ?_,
      fun q hq => ?_⟩
    · rw [Db.setFs, Table.get?_update, if_pos rfl, hp]
      rfl
    · rw [Db.setFs, Table.get?_update, if_neg hq]

/-- A row is changed: the others stay. -/
theorem updateFs_total (h : Sound E db) (hu : db.Unpoliced) {p : Str} {row : FsRow K}
    {f : FsRow K → FsRow K} (hp : db.fs.get? p = some row)
    (hf : ∀ r, r.content = none → (f r).content = none) :
    ∃ db', updateFs p f db = .ok () db' ∧ Sound E db' ∧ db'.Unpoliced ∧
      db'.chunks = db.chunks ∧ db'.refs = db.refs ∧ db'.fs.get? p = some (f row) ∧
      ∀ q, q ≠ p → db'.fs.get? q = db.fs.get? q := by
  refine ⟨_, updateFs_of_unpoliced hu f hp, h.setFs p hf, hu.of_eq rfl rfl, rfl, rfl, ?_,
    fun q hq => ?_⟩
  · rw [Db.setFs, Table.get?_update, if_pos rfl, hp]
    rfl
  · rw [Db.setFs, Table.get?_update, if_neg hq]

omit [DecidableEq K] in
/-- A savepoint whose body returned is released with what the body left. -/
theorem inSavepoint_of_ok {α : Type} {x : Sql K α} {a : α} (h : x db = .ok a db') :
    inSavepoint x db = .ok a db' := savepoint_eq_ok.2 h

/-- A file is written: it holds the bytes, and the rows beside it are the old ones. -/
theorem fsPutFile_total (hC : E.Faithful) (h : Sound E db) (hu : db.Unpoliced) (p : Str)
    (mode mtime : ℤ) (data : Bytes) : ∃ db', fsPutFile E p mode mtime data db = .ok () db' ∧
      Sound E db' ∧ Beside p db db' ∧ db'.Chunked E p data ∧
      ∃ row, db'.fs.get? p = some row ∧ row.kind = .file ∧ row.mode = mode ∧
        row.size = data.length ∧ row.hash = .key (E.blobKey data) ∧ row.linkTarget = none := by
  obtain ⟨db₁, hrun, hfill⟩ := chunksReplace_total hC h hu p data
  obtain ⟨db₂, hput, hs, hu₂, hch, hsn, hun, hp, hq⟩ := upsertFs_total hfill.sound hfill.unpoliced p
    ((dirRow mode mtime).toFile mode mtime data.length (.key (E.blobKey data)))
    (FsRow.toFile mode mtime data.length (.key (E.blobKey data))) rfl fun _ => rfl
  refine ⟨db₂, inSavepoint_of_ok ?_, hs, ⟨fun q hne => ?_, fun q i hne => ?_, hsn.trans hfill.snaps,
    hun.trans hfill.undos, hu₂⟩, fun i => ?_, _, hp, ?_⟩
  · rw [bind_of_ok hrun]
    exact hput
  · rw [hq q hne, hfill.fs]
  · rw [hch, hfill.others q i hne]
  · rw [hch, hfill.rows, chunkRow]
  · rcases db₁.fs.get? p with _ | old <;> exact ⟨rfl, rfl, rfl, rfl, rfl⟩

/-! ## A fresh database -/

/-- The counts of a new database are exact. -/
theorem refOk_initDb (now : ℤ) : RefOk (initDb now : Db K) := by
  refine ⟨⟨fun _ _ => rfl, nofun⟩, nofun, fun p row hp => ?_⟩
  rw [initDb, Db.addFs, Table.get?_insertIgnore] at hp
  split_ifs at hp
  · cases hp
    rfl
  · cases hp

/-- A new database is sound. -/
theorem sound_initDb (E : Ext K) (now : ℤ) : Sound E (initDb now) :=
  ⟨refOk_initDb now, nofun⟩

omit [DecidableEq K] in
/-- A new database has no policies. -/
theorem unpoliced_initDb (now : ℤ) : (initDb now : Db K).Unpoliced := Or.inr rfl

/-- Libraries that compress nothing and find no compressed stream, with the content itself for its
key. -/
def plainExt : Ext Bytes where
  blobKey := id
  zstdCompress _ _ := none
  zstdCompressDict _ _ _ := none
  zstdFrameContentSize _ := none
  zstdDecompress _ _ := none
  zstdDecompressDict _ _ _ := none
  gunzip _ := none

/-- In the plain codec the key is the content. -/
theorem plainExt_injective : Function.Injective plainExt.blobKey := fun _ _ h => h

/-- The plain codec stores the bytes as they are. -/
theorem plainExt_lawful : plainExt.Lawful := ⟨by simp [plainExt], by simp [plainExt]⟩

/-- The plain codec decodes what it encodes. -/
theorem plainExt_faithful : plainExt.Faithful := by
  intro dicts data effort
  refine (decodeBlock_encodeBlock plainExt_lawful dicts data effort).2 fun _ => ?_
  rintro ⟨out, hout, -⟩
  simp [autoDetect, decompressBytesZstd, zstdFrameSize, plainExt, Except.toOption, bind,
    Except.bind] at hout

/-- A frame of three bytes: a number of zeros. -/
def zerosFrame (n : ℕ) : Bytes := [UInt8.ofNat n, UInt8.ofNat (n / 256), UInt8.ofNat (n / 65536)]

/-- The number in a frame. -/
def zerosCount (c : Bytes) : Option ℕ :=
  match c with
  | [a, b, c] => some (a.toNat + 256 * b.toNat + 65536 * c.toNat)
  | _ => none

/-- Libraries that compress zeros to their number, with the content itself for its key. -/
def zerosExt : Ext Bytes where
  blobKey := id
  zstdCompress _ data :=
    if data = List.replicate data.length 0 ∧
    data.length < 2 ^ 24 then some (zerosFrame data.length) else none
  zstdCompressDict _ _ _ := none
  zstdFrameContentSize c := (zerosCount c).map some
  zstdDecompress c n := if zerosCount c = some n then some (List.replicate n 0) else none
  zstdDecompressDict _ _ _ := none
  gunzip _ := none

/-- A frame holds its number. -/
theorem zerosCount_frame {n : ℕ} (h : n < 2 ^ 24) : zerosCount (zerosFrame n) = some n := by
  simp only [zerosFrame, zerosCount, UInt8.toNat_ofNat', Option.some.injEq]
  omega

/-- In the codec of zeros the key is the content. -/
theorem zerosExt_injective : Function.Injective zerosExt.blobKey := fun _ _ h => h

/-- The codec of zeros decodes what it compresses. -/
theorem zerosExt_lawful : zerosExt.Lawful where
  zstd := by
    intro level data c h
    simp only [zerosExt] at h ⊢
    split_ifs at h with hzeros
    obtain rfl := Option.some.inj h
    rw [zerosCount_frame hzeros.2, if_pos rfl]
    exact ⟨rfl, congrArg some hzeros.1.symm⟩
  zstdDict := by simp [zerosExt]

/-- No bytes that begin like a compressed stream are a frame. -/
theorem zerosExt_faithful : zerosExt.Faithful := by
  intro dicts data effort
  refine (decodeBlock_encodeBlock zerosExt_lawful dicts data effort).2 fun _ => ?_
  rintro ⟨out, hout, -⟩
  unfold autoDetect at hout
  by_cases hmagic : hasZstdMagic data = true
  · -- The magic number alone is longer than a frame.
    have hlong : zerosCount data = none := by
      obtain ⟨rest, rfl⟩ := List.isPrefixOf_iff_prefix.1 hmagic
      rfl
    simp [decompressBytesZstd, zstdFrameSize, zerosExt, hlong, Except.toOption, bind,
      Except.bind] at hout
  · simp [hmagic, zerosExt] at hout

end Dbvm
