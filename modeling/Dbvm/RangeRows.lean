import Dbvm.EntryOps

/-!
# The chunk rows of range writes

A range write reads the old chunks before it replaces them, and every chunk that is read is checked
against its key. So whatever the codec makes of the stored blocks: when a range operation returns,
the chunk rows are those of the plain operation on the bytes. Where a block does not decode, or a
policy refuses the write, the operation does not return.
-/

namespace Dbvm

open Lib Lib.Chunks Lib.Prog

variable {K : Type} [DecidableEq K] {E : Ext K} {p vmPath : Str} {b data : Bytes} {db db' : Db K}
  {c c' : Conn K}

/-! ## Reads that return -/

/-- An entry is put into the cache under its key. -/
theorem Conn.CacheOk.put (hc : c.CacheOk E) (piece : Bytes) :
    Conn.CacheOk E { c with cache := c.cache.map fun m => m.put (E.blobKey piece) piece } := by
  intro m hm e he
  obtain ⟨m₀, hm₀, rfl⟩ := Option.map_eq_some_iff.1 hm
  rcases List.mem_cons.1 (List.mem_of_mem_take he) with rfl | he
  · rfl
  · exact hc m₀ hm₀ e (List.mem_of_mem_filter he)

/-- What is read under a key has this key. -/
theorem chunkByKey_value {path : Str} {idx : ℕ} {k : K} {piece : Bytes} (hc : c.CacheOk E)
    (h : chunkByKey E path idx k c = .ok piece c') :
    E.blobKey piece = k ∧ c'.db = c.db ∧ c'.CacheOk E := by
  unfold chunkByKey at h
  -- Without an entry the blob is read and checked against its key; an entry holds what its key
  -- names.
  rcases hm : (c.cache.bind fun m => m.get k) with _ | ⟨hit, m'⟩
  · rw [hm] at h
    dsimp only at h
    rcases hb : c.db.blobBytes E path idx k with e | out
    · rw [hb] at h
      cases h
    · rw [hb] at h
      cases h
      obtain ⟨-, -, -, rfl⟩ := Db.decodes_of_blobBytes hb
      exact ⟨rfl, rfl, hc.put piece⟩
  · rw [hm] at h
    cases h
    obtain ⟨m₀, hm₀, hget⟩ := Option.bind_eq_some_iff.1 hm
    unfold ChunkCache.get at hget
    rcases hf : (m₀.entries.find? fun e => e.1 = k) with _ | e
    · rw [hf] at hget
      cases hget
    · rw [hf] at hget
      cases hget
      have hkey := hc m₀ hm₀ e (List.mem_of_find?_eq_some hf)
      have hek : e.1 = k := by simpa using List.find?_some hf
      refine ⟨hkey.trans hek, rfl, fun m hm' e' he' => ?_⟩
      cases hm'
      rcases List.mem_cons.1 he' with rfl | he'
      · exact hkey
      · exact hc m₀ hm₀ e' (List.mem_of_mem_filter he')

omit [DecidableEq K] in
/-- A query of the connection's database answers and changes nothing. -/
theorem onDb_query_ok {α : Type} {f : Db K → Except Err α} {a : α}
    (h : onDb (Prog.query f) c = .ok a c') :
    f c.db = .ok a ∧ c' = c := by
  unfold onDb at h
  rcases hq : Prog.query f c.db with ⟨v, d⟩ | ⟨e, d⟩
  · rw [hq] at h
    cases h
    obtain ⟨hf, rfl⟩ := query_eq_ok.1 hq
    exact ⟨hf, rfl⟩
  · rw [hq] at h
    cases h

/-- The chunk at an index of a path has the key of its row. -/
theorem chunkBytes_value {idx : ℕ} {piece : Bytes} (hc : c.CacheOk E)
    (h : chunkBytes E p idx c = .ok piece c') :
    c.db.chunks.get? (p, idx) = some (E.blobKey piece) ∧ c'.db = c.db ∧ c'.CacheOk E := by
  obtain ⟨k, c₁, hq, hread⟩ := bind_eq_ok.1 h
  obtain ⟨hk, rfl⟩ := onDb_query_ok hq
  obtain ⟨rfl, hdb, hc'⟩ := chunkByKey_value hc hread
  refine ⟨?_, hdb, hc'⟩
  rcases hrow : c₁.db.chunks.get? (p, idx) with _ | k'
  · rw [hrow] at hk
    cases hk
  · rw [hrow] at hk
    cases hk
    rfl

/-- The loop over the chunk rows of `b` from `first` on, when it returns, gives their windows. -/
theorem readPieces_value (hE : Function.Injective E.blobKey) {real : Str} {start stop : ℕ} :
    ∀ {n first : ℕ} {c c' : Conn K} {out : Bytes}, c.CacheOk E →
      readPieces E real start stop first
        ((List.range' first n).map fun i => (i, E.blobKey (chunkAt chunkSize b i))) c = .ok out c' →
      out = (List.range' first n).flatMap (window chunkSize b start stop) ∧ c'.db = c.db ∧
      c'.CacheOk E
  | 0, _, _, _, _, hc, h => by
    cases h
    exact ⟨rfl, rfl, hc⟩
  | n + 1, first, c, c', out, hc, h => by
    rw [List.range'_succ, List.map_cons, readPieces, if_neg (by simp)] at h
    obtain ⟨piece, c₁, hone, hrest⟩ := bind_eq_ok.1 h
    obtain ⟨tail, c₂, htail, hret⟩ := bind_eq_ok.1 hrest
    cases hret
    obtain ⟨hkey, hdb₁, hc₁⟩ := chunkByKey_value hc hone
    obtain ⟨rfl, hdb₂, hc₂⟩ := readPieces_value hE hc₁ htail
    have hpiece : piece = chunkAt chunkSize b first := hE hkey
    refine ⟨?_, hdb₂.trans hdb₁, hc₂⟩
    rw [hpiece, pieceWindow_chunkAt, List.range'_succ, List.flatMap_cons]

/-- The part of `b` between two bounds that the size clips. -/
theorem slice_clipped (b : Bytes) (off len : ℕ) :
    slice b (min off b.length) (min (min off b.length + len) b.length - min off b.length) = slice b
    off len := by
  apply List.ext_getElem?
  intro j
  rw [getElem?_slice, getElem?_slice]
  rcases Nat.lt_or_ge off b.length with hlt | hge
  · rw [Nat.min_eq_left (le_of_lt hlt)]
    split_ifs <;> first | rfl | omega | exact List.getElem?_eq_none (by omega) |
      exact (List.getElem?_eq_none (by omega)).symm
  · have h1 : b[min off b.length + j]? = none := List.getElem?_eq_none (by omega)
    have h2 : b[off + j]? = none := List.getElem?_eq_none (by omega)
    rw [h1, h2, ite_self, ite_self]

/-- A path leads to a file, with the content `b` in its chunk rows. -/
structure Db.RowsOf (E : Ext K) (db : Db K) (p : Str) (b : Bytes) : Prop where
  /-- The path is where its file is. -/
  self : resolvePath db p = .ok p
  /-- The row. -/
  row : ∃ row, db.fs.get? p = some row ∧ row.kind = .file ∧ row.size = b.length
  /-- The chunk rows. -/
  chunked : db.Chunked E p b

/-- A range read of such a file, when it returns, gives that range. -/
theorem readRangeCached_value (hE : Function.Injective E.blobKey) (hc : c.CacheOk E)
    (hp : resolvePath c.db vmPath = .ok p) (hf : c.db.RowsOf E p b) {off len : ℕ} {out : Bytes}
    (h : readRangeCached E vmPath off len c = .ok out c') :
    out = slice b off len ∧ c'.db = c.db ∧ c'.CacheOk E := by
  obtain ⟨real, c₁, hreal, h⟩ := bind_eq_ok.1 h
  obtain ⟨hr, rfl⟩ := onDb_query_ok hreal
  cases hp.symm.trans hr
  obtain ⟨size, c₂, hsize, h⟩ := bind_eq_ok.1 h
  obtain ⟨hs, rfl⟩ := onDb_query_ok hsize
  have hlen : size = b.length := by
    obtain ⟨row, hrow, -, hb⟩ := hf.row
    unfold Db.readableSize at hs
    rw [hrow] at hs
    dsimp only at hs
    -- An empty window needs no chunk; otherwise the loop joins the windows of the chunks it
    -- covers.
    split_ifs at hs
    cases hs
    exact hb
  subst hlen
  rw [← slice_clipped]
  generalize hstart : min off b.length = start at h ⊢
  generalize hstop : min (start + len) b.length = stop at h ⊢
  split_ifs at h with hse
  · cases h
    refine ⟨?_, rfl, hc⟩
    rw [hse, Nat.sub_self, slice, List.take_zero]
  have hlt : start < stop := by omega
  have hlast : (stop - 1) / chunkSize < numChunks chunkSize b.length := by
    rw [lt_numChunks_iff chunkSize_pos]
    have := Nat.div_mul_le_self (stop - 1) chunkSize
    omega
  have hle : start / chunkSize ≤ (stop - 1) / chunkSize := Nat.div_le_div_right (by omega)
  have hkeys :
      (c₂.db.chunkList p).filter (fun r => start / chunkSize ≤ r.1 && r.1 ≤ (stop - 1) /
        chunkSize) =
      (List.range' (start / chunkSize) ((stop - 1) / chunkSize - start / chunkSize + 1)).map
        fun i => (i, E.blobKey (chunkAt chunkSize b i)) := by
    rw [Db.chunkList_of_dense hf.chunked, List.filter_map, ← Nat.sub_add_comm hle,
      ← filter_range_between hlast]
    rfl
  rw [onDb_reads_bind, hkeys] at h
  obtain ⟨pieces, c₃, hpieces, h⟩ := bind_eq_ok.1 h
  obtain ⟨rfl, hdb, hc'⟩ := readPieces_value hE hc hpieces
  rw [flatMap_window chunkSize_pos b hlt] at h
  rw [if_neg (by simp)] at h
  cases h
  exact ⟨rfl, hdb, hc'⟩

/-! ## One chunk -/

/-- A chunk is put in its place. -/
theorem putChunk_rows {idx : ℕ} {piece : Bytes} (hc : c.CacheOk E)
    (h : putChunk E p idx piece c = .ok () c') :
    c'.CacheOk E ∧ c'.db.fs = c.db.fs ∧ ∀ i, c'.db.chunks.get? (p, i) =
      if i = idx then some (E.blobKey piece) else c.db.chunks.get? (p, i) := by
  unfold putChunk at h
  rw [onDb_reads_bind] at h
  split_ifs at h with hold
  · cases h
    refine ⟨hc, rfl, fun i => ?_⟩
    split_ifs with hi
    · rw [hi, hold]
    · rfl
  · obtain ⟨_, c₁, hswap, hput⟩ := bind_eq_ok.1 h
    cases hput
    unfold onDb at hswap
    rcases hs : swapChunk E .interactive p idx piece c.db with ⟨v, d⟩ | ⟨e, d⟩
    · rw [hs] at hswap
      cases hswap
      rw [swapChunk_ok hs]
      refine ⟨Conn.CacheOk.put (c := { c with db := c.db.withChunk E .interactive p idx piece }) hc
        piece,
        Db.withChunk_fs E .interactive c.db p idx piece, fun i => ?_⟩
      rw [Db.get?_withChunk]
      simp only [Prod.mk.injEq, true_and]
    · rw [hs] at hswap
      cases hswap

/-! ## The loop of a range write -/

/-- The chunks before `idx` are those of `b'`, the others those of `b`. -/
structure Mixed (E : Ext K) (p : Str) (b b' : Bytes) (db₀ : Db K) (idx : ℕ) (c : Conn K) :
    Prop where
  /-- The cache. -/
  cache : c.CacheOk E
  /-- `vm_fs` has not changed. -/
  fs : c.db.fs = db₀.fs
  /-- The chunk rows. -/
  rows : ∀ i, c.db.chunks.get? (p, i) = if i < idx then chunkRow E b' i else chunkRow E b i

omit [DecidableEq K] in
/-- The mixture is a file of the old size, whose chunk `idx` is the old one. -/
theorem Mixed.rowsOf {b' : Bytes} {db₀ : Db K} {idx : ℕ} (h : Mixed E p b b' db₀ idx c)
    (hf : db₀.RowsOf E p b) (hbb : b.length ≤ b'.length) (hidx : idx * chunkSize < b.length) :
    ∃ m, c.db.RowsOf E p m ∧
      slice m (idx * chunkSize) chunkSize = chunkAt chunkSize b idx := by
  have hlen : (b'.take (idx * chunkSize) ++ b.drop (idx * chunkSize)).length = b.length := by
    simp only [List.length_append, List.length_take, List.length_drop]
    omega
  have hmix : ∀ i, _ = _ := chunkAt_join (b := b) (by omega : idx * chunkSize ≤ b'.length)
  refine ⟨b'.take (idx * chunkSize) ++ b.drop (idx * chunkSize), ⟨?_, ?_, fun i => ?_⟩,
    (hmix idx).trans (if_neg (lt_irrefl idx))⟩
  · rw [(SameLinks.of_fs h.fs).resolvePath]
    exact hf.self
  · rw [h.fs, hlen]
    exact hf.row
  · rw [h.rows]
    conv_rhs => rw [chunkRow, hlen, hmix]
    by_cases hi : i < idx
    · have hi' : i * chunkSize < b.length :=
        lt_of_le_of_lt (Nat.mul_le_mul_right chunkSize (le_of_lt hi)) hidx
      rw [if_pos hi, if_pos hi, chunkRow, if_pos ((lt_numChunks_iff chunkSize_pos).2 (by omega)),
        if_pos ((lt_numChunks_iff chunkSize_pos).2 hi')]
    · rw [if_neg hi, if_neg hi, chunkRow]

/-- One more chunk of a range write has its new bytes. -/
theorem Mixed.step (hE : Function.Injective E.blobKey) (hd : data ≠ []) {off idx : ℕ} {db₀ : Db K}
    (h : Mixed E p b (writeAt 0 b off data) db₀ idx c) (hf : db₀.RowsOf E p b)
    (hidx : idx * chunkSize < max b.length (off + data.length))
    (hx : writeChunk E p b.length (max b.length (off + data.length)) off data idx c = .ok () c') :
    Mixed E p b (writeAt 0 b off data) db₀ (idx + 1) c' := by
  have hlen := length_writeAt 0 b data off hd
  -- The old bytes of the chunk, which are none past the old end.
  have hread : ∃ c₁, putChunk E p idx (overlayPiece (chunkAt chunkSize b idx) (idx * chunkSize)
      (max b.length (off + data.length)) off data) c₁ = .ok () c' ∧
        Mixed E p b (writeAt 0 b off data) db₀ idx c₁ := by
    unfold writeChunk at hx
    dsimp only at hx
    split_ifs at hx with hlt
    · obtain ⟨piece, c₁, hpiece, hput⟩ := bind_eq_ok.1 hx
      obtain ⟨m, hm, hslice⟩ := h.rowsOf hf (by omega) hlt
      obtain ⟨rfl, hdb, hc₁⟩ := readRangeCached_value hE h.cache hm.self hm hpiece
      rw [hslice] at hput
      exact ⟨c₁, hput, hc₁, hdb ▸ h.fs, hdb ▸ h.rows⟩
    · rw [chunkAt_eq_nil (not_lt.1 hlt)]
      exact ⟨c, hx, h⟩
  obtain ⟨c₁, hput, h₁⟩ := hread
  obtain ⟨hc', hfs, hrows⟩ := putChunk_rows h₁.cache hput
  refine ⟨hc', hfs.trans h₁.fs, fun i => ?_⟩
  rw [hrows, overlayPiece_chunkAt b data hd hidx, h₁.rows]
  rcases lt_trichotomy i idx with hi | rfl | hi
  · rw [if_neg (by omega), if_pos hi, if_pos (by omega)]
  · rw [if_pos rfl, if_pos (by omega), chunkRow, if_pos]
    rw [lt_numChunks_iff chunkSize_pos, hlen]
    exact hidx
  · rw [if_neg (by omega), if_neg (by omega), if_neg (by omega)]

/-- The loop comes to each chunk with those before it already written. -/
theorem Mixed.loop (hE : Function.Injective E.blobKey) (hd : data ≠ []) {off : ℕ} {db₀ : Db K}
    (hf : db₀.RowsOf E p b) :
    ∀ {m n : ℕ} {c c' : Conn K}, n + m = (off + data.length - 1) / chunkSize + 1 →
      Mixed E p b (writeAt 0 b off data) db₀ n c →
      (List.range' n m).forM (writeChunk E p b.length (max b.length (off + data.length)) off data)
      c = .ok () c' →
      Mixed E p b (writeAt 0 b off data) db₀ (n + m) c'
  | 0, _, _, _, _, h, hx => by
    cases hx
    exact h
  | m + 1, n, c, c', hnm, h, hx => by
    have hlt : n * chunkSize < max b.length (off + data.length) := by
      have hle : n ≤ (off + data.length - 1) / chunkSize := by omega
      have hpos := List.length_pos_iff.2 hd
      rw [Nat.le_div_iff_mul_le chunkSize_pos] at hle
      omega
    rw [List.range'_succ, List.forM_eq_forM, List.forM_cons] at hx
    obtain ⟨_, c₁, hone, hrest⟩ := bind_eq_ok.1 hx
    have h₂ := Mixed.loop hE hd hf (by omega : n + 1 + m = _) (h.step hE hd hf hlt hone) hrest
    rwa [Nat.add_assoc, Nat.add_comm 1 m] at h₂

/-! ## The operations -/

omit [DecidableEq K] in
/-- A file with such rows is the one its path leads to. -/
theorem Db.RowsOf.fileOf (hf : db.RowsOf E p b) (hp : resolvePath db vmPath = .ok p) :
    regularFile vmPath db = .ok (p, b.length) db := by
  obtain ⟨row, hrow, hkind, hsize⟩ := hf.row
  refine query_of_ok ?_
  simp [hp, hrow, hkind, hsize, bind, Except.bind]

/-- `mark_dirty` changes no chunk row. -/
theorem markDirty_chunks {row : FsRow K} {size : ℕ} {mtime : ℤ} (hrow : c.db.fs.get? p = some row)
    (h : onDb (markDirty p size mtime) c = .ok () c') :
    c'.db.chunks = c.db.chunks ∧ c'.cache = c.cache := by
  unfold onDb at h
  rcases hm : markDirty p size mtime c.db with ⟨v, d⟩ | ⟨e, d⟩
  · rw [hm] at h
    cases h
    exact ⟨(markDirty_entry hrow hm).2.2.1, rfl⟩
  · rw [hm] at h
    cases h

/-- A range write that returns leaves the chunk rows of the written bytes. -/
theorem writeRangeDeferred_chunked (hE : Function.Injective E.blobKey) (hc : c.CacheOk E)
    (hp : resolvePath c.db vmPath = .ok p) (hf : c.db.RowsOf E p b) {off : ℕ} {mtime : ℤ}
    (h : writeRangeDeferred E vmPath off data mtime c = .ok () c') :
    c'.db.Chunked E p (writeAt 0 b off data) ∧ c'.CacheOk E := by
  unfold writeRangeDeferred at h
  rw [bind_of_ok (onDb_of_ok (hf.fileOf hp))] at h
  dsimp only at h
  split_ifs at h with hd
  · cases h
    rw [hd]
    exact ⟨hf.chunked, hc⟩
  obtain ⟨_, c₁, hloop, hmark⟩ := bind_eq_ok.1 (savepoint_eq_ok.1 h)
  -- Before the loop no chunk is rewritten yet; the loop carries the mixture of old and new chunks
  -- to the end.
  have hstart : Mixed E p b (writeAt 0 b off data) c.db (min off b.length / chunkSize) c := by
    refine ⟨hc, rfl, fun i => ?_⟩
    rw [hf.chunked i]
    split_ifs with hi
    · exact (chunkRow_before hi).symm
    · rfl
  have hpos := List.length_pos_iff.2 hd
  have hle : min off b.length / chunkSize ≤ (off + data.length - 1) / chunkSize + 1 :=
    le_trans (Nat.div_le_div_right (by omega)) (Nat.le_succ _)
  have hend := Mixed.loop hE hd hf (Nat.add_sub_of_le hle) hstart hloop
  rw [Nat.add_sub_of_le hle] at hend
  obtain ⟨row, hrow, -⟩ := hf.row
  rw [← hend.fs] at hrow
  obtain ⟨hch, hcache⟩ := markDirty_chunks hrow hmark
  refine ⟨fun i => ?_, fun m hm => hend.cache m (hcache ▸ hm)⟩
  rw [hch, hend.rows]
  split_ifs with hi
  · rfl
  · exact (chunkRow_after hd (by omega)).symm

/-- The last chunk of a shrunk file is cut. -/
theorem cutTail_chunked (hE : Function.Injective E.blobKey) (hc : c.CacheOk E) {n : ℕ}
    (hn : n < b.length)
    (hrows : ∀ i, c.db.chunks.get? (p, i) = if i < numChunks chunkSize n then chunkRow E b i
      else none)
    (h : cutTail E p n c = .ok () c') :
    c'.CacheOk E ∧ c'.db.fs = c.db.fs ∧ c'.db.Chunked E p (resize 0 b n) := by
  have hnum : ∀ {i}, i < numChunks chunkSize n ↔ i * chunkSize < n := lt_numChunks_iff chunkSize_pos
  have hpast : ∀ i, ¬ i < numChunks chunkSize n → chunkRow E (resize 0 b n) i = none := by
    intro i hi
    rw [chunkRow, length_resize, if_neg hi]
  unfold cutTail at h
  split_ifs at h with hcut
  · dsimp only at h
    generalize hidx : numChunks chunkSize n - 1 = idx at h
    have hlt : idx < numChunks chunkSize n := by
      have := (hnum (i := 0)).2 (by omega)
      omega
    have hlt' := hnum.1 hlt
    obtain ⟨piece, c₁, hpiece, hput⟩ := bind_eq_ok.1 h
    obtain ⟨hkey, hdb, hc₁⟩ := chunkBytes_value hc hpiece
    have hold : piece = chunkAt chunkSize b idx := by
      rw [hrows, if_pos hlt, chunkRow,
        if_pos ((lt_numChunks_iff chunkSize_pos).2 (by omega))] at hkey
      exact hE (Option.some.inj hkey).symm
    obtain ⟨hc', hfs, hput'⟩ := putChunk_rows hc₁ hput
    refine ⟨hc', hfs.trans (by rw [hdb]), fun i => ?_⟩
    rw [hput', hdb, hrows]
    rcases eq_or_ne i idx with rfl | hne
    · have hlen : (chunkAt chunkSize b i).length = _ := length_chunkAt b i
      rw [if_pos rfl, hold, chunkRow, length_resize, if_pos hlt, chunkAt_resize, resize,
        extendTo_of_le 0 (by omega), Option.some.injEq]
      congr 1
      have hshort : (chunkAt chunkSize b i).length ≤ chunkSize :=
        hlen.le.trans (Nat.min_le_left _ _)
      rw [List.take_eq_take_iff, Nat.min_comm chunkSize, Nat.min_assoc, Nat.min_eq_right hshort]
    · rw [if_neg hne]
      split_ifs with hi
      · exact (chunkRow_resize hn (le_of_lt (hnum.1 (by omega)))).symm
      · exact (hpast i hi).symm
  · cases h
    refine ⟨hc, rfl, fun i => ?_⟩
    rw [hrows]
    split_ifs with hi
    · refine (chunkRow_resize hn ?_).symm
      have hi' := hnum.1 hi
      have hmod : n % chunkSize = 0 := by
        by_contra hne
        exact hcut ⟨by omega, hne⟩
      -- The new end is the end of a chunk, so the last one stays whole.
      obtain ⟨m, hm⟩ := Nat.dvd_of_mod_eq_zero hmod
      rw [hm, Nat.mul_comm chunkSize m] at hi' ⊢
      exact Nat.mul_le_mul_right _ (Nat.succ_le_of_lt (Nat.lt_of_mul_lt_mul_right hi'))
    · exact (hpast i hi).symm

/-- A truncation that returns leaves the chunk rows of the resized bytes. -/
theorem truncateRangeDeferred_chunked (hE : Function.Injective E.blobKey) (hc : c.CacheOk E)
    (hp : resolvePath c.db vmPath = .ok p) (hf : c.db.RowsOf E p b) {n : ℕ} {mtime : ℤ}
    (h : truncateRangeDeferred E vmPath n mtime c = .ok () c') :
    c'.db.Chunked E p (resize 0 b n) := by
  unfold truncateRangeDeferred at h
  rw [bind_of_ok (onDb_of_ok (hf.fileOf hp))] at h
  dsimp only at h
  -- Same size, growing, shrinking.
  split_ifs at h with heq hgt
  · cases h
    rw [resize_of_length 0 heq.symm]
    exact hf.chunked
  · -- Growing is a write of zeros at the end.
    rw [resize_eq_writeAt 0 hgt]
    exact (writeRangeDeferred_chunked hE hc hf.self hf h).1
  · obtain ⟨_, c₁, hdel, hrest⟩ := bind_eq_ok.1 (savepoint_eq_ok.1 h)
    obtain ⟨_, c₂, hcut, hmark⟩ := bind_eq_ok.1 hrest
    have hlt : n < b.length := by omega
    have hc₁ :
      c₁ = { c with db := c.db.delChunks fun q i => q = p && numChunks chunkSize n ≤ i } := by
      unfold onDb at hdel
      rcases hd : deleteChunks (fun q i => q = p && numChunks chunkSize n ≤ i) c.db with ⟨v,
        d⟩ | ⟨e, d⟩
      · rw [hd] at hdel
        cases hdel
        rw [deleteChunks_ok hd]
      · rw [hd] at hdel
        cases hdel
    subst hc₁
    have hkeep : ∀ i, (c.db.delChunks fun q i => q = p && numChunks chunkSize n ≤ i).chunks.get?
        (p, i) =
        if i < numChunks chunkSize n then chunkRow E b i else none := by
      intro i
      rw [Db.delChunks, Table.get?_deleteWhere, hf.chunked i]
      rcases chunkRow E b i with _ | k
      · simp
      · split_ifs with hi
        · simp [hi]
        · simp [not_lt.1 hi]
    obtain ⟨-, hfs, hch⟩ := cutTail_chunked hE
      (c := { c with db := c.db.delChunks fun q i => q = p && numChunks chunkSize n ≤ i }) hc hlt
        hkeep hcut
    obtain ⟨row, hrow, -⟩ := hf.row
    have hrow₂ : c₂.db.fs.get? p = some row := by
      rw [hfs]
      exact hrow
    rw [Db.Chunked, (markDirty_chunks hrow₂ hmark).1]
    exact hch

end Dbvm
