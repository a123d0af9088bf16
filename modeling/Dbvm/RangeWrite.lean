import Dbvm.Content

/-!
# Range writes refine a byte array

`write_range`, `truncate_range` and their deferred forms (`src/vm/store.rs`) against the plain
operations on the bytes of the file, `writeAt` and `resize`. Along the loop of a range write the
file is a mixture: the chunks before the current one are those of the new content, the others those
of the old one. The old content of a chunk can still be read from the mixture (`Writing.read`), and
at the end every chunk is that of the new content (`Writing.end`).
-/

namespace Dbvm

open Lib Lib.Chunks Lib.Prog

variable {K : Type} [DecidableEq K]

/-! ## Paths -/

/-- Two trees with the same kinds and link targets. -/
def SameLinks (db db' : Db K) : Prop := ∀ q,
  (db'.fs.get? q).map (fun r => (r.kind, r.linkTarget)) =
    (db.fs.get? q).map fun r => (r.kind, r.linkTarget)

variable {db db' db'' : Db K}

omit [DecidableEq K] in
/-- Two changes that keep the links keep them together. -/
theorem SameLinks.trans (h : SameLinks db db') (h' : SameLinks db' db'') : SameLinks db db'' :=
  fun q => (h' q).trans (h q)

omit [DecidableEq K] in
/-- Only the rows decide where paths lead. -/
theorem SameLinks.of_fs (h : db'.fs = db.fs) : SameLinks db db' := fun q => by rw [h]

omit [DecidableEq K] in
/-- A path leads to the same place in both. -/
theorem SameLinks.resolvePath (h : SameLinks db db') (vmPath : Str) :
    resolvePath db' vmPath = resolvePath db vmPath := by
  have hfrom : ∀ n visited cur, resolveFrom db' vmPath n visited cur =
      resolveFrom db vmPath n visited cur := by
    intro n
    induction n with
    | zero => exact fun _ _ => rfl
    | succ n ih =>
      intro visited cur
      have hcur := h cur
      simp only [resolveFrom]
      rcases hr : db.fs.get? cur with _ | row
      · rw [hr] at hcur
        rw [Option.map_eq_none_iff.1 hcur]
      · rw [hr] at hcur
        obtain ⟨row', hr', he⟩ := Option.map_eq_some_iff.1 hcur
        obtain ⟨hk, hl⟩ := Prod.mk.inj he
        rw [hr']
        simp only [hk, hl, ih]
  exact hfrom 40 [] _

omit [DecidableEq K] in
/-- A row that keeps its kind and its target is changed. -/
theorem SameLinks.of_row {p : Str} {row row' : FsRow K} (hp : db.fs.get? p = some row)
    (hp' : db'.fs.get? p = some row') (hk : row'.kind = row.kind)
    (hl : row'.linkTarget = row.linkTarget) (hq : ∀ q, q ≠ p → db'.fs.get? q = db.fs.get? q) :
    SameLinks db db' := by
  intro q
  rcases eq_or_ne q p with rfl | hne
  · rw [hp, hp', Option.map_some, Option.map_some, hk, hl]
  · rw [hq q hne]

omit [DecidableEq K] in
/-- A file at a normal path is where its path leads. -/
theorem resolvePath_self {p : Str} {size : ℕ} (hp : Normal p) (h : db.IsFile p size) :
    resolvePath db p = .ok p := by
  obtain ⟨row, hrow, hkind, -⟩ := h
  rw [resolvePath, hp, resolveFrom, if_neg (by simp), hrow]
  simp [hkind]

/-! ## Files -/

variable {E : Ext K}

/-- A file with its content, in a sound database without policies. -/
structure Stored (E : Ext K) (p : Str) (b : Bytes) (db : Db K) : Prop where
  /-- Counts and blobs. -/
  sound : Sound E db
  /-- No policy is in force. -/
  unpoliced : db.Unpoliced
  /-- The row. -/
  file : db.IsFile p b.length
  /-- The chunk rows. -/
  chunked : db.Chunked E p b

/-- A chunk is put in its place; nothing else changes. -/
theorem putChunk_total (hC : E.Faithful) {c : Conn K} (hs : Sound E c.db) (hu : c.db.Unpoliced)
    (hc : c.CacheOk E) (p : Str) (idx : ℕ) (piece : Bytes) :
    ∃ c', putChunk E p idx piece c = .ok () c' ∧ Sound E c'.db ∧ c'.db.Unpoliced ∧ c'.CacheOk E ∧
      c'.db.fs = c.db.fs ∧ ∀ q i, c'.db.chunks.get? (q, i) =
        if (q, i) = (p, idx) then some (E.blobKey piece) else c.db.chunks.get? (q, i) := by
  unfold putChunk
  rw [onDb_reads_bind]
  -- A chunk that is there already is not written again; any other one replaces the row at its
  -- place.
  by_cases hold : c.db.chunks.get? (p, idx) = some (E.blobKey piece)
  · rw [if_pos hold]
    refine ⟨c, rfl, hs, hu, hc, rfl, fun q i => ?_⟩
    split_ifs with h
    · cases h
      exact hold
    · rfl
  · rw [if_neg hold]
    have hswap : onDb (swapChunk E .interactive p idx piece) c =
        .ok () { c with db := c.db.withChunk E .interactive p idx piece } := by
      rw [onDb, swapChunk_of_unpoliced hu]
    rw [bind_of_ok hswap]
    refine ⟨_, rfl, hs.withChunk hC .interactive (Or.inl hold),
      hu.withChunk .interactive p idx piece,
      ?_, Db.withChunk_fs E .interactive c.db p idx piece,
      Db.get?_withChunk E .interactive c.db p idx piece⟩
    intro m hm e he
    obtain ⟨m₀, hm₀, rfl⟩ := Option.map_eq_some_iff.1 hm
    rcases List.mem_cons.1 (List.mem_of_mem_take he) with rfl | he
    · rfl
    · exact hc m₀ hm₀ e (List.mem_of_mem_filter he)

/-- `mark_dirty` sets size and time of a file and changes no chunk row. -/
theorem markDirty_total (hs : Sound E db) (hu : db.Unpoliced) {p : Str} {n : ℕ}
    (hf : db.IsFile p n) (size : ℕ) (mtime : ℤ) :
    ∃ db', markDirty p size mtime db = .ok () db' ∧ Sound E db' ∧ db'.Unpoliced ∧
      db'.IsFile p size ∧ db'.chunks = db.chunks ∧ SameLinks db db' := by
  obtain ⟨row, hrow, hkind, -, hhash⟩ := hf
  obtain ⟨d, hupd, hsd, hud, hch, -, hget, hq⟩ := updateFs_total hs hu hrow
    (f := fun row => { row with size := size, mtime := mtime }) fun _ h => h
  unfold markDirty
  rw [bind_of_ok hupd, insertDirty_of_has (Table.has_eq_true.2 ⟨_, hget⟩)]
  exact ⟨_, rfl, hsd.setDirty _, hud.of_eq rfl rfl, ⟨_, hget, hkind, rfl, hhash⟩, hch,
    SameLinks.of_row hrow hget rfl rfl hq⟩

/-! ## The loop of a range write -/

/-- The chunks before `idx` are those of `b'`, the others those of `b`. -/
structure Writing (E : Ext K) (p : Str) (b b' : Bytes) (db₀ : Db K) (idx : ℕ) (c : Conn K) :
    Prop where
  /-- Counts and blobs. -/
  sound : Sound E c.db
  /-- No policy is in force. -/
  unpoliced : c.db.Unpoliced
  /-- The cache. -/
  cache : c.CacheOk E
  /-- `vm_fs` has not changed. -/
  fs : c.db.fs = db₀.fs
  /-- The chunk rows. -/
  rows : ∀ i, c.db.chunks.get? (p, i) = if i < idx then chunkRow E b' i else chunkRow E b i

/-- What a chunk becomes under a write. -/
theorem overlayPiece_chunkAt (b data : Bytes) {off idx : ℕ} (hd : data ≠ [])
    (hi : idx * chunkSize < max b.length (off + data.length)) :
    overlayPiece (chunkAt chunkSize b idx) (idx * chunkSize) (max b.length (off + data.length)) off
      data = chunkAt chunkSize (writeAt 0 b off data) idx := by
  rw [chunkAt_writeAt 0 b data hd hi, overlayPiece]
  split_ifs with h
  · rfl
  · -- No part of the data falls into the chunk.
    have hnil : slice data (max off (idx * chunkSize) - off) (min (off + data.length)
        (min (idx * chunkSize + chunkSize) (max b.length (off + data.length))) -
          max off (idx * chunkSize)) = [] := by
      rw [← List.length_eq_zero_iff, length_slice]
      omega
    rw [hnil, patch, List.length_nil, Nat.add_zero, List.append_nil, List.take_append_drop]

/-- The old content of the current chunk, read from the mixture. -/
theorem Writing.read (hE : Function.Injective E.blobKey) {p : Str} (hp : Normal p) {b b' : Bytes}
    {db₀ : Db K} {idx : ℕ} {c : Conn K} (h : Writing E p b b' db₀ idx c)
    (hf : db₀.IsFile p b.length) (hbb : b.length ≤ b'.length) (hidx : idx * chunkSize < b.length) :
    ∃ c', readRangeCached E p (idx * chunkSize) chunkSize c = .ok (chunkAt chunkSize b idx) c' ∧
      Writing E p b b' db₀ idx c' := by
  have hlen : (b'.take (idx * chunkSize) ++ b.drop (idx * chunkSize)).length = b.length := by
    simp only [List.length_append, List.length_take, List.length_drop]
    omega
  have hmix : ∀ i, _ = _ := chunkAt_join (b := b) (by omega : idx * chunkSize ≤ b'.length)
  have hfile : c.db.IsFile p b.length := by
    unfold Db.IsFile
    rw [h.fs]
    exact hf
  -- The chunks are those of one byte string: the new content up to the border, the old one behind
  -- it.
  have hholds : c.db.Holds E p (b'.take (idx * chunkSize) ++ b.drop (idx * chunkSize)) := by
    refine h.sound.holds hE (hlen.symm ▸ hfile) fun i => ?_
    rw [h.rows]
    conv_rhs => rw [chunkRow, hlen, hmix]
    by_cases hi : i < idx
    · have hi' : i * chunkSize < b.length :=
        lt_of_le_of_lt (Nat.mul_le_mul_right chunkSize (le_of_lt hi)) hidx
      rw [if_pos hi, if_pos hi, chunkRow, if_pos ((lt_numChunks_iff chunkSize_pos).2 (by omega)),
        if_pos ((lt_numChunks_iff chunkSize_pos).2 hi')]
    · rw [if_neg hi, if_neg hi, chunkRow]
  obtain ⟨c', hrun, hdb, hc'⟩ :=
    readRangeCached_of_holds hE h.cache (resolvePath_self hp hfile) hholds
    (idx * chunkSize) chunkSize
  refine ⟨c', ?_, hdb ▸ h.sound, hdb ▸ h.unpoliced, hc', hdb ▸ h.fs, hdb ▸ h.rows⟩
  rw [hrun]
  congr 1
  exact (hmix idx).trans (if_neg (lt_irrefl idx))

/-- One more chunk of a range write has its new bytes, and the write goes on. -/
theorem Writing.step (hE : Function.Injective E.blobKey) (hC : E.Faithful) {p : Str} (hp : Normal p)
    {b data : Bytes} {off : ℕ} (hd : data ≠ []) {db₀ : Db K} {idx : ℕ} {c : Conn K}
    (h : Writing E p b (writeAt 0 b off data) db₀ idx c) (hf : db₀.IsFile p b.length)
    (hidx : idx * chunkSize < max b.length (off + data.length)) :
    ∃ c', writeChunk E p b.length (max b.length (off + data.length)) off data idx c = .ok () c' ∧
      Writing E p b (writeAt 0 b off data) db₀ (idx + 1) c' := by
  have hlen := length_writeAt 0 b data off hd
  -- Putting the chunk `idx` of the new content moves the border by one, whatever has been read
  -- before.
  have hnew : ∀ {c₁ : Conn K}, Writing E p b (writeAt 0 b off data) db₀ idx c₁ →
      ∃ c', putChunk E p idx (overlayPiece (chunkAt chunkSize b idx) (idx * chunkSize)
        (max b.length (off + data.length)) off data) c₁ = .ok () c' ∧
        Writing E p b (writeAt 0 b off data) db₀ (idx + 1) c' := by
    intro c₁ h₁
    obtain ⟨c₂, hrun, hs, hu, hc, hfs, hrows⟩ := putChunk_total hC h₁.sound h₁.unpoliced h₁.cache p
      idx (overlayPiece (chunkAt chunkSize b idx) (idx * chunkSize)
        (max b.length (off + data.length)) off data)
    refine ⟨c₂, hrun, hs, hu, hc, hfs.trans h₁.fs, fun i => ?_⟩
    rw [hrows, overlayPiece_chunkAt b data hd hidx, h₁.rows]
    rcases lt_trichotomy i idx with hi | rfl | hi
    · rw [if_neg (by rintro ⟨⟩; exact lt_irrefl _ hi), if_pos hi, if_pos (by omega)]
    · rw [if_pos rfl, if_pos (by omega), chunkRow, if_pos]
      rw [lt_numChunks_iff chunkSize_pos, hlen]
      exact hidx
    · rw [if_neg (by rintro ⟨⟩; exact lt_irrefl _ hi), if_neg (by omega), if_neg (by omega)]
  unfold writeChunk
  by_cases hlt : idx * chunkSize < b.length
  · obtain ⟨c₁, hrun₁, h₁⟩ := h.read hE hp hf (by omega) hlt
    obtain ⟨c₂, hrun₂, h₂⟩ := hnew h₁
    refine ⟨c₂, ?_, h₂⟩
    rw [if_pos hlt, bind_of_ok hrun₁]
    exact hrun₂
  · -- Past the old end the old content is empty.
    obtain ⟨c₂, hrun₂, h₂⟩ := hnew h
    refine ⟨c₂, ?_, h₂⟩
    rw [chunkAt_eq_nil (not_lt.1 hlt)] at hrun₂
    rw [if_neg hlt]
    exact hrun₂

omit [DecidableEq K] in
/-- Before the first chunk nothing is new. -/
theorem chunkRow_before {b data : Bytes} {off i : ℕ} (hi : i < min off b.length / chunkSize) :
    chunkRow E (writeAt 0 b off data) i = chunkRow E b i := by
  rcases eq_or_ne data [] with rfl | hd
  · rfl
  have hlt : i * chunkSize < b.length := by
    have h1 := Nat.mul_le_mul_right chunkSize (Nat.succ_le_of_lt hi)
    have h2 := Nat.div_mul_le_self (min off b.length) chunkSize
    have h3 := chunkSize_pos
    rw [Nat.succ_mul] at h1
    omega
  rw [chunkRow, chunkRow, chunkAt_writeAt_before 0 b data hi, length_writeAt 0 b data off hd,
    if_pos ((lt_numChunks_iff chunkSize_pos).2 (by omega)),
    if_pos ((lt_numChunks_iff chunkSize_pos).2 hlt)]

omit [DecidableEq K] in
/-- After the last chunk nothing is new. -/
theorem chunkRow_after {b data : Bytes} {off i : ℕ} (hd : data ≠ [])
    (hi : (off + data.length - 1) / chunkSize < i) :
    chunkRow E (writeAt 0 b off data) i = chunkRow E b i := by
  have hle : off + data.length ≤ i * chunkSize := by
    rw [Nat.div_lt_iff_lt_mul chunkSize_pos] at hi
    omega
  have hnum : i < numChunks chunkSize (writeAt 0 b off data).length ↔
      i < numChunks chunkSize b.length := by
    rw [lt_numChunks_iff chunkSize_pos, lt_numChunks_iff chunkSize_pos,
      length_writeAt 0 b data off hd]
    omega
  rw [chunkRow, chunkRow, chunkAt_writeAt_after chunkSize_pos 0 b data hi]
  simp only [hnum]

/-! ## The operations -/

/-- After an operation: the new content, a valid cache, and every path leads where it did. -/
structure RangeStep (E : Ext K) (p : Str) (b : Bytes) (c c' : Conn K) : Prop where
  /-- The file. -/
  stored : Stored E p b c'.db
  /-- The cache. -/
  cache : c'.CacheOk E
  /-- The paths. -/
  links : SameLinks c.db c'.db

variable {p : Str} {b : Bytes} {c : Conn K}

omit [DecidableEq K] in
/-- A savepoint of a connection whose body returned is released with what the body left. -/
theorem connSavepoint_of_ok {α : Type} {x : Prg K α} {a : α} {c' : Conn K} (h : x c = .ok a c') :
    connSavepoint x c = .ok a c' := savepoint_eq_ok.2 h

omit [DecidableEq K] in
/-- A program on the connection's database returns what it returns there. -/
theorem onDb_of_ok {α : Type} {x : Sql K α} {a : α} {db' : Db K} (h : x c.db = .ok a db') :
    onDb x c = .ok a { c with db := db' } := by rw [onDb, h]

omit [DecidableEq K] in
/-- `regular_file` finds the file that the path resolves to. -/
theorem regularFile_of_isFile {vmPath : Str} {n : ℕ} (hp : resolvePath db vmPath = .ok p)
    (hf : db.IsFile p n) : regularFile vmPath db = .ok (p, n) db := by
  obtain ⟨row, hrow, hkind, hsize, -⟩ := hf
  refine query_of_ok ?_
  simp [hp, hrow, hkind, hsize, bind, Except.bind]

/-- The loop comes to each chunk with those before it already written. -/
theorem writeChunks_total (hE : Function.Injective E.blobKey) (hC : E.Faithful) (hn : Normal p)
    {data : Bytes} {off : ℕ} (hd : data ≠ []) {db₀ : Db K} (hf : db₀.IsFile p b.length) :
    ∀ {m n : ℕ} {c : Conn K}, n + m = (off + data.length - 1) / chunkSize + 1 →
      Writing E p b (writeAt 0 b off data) db₀ n c →
      ∃ c', (List.range' n m).forM
          (writeChunk E p b.length (max b.length (off + data.length)) off data) c = .ok () c' ∧
        Writing E p b (writeAt 0 b off data) db₀ (n + m) c'
  | 0, _, c, _, h => ⟨c, rfl, h⟩
  | m + 1, n, c, hnm, h => by
    have hlt : n * chunkSize < max b.length (off + data.length) := by
      have hle : n ≤ (off + data.length - 1) / chunkSize := by omega
      have hpos := List.length_pos_iff.2 hd
      rw [Nat.le_div_iff_mul_le chunkSize_pos] at hle
      omega
    obtain ⟨c₁, hrun₁, h₁⟩ := h.step hE hC hn hd hf hlt
    obtain ⟨c₂, hrun₂, h₂⟩ := writeChunks_total hE hC hn hd hf (by omega : n + 1 + m = _) h₁
    refine ⟨c₂, ?_, by rwa [Nat.add_assoc, Nat.add_comm 1 m] at h₂⟩
    rw [List.range'_succ, List.forM_eq_forM, List.forM_cons, bind_of_ok hrun₁]
    exact hrun₂

/-- A range write of a file that is stored returns, and leaves the bytes of the write. -/
theorem writeRangeDeferred_total (hE : Function.Injective E.blobKey) (hC : E.Faithful)
    (hn : Normal p) (h : Stored E p b c.db) (hc : c.CacheOk E) {vmPath : Str}
    (hp : resolvePath c.db vmPath = .ok p) (off : ℕ) (data : Bytes) (mtime : ℤ) :
    ∃ c', writeRangeDeferred E vmPath off data mtime c = .ok () c' ∧
      RangeStep E p (writeAt 0 b off data) c c' := by
  unfold writeRangeDeferred
  rw [bind_of_ok (onDb_of_ok (regularFile_of_isFile hp h.file))]
  dsimp only
  by_cases hd : data = []
  · subst hd
    exact ⟨c, by rw [if_pos rfl]; rfl, h, hc, SameLinks.of_fs rfl⟩
  have hlen := length_writeAt 0 b data off hd
  have hpos := List.length_pos_iff.2 hd
  -- Before the loop nothing is written, so the chunks are those of the old content up to the
  -- first one.
  have hstart : Writing E p b (writeAt 0 b off data) c.db (min off b.length / chunkSize) c := by
    refine ⟨h.sound, h.unpoliced, hc, rfl, fun i => ?_⟩
    split_ifs with hi
    · rw [chunkRow_before hi]
      exact h.chunked i
    · exact h.chunked i
  have hle : min off b.length / chunkSize ≤ (off + data.length - 1) / chunkSize + 1 :=
    le_trans (Nat.div_le_div_right (by omega)) (Nat.le_succ _)
  obtain ⟨c₁, hrun₁, h₁⟩ := writeChunks_total hE hC hn hd h.file (Nat.add_sub_of_le hle) hstart
  rw [Nat.add_sub_of_le hle] at h₁
  obtain ⟨db₂, hrun₂, hs, hu, hf, hch, hl⟩ := markDirty_total h₁.sound h₁.unpoliced (p := p)
    (n := b.length) (by unfold Db.IsFile; rw [h₁.fs]; exact h.file)
    (max b.length (off + data.length)) mtime
  refine ⟨{ c₁ with db := db₂ }, ?_, ⟨hs, hu, hlen ▸ hf, fun i => ?_⟩, h₁.cache,
    (SameLinks.of_fs h₁.fs).trans hl⟩
  · rw [if_neg hd]
    refine connSavepoint_of_ok ?_
    rw [bind_of_ok hrun₁]
    exact onDb_of_ok hrun₂
  · -- Every chunk is that of the new content.
    rw [show ({ c₁ with db := db₂ } : Conn K).db.chunks = c₁.db.chunks from hch, h₁.rows]
    split_ifs with hi
    · rfl
    · exact (chunkRow_after hd (by omega)).symm

/-- A chunk of a stored file can be read, from the cache or from its blob. -/
theorem chunkBytes_total (hE : Function.Injective E.blobKey) (hs : Sound E c.db) (hc : c.CacheOk E)
    {i : ℕ} {piece : Bytes} (hrow : c.db.chunks.get? (p, i) = some (E.blobKey piece)) :
    ∃ c', chunkBytes E p i c = .ok piece c' ∧ c'.db = c.db ∧ c'.CacheOk E := by
  unfold chunkBytes
  rw [bind_of_ok (onDb_query_of_ok (a := E.blobKey piece) (by rw [hrow]))]
  exact chunkByKey_ok hE p i hc (hs.decodes hE hrow)

omit [DecidableEq K] in
/-- The rows of a shrunk file before its last chunk is cut. -/
theorem chunkRow_resize {n i : ℕ} (hn : n < b.length) (hi : (i + 1) * chunkSize ≤ n) :
    chunkRow E (resize 0 b n) i = chunkRow E b i := by
  have hpos := chunkSize_pos
  rw [Nat.add_mul, Nat.one_mul] at hi
  have hfull : (chunkAt chunkSize b i).length = min chunkSize (n - i * chunkSize) := by
    rw [length_chunkAt]
    omega
  rw [chunkRow, chunkRow, chunkAt_resize, resize_of_length 0 hfull, length_resize,
    if_pos ((lt_numChunks_iff chunkSize_pos).2 (by omega)),
    if_pos ((lt_numChunks_iff chunkSize_pos).2 (by omega))]

/-- The last chunk of a shrunk file is cut. -/
theorem cutTail_total (hE : Function.Injective E.blobKey) (hC : E.Faithful) {n : ℕ}
    (hs : Sound E c.db) (hu : c.db.Unpoliced) (hc : c.CacheOk E) (hn : n < b.length)
    (hrows : ∀ i, c.db.chunks.get? (p, i) =
      if i < numChunks chunkSize n then chunkRow E b i else none) :
    ∃ c', cutTail E p n c = .ok () c' ∧ Sound E c'.db ∧ c'.db.Unpoliced ∧ c'.CacheOk E ∧
      c'.db.fs = c.db.fs ∧ c'.db.Chunked E p (resize 0 b n) := by
  have hnum : ∀ {i}, i < numChunks chunkSize n ↔ i * chunkSize < n :=
    lt_numChunks_iff chunkSize_pos
  have hpast : ∀ i, ¬ i < numChunks chunkSize n → chunkRow E (resize 0 b n) i = none := by
    intro i hi
    rw [chunkRow, length_resize, if_neg hi]
  unfold cutTail
  -- A size at a chunk's end leaves nothing to cut; otherwise the last chunk is read and stored
  -- again, shorter.
  by_cases hcut : n > 0 ∧ n % chunkSize ≠ 0
  · rw [if_pos hcut]
    generalize hidx : numChunks chunkSize n - 1 = idx
    have hlt : idx < numChunks chunkSize n := by
      have := (hnum (i := 0)).2 (by omega)
      omega
    have hle : ∀ i, i < numChunks chunkSize n → i ≠ idx → (i + 1) * chunkSize ≤ n := by
      intro i hi hne
      exact le_of_lt (hnum.1 (by omega))
    have hlt' := hnum.1 hlt
    have hrow : c.db.chunks.get? (p, idx) = some (E.blobKey (chunkAt chunkSize b idx)) := by
      rw [hrows, if_pos hlt, chunkRow, if_pos ((lt_numChunks_iff chunkSize_pos).2 (by omega))]
    obtain ⟨c₁, hrun₁, hdb₁, hc₁⟩ := chunkBytes_total hE hs hc hrow
    obtain ⟨c₂, hrun₂, hs₂, hu₂, hc₂, hfs₂, hrows₂⟩ :=
      putChunk_total hC (hdb₁ ▸ hs) (hdb₁ ▸ hu) hc₁ p
      idx ((chunkAt chunkSize b idx).take (n - idx * chunkSize))
    refine ⟨c₂, ?_, hs₂, hu₂, hc₂, hfs₂.trans (by rw [hdb₁]), fun i => ?_⟩
    · rw [bind_of_ok hrun₁]
      exact hrun₂
    · rw [hrows₂, hdb₁, hrows]
      rcases eq_or_ne i idx with rfl | hne
      · have hlen : (chunkAt chunkSize b i).length = _ := length_chunkAt b i
        rw [if_pos rfl, chunkRow, length_resize, if_pos hlt, chunkAt_resize, resize,
          extendTo_of_le 0 (by omega), Option.some.injEq]
        congr 1
        have hshort : (chunkAt chunkSize b i).length ≤ chunkSize :=
          hlen.le.trans (Nat.min_le_left _ _)
        rw [List.take_eq_take_iff, Nat.min_comm chunkSize, Nat.min_assoc, Nat.min_eq_right hshort]
      · rw [if_neg (by simpa [Prod.ext_iff] using hne)]
        split_ifs with hi
        · exact (chunkRow_resize hn (hle i hi hne)).symm
        · exact (hpast i hi).symm
  · rw [if_neg hcut]
    refine ⟨c, rfl, hs, hu, hc, rfl, fun i => ?_⟩
    rw [hrows]
    split_ifs with hi
    · refine (chunkRow_resize hn ?_).symm
      have hi' := hnum.1 hi
      have hmod : n % chunkSize = 0 := by
        by_contra hne
        exact hcut ⟨by omega, hne⟩
      obtain ⟨m, hm⟩ := Nat.dvd_of_mod_eq_zero hmod
      rw [hm, Nat.mul_comm chunkSize m] at hi' ⊢
      exact Nat.mul_le_mul_right _ (Nat.succ_le_of_lt (Nat.lt_of_mul_lt_mul_right hi'))
    · exact (hpast i hi).symm

/-- A truncation of a file that is stored returns, and leaves the resized bytes. -/
theorem truncateRangeDeferred_total (hE : Function.Injective E.blobKey) (hC : E.Faithful)
    (hn : Normal p) (h : Stored E p b c.db) (hc : c.CacheOk E) {vmPath : Str}
    (hp : resolvePath c.db vmPath = .ok p) (n : ℕ) (mtime : ℤ) :
    ∃ c', truncateRangeDeferred E vmPath n mtime c = .ok () c' ∧
      RangeStep E p (resize 0 b n) c c' := by
  unfold truncateRangeDeferred
  rw [bind_of_ok (onDb_of_ok (regularFile_of_isFile hp h.file))]
  dsimp only
  rcases lt_trichotomy n b.length with hlt | heq | hgt
  · rw [if_neg (by omega), if_neg (by omega)]
    -- The chunks past the new end are deleted, then the last one is cut.
    have hkeep : ∀ i, (c.db.delChunks fun q i => q = p && numChunks chunkSize n ≤ i).chunks.get?
        (p, i) = if i < numChunks chunkSize n then chunkRow E b i else none := by
      intro i
      rw [Db.delChunks, Table.get?_deleteWhere, h.chunked i]
      rcases chunkRow E b i with _ | k
      · simp
      · split_ifs with hi
        · simp [hi]
        · simp [not_lt.1 hi]
    obtain ⟨c₂, hrun₂, hs₂, hu₂, hc₂, hfs₂, hrows₂⟩ := cutTail_total hE hC (b := b) (n := n)
      (c := { c with db := c.db.delChunks fun q i => q = p && numChunks chunkSize n ≤ i })
      (h.sound.delChunks _) (h.unpoliced.of_eq rfl rfl) hc hlt hkeep
    obtain ⟨db₃, hrun₃, hs, hu, hf, hch, hl⟩ := markDirty_total hs₂ hu₂ (p := p) (n := b.length)
      (by unfold Db.IsFile; rw [hfs₂]; exact h.file) n mtime
    refine ⟨{ c₂ with db := db₃ }, ?_, ⟨hs, hu, (length_resize 0 b n).symm ▸ hf, fun i => ?_⟩, hc₂,
      (SameLinks.of_fs hfs₂).trans hl⟩
    · refine connSavepoint_of_ok ?_
      rw [bind_of_ok (onDb_of_ok (deleteChunks_of_unpoliced h.unpoliced _)), bind_of_ok hrun₂]
      exact onDb_of_ok hrun₃
    · rw [show ({ c₂ with db := db₃ } : Conn K).db.chunks = c₂.db.chunks from hch]
      exact hrows₂ i
  · rw [if_pos heq, resize_of_length 0 heq.symm]
    exact ⟨c, rfl, h, hc, SameLinks.of_fs rfl⟩
  · -- Growing is a write of zeros at the end.
    rw [if_neg (by omega), if_pos hgt, resize_eq_writeAt 0 hgt]
    exact writeRangeDeferred_total hE hC hn h hc (resolvePath_self hn h.file) _ _ mtime

/-! ## Whole-file hashes -/

/-- The chunks of a stored file have the lengths its size implies, and give its bytes. -/
theorem collectPieces_total (hE : Function.Injective E.blobKey) (hs : Sound E db)
    (hch : db.Chunked E p b) : ∀ (idxs : List ℕ) {c : Conn K}, c.db = db → c.CacheOk E →
      (∀ i ∈ idxs, i < numChunks chunkSize b.length) →
      ∃ c', collectPieces E p b.length idxs c = .ok (idxs.flatMap (chunkAt chunkSize b)) c' ∧
        c'.db = db
  | [], c, hdb, _, _ => ⟨c, rfl, hdb⟩
  | i :: idxs, c, hdb, hc, hall => by
    have hi := hall i (by simp)
    have hrow : c.db.chunks.get? (p, i) = some (E.blobKey (chunkAt chunkSize b i)) := by
      rw [hdb, hch, chunkRow, if_pos hi]
    obtain ⟨c₁, hrun₁, hdb₁, hc₁⟩ := chunkBytes_total hE (hdb ▸ hs) hc hrow
    obtain ⟨c₂, hrun₂, hdb₂⟩ := collectPieces_total hE hs hch idxs (hdb₁.trans hdb) hc₁
      fun j hj => hall j (by simp [hj])
    refine ⟨c₂, ?_, hdb₂⟩
    rw [collectPieces, bind_of_ok hrun₁, if_neg (by rw [length_chunkAt]; omega)]
    exact (bind_of_ok hrun₂).trans rfl

/-- The hash of a stored file is computed from its chunks. -/
theorem wholeFileHash_total (hE : Function.Injective E.blobKey) (hs : Sound E db)
    (hch : db.Chunked E p b) : wholeFileHash E p b.length db = .ok (E.blobKey b) db := by
  obtain ⟨c', hcollect, hdb⟩ := collectPieces_total hE hs hch
    (List.range (numChunks chunkSize b.length)) (c := ⟨db, none⟩) rfl (by rintro m ⟨⟩) (by simp)
  rw [flatMap_chunkAt chunkSize_pos] at hcollect
  have hbytes : withCache none (collectPieces E p b.length
      (List.range (numChunks chunkSize b.length))) db = .ok b db := by
    rw [withCache, hcollect, ← hdb]
  unfold wholeFileHash uncached
  rw [bind_of_ok hbytes]
  rfl

/-- A stale hash can be recomputed. -/
theorem finalizeFile_total (hE : Function.Injective E.blobKey) (h : Stored E p b db) :
    ∃ flag db', finalizeFile E p db = .ok flag db' ∧ Stored E p b db' ∧ SameLinks db db' := by
  unfold finalizeFile
  rw [reads_bind]
  by_cases hdirty : p ∈ db.dirty
  · obtain ⟨row, hrow, hkind, hsize, -⟩ := h.file
    have hwhole := wholeFileHash_total hE h.sound h.chunked
    obtain ⟨d, hupd, hsd, hud, hch, -, hget, hq⟩ := updateFs_total h.sound h.unpoliced hrow
      (f := fun row => { row with hash := .key (E.blobKey b) }) fun _ h => h
    refine ⟨true, { d with dirty := d.dirty.filter (· ≠ p) }, ?_,
      ⟨hsd.setDirty _, hud.of_eq rfl rfl,
      ⟨_, hget, hkind, hsize, by simp⟩, fun i => ?_⟩, SameLinks.of_row hrow hget rfl rfl hq⟩
    · rw [if_neg (by simpa using hdirty)]
      refine inSavepoint_of_ok ?_
      rw [bind_of_ok (query_of_ok (a := b.length) (by rw [hrow]; simp [hsize])), bind_of_ok hwhole,
        bind_of_ok hupd]
      rfl
    · rw [show ({ d with dirty := d.dirty.filter (· ≠ p) } : Db K).chunks = db.chunks from hch]
      exact h.chunked i
  · rw [if_pos (by simpa using hdirty)]
    exact ⟨false, db, rfl, h, SameLinks.of_fs rfl⟩

/-! ## Sequences of operations -/

/-- An operation on a range of a file, and the cache it is given. -/
inductive RangeOp (K : Type) where
  /-- `write_range`. -/
  | write (vmPath : Str) (off : ℕ) (data : Bytes) (mtime : ℤ)
  /-- `write_range_deferred`. -/
  | writeDeferred (vmPath : Str) (off : ℕ) (data : Bytes) (mtime : ℤ)
    (cache : Option (ChunkCache K))
  /-- `truncate_range`. -/
  | truncate (vmPath : Str) (newSize : ℕ) (mtime : ℤ)
  /-- `truncate_range_deferred`. -/
  | truncateDeferred (vmPath : Str) (newSize : ℕ) (mtime : ℤ) (cache : Option (ChunkCache K))

namespace RangeOp

/-- Run an operation. -/
def run (E : Ext K) : RangeOp K → Sql K Unit
  | .write vmPath off data mtime => writeRange E vmPath off data mtime
  | .writeDeferred vmPath off data mtime cache =>
    withCache cache (writeRangeDeferred E vmPath off data mtime)
  | .truncate vmPath newSize mtime => truncateRange E vmPath newSize mtime
  | .truncateDeferred vmPath newSize mtime cache =>
    withCache cache (truncateRangeDeferred E vmPath newSize mtime)

/-- The path of an operation. -/
def path : RangeOp K → Str
  | .write vmPath .. => vmPath
  | .writeDeferred vmPath .. => vmPath
  | .truncate vmPath .. => vmPath
  | .truncateDeferred vmPath .. => vmPath

/-- The cache of an operation holds what its keys name. Others may have put it there. -/
def CacheOk (E : Ext K) : RangeOp K → Prop
  | .writeDeferred _ _ _ _ (some m) => ∀ e ∈ m.entries, E.blobKey e.2 = e.1
  | .truncateDeferred _ _ _ (some m) => ∀ e ∈ m.entries, E.blobKey e.2 = e.1
  | _ => True

/-- The plain operation on the bytes of the file. -/
def apply : RangeOp K → Bytes → Bytes
  | .write _ off data _, b => writeAt 0 b off data
  | .writeDeferred _ off data _ _, b => writeAt 0 b off data
  | .truncate _ newSize _, b => resize 0 b newSize
  | .truncateDeferred _ newSize _ _, b => resize 0 b newSize

end RangeOp

omit [DecidableEq K] in
/-- A program that returns on a connection with a cache returns under it. -/
theorem withCache_of_ok {α : Type} {x : Prg K α} {cache : Option (ChunkCache K)} {a : α}
    {c' : Conn K} (h : x ⟨db, cache⟩ = .ok a c') : withCache cache x db = .ok a c'.db := by
  rw [withCache, h]

/-- An operation that is followed by the new hash of the file. -/
theorem finalized_total (hE : Function.Injective E.blobKey) {b' : Bytes} {vmPath : Str}
    {x : Prg K Unit} {c' : Conn K} (hx : x ⟨db, none⟩ = .ok () c')
    (hstep : RangeStep E p b' ⟨db, none⟩ c') (hp : resolvePath db vmPath = .ok p) :
    ∃ db', (inSavepoint do
        uncached x
        let real ← Prog.query fun db => resolvePath db vmPath
        let _ ← finalizeFile E real) db = .ok () db' ∧ Stored E p b' db' ∧ SameLinks db db' := by
  obtain ⟨flag, db', hfin, hstored, hl⟩ := finalizeFile_total hE hstep.stored
  refine ⟨db', inSavepoint_of_ok ?_, hstored, hstep.links.trans hl⟩
  have hun : uncached x db = .ok () c'.db := withCache_of_ok hx
  rw [bind_of_ok hun, bind_of_ok (query_of_ok (a := p) (by
    rw [hstep.links.resolvePath]; exact hp)), bind_of_ok hfin]
  rfl

/-- One operation: the file has the bytes the plain operation gives. -/
theorem RangeOp.run_total (hE : Function.Injective E.blobKey) (hC : E.Faithful) (hn : Normal p)
    (h : Stored E p b db) {op : RangeOp K} (hp : resolvePath db op.path = .ok p)
    (hop : op.CacheOk E) :
    ∃ db', op.run E db = .ok () db' ∧ Stored E p (op.apply b) db' ∧ SameLinks db db' := by
  rcases op with ⟨v, off, data, t⟩ | ⟨v, off, data, t, cache⟩ | ⟨v, n, t⟩ | ⟨v, n, t, cache⟩
  · obtain ⟨c', hrun, hstep⟩ := writeRangeDeferred_total hE hC hn (c := ⟨db, none⟩) h
      (by rintro m ⟨⟩) hp off data t
    exact finalized_total hE hrun hstep hp
  · obtain ⟨c', hrun, hstep⟩ := writeRangeDeferred_total hE hC hn (c := ⟨db, cache⟩) h
      (by rintro m rfl; exact hop) hp off data t
    exact ⟨c'.db, withCache_of_ok hrun, hstep.stored, hstep.links⟩
  · obtain ⟨c', hrun, hstep⟩ := truncateRangeDeferred_total hE hC hn (c := ⟨db, none⟩) h
      (by rintro m ⟨⟩) hp n t
    exact finalized_total hE hrun hstep hp
  · obtain ⟨c', hrun, hstep⟩ := truncateRangeDeferred_total hE hC hn (c := ⟨db, cache⟩) h
      (by rintro m rfl; exact hop) hp n t
    exact ⟨c'.db, withCache_of_ok hrun, hstep.stored, hstep.links⟩

/-- By induction on the operations, each returns and leaves its bytes. -/
theorem runAll_total (hE : Function.Injective E.blobKey) (hC : E.Faithful) (hn : Normal p) :
    ∀ {ops : List (RangeOp K)} {db : Db K} {b : Bytes}, Stored E p b db →
      (∀ op ∈ ops, resolvePath db op.path = .ok p ∧ op.CacheOk E) →
      ∃ db', ops.forM (RangeOp.run E) db = .ok () db' ∧
        Stored E p (ops.foldl (fun b op => op.apply b) b) db' ∧ SameLinks db db'
  | [], db, _, h, _ => ⟨db, rfl, h, SameLinks.of_fs rfl⟩
  | op :: ops, db, b, h, hall => by
    obtain ⟨hp, hop⟩ := hall op (by simp)
    obtain ⟨db₁, hrun₁, h₁, hl₁⟩ := RangeOp.run_total hE hC hn h hp hop
    obtain ⟨db₂, hrun₂, h₂, hl₂⟩ := runAll_total hE hC hn h₁ fun op' hop' => by
      rw [hl₁.resolvePath]
      exact hall op' (List.mem_cons_of_mem op hop')
    refine ⟨db₂, ?_, h₂, hl₁.trans hl₂⟩
    rw [List.forM_eq_forM, List.forM_cons, bind_of_ok hrun₁]
    exact hrun₂

/-- Range writes refine a byte array. From a file stored at a normal path, with no policy in force,
every operation of a sequence returns; afterwards the file has the bytes of the plain operations:
its size column is their number, its chunk rows are those of the bytes and every chunk but the last
is full, and `vm_cat` and every range read, with or without a cache, return them. -/
theorem rangeOps_refine_bytes {K : Type} [DecidableEq K] {db : Db K} {E : Ext K} {p : Str}
    {b : Bytes} (hE : Function.Injective E.blobKey) (hC : E.Faithful) (hn : Normal p)
    (h : Stored E p b db) (ops : List (RangeOp K))
    (hops : ∀ op ∈ ops, resolvePath db op.path = .ok p ∧ op.CacheOk E) :
    ∃ db' b', ops.forM (RangeOp.run E) db = .ok () db' ∧
      b' = ops.foldl (fun b op => op.apply b) b ∧
      (∃ row, db'.fs.get? p = some row ∧ row.kind = .file ∧ row.size = b'.length) ∧
      (∀ i, (∃ k, db'.chunks.get? (p, i) = some k) ↔ i < (b'.length + 65535) / 65536) ∧
      (∀ i k, db'.chunks.get? (p, i) = some k → ∃ piece, db'.Decodes E k piece ∧
        piece = slice b' (i * 65536) 65536 ∧
        (i + 1 < (b'.length + 65535) / 65536 → piece.length = 65536)) ∧
      ∀ vmPath, resolvePath db vmPath = .ok p → vmCat E db' vmPath = .ok b' ∧
        ∀ cache, (∀ m, cache = some m → ∀ e ∈ m.entries, E.blobKey e.2 = e.1) → ∀ off len,
          withCache cache (readRangeCached E vmPath off len) db' = .ok (slice b' off len) db' := by
  -- The run ends with the stored bytes, and each part of the claim is read off them.
  obtain ⟨db', hrun, hst, hl⟩ := runAll_total hE hC hn h hops
  have hholds := hst.sound.holds hE hst.file hst.chunked
  refine ⟨db', _, hrun, rfl, ?_, fun i => ?_, fun i k hk => ?_, fun vmPath hv => ⟨?_, ?_⟩⟩
  · obtain ⟨row, hrow, hkind, hsize, -⟩ := hst.file
    exact ⟨row, hrow, hkind, hsize⟩
  · rw [hst.chunked i, chunkRow]
    constructor
    · rintro ⟨k, hk⟩
      split_ifs at hk with hi
      exact hi
    · intro hi
      exact ⟨_, if_pos hi⟩
  · rw [hst.chunked i, chunkRow] at hk
    split_ifs at hk with hi
    cases hk
    exact ⟨_, hholds.blobs i hi, rfl, fun hnext => length_chunkAt_full chunkSize_pos hnext⟩
  · exact vmCat_of_holds (by rw [hl.resolvePath]; exact hv) hholds
  · intro cache hcache off len
    obtain ⟨c', hread, hdb, -⟩ := readRangeCached_of_holds hE (c := ⟨db', cache⟩) hcache
      (by rw [hl.resolvePath]; exact hv) hholds off len
    have := withCache_of_ok hread
    rwa [hdb] at this

/-- A database with one file of two bytes. -/
def greeting : Db Bytes :=
  endState (fsPutFile plainExt "/a".toList 420 0 [104, 105]) (initDb 0)

/-- The file of the example is stored. -/
theorem stored_greeting : Stored plainExt "/a".toList [104, 105] greeting := by
  obtain ⟨db', hrun, hs, hb, hch, row, hrow, hkind, -, hsize, hhash, -⟩ :=
    fsPutFile_total plainExt_faithful (sound_initDb plainExt 0)
    (unpoliced_initDb 0) "/a".toList 420 0
      [104, 105]
  have hdb : greeting = db' := by
    unfold greeting endState
    rw [hrun]
  rw [hdb]
  exact ⟨hs, hb.unpoliced, ⟨row, hrow, hkind, hsize, by rw [hhash]; simp⟩, hch⟩

/-- The second byte is overwritten, then a third one is added by a write past the end and cut off
again. -/
theorem rangeOps_refine_greeting : ∃ db',
    [RangeOp.write "/a".toList 1 [111] 0, .writeDeferred "/a".toList 3 [33] 0 none,
      .truncate "/a".toList 3 0].forM (RangeOp.run plainExt) greeting = .ok () db' ∧
    vmCat plainExt db' "/a".toList = .ok [104, 111, 0] := by
  have hres : resolvePath greeting "/a".toList = .ok "/a".toList := rfl
  obtain ⟨db', b', hrun, hb', -, -, -, hread⟩ := rangeOps_refine_bytes plainExt_injective
    plainExt_faithful (by decide) stored_greeting [.write "/a".toList 1 [111] 0,
      .writeDeferred "/a".toList 3 [33] 0 none, .truncate "/a".toList 3 0] (by
        intro op hop
        simp only [List.mem_cons, List.not_mem_nil, or_false] at hop
        rcases hop with rfl | rfl | rfl <;> exact ⟨hres, trivial⟩)
  refine ⟨db', hrun, ?_⟩
  rw [(hread _ hres).1, hb']
  rfl

/-- A policy that protects the file makes a range write fail. -/
theorem writeRange_refused_by_policy :
    ∃ db : Db Bytes, Sound plainExt db ∧ db.Holds plainExt "/a".toList [104, 105] ∧
      ∃ db', writeRange plainExt "/a".toList 1 [111] 0 db = .error .refused db' := by
  have hst := stored_greeting
  refine ⟨{ greeting with policies := [.readonlyPrefix "/a".toList] }, ?_, ?_, _, rfl⟩
  · exact ⟨hst.sound.refs.of_fs hst.sound.refs.inline (fun _ => rfl) rfl,
      hst.sound.faithful.of_eq rfl rfl⟩
  · have h := hst.sound.holds plainExt_injective hst.file hst.chunked
    exact ⟨h.row, h.chunks, h.blobs⟩

end Dbvm
