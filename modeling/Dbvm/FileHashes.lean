import Dbvm.EntryRuns
import Dbvm.RangeRows

/-!
# Whole-file hashes

`vm_fs.hash` is the hash of the whole content of a file, which snapshots, diffs, syncs and the
content cache rely on; a deferred write leaves it stale and marks the file. In every state of a run
the chunk rows of a file are those of some bytes, as many as the size column says; the hash of a
file that is not marked, and that of every copy in a snapshot or an undo record, is the hash of
these bytes; and whatever a read returns are these bytes.
-/

namespace Dbvm

open Lib Lib.Chunks Lib.Prog

variable {K : Type} [DecidableEq K] {E : Ext K} {p vmPath : Str} {b : Bytes} {db db' : Db K}
  {c c' : Conn K}

/-! ## The properties -/

/-- A file has the chunks of some bytes, as many as its size; a directory or a link has no chunks.
-/
def LaidOut (E : Ext K) : EntryProp K := fun _ m c =>
  (m.kind ≠ .file → c = fun _ => none) ∧
  (m.kind = .file → ∃ b : Bytes, m.size = b.length ∧ c = chunkRow E b)

/-- The same, and the hash of a file is that of the bytes. -/
def Hashed (E : Ext K) : EntryProp K := fun _ m c =>
  (m.kind ≠ .file → c = fun _ => none) ∧
    (m.kind = .file → ∃ b : Bytes, m.size = b.length ∧ m.hash = .key (E.blobKey b) ∧
      c = chunkRow E b)

/-- The entries that are not marked, and all copies, have their hashes. -/
abbrev FileHashes (E : Ext K) : Db K → Prop := EntryInv (Hashed E) (LaidOut E)

omit [DecidableEq K] in
/-- A finished file is laid out in pieces. -/
theorem Hashed.laidOut {m : FsMeta K} {c : ℕ → Option K} (h : Hashed E p m c) :
    LaidOut E p m c := by
  refine ⟨h.1, fun hk => ?_⟩
  obtain ⟨b, hsize, -, hc⟩ := h.2 hk
  exact ⟨b, hsize, hc⟩

omit [DecidableEq K] in
/-- The entry of a path is laid out in pieces, marked or not. -/
theorem EntryInv.laidOut (h : FileHashes E db) {row : FsRow K} (hrow : db.fs.get? p = some row) :
    LaidOut E p row.toFsMeta (db.keysAt p) := by
  by_cases hp : p ∈ db.dirty
  · exact h.marked p row hrow hp
  · exact (h.live p row hrow hp).laidOut

/-! ## The hash of a file -/

/-- The chunks of a file, when they can all be read, are those of its content. -/
theorem collectPieces_value (hE : Function.Injective E.blobKey) :
    ∀ {idxs : List ℕ} {c c' : Conn K} {out : Bytes},
    c.CacheOk E → c.db.Chunked E p b → (∀ i ∈ idxs, i < numChunks chunkSize b.length) →
      collectPieces E p b.length idxs c = .ok out c' → out = idxs.flatMap (chunkAt chunkSize b)
  | [], _, _, _, _, _, _, h => by
    cases h
    rfl
  | i :: idxs, c, c', out, hc, hch, hall, h => by
    obtain ⟨piece, c₁, hone, hrest⟩ := bind_eq_ok.1 h
    obtain ⟨hkey, hdb, hc₁⟩ := chunkBytes_value hc hone
    have hpiece : piece = chunkAt chunkSize b i := by
      rw [hch, chunkRow, if_pos (hall i List.mem_cons_self)] at hkey
      exact hE (Option.some.inj hkey).symm
    split_ifs at hrest
    · cases hrest
    obtain ⟨tail, c₂, htail, hret⟩ := bind_eq_ok.1 hrest
    cases hret
    rw [collectPieces_value hE hc₁ (hdb ▸ hch) (fun j hj => hall j (List.mem_cons_of_mem _ hj))
      htail, hpiece,
      List.flatMap_cons]

/-- `whole_file_hash` is the key of the content. -/
theorem wholeFileHash_value (hE : Function.Injective E.blobKey) (hch : db.Chunked E p b) {whole : K}
    (h : wholeFileHash E p b.length db = .ok whole db') : whole = E.blobKey b := by
  obtain ⟨out, d, hcollect, hret⟩ := bind_eq_ok.1 h
  cases hret
  obtain ⟨c', hrun, -⟩ := withCache_ok hcollect
  rw [collectPieces_value hE (c := ⟨db, none⟩) (by rintro m ⟨⟩) hch (by simp) hrun,
    flatMap_chunkAt chunkSize_pos]

/-! ## Reads -/

/-- The joined chunks, when the loop returns, are the first ones of the content: a chunk that has
lost its blob ends them. -/
theorem joinPieces_value (hE : Function.Injective E.blobKey) (dicts : Table ℕ Bytes)
    (blobs : Table K (Cell Block)) :
    ∀ {n first : ℕ} {out : Bytes}, joinPieces E dicts p first
        (((List.range' first n).map fun i => (i, E.blobKey (chunkAt chunkSize b i))).filterMap
          fun r => (blobs.get? r.2).map fun c => (r.1, r.2, c.val)) = .ok out →
      ∃ m ≤ n, out = (List.range' first m).flatMap (chunkAt chunkSize b)
  | 0, _, _, h => by
    cases h
    exact ⟨0, le_refl 0, rfl⟩
  | n + 1, first, out, h => by
    rw [List.range'_succ, List.map_cons, List.filterMap_cons] at h
    -- A missing blob leaves a gap, and the pieces after it would not fit; so what is read is a
    -- beginning of the file.
    rcases hblob : blobs.get? (E.blobKey (chunkAt chunkSize b first)) with _ | cell
    · -- The rows that are left come after the gap.
      rw [hblob] at h
      dsimp only [Option.map_none] at h
      refine ⟨0, Nat.zero_le _, ?_⟩
      rcases hrest :
          (((List.range' (first + 1) n).map fun i =>
            (i, E.blobKey (chunkAt chunkSize b i))).filterMap
          fun r => (blobs.get? r.2).map fun c => (r.1, r.2, c.val)) with _ | ⟨⟨idx, key, block⟩,
            rest⟩
      · rw [hrest] at h
        cases h
        rfl
      · have hmem : (idx, key, block) ∈ (((List.range' (first + 1) n).map fun i =>
            (i, E.blobKey (chunkAt chunkSize b i))).filterMap fun r => (blobs.get? r.2).map fun c =>
            (r.1, r.2, c.val)) := by
          rw [hrest]
          exact List.mem_cons_self
        obtain ⟨r, hr, he⟩ := List.mem_filterMap.1 hmem
        obtain ⟨i, hi, rfl⟩ := List.mem_map.1 hr
        obtain ⟨c, -, he⟩ := Option.map_eq_some_iff.1 he
        cases he
        have hlt := (List.mem_range'_1.1 hi).1
        rw [hrest, joinPieces, if_pos (by omega)] at h
        cases h
    · rw [hblob] at h
      dsimp only [Option.map_some] at h
      rw [joinPieces, if_neg (by simp)] at h
      rcases hdec : decodeBlock E dicts cell.val.toEnc with e | piece
      · rw [hdec] at h
        cases h
      rw [hdec] at h
      dsimp only at h
      split_ifs at h with hkey
      have hpiece : piece = chunkAt chunkSize b first := hE (not_not.1 hkey)
      rcases htail : joinPieces E dicts p (first + 1) (((List.range' (first + 1) n).map fun i =>
          (i, E.blobKey (chunkAt chunkSize b i))).filterMap fun r => (blobs.get? r.2).map fun c =>
          (r.1, r.2, c.val))
        with e | tail
      · rw [htail] at h
        cases h
      · rw [htail] at h
        cases h
        obtain ⟨m, hm, rfl⟩ := joinPieces_value hE dicts blobs htail
        refine ⟨m + 1, by omega, ?_⟩
        rw [hpiece, List.range'_succ, List.flatMap_cons]

/-- The bytes of a file, when they can be read, are those of its chunk rows. -/
theorem fileBytes_value (hE : Function.Injective E.blobKey) {row : FsRow K}
    (hrow : db.fs.get? p = some row) (hsize : row.size = b.length) (hch : db.Chunked E p b)
    {out : Bytes} (h : fileBytes E db p = .ok out) :
    out = b := by
  unfold fileBytes at h
  rw [hrow] at h
  dsimp only at h
  split_ifs at h with hkind
  rw [Db.chunkList_of_dense hch] at h
  rcases hjoin :
      joinPieces E db.dicts p 0 (((List.range (numChunks chunkSize b.length)).map fun i =>
      (i, E.blobKey (chunkAt chunkSize b i))).filterMap fun r => (db.blobs.get? r.2).map fun c =>
      (r.1, r.2, c.val))
    with e | joined
  · rw [hjoin] at h
    cases h
  rw [hjoin] at h
  dsimp only [bind, Except.bind] at h
  split_ifs at h with hlen
  cases h
  rw [List.range_eq_range'] at hjoin
  obtain ⟨m, hm, hout⟩ := joinPieces_value hE db.dicts db.blobs hjoin
  -- What is left of the content after these chunks is empty, by the length.
  have hall : (List.range' 0 m).flatMap (chunkAt chunkSize b) ++
      (List.range' m (numChunks chunkSize b.length - m)).flatMap (chunkAt chunkSize b) = b := by
    have hsplit : List.range' 0 m ++ List.range' m (numChunks chunkSize b.length - m) =
        List.range' 0 (numChunks chunkSize b.length) := by
      have := List.range'_append_1 (s := 0) (m := m) (n := numChunks chunkSize b.length - m)
      rwa [Nat.zero_add, Nat.add_sub_of_le hm] at this
    rw [← List.flatMap_append, hsplit, ← List.range_eq_range', flatMap_chunkAt chunkSize_pos]
  rw [← hout] at hall
  have hnil := congrArg List.length hall
  rw [List.length_append] at hnil
  have hrest : (List.range' m (numChunks chunkSize b.length - m)).flatMap
    (chunkAt chunkSize b) = [] :=
    List.length_eq_zero_iff.1 (by omega)
  rw [← hall, hrest, List.append_nil]

/-- What `vm_cat` returns of a path that leads to a file with such rows. -/
theorem vmCat_value (hE : Function.Injective E.blobKey) (htidy : Tidy db) {row : FsRow K}
    (hp : resolvePath db vmPath = .ok p) (hrow : db.fs.get? p = some row)
    (hsize : row.size = b.length) (hch : db.Chunked E p b) {out : Bytes}
    (h : vmCat E db vmPath = .ok out) : out = b := by
  have hcontent : db.rowContent E p row = .ok out := by
    unfold vmCat vmResolve at h
    simp only [hp, hrow, bind, Except.bind] at h
    by_cases hdir : row.kind = .dir
    · rw [if_pos hdir] at h
      simp [hdir] at h
    · rw [if_neg hdir] at h
      rcases hc : db.rowContent E p row with e | content
      · rw [hc] at h
        cases h
      · rw [hc] at h
        dsimp only at h
        rw [if_neg hdir] at h
        cases h
        rfl
  unfold Db.rowContent at hcontent
  split_ifs at hcontent with hnull
  · exact fileBytes_value hE hrow hsize hch hcontent
  · rw [htidy.inline p row hrow] at hcontent
    cases hcontent

/-! ## Range operations -/

namespace RangeOp

/-- The deferred part of an operation. -/
def deferred (E : Ext K) : RangeOp K → Prg K Unit
  | .write vmPath off data mtime => writeRangeDeferred E vmPath off data mtime
  | .writeDeferred vmPath off data mtime _ => writeRangeDeferred E vmPath off data mtime
  | .truncate vmPath newSize mtime => truncateRangeDeferred E vmPath newSize mtime
  | .truncateDeferred vmPath newSize mtime _ => truncateRangeDeferred E vmPath newSize mtime

/-- The cache of an operation. -/
def cache : RangeOp K → Option (ChunkCache K)
  | .write .. => none
  | .writeDeferred _ _ _ _ cache => cache
  | .truncate .. => none
  | .truncateDeferred _ _ _ cache => cache

/-- The deferred part has been run, and then the hash may have been computed. -/
theorem deferred_of_run {op : RangeOp K} (h : op.run E db = .ok () db') : ∃ c',
    op.deferred E ⟨db, op.cache⟩ = .ok () c' ∧
    (db' = c'.db ∨ ∃ real b, finalizeFile E real c'.db = .ok b db') := by
  rcases op with ⟨v, off, data, t⟩ | ⟨v, off, data, t, cache⟩ | ⟨v, n, t⟩ | ⟨v, n, t, cache⟩
  · obtain ⟨c', real, b, hx, hfin⟩ := exists_of_finalized h
    exact ⟨c', hx, Or.inr ⟨real, b, hfin⟩⟩
  · obtain ⟨c', hx, rfl⟩ := withCache_ok h
    exact ⟨c', hx, Or.inl rfl⟩
  · obtain ⟨c', real, b, hx, hfin⟩ := exists_of_finalized h
    exact ⟨c', hx, Or.inr ⟨real, b, hfin⟩⟩
  · obtain ⟨c', hx, rfl⟩ := withCache_ok h
    exact ⟨c', hx, Or.inl rfl⟩

/-- It resizes the file it writes. -/
theorem ranged_of_deferred {op : RangeOp K} (h : op.deferred E ⟨db, op.cache⟩ = .ok () c') :
    Ranged (op.writes db) op.time db c'.db := by
  rcases op with ⟨v, off, data, t⟩ | ⟨v, off, data, t, cache⟩ | ⟨v, n, t⟩ | ⟨v, n, t, cache⟩
  · exact writeRangeDeferred_ranged h
  · exact writeRangeDeferred_ranged h
  · exact truncateRangeDeferred_ranged h
  · exact truncateRangeDeferred_ranged h

/-- Its chunk rows are then those of the plain operation. -/
theorem chunked_of_deferred (hE : Function.Injective E.blobKey) {op : RangeOp K}
    (hop : op.CacheOk E) (hp : resolvePath db op.path = .ok p) (hf : db.RowsOf E p b)
    (h : op.deferred E ⟨db, op.cache⟩ = .ok () c') : c'.db.Chunked E p (op.apply b) := by
  rcases op with ⟨v, off, data, t⟩ | ⟨v, off, data, t, cache⟩ | ⟨v, n, t⟩ | ⟨v, n, t, cache⟩
  · exact (writeRangeDeferred_chunked hE (c := ⟨db, none⟩) (by rintro m ⟨⟩) hp hf h).1
  · exact (writeRangeDeferred_chunked hE (c := ⟨db, cache⟩) (by rintro m rfl; exact hop) hp hf h).1
  · exact truncateRangeDeferred_chunked hE (c := ⟨db, none⟩) (by rintro m ⟨⟩) hp hf h
  · exact truncateRangeDeferred_chunked hE (c := ⟨db, cache⟩) (by rintro m rfl; exact hop) hp hf h

omit [DecidableEq K] in
/-- The file it writes and its new size. -/
theorem writes_eq (hf : db.RowsOf E p b) {op : RangeOp K} (hp : resolvePath db op.path = .ok p)
    {q : Str} {size : ℕ} (hw : op.writes db = some (q, size)) :
    q = p ∧ size = (op.apply b).length := by
  have hfile : ∀ v, resolvePath db v = .ok p → db.fileOf v = some (p, b.length) := fun v hv => by
    rw [Db.fileOf, hf.fileOf hv]
  have hwrite : ∀ v off data, resolvePath db v = .ok p →
      db.writeTarget v off data = some (q, size) →
      q = p ∧ size = (writeAt 0 b off data).length := by
    intro v off data hv hw
    unfold Db.writeTarget at hw
    split_ifs at hw with hd
    rw [hfile v hv] at hw
    cases hw
    exact ⟨rfl, (length_writeAt 0 b data off hd).symm⟩
  have htruncate : ∀ v n, resolvePath db v = .ok p → db.truncateTarget v n = some (q, size) →
      q = p ∧ size = (resize 0 b n).length := by
    intro v n hv hw
    unfold Db.truncateTarget at hw
    rw [hfile v hv] at hw
    dsimp only [Option.bind_some] at hw
    rw [length_resize]
    split_ifs at hw with heq hgt
    · -- The file grows by a write of zeros.
      obtain ⟨hq, hsize⟩ := hwrite p b.length _ hf.self hw
      refine ⟨hq, hsize.trans ?_⟩
      rw [← resize_eq_writeAt 0 hgt, length_resize]
    · cases hw
      exact ⟨rfl, rfl⟩
  -- A write grows the file up to its end, a truncation up to the new size; both at the path that
  -- is resolved.
  rcases op with ⟨v, off, data, t⟩ | ⟨v, off, data, t, cache⟩ | ⟨v, n, t⟩ | ⟨v, n, t, cache⟩
  · exact hwrite v off data hp hw
  · exact hwrite v off data hp hw
  · exact htruncate v n hp hw
  · exact htruncate v n hp hw

/-- What the code relies on: the cache holds what its keys name, and a path that has been resolved
is normalised. -/
def InPlace (E : Ext K) (op : RangeOp K) (db : Db K) : Prop :=
  op.CacheOk E ∧ ∀ q, resolvePath db op.path = .ok q → Normal q

end RangeOp

omit [DecidableEq K] in
/-- A file at a normal path whose rows are laid out. -/
theorem EntryInv.rowsOf (h : FileHashes E db) (hn : Normal p) {row : FsRow K}
    (hrow : db.fs.get? p = some row) (hkind : row.kind = .file) : ∃ b, db.RowsOf E p b := by
  obtain ⟨b, hsize, hch⟩ := (h.laidOut hrow).2 hkind
  refine ⟨b, ?_, ⟨row, hrow, hkind, hsize⟩, fun i => congrFun hch i⟩
  rw [resolvePath, hn, resolveFrom, if_neg (by simp), hrow]
  simp [hkind]

omit [DecidableEq K] in
/-- A path that leads to a file has been resolved. -/
theorem resolvePath_of_fileOf {found : Str × ℕ} (h : db.fileOf vmPath = some found) :
    resolvePath db vmPath = .ok found.1 := by
  unfold Db.fileOf regularFile at h
  rcases hres : resolvePath db vmPath with e | real
  · simp [Prog.query, hres, bind, Except.bind] at h
  · rcases hrow : db.fs.get? real with _ | row
    · simp [Prog.query, hres, hrow, bind, Except.bind] at h
    · by_cases hkind : row.kind = .file
      · simp [Prog.query, hres, hrow, hkind, bind, Except.bind] at h
        rw [← h]
      · simp [Prog.query, hres, hrow, hkind, bind, Except.bind] at h

omit [DecidableEq K] in
/-- An operation that writes a file has found it. -/
theorem RangeOp.fileOf_of_writes {op : RangeOp K} {t : Str × ℕ} (h : op.writes db = some t) :
    ∃ found, db.fileOf op.path = some found := by
  have hwrite : ∀ {v off data}, db.writeTarget v off data = some t → ∃ found,
    db.fileOf v = some found := by
    intro v off data hw
    unfold Db.writeTarget at hw
    split_ifs at hw
    obtain ⟨f, hf, -⟩ := Option.map_eq_some_iff.1 hw
    exact ⟨f, hf⟩
  have htruncate : ∀ {v n}, db.truncateTarget v n = some t → ∃ found, db.fileOf v = some found := by
    intro v n hw
    obtain ⟨f, hf, -⟩ := Option.bind_eq_some_iff.1 hw
    exact ⟨f, hf⟩
  rcases op with _ | _ | _ | _
  · exact hwrite h
  · exact hwrite h
  · exact htruncate h
  · exact htruncate h

/-- A marked file has its hash once it is computed. -/
theorem entryRules_hashed (hE : Function.Injective E.blobKey) :
    EntryRules E (Hashed E) (LaidOut E) where
  node _ _ _ _ _ _ hkind := ⟨fun _ => rfl, fun hfile => absurd hfile hkind⟩
  finalized p db row whole _ _ hD hwhole := by
    refine ⟨hD.1, fun hkind => ?_⟩
    obtain ⟨b, hsize, hch⟩ := hD.2 hkind
    have hsize' : row.size = b.length := hsize
    rw [hsize'] at hwhole
    refine ⟨b, hsize, ?_, hch⟩
    rw [wholeFileHash_value hE (fun i => congrFun hch i) hwhole]

/-- A range operation leaves a file with the chunks of its new content, marked or with its hash. -/
theorem EntryInv.rangeOp_hashed (hE : Function.Injective E.blobKey) (h : FileHashes E db)
    {op : RangeOp K} (hop : op.InPlace E db) : FileHashes E (endState (op.run E) db) := by
  refine Atomic.endState op.atomic h fun u db' hx => ?_
  obtain ⟨c', hdef, hrest⟩ := RangeOp.deferred_of_run hx
  have hranged := RangeOp.ranged_of_deferred hdef
  have hmid : FileHashes E c'.db := by
    unfold Ranged at hranged
    rcases htarget : op.writes db with _ | ⟨q, size⟩
    · rw [htarget] at hranged
      rw [hranged]
      exact h
    · rw [htarget] at hranged
      refine h.resized hranged fun row hrow hkind => ⟨fun hnot => absurd hkind hnot, fun _ => ?_⟩
      obtain ⟨found, hfound⟩ := RangeOp.fileOf_of_writes htarget
      have hres := resolvePath_of_fileOf hfound
      have hn : Normal found.1 := hop.2 _ hres
      obtain ⟨row', hrow', hkind'⟩ : ∃ row', db.fs.get? found.1 = some row' ∧
        row'.kind = .file := by
        unfold Db.fileOf at hfound
        rcases hreg : regularFile op.path db with ⟨f, d⟩ | ⟨e, d⟩
        · rw [hreg] at hfound
          cases hfound
          obtain ⟨-, -, row', hrow', hkind', -⟩ := regularFile_ok hreg
          exact ⟨row', hrow', hkind'⟩
        · rw [hreg] at hfound
          cases hfound
      obtain ⟨b, hf⟩ := h.rowsOf hn hrow' hkind'
      obtain ⟨rfl, hsize⟩ := RangeOp.writes_eq hf hres htarget
      exact ⟨op.apply b, hsize, funext (RangeOp.chunked_of_deferred hE hop.1 hres hf hdef)⟩
  -- The finalization that may follow the deferred part writes the hash of the whole content.
  rcases hrest with rfl | ⟨real, b, hfin⟩
  · exact hmid
  · exact ((entryRules_hashed hE).keeps_finalizeFile real).triple c'.db b db' hmid hfin

/-- Every operation keeps the hashes. -/
theorem uniformRules_hashed (hE : Function.Injective E.blobKey) :
    UniformRules E (Hashed E) (LaidOut E) (RangeOp.InPlace E) where
  toEntryRules := entryRules_hashed hE
  weaken h := h.laidOut
  file p mode mtime ns data := ⟨fun hnot => absurd rfl hnot, fun _ => ⟨data, rfl, rfl, rfl⟩⟩
  touch {p row f c} hf := by
    obtain ⟨-, hkind, hsize, hhash⟩ := hf row
    have hkind' : (f row).toFsMeta.kind = row.toFsMeta.kind := hkind
    have hsize' : (f row).toFsMeta.size = row.toFsMeta.size := hsize
    have hhash' : (f row).toFsMeta.hash = row.toFsMeta.hash := hhash
    unfold Hashed LaidOut
    rw [hkind', hsize', hhash']
    exact ⟨id, id⟩
  move := ⟨id, id⟩
  second {p m c} h hkind hsize := by
    obtain ⟨b, hb, rfl⟩ := h.2 hkind
    have hlt : chunkSize < b.length := hb ▸ hsize
    have h0 : 0 < numChunks chunkSize b.length := (lt_numChunks_iff chunkSize_pos).2 (by omega)
    have h1 : 1 < numChunks chunkSize b.length := (lt_numChunks_iff chunkSize_pos).2 (by omega)
    rw [chunkRow, if_pos h0, chunkRow, if_pos h1]
    exact ⟨Option.some_ne_none _, Option.some_ne_none _⟩
  range _ _ h hop := h.rangeOp_hashed hE hop

/-! ## Runs -/

omit [DecidableEq K] in
/-- The chunk rows of a file and its size tell its content. -/
theorem chunkRow_injective (hE : Function.Injective E.blobKey) {b b' : Bytes}
    (hlen : b'.length = b.length) (h : chunkRow E b' = chunkRow E b) : b' = b := by
  have hpieces : ∀ i ∈ List.range (numChunks chunkSize b.length),
    chunkAt chunkSize b' i = chunkAt chunkSize b i := by
    intro i hi
    have hrow := congrFun h i
    rw [chunkRow, chunkRow, hlen, if_pos (List.mem_range.1 hi),
      if_pos (List.mem_range.1 hi)] at hrow
    exact hE (Option.some.inj hrow)
  calc b' = (List.range (numChunks chunkSize b'.length)).flatMap (chunkAt chunkSize b') :=
        (flatMap_chunkAt chunkSize_pos b').symm
    _ = (List.range (numChunks chunkSize b.length)).flatMap (chunkAt chunkSize b) := by
        rw [hlen]
        exact List.flatMap_congr hpieces
    _ = b := flatMap_chunkAt chunkSize_pos b

/-- In every state of a run, the hash of a file without a mark is the hash of its content, which is
what every read of it that returns gives; the same hash goes with the content in every copy that a
snapshot or an undo record keeps; and only files have chunks. -/
theorem hashes_of_run {K : Type} [DecidableEq K] {E : Ext K} {db : Db K}
    (hE : Function.Injective E.blobKey)
    (h : SoloRun E (SoloOp.Fits (Hashed E) (RangeOp.InPlace E)) db) :
    (∀ p row, db.fs.get? p = some row → row.kind = .file → ∃ b : Bytes, row.size = b.length ∧
      (∀ i, db.chunks.get? (p, i) = chunkRow E b i) ∧
      (p ∉ db.dirty → row.hash = .key (E.blobKey b)) ∧
      ∀ vmPath out, resolvePath db vmPath = .ok p → vmCat E db vmPath = .ok out → out = b) ∧
    (∀ p i k, db.chunks.get? (p, i) = some k → ∃ row, db.fs.get? p = some row ∧ row.kind = .file) ∧
    (∀ id p m, db.snapFs.get? (id, p) = some m → m.kind = .file → ∃ b : Bytes, m.size = b.length ∧
      m.hash = .key (E.blobKey b) ∧ ∀ i, db.snapChunks.get? (id, p, i) = chunkRow E b i) ∧
    ∀ id p m, db.undoFs.get? (id, p) = some (some m) → m.kind = .file → ∃ b : Bytes,
      m.size = b.length ∧
      m.hash = .key (E.blobKey b) ∧ ∀ i, db.undoChunks.get? (id, p, i) = chunkRow E b i := by
  -- The invariant of the runs; the four parts are read off the live rows, the chunk rows, the
  -- snapshots and the records.
  have hinv : FileHashes E db := (uniformRules_hashed hE).of_run h
  refine ⟨fun p row hrow hkind => ?_, fun p i k hk => ?_, fun id p m hm hkind => ?_,
    fun id p m hm hkind => ?_⟩
  · obtain ⟨b, hsize, hch⟩ := (hinv.laidOut hrow).2 hkind
    have hchunked : db.Chunked E p b := fun i => congrFun hch i
    refine ⟨b, hsize, hchunked, fun hp => ?_, fun vmPath out hres hcat =>
      vmCat_value hE hinv.toTidy hres hrow hsize hchunked hcat⟩
    obtain ⟨b', hsize', hhash, hch'⟩ := (hinv.live p row hrow hp).2 hkind
    rw [← chunkRow_injective hE (hsize'.symm.trans hsize) (hch'.symm.trans hch)]
    exact hhash
  · rcases hrow : db.fs.get? p with _ | row
    · rw [hinv.rows p i hrow] at hk
      cases hk
    · refine ⟨row, rfl, ?_⟩
      by_contra hnot
      have hnone : db.chunks.get? (p, i) = none := congrFun ((hinv.laidOut hrow).1 hnot) i
      rw [hnone] at hk
      cases hk
  · obtain ⟨b, hsize, hhash, hch⟩ := (hinv.snaps id p m hm).2 hkind
    exact ⟨b, hsize, hhash, congrFun hch⟩
  · obtain ⟨b, hsize, hhash, hch⟩ := (hinv.undos id p m hm).2 hkind
    exact ⟨b, hsize, hhash, congrFun hch⟩

/-- A database with one file, one of whose bytes has been overwritten. -/
def edited : Db Bytes :=
  endState ((SoloOp.store (.writeRange "/a".toList 1 [111] 0)).run plainExt)
    (endState ((SoloOp.store (.addBytes "/a".toList [104, 105] 420 0 0)).run plainExt) (initDb 0))

/-- The run of the example. -/
theorem edited_run :
    SoloRun plainExt (SoloOp.Fits (Hashed plainExt) (RangeOp.InPlace plainExt)) edited := by
  have hadd : SoloRun plainExt (SoloOp.Fits (Hashed plainExt) (RangeOp.InPlace plainExt)) _ :=
    (SoloRun.init 0).step (.store (.addBytes "/a".toList [104, 105] 420 0 0)) trivial
  refine hadd.step (.store (.writeRange "/a".toList 1 [111] 0)) ⟨trivial, fun q hq => ?_⟩
  have hres :
      resolvePath (endState ((SoloOp.store (.addBytes "/a".toList [104, 105] 420 0 0)).run plainExt)
      (initDb 0)) "/a".toList = .ok "/a".toList := by decide +kernel
  cases hres.symm.trans hq
  decide

/-- Its hash is that of the content. -/
theorem hashes_of_run_edited :
    ∃ row, edited.fs.get? "/a".toList = some row ∧ row.hash = .key [104, 111] := by
  have hrow : ∃ row, edited.fs.get? "/a".toList = some row ∧ row.kind = .file := by decide +kernel
  have hcat : vmCat plainExt edited "/a".toList = .ok [104, 111] := by decide +kernel
  have hres : resolvePath edited "/a".toList = .ok "/a".toList := by decide +kernel
  have hdirty : "/a".toList ∉ edited.dirty := by decide +kernel
  obtain ⟨row, hget, hkind⟩ := hrow
  obtain ⟨b, -, -, hhash, hread⟩ := (hashes_of_run plainExt_injective edited_run).1 _ row hget hkind
  refine ⟨row, hget, ?_⟩
  rw [hhash hdirty, ← hread _ _ hres hcat]
  rfl

end Dbvm
