import Dbvm.Host.Entry
import Dbvm.Maint
import Dbvm.RangeWrite
import Dbvm.Undo.Apply

/-!
# Rechunking

What `vm_rechunk` (`src/vm/maint.rs`) leaves behind, for a codec that gives back what it encodes and
a database with exact reference counts. A file is rechunked unless a policy protects its path or a
blob that does not decode already has the key of one of its pieces; neither changes while other
files are rechunked, so a second run finds nothing to do.
-/

namespace Dbvm

open Lib Lib.Chunks Lib.Prog

variable {K : Type} [DecidableEq K]

/-! ## Filling a file again -/

section Refill

variable {E : Ext K} {db d d' : Db K} {p : Str} {data : Bytes} {n : ℕ}

/-- Storing a piece adds its blob where there is none under its key. -/
theorem Db.get?_withBlob (E : Ext K) (effort : Effort) (db : Db K) (piece : Bytes) (k : K) :
    (db.withBlob E effort piece).blobs.get? k = if k = E.blobKey piece then
      some ((db.blobs.get? k).getD ⟨⟨encodeBlock E db.dicts piece effort, piece.length⟩, 0⟩)
      else db.blobs.get? k := by
  unfold Db.withBlob
  split_ifs with hhas hk hk
  · obtain ⟨c, hc⟩ := Table.has_eq_true.1 hhas
    rw [hk, hc, Option.getD_some]
  · rfl
  · rw [Db.addBlob, Table.get?_insertIgnore, if_pos hk, hk]
  · rw [Db.addBlob, Table.get?_insertIgnore, if_neg hk]

/-- The counts stay exact when a blob is stored that is there already or has no reference yet. -/
theorem Db.exact_withBlob (h : Store.Exact db.refs db.blobs) (effort : Effort) (piece : Bytes) :
    Store.Exact (db.withBlob E effort piece).refs (db.withBlob E effort piece).blobs := by
  unfold Db.withBlob
  split_ifs with hhas
  · exact h
  · exact h.insert (Table.get?_of_not_has hhas) _

/-- A chunk row of a stored blob leaves the reference counts exact. -/
theorem Db.exact_addChunk (h : Store.Exact db.refs db.blobs) {i : ℕ} {k : K} {c : Cell Block}
    (hfree : db.chunks.get? (p, i) = none) (hk : db.blobs.get? k = some c) :
    Store.Exact (db.addChunk p i k).refs (db.addChunk p i k).blobs := by
  refine h.acquire hk fun k' => ?_
  simp only [Db.refs, Db.addChunk, Table.count_insertIgnore hfree, eq_comm (a := k)]
  omega

/-- A delete of chunk rows leaves the reference counts exact. -/
theorem Db.exact_delChunks (h : Store.Exact db.refs db.blobs) (sel : Str → ℕ → Bool) :
    Store.Exact (db.delChunks sel).refs (db.delChunks sel).blobs := by
  refine h.releaseAll _ fun k => ?_
  have hcount := Table.count_deleteWhere db.chunks (fun c _ => sel c.1 c.2) k
  simp only [Db.refs, Db.delChunks, Db.releaseBlobs, Db.chunkKeys]
  omega

/-- The rows of `p` are the first `n` pieces of `data`, in a state that comes from `db`. -/
structure Refill (E : Ext K) (db : Db K) (p : Str) (data : Bytes) (n : ℕ) (d : Db K) : Prop where
  /-- The policies and `vm_fs`. -/
  same : SamePolicy db d
  dicts : d.dicts = db.dicts
  snaps : d.snapChunks = db.snapChunks
  undos : d.undoChunks = db.undoChunks
  /-- The reference counts. -/
  exact : Store.Exact d.refs d.blobs
  /-- The chunk rows of other paths. -/
  others : ∀ q i, q ≠ p → d.chunks.get? (q, i) = db.chunks.get? (q, i)
  /-- The chunk rows of the path. -/
  rows : ∀ i, d.chunks.get? (p, i) = if i < n then some (E.blobKey (chunkAt chunkSize data i))
    else none
  /-- A blob that the path did not use is still there. -/
  kept : ∀ k c, db.blobs.get? k = some c → k ∉ db.chunkKeys (fun q _ => q = p) →
    ∃ c', d.blobs.get? k = some c' ∧ c'.val = c.val
  /-- A blob was there before, or holds a piece. -/
  blobs : ∀ k c', d.blobs.get? k = some c' → (∃ c, db.blobs.get? k = some c ∧ c'.val = c.val) ∨
    ∃ i, i < n ∧ k = E.blobKey (chunkAt chunkSize data i) ∧
      decodeBlock E db.dicts c'.val.toEnc = .ok (chunkAt chunkSize data i)

/-- Deleting the old rows leaves a file without pieces. -/
theorem Refill.start (h : Store.Exact db.refs db.blobs) (p : Str) (data : Bytes) :
    Refill E db p data 0 (db.delChunks fun q _ => q = p) where
  same := samePolicy_delChunks db _
  dicts := rfl
  snaps := rfl
  undos := rfl
  exact := Db.exact_delChunks h _
  others q i hq := by rw [Db.get?_delChunks, if_neg (by simpa using hq)]
  rows i := by rw [Db.get?_delChunks, if_pos (decide_eq_true rfl), if_neg (Nat.not_lt_zero i)]
  kept k c hc hk := by
    refine ⟨c, ?_, rfl⟩
    rw [← hc]
    exact Store.get?_releaseAll_of_not_mem _ hk
  blobs k c' hc' := Or.inl (Store.get?_of_releaseAll _ hc')

/-- One more piece is stored and listed. -/
theorem Refill.step (hC : E.Faithful) (h : Refill E db p data n d)
    (hpath : db.refusesPath p = false) :
    ∃ d', appendChunk E p n (chunkAt chunkSize data n) d = .ok () d' ∧
    Refill E db p data (n + 1) d' := by
  have hfree : d.chunks.get? (p, n) = none := by rw [h.rows, if_neg (lt_irrefl n)]
  have hrun := appendChunk_of_path (E := E) (chunkAt chunkSize data n)
    ((h.same.refusesPath p).trans hpath) hfree
  have hget : ∀ k, ((d.withBlob E .archive (chunkAt chunkSize data n)).addChunk p n
      (E.blobKey (chunkAt chunkSize data n))).blobs.get? k = if k = E.blobKey
      (chunkAt chunkSize data n) then
        some { ((d.blobs.get? k).getD
          ⟨⟨encodeBlock E d.dicts (chunkAt chunkSize data n) .archive,
            (chunkAt chunkSize data n).length⟩, 0⟩) with
          refcnt :=
            ((d.blobs.get? k).getD ⟨⟨encodeBlock E d.dicts (chunkAt chunkSize data n) .archive,
            (chunkAt chunkSize data n).length⟩, 0⟩).refcnt + 1 } else d.blobs.get? k := by
    intro k
    rw [Db.addChunk, Store.get?_acquire]
    split_ifs with hk
    · rw [← hk, Db.get?_withBlob, if_pos hk, Option.map_some]
    · rw [Db.get?_withBlob, if_neg hk]
  have hrows := (appendChunk_ok hrun).2
  -- Every part of the loop invariant, after the blob and the row of chunk `n`.
  refine ⟨_, hrun, ?_, ?_, ?_, ?_, ?_, fun q i hq => ?_, fun i => ?_, fun k c hc hk => ?_,
    fun k c' hc' => ?_⟩
  · exact h.same.trans (appendChunk_same hrun)
  · exact (Db.withBlob_dicts E .archive d _).trans h.dicts
  · exact (Db.withBlob_snapChunks E .archive d _).trans h.snaps
  · exact (Db.withBlob_undoChunks E .archive d _).trans h.undos
  · have hblob := Db.get?_withBlob E .archive d (chunkAt chunkSize data n)
      (E.blobKey (chunkAt chunkSize data n))
    rw [if_pos rfl] at hblob
    exact Db.exact_addChunk (Db.exact_withBlob h.exact _ _) (by rwa [Db.withBlob_chunks]) hblob
  · rw [hrows, if_neg (by rintro ⟨⟩; exact hq rfl)]
    exact h.others q i hq
  · rw [hrows, h.rows]
    rcases lt_trichotomy i n with hi | rfl | hi
    · rw [if_neg (by rintro ⟨⟩; exact lt_irrefl _ hi), if_pos hi, if_pos (by omega)]
    · rw [if_pos rfl, if_pos (by omega)]
    · rw [if_neg (by rintro ⟨⟩; exact lt_irrefl _ hi), if_neg (by omega), if_neg (by omega)]
  · obtain ⟨c', hc', hval⟩ := h.kept k c hc hk
    rw [hget, hc', Option.getD_some]
    split_ifs
    · exact ⟨_, rfl, hval⟩
    · exact ⟨c', rfl, hval⟩
  · rw [hget] at hc'
    split_ifs at hc' with hk
    · -- The blob of the piece: it was there, or it is what the codec makes of the piece.
      rcases hold : d.blobs.get? k with _ | c
      · rw [hold, Option.getD_none] at hc'
        cases hc'
        refine Or.inr ⟨n, by omega, hk, ?_⟩
        rw [h.dicts]
        exact hC _ _ _
      · rw [hold, Option.getD_some] at hc'
        cases hc'
        rcases h.blobs k c hold with hbefore | ⟨i, hi, hki, hdec⟩
        · exact Or.inl hbefore
        · exact Or.inr ⟨i, by omega, hki, hdec⟩
    · rcases h.blobs k c' hc' with hbefore | ⟨i, hi, hki, hdec⟩
      · exact Or.inl hbefore
      · exact Or.inr ⟨i, by omega, hki, hdec⟩

/-- The content of a file is replaced, whatever blobs there are, unless its path is protected. -/
theorem chunksReplace_refill (hC : E.Faithful) (h : Store.Exact db.refs db.blobs)
    (hpath : db.refusesPath p = false) (data : Bytes) : ∃ d, chunksReplace E p data db = .ok () d ∧
      Refill E db p data (numChunks chunkSize data.length) d := by
  -- `n` pieces are there when the loop comes to piece `n`.
  have hloop := forM_total (f := fun piece : Bytes × ℕ => appendChunk E p piece.2 piece.1)
    (J := fun rest d => ∃ n m, n + m = numChunks chunkSize data.length ∧
      rest = (List.range' n m).map (fun i => (chunkAt chunkSize data i, i)) ∧
      Refill E db p data n d) ?_
    (chunksOf chunkSize data).zipIdx
    ⟨0, _, Nat.zero_add _, zipIdx_chunksOf _ _, Refill.start (E := E) h p data⟩
  · obtain ⟨d, hrun, n, m, hnm, hnil, hfill⟩ := hloop
    have hm : m = 0 := by simpa using (congrArg List.length hnil).symm
    rw [hm, Nat.add_zero] at hnm
    refine ⟨d, ?_, hnm ▸ hfill⟩
    unfold chunksReplace
    rw [bind_of_ok (deleteChunks_of_path hpath)]
    exact hrun
  · rintro x rest d ⟨n, m, hnm, heq, hfill⟩
    rcases m with _ | m
    · cases heq
    · rw [List.range'_succ, List.map_cons] at heq
      obtain ⟨rfl, rfl⟩ := List.cons.inj heq
      obtain ⟨d', hrun, hfill'⟩ := hfill.step hC hpath
      exact ⟨d', hrun, n + 1, m, by omega, rfl, hfill'⟩

end Refill

/-! ## One file -/

/-- A blob that no reader accepts. -/
def Db.Bad (E : Ext K) (db : Db K) (k : K) : Prop :=
  (∃ c, db.blobs.get? k = some c) ∧ ∀ piece, ¬ db.Decodes E k piece

/-- The content of a file is read from one chunk row, and is longer than a chunk. A row without a
hash is not read from its chunk rows. -/
structure Db.OneChunk (E : Ext K) (db : Db K) (p : Str) (b : Bytes) : Prop where
  row : db.IsFile p b.length
  single : (db.chunkList p).length = 1
  bytes : fileBytes E db p = .ok b
  long : chunkSize < b.length

/-- The file cannot be rechunked: its path is protected, or a bad blob has the key of a piece. -/
def Db.Stuck (E : Ext K) (db : Db K) (p : Str) (b : Bytes) : Prop := db.refusesPath p = true ∨
  ∃ i, i < numChunks chunkSize b.length ∧ db.Bad E (E.blobKey (chunkAt chunkSize b i))

section One

variable {E : Ext K} {db d : Db K} {p q : Str} {b : Bytes}

/-- A list of chunks that is read decodes. -/
theorem joinPieces_decodes {dicts : Table ℕ Bytes} :
    ∀ {l : List (ℕ × K × Block)} {first : ℕ} {out : Bytes},
    joinPieces E dicts p first l = .ok out →
      ∀ r ∈ l, ∃ piece, decodeBlock E dicts r.2.2.toEnc = .ok piece ∧ E.blobKey piece = r.2.1
  | [], _, _, _, r, hr => by cases hr
  | (idx, key, blk) :: l, first, out, h, r, hr => by
    unfold joinPieces at h
    split_ifs at h with hidx
    rcases hdec : decodeBlock E dicts blk.toEnc with e | piece
    · rw [hdec] at h
      cases h
    rw [hdec] at h
    dsimp only at h
    split_ifs at h with hkey
    obtain ⟨tail, htail, -⟩ := except_bind_eq_ok.1 h
    rcases List.mem_cons.1 hr with rfl | hr
    · exact ⟨piece, hdec, not_not.1 hkey⟩
    · exact joinPieces_decodes htail r hr

/-- A chunk row of a file that is read leads to a blob that decodes, or to none. -/
theorem decodes_of_fileBytes {i : ℕ} {k : K} {c : Cell Block} (h : fileBytes E db p = .ok b)
    (hk : db.chunks.get? (p, i) = some k) (hc : db.blobs.get? k = some c) :
    ∃ piece, db.Decodes E k piece := by
  unfold fileBytes at h
  rcases hrow : db.fs.get? p with _ | row
  · rw [hrow] at h
    cases h
  rw [hrow] at h
  dsimp only at h
  split_ifs at h
  obtain ⟨out, hout, -⟩ := except_bind_eq_ok.1 h
  have hmem : (i, k, c.val) ∈ (db.chunkList p).filterMap fun r =>
      (db.blobs.get? r.2).map fun c => (r.1, r.2, c.val) :=
    List.mem_filterMap.2 ⟨(i, k), Db.mem_chunkList.2 hk, by rw [hc]; rfl⟩
  obtain ⟨piece, hdec, hkey⟩ := joinPieces_decodes hout _ hmem
  exact ⟨piece, c, hc, hdec, hkey⟩

/-- The only chunk is the content. -/
theorem Db.OneChunk.chunkList_eq (h : db.OneChunk E p b) :
    db.chunkList p = [(0, E.blobKey b)] ∧ db.Decodes E (E.blobKey b) b := by
  obtain ⟨⟨i, k⟩, hlist⟩ := List.length_eq_one_iff.1 h.single
  obtain ⟨row, hrow, hkind, hsize, -⟩ := h.row
  have hbytes := h.bytes
  have hlong := h.long
  unfold fileBytes at hbytes
  rw [hrow] at hbytes
  dsimp only at hbytes
  rw [if_neg (by simp [hkind]), hlist] at hbytes
  obtain ⟨out, hout, hcheck⟩ := except_bind_eq_ok.1 hbytes
  split_ifs at hcheck with hlen
  cases hcheck
  -- The file is longer than nothing, so its one chunk has to have a blob, which holds all of it.
  rcases hc : db.blobs.get? k with _ | c
  · -- Without its blob the row drops out, and nothing is read.
    simp only [List.filterMap_cons, hc, Option.map_none, List.filterMap_nil, joinPieces] at hout
    cases hout
    simp at hlong
  · simp only [List.filterMap_cons, hc, Option.map_some, List.filterMap_nil, joinPieces] at hout
    split_ifs at hout with hidx
    rcases hdec : decodeBlock E db.dicts c.val.toEnc with e | piece
    · rw [hdec] at hout
      cases hout
    rw [hdec] at hout
    dsimp only at hout
    split_ifs at hout with hkey
    cases hout
    obtain rfl := not_not.1 hidx
    obtain rfl := not_not.1 hkey
    rw [List.append_nil]
    exact ⟨hlist, c, hc, hdec, rfl⟩

/-- The only chunk of the file is its whole content. -/
theorem Db.OneChunk.chunkKeys (h : db.OneChunk E p b) {k : K}
    (hk : k ∈ db.chunkKeys fun q _ => q = p) :
    k = E.blobKey b := by
  obtain ⟨q, i, hq, hrow⟩ := Db.mem_chunkKeys.1 hk
  obtain rfl : q = p := by simpa using hq
  have hmem := Db.mem_chunkList.2 hrow
  rw [h.chunkList_eq.1, List.mem_singleton] at hmem
  exact (Prod.mk.inj hmem).2

/-- A piece has at most the chunk size. -/
theorem length_chunkAt_le (b : Bytes) (i : ℕ) : (chunkAt chunkSize b i).length ≤ chunkSize := by
  rw [length_chunkAt]
  omega

/-- A piece is not the whole content. -/
theorem Db.OneChunk.piece_ne (h : db.OneChunk E p b) (i : ℕ) : chunkAt chunkSize b i ≠ b := by
  intro heq
  have hle := length_chunkAt_le b i
  have hlong := h.long
  rw [heq] at hle
  omega

/-- A blob that is there before and after has the same content. -/
theorem Refill.val {n : ℕ} (hE : Function.Injective E.blobKey) (hone : db.OneChunk E p b)
    (h : Refill E db p b n d) {k : K} {c c' : Cell Block} (hc : db.blobs.get? k = some c)
    (hc' : d.blobs.get? k = some c') : c'.val = c.val := by
  by_cases hk : k ∈ db.chunkKeys fun q _ => q = p
  · obtain rfl := hone.chunkKeys hk
    rcases h.blobs _ c' hc' with ⟨c₀, hc₀, hval⟩ | ⟨i, -, hki, -⟩
    · rw [hc] at hc₀
      rw [hval, Option.some.inj hc₀]
    · exact absurd (hE hki).symm (hone.piece_ne i)
  · obtain ⟨c₀, hc₀, hval⟩ := h.kept k c hc hk
    rw [hc'] at hc₀
    rw [Option.some.inj hc₀, hval]

/-- A blob with the same encoding decodes to the same bytes while the file is filled again. -/
theorem Refill.decodes {n : ℕ} (h : Refill E db p b n d) {k : K} {c c' : Cell Block}
    (hc : db.blobs.get? k = some c) (hc' : d.blobs.get? k = some c') (hval : c'.val = c.val)
    (piece : Bytes) :
    d.Decodes E k piece ↔ db.Decodes E k piece := by
  constructor
  · rintro ⟨c₀, hc₀, hdec, hkey⟩
    rw [hc'] at hc₀
    obtain rfl := Option.some.inj hc₀
    rw [hval, h.dicts] at hdec
    exact ⟨c, hc, hdec, hkey⟩
  · rintro ⟨c₀, hc₀, hdec, hkey⟩
    rw [hc] at hc₀
    obtain rfl := Option.some.inj hc₀
    refine ⟨c', hc', ?_, hkey⟩
    rw [hval, h.dicts]
    exact hdec

/-- The bad blobs stay the same. -/
theorem Refill.bad {n : ℕ} (hone : db.OneChunk E p b) (h : Refill E db p b n d) (k : K) :
    d.Bad E k ↔ db.Bad E k := by
  constructor
  · rintro ⟨⟨c', hc'⟩, hbad⟩
    rcases h.blobs k c' hc' with ⟨c, hc, hval⟩ | ⟨i, -, rfl, hdec⟩
    · exact ⟨⟨c, hc⟩, fun piece hp => hbad piece ((h.decodes hc hc' hval piece).2 hp)⟩
    · exact absurd ⟨c', hc', by rwa [h.dicts], rfl⟩ (hbad (chunkAt chunkSize b i))
  · rintro ⟨⟨c, hc⟩, hbad⟩
    have hk : k ∉ db.chunkKeys fun q _ => q = p := by
      intro hk
      rw [hone.chunkKeys hk] at hbad
      exact hbad b hone.chunkList_eq.2
    obtain ⟨c', hc', hval⟩ := h.kept k c hc hk
    exact ⟨⟨c', hc'⟩, fun piece hp => hbad piece ((h.decodes hc hc' hval piece).1 hp)⟩

/-- Every other file reads the same. -/
theorem Refill.fileBytes {n : ℕ} (hE : Function.Injective E.blobKey)
    (hx : Store.Exact db.refs db.blobs) (hone : db.OneChunk E p b) (h : Refill E db p b n d)
    (hq : q ≠ p) :
    fileBytes E d q = fileBytes E db q := by
  have hentry : d.entry q = db.entry q := by
    unfold Db.entry
    rw [h.same.fs]
    simp only [h.others q _ hq]
  refine fileBytes_congr hentry h.dicts fun i k _ hk => ?_
  obtain ⟨c, hc⟩ := hx.get?_of_pos (Db.refs_pos_of_chunk hk)
  obtain ⟨c', hc'⟩ := h.exact.get?_of_pos (Db.refs_pos_of_chunk ((h.others q i hq).trans hk))
  rw [hc, hc', Option.map_some, Option.map_some, h.val hE hone hc hc']

/-- The file itself reads the same unless it is stuck. -/
theorem Refill.holds (hE : Function.Injective E.blobKey) (hone : db.OneChunk E p b)
    (h : Refill E db p b (numChunks chunkSize b.length) d) (hstuck : ¬ db.Stuck E p b) :
    d.Holds E p b := by
  refine ⟨?_, h.rows, fun i hi => ?_⟩
  · rw [h.same.fs]
    exact hone.row
  · have hrow := h.rows i
    rw [if_pos hi] at hrow
    obtain ⟨c', hc'⟩ := h.exact.get?_of_pos (Db.refs_pos_of_chunk hrow)
    rcases h.blobs _ c' hc' with ⟨c, hc, hval⟩ | ⟨j, -, hkey, hdec⟩
    · have hgood : ¬ db.Bad E (E.blobKey (chunkAt chunkSize b i)) :=
        fun hbad => hstuck (Or.inr ⟨i, hi, hbad⟩)
      obtain ⟨piece, hpiece⟩ : ∃ piece, db.Decodes E (E.blobKey (chunkAt chunkSize b i)) piece := by
        by_contra hnone
        exact hgood ⟨⟨c, hc⟩, fun piece hp => hnone ⟨piece, hp⟩⟩
      obtain ⟨_, -, -, hkey⟩ := id hpiece
      rw [hE hkey] at hpiece
      exact (h.decodes hc hc' hval _).2 hpiece
    · rw [← hE hkey] at hdec
      exact ⟨c', hc', by rwa [h.dicts], rfl⟩

/-- A file that is not stuck is rechunked. -/
theorem rechunkOne_total (hE : Function.Injective E.blobKey) (hC : E.Faithful)
    (hx : Store.Exact db.refs db.blobs) (hone : db.OneChunk E p b) (hstuck : ¬ db.Stuck E p b) :
    ∃ d, rechunkOne E p b db = .ok () d ∧ Refill E db p b (numChunks chunkSize b.length) d ∧
    d.Holds E p b := by
  have hpath : db.refusesPath p = false := by
    rcases hp : db.refusesPath p with _ | _
    · rfl
    · exact absurd (Or.inl hp) hstuck
  obtain ⟨d, hrun, hfill⟩ := chunksReplace_refill hC hx hpath b
  have hholds := hfill.holds hE hone hstuck
  refine ⟨d, inSavepoint_of_ok ?_, hfill, hholds⟩
  have hread : Prog.query (fun db => fileBytes E db p) d = .ok b d :=
    query_eq_ok.2 ⟨fileBytes_of_holds hholds, rfl⟩
  rw [bind_of_ok hrun, bind_of_ok hread, if_neg (by simp)]
  rfl

/-- A file that is stuck stays as it is. -/
theorem rechunkOne_stuck (hC : E.Faithful)
    (hx : Store.Exact db.refs db.blobs) (hone : db.OneChunk E p b) (hstuck : db.Stuck E p b) :
    ∃ e, rechunkOne E p b db = .error e db := by
  rcases hrun : rechunkOne E p b db with ⟨_, d⟩ | ⟨e, d⟩
  -- If it returned, the check behind the split would have read every piece, also the one whose blob
  -- is bad; and a protected path refuses the deletion of its chunk.
  · exfalso
    unfold rechunkOne inSavepoint at hrun
    obtain ⟨_, d₁, hrep, hrest⟩ := bind_eq_ok.1 (savepoint_eq_ok.1 hrun)
    obtain ⟨after, d₂, hread, hcheck⟩ := bind_eq_ok.1 hrest
    obtain ⟨hafter, rfl⟩ := query_eq_ok.1 hread
    rcases hpath : db.refusesPath p with _ | _
    · obtain ⟨d', hrep', hfill⟩ := chunksReplace_refill hC hx hpath b
      rw [hrep] at hrep'
      cases hrep'
      obtain ⟨i, hi, hbad⟩ := hstuck.resolve_left (by rw [hpath]; simp)
      have hbad' := (hfill.bad hone _).2 hbad
      have hrow := hfill.rows i
      rw [if_pos hi] at hrow
      obtain ⟨c, hc⟩ := hbad'.1
      obtain ⟨piece, hpiece⟩ := decodes_of_fileBytes hafter hrow hc
      exact hbad'.2 piece hpiece
    · unfold chunksReplace at hrep
      obtain ⟨_, d₃, hdel, -⟩ := bind_eq_ok.1 hrep
      rw [deleteChunks, statement_eq_ok, if_pos] at hdel
      · cases hdel
      · rw [List.any_eq_true]
        have hmem : (0, E.blobKey b) ∈ db.chunkList p := by simp [hone.chunkList_eq.1]
        refine ⟨((p, 0), E.blobKey b), List.mem_filter.2 ⟨?_, by simp⟩, hpath⟩
        exact (Table.get?_eq_some_iff).1 (Db.mem_chunkList.1 hmem)
  · exact ⟨e, by rw [inSavepoint_error hrun]⟩

end One

/-! ## The loop -/

/-- What stays the same while the files of a list are rechunked. -/
structure Rechunked (E : Ext K) (l : List Str) (db d : Db K) : Prop where
  /-- The policies and `vm_fs`. -/
  same : SamePolicy db d
  dicts : d.dicts = db.dicts
  snaps : d.snapChunks = db.snapChunks
  undos : d.undoChunks = db.undoChunks
  /-- The reference counts. -/
  exact : Store.Exact d.refs d.blobs
  /-- The blobs that do not decode. -/
  bad : ∀ k, d.Bad E k ↔ db.Bad E k
  /-- The content of every file. -/
  bytes : ∀ q b, fileBytes E db q = .ok b → fileBytes E d q = .ok b
  /-- The chunk rows of other files. -/
  others : ∀ q, q ∉ l → ∀ i, d.chunks.get? (q, i) = db.chunks.get? (q, i)
  /-- What a reader of other files gets, if it is an error. -/
  reads : ∀ q, q ∉ l → fileBytes E d q = fileBytes E db q
  /-- The blobs of snapshots and undo records. -/
  saved : ∀ k c, 0 < db.snapChunks.count k + db.undoChunks.count k → db.blobs.get? k = some c →
    ∃ c', d.blobs.get? k = some c' ∧ c'.val = c.val

section Loop

variable {E : Ext K} {db d d' : Db K} {p q : Str} {b : Bytes} {l l' : List Str}
  {rep rep' : RechunkReport}

/-- Nothing is rechunked yet. -/
theorem Rechunked.refl (h : Store.Exact db.refs db.blobs) : Rechunked E l db db where
  same := SamePolicy.refl db
  dicts := rfl
  snaps := rfl
  undos := rfl
  exact := h
  bad _ := Iff.rfl
  bytes _ _ := id
  others _ _ _ := rfl
  reads _ _ := rfl
  saved _ c _ hc := ⟨c, hc, rfl⟩

/-- The files of two lists are rechunked one list after the other. -/
theorem Rechunked.trans (h : Rechunked E l db d) (h' : Rechunked E l' d d') :
    Rechunked E (l ++ l') db d' where
  same := h.same.trans h'.same
  dicts := h'.dicts.trans h.dicts
  snaps := h'.snaps.trans h.snaps
  undos := h'.undos.trans h.undos
  exact := h'.exact
  bad k := (h'.bad k).trans (h.bad k)
  bytes q b hb := h'.bytes q b (h.bytes q b hb)
  others q hq i := by
    rw [List.mem_append, not_or] at hq
    rw [h'.others q hq.2, h.others q hq.1]
  reads q hq := by
    rw [List.mem_append, not_or] at hq
    rw [h'.reads q hq.2, h.reads q hq.1]
  saved k c hpos hc := by
    obtain ⟨c₁, hc₁, hval₁⟩ := h.saved k c hpos hc
    rw [← h.snaps, ← h.undos] at hpos
    obtain ⟨c₂, hc₂, hval₂⟩ := h'.saved k c₁ hpos hc₁
    exact ⟨c₂, hc₂, hval₂.trans hval₁⟩

/-- A file whose pieces are all stored is rechunked, and the others are as they were. -/
theorem Refill.rechunked (hE : Function.Injective E.blobKey) (hx : Store.Exact db.refs db.blobs)
    (hone : db.OneChunk E p b) (h : Refill E db p b (numChunks chunkSize b.length) d)
    (hholds : d.Holds E p b) : Rechunked E [p] db d where
  same := h.same
  dicts := h.dicts
  snaps := h.snaps
  undos := h.undos
  exact := h.exact
  bad := h.bad hone
  bytes q b' hb := by
    by_cases hq : q = p
    · rw [hq, hone.bytes] at hb
      rw [hq, fileBytes_of_holds hholds, hb]
    · rwa [h.fileBytes hE hx hone hq]
  others q hq i := h.others q i (by simpa using hq)
  reads q hq := h.fileBytes hE hx hone (by simpa using hq)
  saved k c hpos hc := by
    have hrefs : 0 < d.refs k := by
      rw [← h.snaps, ← h.undos] at hpos
      unfold Db.refs
      omega
    obtain ⟨c', hc'⟩ := h.exact.get?_of_pos hrefs
    exact ⟨c', hc', h.val hE hone hc hc'⟩

/-- A file outside of the list keeps its chunks. -/
theorem Rechunked.chunkList (h : Rechunked E l db d) (hp : p ∉ l) :
    d.chunkList p = db.chunkList p :=
  Db.chunkList_congr (h.others p hp)

/-- Rechunking makes no file and changes no size. -/
theorem Rechunked.isFile {n : ℕ} (h : Rechunked E l db d) : d.IsFile p n ↔ db.IsFile p n := by
  unfold Db.IsFile
  rw [h.same.fs]

/-- A file outside of the list keeps its only chunk. -/
theorem Rechunked.oneChunk (h : Rechunked E l db d) (hp : p ∉ l) :
    d.OneChunk E p b ↔ db.OneChunk E p b := by
  have hlist := h.chunkList hp
  have hreads := h.reads p hp
  constructor
  · rintro ⟨hrow, hsingle, hbytes, hlong⟩
    exact ⟨h.isFile.1 hrow, hlist ▸ hsingle, hreads ▸ hbytes, hlong⟩
  · rintro ⟨hrow, hsingle, hbytes, hlong⟩
    exact ⟨h.isFile.2 hrow, by rwa [hlist], by rwa [hreads], hlong⟩

/-- Whether a file can be rechunked does not depend on the others. -/
theorem Rechunked.stuck (h : Rechunked E l db d) : d.Stuck E p b ↔ db.Stuck E p b := by
  unfold Db.Stuck
  simp only [h.same.refusesPath p, h.bad]

/-- What became of a candidate. -/
inductive RechunkOutcome (E : Ext K) (db d : Db K) (p : Str) : Prop where
  /-- It does not have one chunk. -/
  | skipped (before : (db.chunkList p).length ≠ 1) (after : d.chunkList p = db.chunkList p)
  /-- It has the chunks of its content. -/
  | done (b : Bytes) (before : db.OneChunk E p b) (after : d.Chunked E p b)
  /-- It cannot be rechunked, then or now. -/
  | failed (b : Bytes) (before : d.chunkList p = db.chunkList p) (after : d.OneChunk E p b)
      (stuck : d.Stuck E p b)

omit [DecidableEq K] in
/-- A file with the chunks of a long content has more than one. -/
theorem Db.Chunked.length_ne_one (h : d.Chunked E p b) (hlong : chunkSize < b.length) :
    (d.chunkList p).length = numChunks chunkSize b.length ∧ (d.chunkList p).length ≠ 1 := by
  have hlt : 1 < numChunks chunkSize b.length := (lt_numChunks_iff chunkSize_pos).2 (by omega)
  have hlen : (d.chunkList p).length = numChunks chunkSize b.length := by
    rw [Db.chunkList_of_dense h, List.length_map, List.length_range]
  omega

/-- Other files do not change what became of a candidate. -/
theorem RechunkOutcome.later (h : RechunkOutcome E db d p) (hrest : Rechunked E l d d')
    (hp : p ∉ l) : RechunkOutcome E db d' p := by
  rcases h with ⟨hbefore, hafter⟩ | ⟨b, hbefore, hafter⟩ | ⟨b, hbefore, hafter, hstuck⟩
  · exact .skipped hbefore ((hrest.chunkList hp).trans hafter)
  · exact .done b hbefore fun i => (hrest.others p hp i).trans (hafter i)
  · exact .failed b ((hrest.chunkList hp).trans hbefore) ((hrest.oneChunk hp).2 hafter)
      (hrest.stuck.2 hstuck)

/-- Files that were rechunked before do not change what became of a candidate. -/
theorem RechunkOutcome.earlier (h : RechunkOutcome E d d' p) (hfirst : Rechunked E l db d)
    (hp : p ∉ l) : RechunkOutcome E db d' p := by
  have hlist := hfirst.chunkList hp
  rcases h with ⟨hbefore, hafter⟩ | ⟨b, hbefore, hafter⟩ | ⟨b, hbefore, hafter, hstuck⟩
  · exact .skipped (by rwa [← hlist]) (hafter.trans hlist)
  · exact .done b ((hfirst.oneChunk hp).1 hbefore) hafter
  · exact .failed b (hbefore.trans hlist) hafter hstuck

/-- The content of a file is as long as its row says. -/
theorem length_of_fileBytes {row : FsRow K} (h : fileBytes E db p = .ok b)
    (hrow : db.fs.get? p = some row) :
    b.length = row.size := by
  unfold fileBytes at h
  rw [hrow] at h
  dsimp only at h
  split_ifs at h
  obtain ⟨out, -, hcheck⟩ := except_bind_eq_ok.1 h
  split_ifs at hcheck with hlen
  cases hcheck
  exact not_not.1 hlen

/-- The counts of a report that has one more file. -/
def RechunkReport.add (rep : RechunkReport) (skip fail : Bool) : RechunkReport :=
  if skip then { rep with skipped := rep.skipped + 1 }
  else if fail then { rep with failed := rep.failed + 1 } else { rep with done := rep.done + 1 }

/-- One more file is counted as skipped when it was. -/
theorem RechunkReport.skipped_add (rep : RechunkReport) (skip fail : Bool) :
    (rep.add skip fail).skipped = rep.skipped + if skip then 1 else 0 := by
  cases skip <;> cases fail <;> rfl

/-- One more file is counted as failed when it was tried and failed. -/
theorem RechunkReport.failed_add (rep : RechunkReport) (skip fail : Bool) :
    (rep.add skip fail).failed = rep.failed + if !skip && fail then 1 else 0 := by
  cases skip <;> cases fail <;> rfl

/-- One more file is counted as done when it was tried and did not fail. -/
theorem RechunkReport.done_add (rep : RechunkReport) (skip fail : Bool) :
    (rep.add skip fail).done = rep.done + if !skip && !fail then 1 else 0 := by
  cases skip <;> cases fail <;> rfl

/-- One round of the loop rechunks its file, skips it or reports its failure. -/
theorem rechunkFile_ok (hE : Function.Injective E.blobKey) (hC : E.Faithful)
    (hx : Store.Exact db.refs db.blobs) {n : ℕ} (hrow : db.IsFile p n) (hlong : chunkSize < n)
    (h : rechunkFile E rep p db = .ok rep' d) : Rechunked E [p] db d ∧ RechunkOutcome E db d p ∧
      rep' = rep.add ((db.chunkList p).length ≠ 1) ((d.chunkList p).length = 1) := by
  unfold rechunkFile at h
  rw [reads_bind] at h
  -- A file of several chunks is skipped. One chunk is split, or the check behind the split fails
  -- and the savepoint takes it back.
  split_ifs at h with hlen
  · cases h
    refine ⟨Rechunked.refl hx, .skipped hlen rfl, ?_⟩
    rw [RechunkReport.add, if_pos (decide_eq_true hlen)]
  · obtain ⟨b, d₁, hread, hrest⟩ := bind_eq_ok.1 h
    obtain ⟨hbytes, rfl⟩ := query_eq_ok.1 hread
    have hsize : b.length = n := by
      obtain ⟨row, hget, -, hn, -⟩ := hrow
      rw [length_of_fileBytes hbytes hget, hn]
    have hone : d₁.OneChunk E p b := ⟨hsize ▸ hrow, not_not.1 hlen, hbytes, by omega⟩
    by_cases hstuck : d₁.Stuck E p b
    · obtain ⟨e, hrun⟩ := rechunkOne_stuck hC hx hone hstuck
      rw [bind_of_ok (attempt_of_error hrun)] at hrest
      cases hrest
      refine ⟨Rechunked.refl hx, .failed b rfl hone hstuck, ?_⟩
      rw [RechunkReport.add, if_neg (by simpa using hlen), if_pos (decide_eq_true hone.single)]
    · obtain ⟨d₂, hrun, hfill, hholds⟩ := rechunkOne_total hE hC hx hone hstuck
      rw [bind_of_ok (attempt_of_ok hrun)] at hrest
      cases hrest
      have hchunked : d.Chunked E p b := hholds.chunks
      refine ⟨hfill.rechunked hE hx hone hholds, .done b hone hchunked, ?_⟩
      rw [RechunkReport.add, if_neg (by simpa using hlen),
        if_neg (by simp [(hchunked.length_ne_one hone.long).2])]

/-- By induction on the candidates, each is rechunked, skipped or reported. -/
theorem foldlM_rechunkFile_ok (hE : Function.Injective E.blobKey) (hC : E.Faithful) :
    ∀ (l : List Str) {rep rep' : RechunkReport} {db d : Db K}, Store.Exact db.refs db.blobs →
      l.Nodup →
      (∀ p ∈ l, ∃ n, db.IsFile p n ∧ chunkSize < n) → l.foldlM (rechunkFile E) rep db = .ok rep' d →
      Rechunked E l db d ∧ (∀ p ∈ l, RechunkOutcome E db d p) ∧
        rep'.skipped = rep.skipped + l.countP (fun p => (db.chunkList p).length ≠ 1) ∧
        rep'.failed = rep.failed + l.countP
          (fun p => (db.chunkList p).length = 1 ∧ (d.chunkList p).length = 1) ∧
        rep'.done = rep.done + l.countP
          (fun p => (db.chunkList p).length = 1 ∧ (d.chunkList p).length ≠ 1)
  | [], rep, _, db, _, hx, _, _, h => by
    cases h
    exact ⟨Rechunked.refl hx, by simp, by simp, by simp, by simp⟩
  | p :: l, rep, rep', db, d, hx, hnodup, hrows, h => by
    rw [List.foldlM_cons] at h
    obtain ⟨rep₁, d₁, hone, hrest⟩ := bind_eq_ok.1 h
    obtain ⟨hp, hnodup⟩ := List.nodup_cons.1 hnodup
    obtain ⟨n, hrow, hlong⟩ := hrows p List.mem_cons_self
    obtain ⟨hfirst, hout, rfl⟩ := rechunkFile_ok hE hC hx hrow hlong hone
    have hne : ∀ q ∈ l, q ∉ [p] := by
      intro q hq hqp
      exact hp (by rwa [← List.mem_singleton.1 hqp])
    obtain ⟨hlast, houts, hskip, hfail, hdone⟩ := foldlM_rechunkFile_ok hE hC l hfirst.exact hnodup
      (fun q hq => by
        obtain ⟨m, hm, hlong⟩ := hrows q (List.mem_cons_of_mem _ hq)
        exact ⟨m, hfirst.isFile.2 hm, hlong⟩) hrest
    -- The lists of the other candidates are what they were before this round.
    have hsame : ∀ q ∈ l, d₁.chunkList q = db.chunkList q := fun q hq => hfirst.chunkList (hne q hq)
    have hself : d.chunkList p = d₁.chunkList p := hlast.chunkList hp
    refine ⟨hfirst.trans hlast, ?_, ?_, ?_, ?_⟩
    · intro q hq
      rcases List.mem_cons.1 hq with rfl | hq
      · exact hout.later hlast hp
      · exact (houts q hq).earlier hfirst (hne q hq)
    · rw [hskip, List.countP_congr (q := fun q => (db.chunkList q).length ≠ 1)
        (fun q hq => by rw [hsame q hq]), List.countP_cons]
      rw [RechunkReport.skipped_add]
      omega
    · rw [hfail, List.countP_congr
        (q := fun q => (db.chunkList q).length = 1 ∧ (d.chunkList q).length = 1)
        (fun q hq => by rw [hsame q hq]), List.countP_cons]
      rw [RechunkReport.failed_add, hself, Bool.decide_and]
      simp only [ne_eq, decide_not, Bool.not_not]
      omega
    · rw [hdone, List.countP_congr
        (q := fun q => (db.chunkList q).length = 1 ∧ (d.chunkList q).length ≠ 1)
        (fun q hq => by rw [hsame q hq]), List.countP_cons]
      rw [RechunkReport.done_add, hself, Bool.decide_and]
      simp only [ne_eq, decide_not, Bool.not_not]
      omega

/-- A loop over candidates that have more than one chunk or cannot be rechunked. -/
theorem foldlM_rechunkFile_again (hC : E.Faithful) (hx : Store.Exact d.refs d.blobs) :
    ∀ (l : List Str) (rep : RechunkReport), (∀ p ∈ l, (d.chunkList p).length ≠ 1 ∨
        ∃ b, d.OneChunk E p b ∧ d.Stuck E p b) →
      l.foldlM (rechunkFile E) rep d = .ok ⟨rep.done,
        rep.skipped + l.countP (fun p => (d.chunkList p).length ≠ 1),
        rep.failed + l.countP (fun p => (d.chunkList p).length = 1)⟩ d
  | [], rep, _ => rfl
  | p :: l, rep, h => by
    -- A file of several chunks is skipped, one that is stuck fails again, and neither changes
    -- anything.
    have hone : rechunkFile E rep p d =
        .ok (rep.add ((d.chunkList p).length ≠ 1) ((d.chunkList p).length = 1)) d := by
      unfold rechunkFile
      rw [reads_bind]
      rcases h p List.mem_cons_self with hlen | ⟨b, hone, hstuck⟩
      · rw [if_pos hlen, RechunkReport.add, if_pos (decide_eq_true hlen)]
        rfl
      · obtain ⟨e, hrun⟩ := rechunkOne_stuck hC hx hone hstuck
        have hread : Prog.query (fun db => fileBytes E db p) d = .ok b d :=
          query_eq_ok.2 ⟨hone.bytes, rfl⟩
        rw [if_neg (not_not.2 hone.single), bind_of_ok hread, bind_of_ok (attempt_of_error hrun),
          RechunkReport.add, if_neg (by simp [hone.single]), if_pos (decide_eq_true hone.single)]
        rfl
    rw [List.foldlM_cons, bind_of_ok hone,
      foldlM_rechunkFile_again hC hx l _ fun q hq => h q (List.mem_cons_of_mem _ hq),
      List.countP_cons, List.countP_cons]
    unfold RechunkReport.add
    by_cases hlen : (d.chunkList p).length = 1
    · simp [hlen]
      omega
    · simp [hlen]
      omega

end Loop

/-! ## The whole run -/

/-- The files that `vm_rechunk` looks at. -/
def Db.rechunkCandidates (db : Db K) : List Str := (db.fs.select fun _ row =>
  row.kind = .file && chunkSize < row.size && row.hash ≠ .null).map Prod.fst

/-- What a run of `vm_rechunk` leaves. A candidate is skipped if it did not have one chunk, it is
done if it had one and has more now, and it has failed if it still has one. -/
structure Db.RechunkedTo (E : Ext K) (db : Db K) (rep : RechunkReport) (d : Db K) : Prop where
  /-- Hash and size of every file. -/
  rows : d.fs = db.fs
  /-- The bytes of every file. -/
  bytes : ∀ p b, fileBytes E db p = .ok b → fileBytes E d p = .ok b
  /-- The bytes of every path that can be read. -/
  cat : ∀ path b, vmCat E db path = .ok b → vmCat E d path = .ok b
  /-- A long file with one readable chunk is now in 64 KiB chunks, unless it has failed. -/
  split : ∀ p b, db.OneChunk E p b → (d.chunkList p).length ≠ 1 →
    d.Chunked E p b ∧ (d.chunkList p).length = (b.length + 65535) / 65536
  /-- A file that has one chunk, as the failed ones do, has the chunk it had. -/
  failedKept : ∀ p, (d.chunkList p).length = 1 → d.chunkList p = db.chunkList p
  skipped : rep.skipped = db.rechunkCandidates.countP fun p => (db.chunkList p).length ≠ 1
  failed : rep.failed = db.rechunkCandidates.countP fun p => (d.chunkList p).length = 1
  /-- Every candidate is counted. -/
  total : rep.done + rep.skipped + rep.failed = db.rechunkCandidates.length
  /-- The blobs of snapshots and undo records. -/
  saved : ∀ k c, 0 < db.snapChunks.count k + db.undoChunks.count k → db.blobs.get? k = some c →
    ∃ c', d.blobs.get? k = some c' ∧ c'.val = c.val
  /-- Running it again does nothing. -/
  again : vmRechunk E d = .ok ⟨0, rep.skipped + rep.done, rep.failed⟩ d

section Whole

variable {E : Ext K} {db d : Db K} {p : Str}

/-- `vm_rechunk` is the loop over its candidates. -/
theorem vmRechunk_eq (E : Ext K) (db : Db K) :
    vmRechunk E db = db.rechunkCandidates.foldlM (rechunkFile E) ⟨0, 0, 0⟩ db := by
  unfold vmRechunk
  rw [reads_bind]
  rfl

/-- The candidates are the files of more than one chunk's bytes. -/
theorem Db.mem_rechunkCandidates :
    p ∈ db.rechunkCandidates ↔ ∃ n, db.IsFile p n ∧ chunkSize < n := by
  constructor
  · intro hp
    obtain ⟨⟨q, row⟩, hmem, rfl⟩ := List.mem_map.1 hp
    obtain ⟨hrow, hcond⟩ := List.mem_filter.1 hmem
    simp only [Bool.and_eq_true, decide_eq_true_eq] at hcond
    exact ⟨row.size, ⟨row, (Table.get?_eq_some_iff).2 hrow, hcond.1.1, rfl, hcond.2⟩, hcond.1.2⟩
  · rintro ⟨n, ⟨row, hrow, hkind, rfl, hhash⟩, hlong⟩
    refine List.mem_map.2 ⟨(p, row), List.mem_filter.2 ⟨(Table.get?_eq_some_iff).1 hrow, ?_⟩, rfl⟩
    simp [hkind, hlong, hhash]

/-- No file is a candidate twice. -/
theorem Db.nodup_rechunkCandidates (db : Db K) : db.rechunkCandidates.Nodup :=
  db.fs.nodup.sublist (List.filter_sublist.map _)

/-- A file that could be read reads the same after any part of the loop. -/
theorem Rechunked.vmCat {l : List Str} {path : Str} {b : Bytes} (h : Rechunked E l db d)
    (hb : Dbvm.vmCat E db path = .ok b) : Dbvm.vmCat E d path = .ok b := by
  have hresolve : resolvePath d path = resolvePath db path :=
    (SameLinks.of_fs h.same.fs).resolvePath path
  unfold Dbvm.vmCat vmResolve at hb ⊢
  rw [hresolve, h.same.fs]
  rcases hreal : resolvePath db path with e | real
  · rw [hreal] at hb
    exact hb
  rw [hreal] at hb
  dsimp only [bind, Except.bind] at hb ⊢
  rcases hrow : db.fs.get? real with _ | row
  · rw [hrow] at hb
    exact hb
  rw [hrow] at hb
  dsimp only at hb ⊢
  split_ifs at hb ⊢ with hdir
  · exact hb
  -- Only the chunk rows of the file matter now.
  unfold Db.rowContent at hb ⊢
  split_ifs at hb ⊢ with hhash
  · rcases hread : fileBytes E db real with e | out
    · rw [hread] at hb
      cases hb
    · rw [hread] at hb
      rw [h.bytes real out hread]
      exact hb
  · exact hb

/-- Elements are counted with a second property or without it. -/
theorem countP_and_add {α : Type} (l : List α) (P Q : α → Prop) [DecidablePred P]
    [DecidablePred Q] :
    l.countP (fun a => P a ∧ Q a) + l.countP (fun a => P a ∧ ¬ Q a) = l.countP fun a => P a := by
  induction l with
  | nil => rfl
  | cons a l ih =>
    rw [List.countP_cons, List.countP_cons, List.countP_cons, ← ih]
    by_cases hP : P a <;> by_cases hQ : Q a <;> simp [hP, hQ]
    all_goals omega

/-- Rechunking keeps every file, splits every long file with one readable chunk that does not fail,
and does nothing when it is run again. -/
theorem vmRechunk_rechunkedTo {K : Type} [DecidableEq K] {E : Ext K} {db d : Db K}
    (hE : Function.Injective E.blobKey) (hC : E.Faithful) (hx : Store.Exact db.refs db.blobs)
    {rep : RechunkReport} (h : vmRechunk E db = .ok rep d) :
    db.RechunkedTo E rep d := by
  rw [vmRechunk_eq] at h
  obtain ⟨hall, houts, hskip, hfail, hdone⟩ :=
    foldlM_rechunkFile_ok hE hC _ hx db.nodup_rechunkCandidates
    (fun p hp => Db.mem_rechunkCandidates.1 hp) h
  simp only [Nat.zero_add] at hskip hfail hdone
  have hsame : d.rechunkCandidates = db.rechunkCandidates := by
    unfold Db.rechunkCandidates
    rw [hall.same.fs]
  -- A candidate with one chunk has failed.
  have hkept : ∀ p, (d.chunkList p).length = 1 → d.chunkList p = db.chunkList p := by
    intro p hp
    by_cases hmem : p ∈ db.rechunkCandidates
    · rcases houts p hmem with ⟨-, hafter⟩ | ⟨b, hbefore, hafter⟩ | ⟨b, hbefore, -, -⟩
      · exact hafter
      · exact absurd hp (hafter.length_ne_one hbefore.long).2
      · exact hbefore
    · exact hall.chunkList hmem
  have hfail' : rep.failed = db.rechunkCandidates.countP fun p => (d.chunkList p).length = 1 := by
    rw [hfail]
    refine List.countP_congr fun p _ => ?_
    simp only [decide_eq_true_eq, and_iff_right_iff_imp]
    intro hp
    rwa [← hkept p hp]
  have htotal : rep.done + rep.skipped + rep.failed = db.rechunkCandidates.length := by
    have hlen := List.length_eq_countP_add_countP (l := db.rechunkCandidates)
      fun p => decide ((db.chunkList p).length = 1)
    have hpart := countP_and_add db.rechunkCandidates (fun p => (db.chunkList p).length = 1)
      fun p => (d.chunkList p).length = 1
    simp only [decide_eq_true_eq] at hlen
    simp only [ne_eq] at hskip hdone
    omega
  have hstill : db.rechunkCandidates.countP (fun p => (d.chunkList p).length ≠ 1) = rep.skipped +
    rep.done := by
    have hlen := List.length_eq_countP_add_countP (l := db.rechunkCandidates)
      fun p => decide ((d.chunkList p).length = 1)
    simp only [decide_eq_true_eq] at hlen
    simp only [ne_eq]
    omega
  refine ⟨hall.same.fs, hall.bytes, fun path b => hall.vmCat, fun p b hone hne => ?_, hkept,
    hskip, hfail',
    htotal, hall.saved, ?_⟩
  · have hmem : p ∈ db.rechunkCandidates := Db.mem_rechunkCandidates.2 ⟨_, hone.row, hone.long⟩
    rcases houts p hmem with ⟨hbefore, -⟩ | ⟨b', hbefore, hafter⟩ | ⟨b', -, hafter, -⟩
    · exact absurd hone.single hbefore
    · obtain rfl : b = b' := Except.ok.inj (hone.bytes.symm.trans hbefore.bytes)
      exact ⟨hafter, (hafter.length_ne_one hone.long).1⟩
    · exact absurd hafter.single hne
  · rw [vmRechunk_eq, hsame, foldlM_rechunkFile_again hC hall.exact, Nat.zero_add, Nat.zero_add,
      hstill, ← hfail']
    intro p hp
    rcases houts p hp with ⟨hbefore, hafter⟩ | ⟨b, hbefore, hafter⟩ | ⟨b, -, hafter, hstuck⟩
    · exact Or.inl (by rwa [hafter])
    · exact Or.inl (hafter.length_ne_one hbefore.long).2
    · exact Or.inr ⟨b, hafter, hstuck⟩

/-- The path of the file below. -/
def legacyPath : Str := "/big".toList

/-- A database with one file of the old layout, all of it in one chunk. -/
def legacyDb (E : Ext K) (b : Bytes) : Db K :=
  (((initDb 0).addFs legacyPath (fileRow E 420 0 0 b)).withBlob E .archive b).addChunk legacyPath 0
  (E.blobKey b)

/-- The old database has one file. -/
theorem legacyDb_fs (E : Ext K) (b : Bytes) :
    (legacyDb E b).fs = ((initDb 0 : Db K).addFs legacyPath (fileRow E 420 0 0 b)).fs :=
    Db.withBlob_fs E .archive _ b

/-- The old database has one blob: the whole content of the file. -/
theorem legacyDb_blobs (E : Ext K) (b : Bytes) (k : K) : (legacyDb E b).blobs.get? k =
    if k = E.blobKey b then
      some ⟨⟨encodeBlock E (legacyDb E b).dicts b .archive, b.length⟩, 1⟩ else none := by
  have hdicts : (legacyDb E b).dicts = (initDb 0 : Db K).dicts := Db.withBlob_dicts E .archive _ b
  rw [hdicts]
  unfold legacyDb
  rw [Db.addChunk, Store.get?_acquire]
  by_cases hk : k = E.blobKey b
  · rw [if_pos hk, if_pos hk, Db.get?_withBlob, if_pos rfl]
    rfl
  · rw [if_neg hk, if_neg hk, Db.get?_withBlob, if_neg hk]
    rfl

/-- The reference counts of the old database are exact. -/
theorem legacyDb_exact (E : Ext K) (b : Bytes) :
    Store.Exact (legacyDb E b).refs (legacyDb E b).blobs := by
  have hinit : Store.Exact ((initDb 0 : Db K).addFs legacyPath (fileRow E 420 0 0 b)).refs
      ((initDb 0 : Db K).addFs legacyPath (fileRow E 420 0 0 b)).blobs := (refOk_initDb 0).exact
  have hblob :=
    Db.get?_withBlob E .archive ((initDb 0 : Db K).addFs legacyPath (fileRow E 420 0 0 b)) b
    (E.blobKey b)
  rw [if_pos rfl] at hblob
  exact Db.exact_addChunk (Db.exact_withBlob hinit _ _) (by rw [Db.withBlob_chunks]; rfl) hblob

/-- The blob of the old database decodes to the content. -/
theorem legacyDb_decodes (hC : E.Faithful) (b : Bytes) : (legacyDb E b).Decodes E (E.blobKey b) b :=
  ⟨_, by rw [legacyDb_blobs, if_pos rfl], hC _ _ _, rfl⟩

/-- The file of the old database has a single chunk. -/
theorem legacyDb_oneChunk (hC : E.Faithful) {b : Bytes} (hlong : chunkSize < b.length) :
    (legacyDb E b).OneChunk E legacyPath b := by
  have hlist : (legacyDb E b).chunkList legacyPath = (List.range 1).map fun i =>
    (i, E.blobKey b) := by
    refine Db.chunkList_of_dense fun i => ?_
    unfold legacyDb
    rw [Db.addChunk, Table.get?_insertIgnore, Db.withBlob_chunks]
    rcases Nat.eq_zero_or_pos i with rfl | hi
    · rfl
    · rw [if_neg (by simp; omega), if_neg (by omega)]
      rfl
  have hrow : (legacyDb E b).fs.get? legacyPath = some (fileRow E 420 0 0 b) := by
    rw [legacyDb_fs, Db.get?_addFs _ rfl, if_pos rfl]
  obtain ⟨c, hc, hdec, -⟩ := legacyDb_decodes hC b
  refine ⟨⟨_, hrow, rfl, rfl, by simp [fileRow]⟩, by rw [hlist]; rfl, ?_, hlong⟩
  unfold fileBytes
  rw [hrow, hlist]
  simp [List.range_succ, fileRow, hc, joinPieces, hdec, bind, Except.bind]

/-- Nothing keeps the file of the old database from being rechunked. -/
theorem legacyDb_not_stuck (hC : E.Faithful) (b : Bytes) :
    ¬ (legacyDb E b).Stuck E legacyPath b := by
  rintro (hpath | ⟨i, -, ⟨c, hc⟩, hbad⟩)
  · have hsame :=
      samePolicy_withBlob E .archive ((initDb 0 : Db K).addFs legacyPath (fileRow E 420 0 0 b)) b
    have hfree := hsame.refusesPath legacyPath
    rw [show (legacyDb E b).refusesPath legacyPath = _ from hfree] at hpath
    cases hpath
  · -- The only blob is the content, and it decodes.
    rw [legacyDb_blobs] at hc
    split_ifs at hc with hk
    exact hbad b (hk ▸ legacyDb_decodes hC b)

/-- The file of the old database is the only candidate. -/
theorem legacyDb_candidates (E : Ext K) {b : Bytes} (hlong : chunkSize < b.length) :
    (legacyDb E b).rechunkCandidates = [legacyPath] := by
  have hrows : ((initDb 0 : Db K).addFs legacyPath (fileRow E 420 0 0 b)).fs.rows =
      (initDb 0 : Db K).fs.rows ++ [(legacyPath, fileRow E 420 0 0 b)] := rfl
  have hroot : (initDb 0 : Db K).fs.rows.filter (fun r =>
      r.2.kind = .file && chunkSize < r.2.size && r.2.hash ≠ .null) = [] := rfl
  unfold Db.rechunkCandidates
  rw [legacyDb_fs, Table.select, hrows, List.filter_append, hroot,
    List.filter_cons_of_pos (by simp [fileRow, hlong])]
  rfl

/-- A file of 65537 zeros, stored in one frame, is rechunked. -/
theorem vmRechunk_rechunkedTo_legacy : ∃ d,
    vmRechunk zerosExt (legacyDb zerosExt (List.replicate 65537 0)) = .ok ⟨1, 0, 0⟩ d ∧
      (legacyDb zerosExt (List.replicate 65537 0)).RechunkedTo zerosExt ⟨1, 0, 0⟩ d := by
  have hlong : chunkSize < (List.replicate 65537 (0 : UInt8)).length := by
    rw [List.length_replicate]
    decide
  have hone := legacyDb_oneChunk zerosExt_faithful hlong
  obtain ⟨d, hrun, -⟩ :=
    rechunkOne_total zerosExt_injective zerosExt_faithful (legacyDb_exact zerosExt _) hone
    (legacyDb_not_stuck zerosExt_faithful _)
  have hfile :
      rechunkFile zerosExt ⟨0, 0, 0⟩ legacyPath (legacyDb zerosExt (List.replicate 65537 0)) =
      .ok ⟨1, 0, 0⟩ d := by
    have hread : Prog.query (fun db => fileBytes zerosExt db legacyPath)
        (legacyDb zerosExt (List.replicate 65537 0)) = .ok (List.replicate 65537 0) _ :=
      query_eq_ok.2 ⟨hone.bytes, rfl⟩
    unfold rechunkFile
    rw [reads_bind, if_neg (not_not.2 hone.single), bind_of_ok hread,
      bind_of_ok (attempt_of_ok hrun)]
    rfl
  have hall : vmRechunk zerosExt (legacyDb zerosExt (List.replicate 65537 0)) = .ok ⟨1, 0,
    0⟩ d := by
    rw [vmRechunk_eq, legacyDb_candidates zerosExt hlong, List.foldlM_cons, bind_of_ok hfile]
    rfl
  exact ⟨d, hall, vmRechunk_rechunkedTo zerosExt_injective zerosExt_faithful
    (legacyDb_exact zerosExt _) hall⟩

end Whole

end Dbvm
