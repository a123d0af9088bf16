import Dbvm.Store

/-!
# Reference counts of the store

What the statements and the writes of `Dbvm.Store` do to the reference counts. `Kept P db₀ db`
says that the counts of `db` are exact and that, compared with an earlier state `db₀`, no chunk
outside the paths `P` has changed and no blob that such a chunk, a snapshot or an undo record needs
has gone or got other bytes.
`RefInv` adds that no blob outside `Z` is without a reference: a blob is, for a moment, between its
insert and the insert of the chunk row that refers to it.
-/

namespace Dbvm

open Lib Lib.Chunks

variable {K : Type} [DecidableEq K]

/-- Compared with `db₀`, only files at the paths `P` have changed, and the counts are exact. -/
structure Kept (P : Str → Prop) (db₀ db : Db K) : Prop where
  /-- The stored counts are the numbers of chunk rows. -/
  exact : Store.Exact db.refs db.blobs
  /-- No row has inline content. -/
  inline : ∀ p row, db.fs.get? p = some row → row.content = none
  /-- The dictionaries are the same. -/
  dicts : db.dicts = db₀.dicts
  /-- The chunk rows outside `P` are the same. -/
  chunks : ∀ q i, ¬ P q → db.chunks.get? (q, i) = db₀.chunks.get? (q, i)
  /-- The blobs of the chunks outside `P` are the same. -/
  vals : ∀ q i k c, ¬ P q → db₀.chunks.get? (q, i) = some k → db₀.blobs.get? k = some c →
    ∃ c', db.blobs.get? k = some c' ∧ c'.val = c.val
  /-- The chunk rows of snapshots are the same. -/
  snaps : db.snapChunks = db₀.snapChunks
  /-- The chunk rows of undo records are the same. -/
  undos : db.undoChunks = db₀.undoChunks
  /-- The blobs of snapshots and undo records are the same. -/
  saved : ∀ k c, 0 < db₀.snapChunks.count k + db₀.undoChunks.count k → db₀.blobs.get? k = some c →
    ∃ c', db.blobs.get? k = some c' ∧ c'.val = c.val

/-- `Kept`, and only blobs of `Z` may be without a reference. -/
structure RefInv (P : Str → Prop) (db₀ : Db K) (Z : K → Prop) (db : Db K) : Prop where
  /-- Nothing outside `P` has changed. -/
  kept : Kept P db₀ db
  /-- Every blob outside `Z` has a reference. -/
  tight : Store.Tight Z db.blobs

variable {P : Str → Prop} {db₀ db db' : Db K} {Z : K → Prop} {u : Unit}

/-- A chunk row is a reference. -/
theorem Db.refs_pos_of_chunk {q : Str} {i : ℕ} {k : K} (h : db.chunks.get? (q, i) = some k) :
    0 < db.refs k := by
  have := Table.count_pos_iff.2 ⟨_, h⟩
  unfold Db.refs
  omega

/-- A chunk row of a snapshot is a reference. -/
theorem Db.refs_pos_of_snap {c : ℕ × Str × ℕ} {k : K} (h : db.snapChunks.get? c = some k) :
    0 < db.refs k := by
  have := Table.count_pos_iff.2 ⟨_, h⟩
  unfold Db.refs
  omega

/-- A chunk row of an undo record is a reference. -/
theorem Db.refs_pos_of_undo {c : ℕ × Str × ℕ} {k : K} (h : db.undoChunks.get? c = some k) :
    0 < db.refs k := by
  have := Table.count_pos_iff.2 ⟨_, h⟩
  unfold Db.refs
  omega

/-- The blob of a chunk row is stored. -/
theorem Kept.get?_of_chunk (h : Kept P db₀ db) {q : Str} {i : ℕ} {k : K}
    (hk : db.chunks.get? (q, i) = some k) : ∃ c, db.blobs.get? k = some c :=
  h.exact.get?_of_pos (Db.refs_pos_of_chunk hk)

/-- Files outside `P` read the same. -/
theorem Kept.blobBytes (h : Kept P db₀ db) {E : Ext K} {q : Str} {i : ℕ} {k : K} (hq : ¬ P q)
    (hk : db₀.chunks.get? (q, i) = some k) {c : Cell Block} (hc : db₀.blobs.get? k = some c) :
    db.blobBytes E q i k = db₀.blobBytes E q i k := by
  obtain ⟨c', hc', hval⟩ := h.vals q i k c hq hk hc
  simp only [Db.blobBytes, hc, hc', h.dicts, hval]

/-! ## Effects -/

/-- Changes that leave the chunk tables, the blobs and the dictionaries alone. -/
theorem Kept.of_fs (h : Kept P db₀ db) (hfs : ∀ p row, db'.fs.get? p = some row →
    row.content = none) (hc : db'.chunks = db.chunks) (hs : db'.snapChunks = db.snapChunks)
    (hu : db'.undoChunks = db.undoChunks) (hb : db'.blobs = db.blobs)
    (hd : db'.dicts = db.dicts) : Kept P db₀ db' where
  exact := by
    have : db'.refs = db.refs := by
      funext k
      simp only [Db.refs, hc, hs, hu]
    rw [this, hb]
    exact h.exact
  inline := hfs
  dicts := hd.trans h.dicts
  chunks := by
    rw [hc]
    exact h.chunks
  vals := by
    rw [hb]
    exact h.vals
  snaps := hs.trans h.snaps
  undos := hu.trans h.undos
  saved := by
    rw [hb]
    exact h.saved

/-- Rows of `vm_fs` may change as long as none has inline content: the counts are about chunk
rows. -/
theorem RefInv.of_fs (h : RefInv P db₀ Z db) (hfs : ∀ p row, db'.fs.get? p = some row →
    row.content = none) (hc : db'.chunks = db.chunks) (hs : db'.snapChunks = db.snapChunks)
    (hu : db'.undoChunks = db.undoChunks) (hb : db'.blobs = db.blobs)
    (hd : db'.dicts = db.dicts) : RefInv P db₀ Z db' where
  kept := h.kept.of_fs hfs hc hs hu hb hd
  tight := by
    rw [hb]
    exact h.tight

/-- A new row without inline content has no reference to a blob. -/
theorem RefInv.addFs (h : RefInv P db₀ Z db) (p : Str) {row : FsRow K} (hrow : row.content = none) :
    RefInv P db₀ Z (db.addFs p row) := by
  refine h.of_fs (fun q r hr => ?_) rfl rfl rfl rfl rfl
  rw [Db.addFs, Table.get?_insertIgnore] at hr
  split_ifs at hr with hq
  · rcases hp : db.fs.get? p with _ | old
    · rw [hp] at hr
      cases hr
      exact hrow
    · rw [hp] at hr
      cases hr
      exact h.kept.inline p old hp
  · exact h.kept.inline q r hr

/-- An update that puts no inline content into a row leaves the counts exact. -/
theorem RefInv.setFs (h : RefInv P db₀ Z db) (p : Str) {f : FsRow K → FsRow K}
    (hf : ∀ row, row.content = none → (f row).content = none) : RefInv P db₀ Z (db.setFs p f) := by
  refine h.of_fs (fun q r hr => ?_) rfl rfl rfl rfl rfl
  rw [Db.setFs, Table.get?_update] at hr
  split_ifs at hr with hq
  · obtain ⟨old, hold, rfl⟩ := Option.map_eq_some_iff.1 hr
    exact hf old (h.kept.inline p old hold)
  · exact h.kept.inline q r hr

/-- A new chunk row for a stored blob keeps the counts, and the blob no longer lacks a reference. -/
theorem RefInv.addChunk (h : RefInv P db₀ Z db) {p : Str} {i : ℕ} {k : K} (hP : P p)
    (hfree : db.chunks.get? (p, i) = none) {c : Cell Block} (hk : db.blobs.get? k = some c) :
    RefInv P db₀ (fun k' => Z k' ∧ k' ≠ k) (db.addChunk p i k) where
  kept :=
    { exact := by
        refine h.kept.exact.acquire hk fun k' => ?_
        simp only [Db.refs, Db.addChunk, Table.count_insertIgnore hfree, eq_comm (a := k)]
        omega
      inline := h.kept.inline
      dicts := h.kept.dicts
      chunks := by
        intro q j hq
        rw [Db.addChunk, Table.get?_insertIgnore, if_neg (by rintro ⟨⟩; exact hq hP)]
        exact h.kept.chunks q j hq
      vals := by
        intro q j k' c₀ hq hrow hc₀
        obtain ⟨c', hc', hv⟩ := h.kept.vals q j k' c₀ hq hrow hc₀
        rw [Db.addChunk, Store.get?_acquire]
        split_ifs with hkk
        · subst hkk
          exact ⟨{ c' with refcnt := c'.refcnt + 1 }, by rw [hc']; rfl, hv⟩
        · exact ⟨c', hc', hv⟩
      snaps := h.kept.snaps
      undos := h.kept.undos
      saved := by
        intro k' c₀ hpos hc₀
        obtain ⟨c', hc', hv⟩ := h.kept.saved k' c₀ hpos hc₀
        rw [Db.addChunk, Store.get?_acquire]
        split_ifs with hkk
        · subst hkk
          exact ⟨{ c' with refcnt := c'.refcnt + 1 }, by rw [hc']; rfl, hv⟩
        · exact ⟨c', hc', hv⟩ }
  -- The new reference is the one by which the count of its blob grows.
  tight := by
    refine h.tight.acquire fun c' hc' => ?_
    rw [h.kept.exact.count k c' hc']
    omega

/-- Chunk rows of paths in `P` are deleted. -/
theorem RefInv.delChunks (h : RefInv P db₀ Z db) {sel : Str → ℕ → Bool}
    (hsel : ∀ q i, sel q i = true → P q) : RefInv P db₀ Z (db.delChunks sel) := by
  have hrefs : ∀ k, db.refs k = (db.delChunks sel).refs k + (db.chunkKeys sel).count k := by
    intro k
    have := Table.count_deleteWhere db.chunks (fun c _ => sel c.1 c.2) k
    simp only [Db.refs, Db.delChunks, Db.releaseBlobs, Db.chunkKeys]
    omega
  have hexact : Store.Exact (db.delChunks sel).refs (db.delChunks sel).blobs :=
    h.kept.exact.releaseAll _ hrefs
  -- A key with a row that stays has more references than are dropped.
  have hstay : ∀ k c', db.blobs.get? k = some c' → 0 < (db.delChunks sel).refs k →
      ∃ c'', (db.delChunks sel).blobs.get? k = some c'' ∧ c''.val = c'.val := by
    intro k c' hc' hpos
    have hlt : ((db.chunkKeys sel).count k : ℤ) < c'.refcnt := by
      rw [h.kept.exact.count k c' hc', hrefs k]
      push_cast
      omega
    exact Store.releaseAll_keeps _ hc' hlt
  refine ⟨⟨hexact, h.kept.inline, h.kept.dicts, ?_, ?_, h.kept.snaps, h.kept.undos, ?_⟩,
    h.tight.releaseAll _⟩
  · intro q i hq
    rw [Db.delChunks, Table.get?_deleteWhere, ← h.kept.chunks q i hq]
    rcases hc : db.chunks.get? (q, i) with _ | k
    · rfl
    · have hns : sel q i = false := by
        rcases hs : sel q i with _ | _
        · rfl
        · exact absurd (hsel q i hs) hq
      simp [hns]
  · intro q i k c₀ hq hrow hc₀
    obtain ⟨c', hc', hv⟩ := h.kept.vals q i k c₀ hq hrow hc₀
    -- The row outside `P` is still there, so fewer references are dropped than there were.
    have hin : (db.delChunks sel).chunks.get? (q, i) = some k := by
      rw [Db.delChunks, Table.get?_deleteWhere, h.kept.chunks q i hq, hrow]
      have hns : sel q i = false := by
        rcases hs : sel q i with _ | _
        · rfl
        · exact absurd (hsel q i hs) hq
      simp [hns]
    obtain ⟨c'', hc'', hv''⟩ := hstay k c' hc' (Db.refs_pos_of_chunk hin)
    exact ⟨c'', hc'', hv''.trans hv⟩
  · intro k c₀ hpos hc₀
    obtain ⟨c', hc', hv⟩ := h.kept.saved k c₀ hpos hc₀
    have hrefs' : 0 < (db.delChunks sel).refs k := by
      rw [← h.kept.snaps, ← h.kept.undos] at hpos
      have hle : db.snapChunks.count k + db.undoChunks.count k ≤ (db.delChunks sel).refs k := by
        show _ ≤ (db.delChunks sel).chunks.count k + db.snapChunks.count k + db.undoChunks.count k
        omega
      omega
    obtain ⟨c'', hc'', hv''⟩ := hstay k c' hc' hrefs'
    exact ⟨c'', hc'', hv''.trans hv⟩

/-- Rows of `vm_fs` are deleted; those that are there are at paths in `P`. -/
theorem RefInv.delFs_rows (h : RefInv P db₀ Z db) {sel : Str → Bool}
    (hsel : ∀ q, sel q = true → db.fs.has q = true → P q) : RefInv P db₀ Z (db.delFs sel) := by
  have hch : RefInv P db₀ Z (db.delChunks fun p _ => sel p && db.fs.has p) :=
    h.delChunks fun q _ hs => hsel q (Bool.and_eq_true_iff.1 hs).1 (Bool.and_eq_true_iff.1 hs).2
  refine hch.of_fs (fun q r hr => ?_) rfl rfl rfl rfl rfl
  rw [Db.delFs, Table.get?_deleteWhere, Option.filter_eq_some_iff] at hr
  exact h.kept.inline q r hr.1

/-- Rows of `vm_fs` at paths in `P` are deleted. -/
theorem RefInv.delFs (h : RefInv P db₀ Z db) {sel : Str → Bool}
    (hsel : ∀ q, sel q = true → P q) : RefInv P db₀ Z (db.delFs sel) :=
  h.delFs_rows fun q hs _ => hsel q hs

/-- A new blob, which has no reference yet. -/
theorem RefInv.addBlob (h : RefInv P db₀ Z db) {k : K} (hk : db.blobs.get? k = none) (b : Block) :
    RefInv P db₀ (fun k' => Z k' ∨ k' = k) (db.addBlob k b) where
  kept :=
    { exact := h.kept.exact.insert hk b
      inline := h.kept.inline
      dicts := h.kept.dicts
      chunks := h.kept.chunks
      vals := by
        intro q i k' c₀ hq hrow hc₀
        obtain ⟨c', hc', hv⟩ := h.kept.vals q i k' c₀ hq hrow hc₀
        refine ⟨c', ?_, hv⟩
        rw [Db.addBlob, Table.get?_insertIgnore, if_neg (by rintro rfl; rw [hk] at hc'; cases hc')]
        exact hc'
      snaps := h.kept.snaps
      undos := h.kept.undos
      saved := by
        intro k' c₀ hpos hc₀
        obtain ⟨c', hc', hv⟩ := h.kept.saved k' c₀ hpos hc₀
        refine ⟨c', ?_, hv⟩
        rw [Db.addBlob, Table.get?_insertIgnore, if_neg (by rintro rfl; rw [hk] at hc'; cases hc')]
        exact hc' }
  tight := h.tight.insert k b

/-- More blobs may be without a reference. -/
theorem RefInv.mono (h : RefInv P db₀ Z db) {Z' : K → Prop} (hZ : ∀ k, Z k → Z' k) :
    RefInv P db₀ Z' db := ⟨h.kept, h.tight.mono hZ⟩

/-! ## Statements -/

/-- No blob is without a reference. -/
abbrev NoBlob : K → Prop := fun _ => False

section Statements

open Lib.Prog

omit [DecidableEq K] in
/-- A statement leaves the state alone when it is refused. -/
theorem Keeps.statement {I : Db K → Prop} {f : Db K → Except Err (Db K)}
    (h : ∀ db db', I db → f db = .ok db' → I db') : Keeps I (statement f) := by
  intro db hI
  unfold endState Dbvm.statement
  rcases hf : f db with e | db'
  · exact hI
  · exact h db db' hI hf

omit [DecidableEq K] in
/-- `in_savepoint` keeps what the program in it keeps. -/
theorem Keeps.inSavepoint {α : Type} {I : Db K → Prop} {x : Sql K α}
    (h : Triple I x fun _ => I) : Keeps I (inSavepoint x) :=
  Keeps.savepoint h fun _ _ hs => hs

/-- An insert into `vm_fs` that leaves a row that is there keeps the reference counts exact and
changes nothing outside its paths. -/
theorem keeps_insertFsIgnore (p : Str) {row : FsRow K} (hrow : row.content = none) :
    Keeps (RefInv P db₀ Z) (insertFsIgnore p row) := by
  refine Keeps.statement fun db db' h hx => ?_
  rcases insertFsIgnore_ok (u := ()) (statement_eq_ok.2 hx) with ⟨-, rfl⟩ | ⟨-, rfl⟩
  · exact h
  · exact h.addFs p hrow

/-- An upsert of a row of `vm_fs` keeps the reference counts exact and changes nothing outside its
paths. -/
theorem keeps_upsertFs (p : Str) {row : FsRow K} {upd : FsRow K → FsRow K}
    (hrow : row.content = none) (hupd : ∀ r, (upd r).content = none) :
    Keeps (RefInv P db₀ Z) (upsertFs p row upd) := by
  refine Keeps.statement fun db db' h hx => ?_
  rcases upsertFs_ok (u := ()) (statement_eq_ok.2 hx) with ⟨old, -, rfl⟩ | ⟨-, rfl⟩
  · exact h.setFs p fun r _ => hupd r
  · exact h.addFs p hrow

/-- An update of a row of `vm_fs` keeps the reference counts exact and changes nothing outside its
paths. -/
theorem keeps_updateFs (p : Str) {f : FsRow K → FsRow K}
    (hf : ∀ row, row.content = none → (f row).content = none) :
    Keeps (RefInv P db₀ Z) (updateFs p f) := by
  refine Keeps.statement fun db db' h hx => ?_
  rcases updateFs_ok (u := ()) (statement_eq_ok.2 hx) with ⟨-, rfl⟩ | ⟨_, -, rfl⟩
  · exact h
  · exact h.setFs p hf

/-- A delete of rows of `vm_fs` keeps the reference counts exact and changes nothing outside its
paths. -/
theorem keeps_deleteFs {sel : Str → Bool} (hsel : ∀ q, sel q = true → P q) :
    Keeps (RefInv P db₀ Z) (deleteFs sel) := by
  refine Keeps.statement fun db db' h hx => ?_
  rw [deleteFs_ok (u := ()) (statement_eq_ok.2 hx)]
  exact h.delFs hsel

/-- A delete of chunk rows keeps the reference counts exact and changes nothing outside its
paths. -/
theorem keeps_deleteChunks {sel : Str → ℕ → Bool} (hsel : ∀ q i, sel q i = true → P q) :
    Keeps (RefInv P db₀ Z) (deleteChunks sel) := by
  refine Keeps.statement fun db db' h hx => ?_
  rw [deleteChunks_ok (u := ()) (statement_eq_ok.2 hx)]
  exact h.delChunks hsel

/-- A change of the dirty marks alone. -/
theorem RefInv.setDirty (h : RefInv P db₀ Z db) (d : List Str) :
    RefInv P db₀ Z { db with dirty := d } := h.of_fs h.kept.inline rfl rfl rfl rfl rfl

/-- A mark in `vm_dirty` keeps the reference counts exact and changes nothing outside its paths. -/
theorem keeps_insertDirty (p : Str) : Keeps (RefInv P db₀ Z) (insertDirty p) := by
  refine Keeps.statement fun db db' h hx => ?_
  rw [insertDirty_ok (u := ()) (statement_eq_ok.2 hx)]
  exact h.setDirty _

/-- The end of a mark in `vm_dirty` keeps the reference counts exact and changes nothing outside
its paths. -/
theorem keeps_deleteDirty (p : Str) : Keeps (RefInv P db₀ Z) (deleteDirty p) := by
  refine Keeps.statement fun db db' h hx => ?_
  cases hx
  exact h.setDirty _

/-! ## Blobs and chunks -/

/-- After `blob_ensure` the blob is there, and it alone may be without a reference. The other tables
have not changed. -/
theorem triple_blobEnsureWith (E : Ext K) (k : K) (data : Bytes) (effort : Effort) (db₁ : Db K) :
    Triple (fun db => RefInv P db₀ NoBlob db ∧ db.chunks = db₁.chunks)
      (blobEnsureWith E k data effort)
      fun _ db => RefInv P db₀ (· = k) db ∧ db.chunks = db₁.chunks ∧
        ∃ c, db.blobs.get? k = some c := by
  intro db flag db' ⟨h, hch⟩ hx
  rcases hk : db.blobs.get? k with _ | c
  · rw [blobEnsureWith_new hk] at hx
    cases hx
    refine ⟨(h.addBlob hk _).mono ?_, hch, ?_⟩
    · rintro k' (⟨⟨⟩⟩ | rfl)
      rfl
    · exact ⟨_, by rw [Db.addBlob, Table.get?_insertIgnore, if_pos rfl]⟩
  · rw [blobEnsureWith_found hk] at hx
    cases hx
    exact ⟨h.mono fun _ => False.elim, hch, c, hk⟩

/-- A chunk row for a blob that is there. -/
theorem triple_insertChunk {p : Str} (hP : P p) (i : ℕ) (k : K) :
    Triple (fun db => RefInv P db₀ (· = k) db ∧ ∃ c, db.blobs.get? k = some c) (insertChunk p i k)
      fun _ => RefInv P db₀ NoBlob := by
  intro db _ db' ⟨h, c, hc⟩ hx
  obtain ⟨hfree, rfl⟩ := insertChunk_ok hx
  exact (h.addChunk hP hfree hc).mono fun k' hk' => hk'.2 hk'.1

/-- A chunk that is stored and listed leaves the reference counts exact and every blob
referenced. -/
theorem triple_appendChunk (E : Ext K) {p : Str} (hP : P p) (i : ℕ) (piece : Bytes) :
    Triple (RefInv P db₀ NoBlob) (appendChunk E p i piece) fun _ => RefInv P db₀ NoBlob := by
  intro db _ db' h hx
  obtain ⟨_, db₁, h₁, h₂⟩ := bind_eq_ok.1 hx
  obtain ⟨h', -, hc⟩ := triple_blobEnsureWith E _ piece .archive db db _ db₁ ⟨h, rfl⟩ h₁
  exact triple_insertChunk hP i _ db₁ _ db' ⟨h', hc⟩ h₂

/-- `chunks_replace` leaves the reference counts exact and every blob referenced. -/
theorem triple_chunksReplace (E : Ext K) {p : Str} (hP : P p) (data : Bytes) :
    Triple (RefInv P db₀ NoBlob) (chunksReplace E p data) fun _ => RefInv P db₀ NoBlob := by
  refine Triple.bind (Keeps.triple (keeps_deleteChunks ?_)) fun _ =>
    Triple.forM_inv fun piece _ => triple_appendChunk E hP piece.2 piece.1
  intro q i hq
  rw [of_decide_eq_true hq]
  exact hP

omit [DecidableEq K] in
/-- A key is released when a selected row carries it. -/
theorem Db.mem_chunkKeys {sel : Str → ℕ → Bool} {k : K} :
    k ∈ db.chunkKeys sel ↔ ∃ q i, sel q i = true ∧ db.chunks.get? (q, i) = some k := by
  simp only [Db.chunkKeys, Table.select, List.mem_map, List.mem_filter, Table.get?_eq_some_iff]
  constructor
  · rintro ⟨⟨⟨q, i⟩, _⟩, ⟨hmem, hs⟩, rfl⟩
    exact ⟨q, i, hs, hmem⟩
  · rintro ⟨q, i, hs, hmem⟩
    exact ⟨((q, i), k), ⟨hmem, hs⟩, rfl⟩

/-- Fewer keys than references are released: the blob stays. -/
theorem RefInv.get?_delChunks (h : RefInv P db₀ Z db) {sel : Str → ℕ → Bool} {k : K}
    {c : Cell Block} (hc : db.blobs.get? k = some c)
    (hlt : (db.chunkKeys sel).count k < db.refs k) :
    ∃ c', (db.delChunks sel).blobs.get? k = some c' := by
  obtain ⟨c', hc', -⟩ := Store.releaseAll_keeps (db.chunkKeys sel) hc (by
    rw [h.kept.exact.count k c hc]
    exact_mod_cast hlt)
  exact ⟨c', hc'⟩

/-- A blob that has just been stored is there, and is the only one that may lack a reference. -/
theorem RefInv.withBlob (E : Ext K) (effort : Effort) (piece : Bytes) (h : RefInv P db₀ NoBlob db) :
    RefInv P db₀ (· = E.blobKey piece) (db.withBlob E effort piece) ∧
      ∃ c, (db.withBlob E effort piece).blobs.get? (E.blobKey piece) = some c := by
  obtain ⟨flag, hflag⟩ := blobEnsureWith_eq E effort db piece
  obtain ⟨hI, -, hc⟩ := triple_blobEnsureWith E _ piece effort db db flag _ ⟨h, rfl⟩ hflag
  exact ⟨hI, hc⟩

/-- The replacement of a chunk row, by one with another key or while the key has another row. Else
the delete drops the blob the insert needs. -/
theorem RefInv.withChunk (E : Ext K) (effort : Effort) {p : Str} (hP : P p) {idx : ℕ}
    {piece : Bytes} (h : RefInv P db₀ NoBlob db)
    (hor : db.chunks.get? (p, idx) ≠ some (E.blobKey piece) ∨ 1 < db.refs (E.blobKey piece)) :
    RefInv P db₀ NoBlob (db.withChunk E effort p idx piece) := by
  obtain ⟨hI, c, hc⟩ := h.withBlob E effort piece
  have hsel : ∀ q i, (decide (q = p) && decide (i = idx)) = true → P q := by
    intro q i hs
    rw [of_decide_eq_true (Bool.and_eq_true_iff.1 hs).1]
    exact hP
  have hfree : ((db.withBlob E effort piece).delChunks
      fun q i => decide (q = p) && decide (i = idx)).chunks.get? (p, idx) = none := by
    rw [Db.delChunks, Table.get?_deleteWhere]
    rcases (db.withBlob E effort piece).chunks.get? (p, idx) <;> simp
  -- The blob of the new piece survives the removal of the old row, since it has another key or
  -- another reference.
  have hstay : ∃ c', ((db.withBlob E effort piece).delChunks
      fun q i => decide (q = p) && decide (i = idx)).blobs.get? (E.blobKey piece) = some c' := by
    rcases hor with hne | hlt
    · refine ⟨c, (Store.get?_releaseAll_of_not_mem _ ?_).trans hc⟩
      rw [Db.chunkKeys_single, Db.withBlob_chunks, Option.mem_toList]
      exact hne
    · refine hI.get?_delChunks hc ?_
      rw [Db.chunkKeys_single]
      have hrefs : (db.withBlob E effort piece).refs (E.blobKey piece) =
          db.refs (E.blobKey piece) := by
        simp only [Db.refs, Db.withBlob_chunks, Db.withBlob_snapChunks, Db.withBlob_undoChunks]
      rw [hrefs]
      refine lt_of_le_of_lt List.count_le_length (lt_of_le_of_lt ?_ hlt)
      rcases (db.withBlob E effort piece).chunks.get? (p, idx) <;> simp
  obtain ⟨c', hc'⟩ := hstay
  exact ((hI.delChunks hsel).addChunk hP hfree hc').mono fun k hk => hk.2 hk.1

/-- A blob that is not there stays away when another one is stored. -/
theorem Db.withChunk_missing (E : Ext K) (effort : Effort) {k : K} (p : Str) (idx : ℕ)
    {piece : Bytes} (hk : db.blobs.get? k = none) (hne : k ≠ E.blobKey piece) :
    (db.withChunk E effort p idx piece).blobs.get? k = none := by
  have hblob : (db.withBlob E effort piece).blobs.get? k = none := by
    unfold Db.withBlob
    split_ifs
    · exact hk
    · rw [Db.addBlob, Table.get?_insertIgnore, if_neg hne, hk]
  rw [Db.withChunk, Db.addChunk, Store.get?_acquire, if_neg hne]
  exact Store.get?_releaseAll_of_none _ hblob

/-- A chunk that keeps its content, as the only reference to it, loses its blob: the old row is
deleted first. -/
theorem Db.withChunk_drops (E : Ext K) (effort : Effort) {p : Str} {idx : ℕ} {piece : Bytes}
    (h : RefInv P db₀ NoBlob db) (hrow : db.chunks.get? (p, idx) = some (E.blobKey piece))
    (hone : db.refs (E.blobKey piece) ≤ 1) :
    (db.withChunk E effort p idx piece).blobs.get? (E.blobKey piece) = none := by
  obtain ⟨c, hc⟩ := h.kept.get?_of_chunk hrow
  have hblob : db.withBlob E effort piece = db := by
    unfold Db.withBlob
    rw [if_pos (Table.has_eq_true.2 ⟨c, hc⟩)]
  have hcnt : c.refcnt ≤ 1 := by
    rw [h.kept.exact.count _ c hc]
    exact_mod_cast hone
  rw [Db.withChunk, Db.addChunk, Store.get?_acquire, if_pos rfl, hblob, Db.delChunks,
    Db.releaseBlobs, Db.chunkKeys_single, hrow]
  dsimp only [Option.toList_some, Store.releaseAll, List.foldl_cons, List.foldl_nil]
  rw [Store.get?_release_self, hc, Option.bind_some, if_pos hcnt]
  rfl

/-- A chunk row that is replaced by one of another blob leaves the reference counts exact and
every blob referenced. -/
theorem triple_swapChunk (E : Ext K) (effort : Effort) {p : Str} (hP : P p) (idx : ℕ)
    (piece : Bytes) :
    Triple (fun db => RefInv P db₀ NoBlob db ∧ db.chunks.get? (p, idx) ≠ some (E.blobKey piece))
      (swapChunk E effort p idx piece) fun _ => RefInv P db₀ NoBlob := by
  intro db _ db' ⟨h, hne⟩ hx
  rw [swapChunk_ok hx]
  exact h.withChunk E effort hP (Or.inl hne)

/-! ## Rows -/

/-- `ensure_parent_dirs` keeps the reference counts exact and changes nothing outside its paths. -/
theorem keeps_ensureParentDirs (vmPath : Str) (now : ℤ) :
    Keeps (RefInv P db₀ Z) (ensureParentDirs vmPath now) :=
  Keeps.forM (fun d => keeps_insertFsIgnore d rfl) _

/-- `fs_put_file` keeps the reference counts exact and changes nothing outside its paths. -/
theorem keeps_fsPutFile (E : Ext K) {p : Str} (hP : P p) (mode mtime : ℤ) (data : Bytes) :
    Keeps (RefInv P db₀ NoBlob) (fsPutFile E p mode mtime data) :=
  Keeps.inSavepoint (Triple.bind (triple_chunksReplace E hP data) fun _ =>
    Keeps.triple (keeps_upsertFs p rfl fun _ => rfl))

/-- `fs_put_node` keeps the reference counts exact and changes nothing outside its paths. -/
theorem keeps_fsPutNode {p : Str} (hP : P p) (kind : Kind) (mode mtime : ℤ) (link : Option Str) :
    Keeps (RefInv P db₀ NoBlob) (fsPutNode p kind mode mtime link) := by
  refine Keeps.inSavepoint (Triple.bind (Keeps.triple (keeps_deleteChunks ?_)) fun _ =>
    Keeps.triple (keeps_upsertFs p rfl fun _ => rfl))
  intro q i hq
  rw [of_decide_eq_true hq]
  exact hP

/-- `vm_add_bytes` keeps the reference counts exact and changes nothing outside its paths. -/
theorem keeps_vmAddBytes (E : Ext K) {vmPath : Str} (hP : P (normalizeVmPath vmPath)) (data : Bytes)
    (mode mtime now : ℤ) : Keeps (RefInv P db₀ NoBlob) (vmAddBytes E vmPath data mode mtime now) :=
  Keeps.bind (keeps_ensureParentDirs _ now) fun _ => keeps_fsPutFile E hP mode mtime data

/-- `vm_add_symlink` keeps the reference counts exact and changes nothing outside its paths. -/
theorem keeps_vmAddSymlink {vmPath : Str} (hP : P (normalizeVmPath vmPath)) (target : Str)
    (now : ℤ) : Keeps (RefInv P db₀ NoBlob) (vmAddSymlink vmPath target now) :=
  Keeps.bind (keeps_ensureParentDirs _ now) fun _ => keeps_fsPutNode hP _ _ _ _

/-- `vm_add_dir` keeps the reference counts exact and changes nothing outside its paths. -/
theorem keeps_vmAddDir {vmPath : Str} (hP : P (normalizeVmPath vmPath)) (mode mtime now : ℤ) :
    Keeps (RefInv P db₀ NoBlob) (vmAddDir vmPath mode mtime now) :=
  Keeps.bind (keeps_ensureParentDirs _ now) fun _ => keeps_fsPutNode hP _ _ _ _

/-! ## Streams -/

/-- The loop of `fs_put_file_stream` leaves the reference counts exact and every blob referenced. -/
theorem triple_putStreamChunks (E : Ext K) {p : Str} (hP : P p) : ∀ (fuel idx : ℕ) (src : Reader),
    Triple (RefInv P db₀ NoBlob) (putStreamChunks E p fuel idx src) fun _ => RefInv P db₀ NoBlob
  | 0, _, _ => Triple.pure fun _ h => h
  | fuel + 1, idx, src => by
    rw [putStreamChunks]
    refine Triple.bind (q := fun _ => RefInv P db₀ NoBlob) (Triple.query fun _ _ h _ => h) ?_
    rintro ⟨piece, rest⟩
    dsimp only
    split_ifs
    · exact Triple.pure fun _ h => h
    · refine Triple.bind (triple_appendChunk E hP idx piece) fun _ => ?_
      exact Triple.pure fun _ h => h
    · refine Triple.bind (triple_appendChunk E hP idx piece) fun _ => ?_
      refine Triple.bind (triple_putStreamChunks E hP fuel (idx + 1) rest) fun _ => ?_
      exact Triple.pure fun _ h => h

/-- `fs_put_file_stream_ns` keeps the reference counts exact and changes nothing outside its
paths. -/
theorem keeps_fsPutFileStreamNs (E : Ext K) {p : Str} (hP : P p) (mode mtime mtimeNs : ℤ)
    (src : Reader) :
    Keeps (RefInv P db₀ NoBlob) (fsPutFileStreamNs E p mode mtime mtimeNs src) := by
  refine Keeps.inSavepoint (Triple.bind (Keeps.triple (keeps_deleteChunks ?_)) fun _ =>
    Triple.bind (triple_putStreamChunks E hP _ 0 src) fun whole => ?_)
  · intro q i hq
    rw [of_decide_eq_true hq]
    exact hP
  · exact Triple.bind (Keeps.triple (keeps_upsertFs p rfl fun _ => rfl)) fun _ =>
      Triple.pure fun _ h => h

/-! ## Ranged writes -/

omit [DecidableEq K] in
/-- A program on the database, run on the connection, keeps what the program in it keeps. -/
theorem Keeps.onDb {α : Type} {I : Db K → Prop} {x : Sql K α} (h : Keeps I x) :
    Keeps (fun c : Conn K => I c.db) (onDb x) := by
  intro c hc
  have := h c.db hc
  unfold endState Dbvm.onDb at *
  rcases hx : x c.db with ⟨a, db⟩ | ⟨e, db⟩ <;> simpa [hx] using this

omit [DecidableEq K] in
/-- A program on the database, run on the connection, keeps what the program in it keeps. -/
theorem Triple.onDb {α : Type} {p : Db K → Prop} {q : α → Db K → Prop} {x : Sql K α}
    (h : Triple p x q) :
    Triple (fun c : Conn K => p c.db) (Dbvm.onDb x) fun a c => q a c.db := by
  intro c a c' hc hx
  unfold Dbvm.onDb at hx
  rcases hx' : x c.db with ⟨b, db⟩ | ⟨e, db⟩
  · rw [hx'] at hx
    cases hx
    exact h _ _ _ hc hx'
  · rw [hx'] at hx
    cases hx

omit [DecidableEq K] in
/-- A program with a cache keeps what the program in it keeps. -/
theorem Keeps.withCache {α : Type} {I : Db K → Prop} {x : Prg K α} (cache : Option (ChunkCache K))
    (h : Keeps (fun c : Conn K => I c.db) x) : Keeps I (withCache cache x) := by
  intro db hdb
  have := h ⟨db, cache⟩ hdb
  unfold endState Dbvm.withCache at *
  rcases hx : x ⟨db, cache⟩ with ⟨a, c⟩ | ⟨e, c⟩ <;> simpa [hx] using this

omit [DecidableEq K] in
/-- A savepoint of a connection keeps what the program in it keeps. -/
theorem Keeps.connSavepoint {α : Type} {I : Db K → Prop} {x : Prg K α}
    (h : Triple (fun c : Conn K => I c.db) x fun _ c => I c.db) :
    Keeps (fun c : Conn K => I c.db) (connSavepoint x) :=
  Keeps.savepoint h fun _ _ hs => hs

/-- A program that does not write to the database. -/
def ReadOnly {α : Type} (x : Prg K α) : Prop := ∀ db, Keeps (fun c : Conn K => c.db = db) x

omit [DecidableEq K] in
/-- A program that writes nothing keeps everything. -/
theorem ReadOnly.keeps {α : Type} {x : Prg K α} (h : ReadOnly x) {I : Db K → Prop} :
    Keeps (fun c : Conn K => I c.db) x := by
  intro c hc
  have := h c.db c rfl
  dsimp only at this ⊢
  rw [this]
  exact hc

omit [DecidableEq K] in
/-- Two programs that write nothing write nothing one after the other. -/
theorem ReadOnly.bind {α β : Type} {x : Prg K α} {f : α → Prg K β} (hx : ReadOnly x)
    (hf : ∀ a, ReadOnly (f a)) : ReadOnly (x >>= f) :=
  fun db => Keeps.bind (hx db) fun a => hf a db

omit [DecidableEq K] in
/-- A value writes nothing. -/
theorem ReadOnly.pure {α : Type} (a : α) : ReadOnly (Pure.pure a : Prg K α) := fun _ => Keeps.pure a

omit [DecidableEq K] in
/-- An error writes nothing. -/
theorem ReadOnly.throw {α : Type} (e : Err) : ReadOnly (throw e : Prg K α) := fun _ => Keeps.throw e

omit [DecidableEq K] in
/-- A query of the database writes nothing. -/
theorem ReadOnly.query {α : Type} (f : Db K → Except Err α) : ReadOnly (Dbvm.onDb (query f)) :=
  fun db => Keeps.onDb (I := (· = db)) (Keeps.query f)

omit [DecidableEq K] in
/-- A read of the database writes nothing. -/
theorem ReadOnly.reads {α : Type} (f : Db K → α) : ReadOnly (Dbvm.onDb (reads f)) :=
  fun db => Keeps.onDb (I := (· = db)) (Keeps.reads f)

/-- The read of a chunk by its key writes nothing. -/
theorem readOnly_chunkByKey (E : Ext K) (path : Str) (idx : ℕ) (k : K) :
    ReadOnly (chunkByKey E path idx k) := by
  rintro db c rfl
  unfold endState chunkByKey
  rcases (c.cache.bind fun m => m.get k) with _ | ⟨piece, m⟩
  · rcases c.db.blobBytes E path idx k with e | piece <;> rfl
  · rfl

/-- `chunk_bytes` writes nothing. -/
theorem readOnly_chunkBytes (E : Ext K) (path : Str) (idx : ℕ) :
    ReadOnly (chunkBytes E path idx) :=
  ReadOnly.bind (ReadOnly.query _) fun _ => readOnly_chunkByKey E path idx _

/-- The loop of a range read writes nothing. -/
theorem readOnly_readPieces (E : Ext K) (real : Str) (start stop : ℕ) :
    ∀ (expect : ℕ) (keys : List (ℕ × K)), ReadOnly (readPieces E real start stop expect keys)
  | _, [] => ReadOnly.pure _
  | expect, (idx, key) :: rest => by
    rw [readPieces]
    split_ifs
    · exact ReadOnly.throw _
    · exact ReadOnly.bind (readOnly_chunkByKey E real idx key) fun _ =>
        ReadOnly.bind (readOnly_readPieces E real start stop (expect + 1) rest) fun _ =>
          ReadOnly.pure _

/-- `read_range_cached` writes nothing. -/
theorem readOnly_readRangeCached (E : Ext K) (vmPath : Str) (off len : ℕ) :
    ReadOnly (readRangeCached E vmPath off len) := by
  unfold readRangeCached
  refine ReadOnly.bind (ReadOnly.query _) fun real => ReadOnly.bind (ReadOnly.query _) fun size =>
    ?_
  dsimp only
  split_ifs
  · exact ReadOnly.pure _
  · refine ReadOnly.bind (ReadOnly.reads _) fun keys =>
      ReadOnly.bind (readOnly_readPieces E real _ _ _ keys) fun out => ?_
    split_ifs
    · exact ReadOnly.bind (ReadOnly.throw _) fun _ => ReadOnly.pure _
    · exact ReadOnly.pure _

/-- The loop that reads a whole file writes nothing. -/
theorem readOnly_collectPieces (E : Ext K) (path : Str) (size : ℕ) :
    ∀ idxs : List ℕ, ReadOnly (collectPieces E path size idxs)
  | [] => ReadOnly.pure _
  | idx :: rest => by
    rw [collectPieces]
    refine ReadOnly.bind (readOnly_chunkBytes E path idx) fun piece => ?_
    split_ifs
    · exact ReadOnly.bind (ReadOnly.throw _) fun _ =>
        ReadOnly.bind (readOnly_collectPieces E path size rest) fun _ => ReadOnly.pure _
    · exact ReadOnly.bind (readOnly_collectPieces E path size rest) fun _ => ReadOnly.pure _

/-- An entry of the chunk cache keeps the reference counts exact and changes nothing outside its
paths. -/
theorem keeps_cachePut {I : Db K → Prop} (k : K) (piece : Bytes) :
    Keeps (fun c : Conn K => I c.db) (cachePut k piece) := fun _ hc => hc

/-- `put_chunk` leaves the reference counts exact and every blob referenced. -/
theorem triple_putChunk (E : Ext K) {p : Str} (hP : P p) (idx : ℕ) (piece : Bytes) :
    Triple (fun c : Conn K => RefInv P db₀ NoBlob c.db) (putChunk E p idx piece)
      fun _ c => RefInv P db₀ NoBlob c.db := by
  unfold putChunk
  refine Triple.bind (q := fun old c => RefInv P db₀ NoBlob c.db ∧ c.db.chunks.get? (p, idx) = old)
    (Triple.onDb (q := fun old db => RefInv P db₀ NoBlob db ∧ db.chunks.get? (p, idx) = old)
      (Triple.reads fun _ h => ⟨h, rfl⟩)) fun old => ?_
  split_ifs with hold
  · exact Triple.pure fun _ h => h.1
  · refine Triple.bind (Triple.mono (Triple.onDb (triple_swapChunk E .interactive hP idx piece)) ?_
      fun _ _ h => h) fun _ => Keeps.triple (keeps_cachePut _ piece)
    rintro c ⟨h, rfl⟩
    exact ⟨h, hold⟩

/-- `mark_dirty` keeps the reference counts exact and changes nothing outside its paths. -/
theorem keeps_markDirty (p : Str) (size : ℕ) (mtime : ℤ) :
    Keeps (RefInv P db₀ Z) (markDirty p size mtime) :=
  Keeps.bind (keeps_updateFs p fun _ h => h) fun _ => keeps_insertDirty p

/-- One chunk of a range write leaves the reference counts exact and every blob referenced. -/
theorem triple_writeChunk (E : Ext K) {p : Str} (hP : P p) (oldSize newSize off : ℕ) (data : Bytes)
    (idx : ℕ) : Triple (fun c : Conn K => RefInv P db₀ NoBlob c.db)
      (writeChunk E p oldSize newSize off data idx) fun _ c => RefInv P db₀ NoBlob c.db := by
  unfold writeChunk
  dsimp only
  split_ifs
  · exact Triple.bind (Keeps.triple (readOnly_readRangeCached E p _ _).keeps) fun _ =>
      triple_putChunk E hP idx _
  · exact triple_putChunk E hP idx _

/-- `write_range_deferred` keeps the reference counts exact and changes nothing outside its
paths. -/
theorem keeps_writeRangeDeferred (E : Ext K) (vmPath : Str) (off : ℕ) (data : Bytes) (mtime : ℤ)
    (hP : ∀ p, P p) : Keeps (fun c : Conn K => RefInv P db₀ NoBlob c.db)
      (writeRangeDeferred E vmPath off data mtime) := by
  unfold writeRangeDeferred
  refine Keeps.bind (ReadOnly.query _).keeps ?_
  rintro ⟨real, oldSize⟩
  dsimp only
  split_ifs
  · exact Keeps.pure _
  · exact Keeps.connSavepoint (Triple.bind (Triple.forM_inv fun idx _ =>
      triple_writeChunk E (hP real) _ _ _ _ idx) fun _ =>
        Keeps.triple (Keeps.onDb (keeps_markDirty real _ mtime)))

/-- The cut of the last chunk in a truncation leaves the reference counts exact and every blob
referenced. -/
theorem triple_cutTail (E : Ext K) {p : Str} (hP : P p) (newSize : ℕ) :
    Triple (fun c : Conn K => RefInv P db₀ NoBlob c.db) (cutTail E p newSize)
      fun _ c => RefInv P db₀ NoBlob c.db := by
  unfold cutTail
  split_ifs
  · exact Triple.bind (Keeps.triple (readOnly_chunkBytes E p _).keeps) fun piece =>
      triple_putChunk E hP _ _
  · exact Triple.pure fun _ h => h

/-- `truncate_range_deferred` keeps the reference counts exact and changes nothing outside its
paths. -/
theorem keeps_truncateRangeDeferred (E : Ext K) (vmPath : Str) (newSize : ℕ) (mtime : ℤ)
    (hP : ∀ p, P p) : Keeps (fun c : Conn K => RefInv P db₀ NoBlob c.db)
      (truncateRangeDeferred E vmPath newSize mtime) := by
  unfold truncateRangeDeferred
  refine Keeps.bind (ReadOnly.query _).keeps ?_
  rintro ⟨real, oldSize⟩
  dsimp only
  split_ifs with h1 h2
  · exact Keeps.pure _
  · exact keeps_writeRangeDeferred E real _ _ mtime hP
  · exact Keeps.connSavepoint (Triple.bind (Keeps.triple (Keeps.onDb
      (keeps_deleteChunks fun q _ _ => hP q))) fun _ =>
        Triple.bind (triple_cutTail E (hP real) newSize) fun _ =>
          Keeps.triple (Keeps.onDb (keeps_markDirty real _ mtime)))

/-! ## Whole-file hashes -/

/-- `whole_file_hash` keeps the reference counts exact and changes nothing outside its paths. -/
theorem keeps_wholeFileHash (E : Ext K) (path : Str) (size : ℕ) {I : Db K → Prop} :
    Keeps I (wholeFileHash E path size) :=
  Keeps.bind (Keeps.withCache none (readOnly_collectPieces E path size _).keeps) fun _ =>
  Keeps.pure _

/-- The hashes are recomputed by changes of `hash` columns and of dirty marks alone. -/
theorem keeps_finalizeFile_of {I : Db K → Prop}
    (hset : ∀ p h, Keeps I (updateFs p fun row => { row with hash := h }))
    (hdel : ∀ p, Keeps I (deleteDirty p)) (E : Ext K) (path : Str) :
    Keeps I (finalizeFile E path) := by
  unfold finalizeFile
  refine Keeps.bind (Keeps.reads _) fun dirty => ?_
  split_ifs
  · exact Keeps.pure _
  · refine Keeps.inSavepoint (Keeps.triple (Keeps.bind (Keeps.query _) fun size =>
      Keeps.bind (keeps_wholeFileHash E path size) fun whole =>
        Keeps.bind (hset path _) fun _ => Keeps.bind (hdel path) fun _ => Keeps.pure _))

/-- `finalize_dirty` keeps whatever its two statements keep: the update of a hash and the end of a
mark. -/
theorem keeps_finalizeDirty_of {I : Db K → Prop}
    (hset : ∀ p h, Keeps I (updateFs p fun row => { row with hash := h }))
    (hdel : ∀ p, Keeps I (deleteDirty p)) (E : Ext K) : Keeps I (finalizeDirty E) :=
  Keeps.bind (Keeps.reads _) fun paths => Keeps.foldlM (fun _ p =>
    Keeps.bind (keeps_finalizeFile_of hset hdel E p) fun _ => Keeps.pure _) paths 0

/-- `finalize_file` keeps the reference counts exact and changes nothing outside its paths. -/
theorem keeps_finalizeFile (E : Ext K) (path : Str) :
    Keeps (RefInv P db₀ Z) (finalizeFile E path) :=
  keeps_finalizeFile_of (fun p _ => keeps_updateFs p fun _ h => h) keeps_deleteDirty E path

/-- `finalize_dirty` keeps the reference counts exact and changes nothing outside its paths. -/
theorem keeps_finalizeDirty (E : Ext K) : Keeps (RefInv P db₀ Z) (finalizeDirty E) :=
  keeps_finalizeDirty_of (fun p _ => keeps_updateFs p fun _ h => h) keeps_deleteDirty E

/-- `write_range` keeps the reference counts exact and changes nothing outside its paths. -/
theorem keeps_writeRange (E : Ext K) (vmPath : Str) (off : ℕ) (data : Bytes) (mtime : ℤ)
    (hP : ∀ p, P p) : Keeps (RefInv P db₀ NoBlob) (writeRange E vmPath off data mtime) :=
  Keeps.inSavepoint (Keeps.triple (Keeps.bind
    (Keeps.withCache none (keeps_writeRangeDeferred E vmPath off data mtime hP)) fun _ =>
      Keeps.bind (Keeps.query _) fun real => Keeps.bind (keeps_finalizeFile E real) fun _ =>
        Keeps.pure _))

/-- `truncate_range` keeps the reference counts exact and changes nothing outside its paths. -/
theorem keeps_truncateRange (E : Ext K) (vmPath : Str) (newSize : ℕ) (mtime : ℤ)
    (hP : ∀ p, P p) : Keeps (RefInv P db₀ NoBlob) (truncateRange E vmPath newSize mtime) :=
  Keeps.inSavepoint (Keeps.triple (Keeps.bind
    (Keeps.withCache none (keeps_truncateRangeDeferred E vmPath newSize mtime hP)) fun _ =>
      Keeps.bind (Keeps.query _) fun real => Keeps.bind (keeps_finalizeFile E real) fun _ =>
        Keeps.pure _))

/-! ## Exact counts alone -/

/-- The counts are exact, no blob is without a reference and no row has inline content. -/
structure RefOk (db : Db K) : Prop where
  /-- The stored counts are the numbers of chunk rows. -/
  exact : Store.Exact db.refs db.blobs
  /-- Every blob has a reference. -/
  tight : Store.Tight NoBlob db.blobs
  /-- No row has inline content. -/
  inline : ∀ p row, db.fs.get? p = some row → row.content = none

/-- The part of the invariant that is about counts alone. -/
theorem RefInv.refOk (h : RefInv P db₀ NoBlob db) : RefOk db :=
  ⟨h.kept.exact, h.tight, h.kept.inline⟩

/-- A database with exact counts meets the invariant at its own beginning. -/
theorem RefOk.refInv (h : RefOk db) (P : Str → Prop) : RefInv P db NoBlob db where
  kept :=
    { exact := h.exact
      inline := h.inline
      dicts := rfl
      chunks := fun _ _ _ => rfl
      vals := fun _ _ _ c _ _ hc => ⟨c, hc, rfl⟩
      snaps := rfl
      undos := rfl
      saved := fun _ c _ hc => ⟨c, hc, rfl⟩ }
  tight := h.tight

/-- What the operations of the store keep. -/
theorem keeps_refOk_of {α : Type} {x : Sql K α}
    (h : ∀ db₀, Keeps (RefInv (fun _ => True) db₀ NoBlob) x) : Keeps RefOk x := by
  intro db hdb
  exact (h db db (hdb.refInv _)).refOk

/-- Changes that leave the chunk tables and the blobs alone. -/
theorem RefOk.of_fs (h : RefOk db) (hfs : ∀ p row, db'.fs.get? p = some row → row.content = none)
    (hr : ∀ k, db'.refs k = db.refs k) (hb : db'.blobs = db.blobs) : RefOk db' where
  exact := by
    rw [hb, show db'.refs = db.refs from funext hr]
    exact h.exact
  tight := by
    rw [hb]
    exact h.tight
  inline := hfs

/-- One more row for a key that has one. -/
theorem RefOk.acquire (h : RefOk db) {k : K} (hk : 0 < db.refs k)
    (hb : db'.blobs = db.blobs.acquire k)
    (hr : ∀ k', db'.refs k' = db.refs k' + if k' = k then 1 else 0) (hfs : db'.fs = db.fs) :
    RefOk db' where
  exact := by
    obtain ⟨c, hc⟩ := h.exact.get?_of_pos hk
    rw [hb]
    exact h.exact.acquire hc hr
  tight := by
    rw [hb]
    refine (h.tight.acquire fun c hc => ?_).mono fun _ hz => hz.1
    exact le_of_lt (h.tight k c hc id)
  inline := by
    rw [hfs]
    exact h.inline

/-- Rows with the keys `ks` are gone. -/
theorem RefOk.releaseAll (h : RefOk db) (ks : List K) (hb : db'.blobs = db.blobs.releaseAll ks)
    (hr : ∀ k, db.refs k = db'.refs k + ks.count k) (hfs : db'.fs = db.fs) : RefOk db' where
  exact := by
    rw [hb]
    exact h.exact.releaseAll ks hr
  tight := by
    rw [hb]
    exact h.tight.releaseAll ks
  inline := by
    rw [hfs]
    exact h.inline

/-- A new row without inline content leaves the counts exact. -/
theorem RefOk.addFs (h : RefOk db) (p : Str) {row : FsRow K} (hrow : row.content = none) :
    RefOk (db.addFs p row) :=
  ((h.refInv fun _ => True).addFs p hrow).refOk

end Statements

end Dbvm
