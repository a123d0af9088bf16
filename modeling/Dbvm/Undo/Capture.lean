import Dbvm.Overlay.Rows
import Dbvm.Refcount

/-!
# Undo records

An undo record copies a row and its chunk references before the first write to its path. `Recorded`
says that the record of `u` is exact with respect to an earlier state: a path without an entry is as
it was then, and an entry holds what was there. Every program that records the paths it writes keeps
it. From it, the change list of the record is the difference of the two trees, and applying the
record gives the earlier tree back.
-/

namespace Dbvm

open Lib Lib.Chunks Lib.Prog

variable {K : Type} [DecidableEq K]

section Touched

variable {P Q : Str → Prop} {db db' db'' : Db K} {u : Unit}

/-! ## Writes confined to some paths -/

/-- Only the paths `P` have changed, and a path of `P` without a row has no chunks. -/
structure Touched (P : Str → Prop) (db db' : Db K) : Prop where
  /-- The rows at other paths. -/
  fs : ∀ q, ¬ P q → db'.fs.get? q = db.fs.get? q
  /-- The chunks and the blobs. -/
  inv : RefInv P db NoBlob db'
  /-- The records. -/
  undo : db'.undo = db.undo
  /-- Their entries. -/
  undoFs : db'.undoFs = db.undoFs
  /-- No new dirty mark. -/
  dirty : ∀ q ∈ db'.dirty, q ∈ db.dirty
  /-- No chunks without a row. -/
  clean : ∀ q, P q → db'.fs.get? q = none → ∀ i, db'.chunks.get? (q, i) = none

/-- A change of some paths is a change of more. -/
theorem RefInv.weaken {db₀ : Db K} (h : RefInv P db₀ NoBlob db) (hPQ : ∀ q, P q → Q q) :
    RefInv Q db₀ NoBlob db where
  kept :=
    { exact := h.kept.exact
      inline := h.kept.inline
      dicts := h.kept.dicts
      chunks := fun q i hq => h.kept.chunks q i fun hp => hq (hPQ q hp)
      vals := fun q i k c hq => h.kept.vals q i k c fun hp => hq (hPQ q hp)
      snaps := h.kept.snaps
      undos := h.kept.undos
      saved := h.kept.saved }
  tight := h.tight

/-- Two changes of the paths are one. -/
theorem RefInv.trans (h : RefInv P db NoBlob db') (h' : RefInv P db' NoBlob db'') :
    RefInv P db NoBlob db'' where
  kept :=
    { exact := h'.kept.exact
      inline := h'.kept.inline
      dicts := h'.kept.dicts.trans h.kept.dicts
      chunks := fun q i hq => (h'.kept.chunks q i hq).trans (h.kept.chunks q i hq)
      vals := by
        intro q i k c hq hk hc
        obtain ⟨c', hc', hv⟩ := h.kept.vals q i k c hq hk hc
        have hk' : db'.chunks.get? (q, i) = some k := (h.kept.chunks q i hq).trans hk
        obtain ⟨c'', hc'', hv'⟩ := h'.kept.vals q i k c' hq hk' hc'
        exact ⟨c'', hc'', hv'.trans hv⟩
      snaps := h'.kept.snaps.trans h.kept.snaps
      undos := h'.kept.undos.trans h.kept.undos
      saved := by
        intro k c hpos hc
        obtain ⟨c', hc', hv⟩ := h.kept.saved k c hpos hc
        rw [← h.kept.snaps, ← h.kept.undos] at hpos
        obtain ⟨c'', hc'', hv'⟩ := h'.kept.saved k c' hpos hc'
        exact ⟨c'', hc'', hv'.trans hv⟩ }
  tight := h'.tight

/-- Nothing has changed. -/
theorem Touched.refl (h : RefOk db) : Touched (fun _ => False) db db :=
  ⟨fun _ _ => rfl, h.refInv _, rfl, rfl, fun _ hq => hq, fun _ hq => hq.elim⟩

/-- Changes of two sets of paths are a change of both. -/
theorem Touched.trans (h : Touched P db db') (h' : Touched Q db' db'') :
    Touched (fun q => P q ∨ Q q) db db'' where
  fs := by
    intro q hq
    rw [not_or] at hq
    rw [h'.fs q hq.2, h.fs q hq.1]
  inv := (h.inv.weaken fun _ => Or.inl).trans (h'.inv.weaken fun _ => Or.inr)
  undo := h'.undo.trans h.undo
  undoFs := h'.undoFs.trans h.undoFs
  dirty := fun q hq => h.dirty q (h'.dirty q hq)
  clean := by
    intro q hq hnone i
    by_cases hQ : Q q
    · exact h'.clean q hQ hnone i
    · rw [h'.inv.kept.chunks q i hQ]
      rw [h'.fs q hQ] at hnone
      exact h.clean q (hq.resolve_right hQ) hnone i

/-- A change of some paths is a change of more when the others without a row have no chunks. -/
theorem Touched.mono (h : Touched P db db') (hPQ : ∀ q, P q → Q q)
    (hclean : ∀ q, Q q → ¬ P q → db.fs.get? q = none → ∀ i, db.chunks.get? (q, i) = none) :
    Touched Q db db' where
  fs := fun q hq => h.fs q fun hp => hq (hPQ q hp)
  inv := h.inv.weaken hPQ
  undo := h.undo
  undoFs := h.undoFs
  dirty := h.dirty
  clean := by
    intro q hq hnone i
    by_cases hP : P q
    · exact h.clean q hP hnone i
    · rw [h.inv.kept.chunks q i hP]
      rw [h.fs q hP] at hnone
      exact hclean q hq hP hnone i

/-! ## The writes of the store -/

/-- The records, their entries and the dirty marks. -/
def SameUndo (db₀ db : Db K) : Prop :=
  db.undo = db₀.undo ∧ db.undoFs = db₀.undoFs ∧ db.dirty = db₀.dirty

omit [DecidableEq K] in
/-- A statement leaves the records alone when its effect does. -/
theorem keeps_sameUndo_of {db₀ : Db K} {f : Db K → Except Err (Db K)}
    (h : ∀ db db', f db = .ok db' → SameUndo db db') : Keeps (SameUndo db₀) (statement f) :=
  Keeps.statement fun db db' hI hf =>
    ⟨(h db db' hf).1.trans hI.1, (h db db' hf).2.1.trans hI.2.1, (h db db' hf).2.2.trans hI.2.2⟩

/-- A delete of chunk rows leaves the records alone. -/
theorem sameUndo_deleteChunks {db₀ : Db K} (sel : Str → ℕ → Bool) :
    Keeps (SameUndo db₀) (deleteChunks sel) := by
  refine keeps_sameUndo_of fun db db' hf => ?_
  split_ifs at hf
  cases hf
  exact ⟨rfl, rfl, rfl⟩

omit [DecidableEq K] in
/-- An upsert of a row leaves the records alone. -/
theorem sameUndo_upsertFs {db₀ : Db K} (p : Str) (row : FsRow K) (upd : FsRow K → FsRow K) :
    Keeps (SameUndo db₀) (upsertFs p row upd) := by
  refine keeps_sameUndo_of fun db db' hf => ?_
  split_ifs at hf
  · cases hf
    exact ⟨rfl, rfl, rfl⟩
  · cases hf
    exact ⟨rfl, rfl, rfl⟩

omit [DecidableEq K] in
/-- An update of a row leaves the records alone. -/
theorem sameUndo_updateFs {db₀ : Db K} (p : Str) (f : FsRow K → FsRow K) :
    Keeps (SameUndo db₀) (updateFs p f) := by
  refine keeps_sameUndo_of fun db db' hf => ?_
  rcases updateFs_ok (u := ()) (statement_of_ok hf) with ⟨-, rfl⟩ | ⟨_, -, rfl⟩
  · exact ⟨rfl, rfl, rfl⟩
  · exact ⟨rfl, rfl, rfl⟩

/-- A chunk that is stored and listed leaves the records alone. -/
theorem sameUndo_appendChunk {db₀ : Db K} (E : Ext K) (p : Str) (idx : ℕ) (piece : Bytes) :
    Triple (SameUndo db₀) (appendChunk E p idx piece) fun _ => SameUndo db₀ := by
  intro db v db' hI h
  obtain ⟨flag, hflag⟩ := blobEnsureWith_eq E .archive db piece
  unfold appendChunk blobEnsure at h
  rw [bind_of_ok hflag] at h
  obtain ⟨-, rfl⟩ := insertChunk_ok h
  unfold Db.withBlob
  split_ifs
  · exact hI
  · exact hI

/-- The loop over the chunks of a stream leaves the records alone. -/
theorem sameUndo_putStreamChunks {db₀ : Db K} (E : Ext K) (p : Str) :
    ∀ (fuel idx : ℕ) (src : Reader), Triple (SameUndo db₀) (putStreamChunks E p fuel idx src)
      fun _ => SameUndo db₀
  | 0, _, _ => Triple.pure fun _ h => h
  | fuel + 1, idx, src => by
    rw [putStreamChunks]
    refine Triple.bind (q := fun _ => SameUndo db₀) (Triple.query fun _ _ h _ => h) ?_
    rintro ⟨piece, rest⟩
    dsimp only
    split_ifs
    · exact Triple.pure fun _ h => h
    · exact Triple.bind (sameUndo_appendChunk E p idx piece) fun _ => Triple.pure fun _ h => h
    · refine Triple.bind (sameUndo_appendChunk E p idx piece) fun _ => ?_
      exact Triple.bind (sameUndo_putStreamChunks E p fuel (idx + 1) rest) fun _ =>
        Triple.pure fun _ h => h

/-- `fs_put_node` touches its path only. -/
theorem touched_fsPutNode {p : Str} {kind : Kind} {mode mtime : ℤ} {link : Option Str}
    (h : RefOk db) (hx : fsPutNode p kind mode mtime link db = .ok u db') :
    Touched (· = p) db db' := by
  obtain ⟨hput, -⟩ := fsPutNode_ok hx
  have hinv := (keeps_fsPutNode (P := (· = p)) rfl kind mode mtime link).triple db u db'
    (h.refInv _) hx
  have hsame : SameUndo db db' := by
    refine (Keeps.inSavepoint (I := SameUndo db) (Triple.bind (q := fun _ => SameUndo db) ?_
      fun _ => ?_)).triple db u db' ⟨rfl, rfl, rfl⟩ hx
    · exact (sameUndo_deleteChunks _).triple
    · exact (sameUndo_upsertFs _ _ _).triple
  refine ⟨hput.fs, hinv, hsame.1, hsame.2.1, fun q hq => hsame.2.2 ▸ hq, ?_⟩
  rintro q rfl hnone
  obtain ⟨row, hrow, -⟩ := hput.row
  rw [hnone] at hrow
  cases hrow

/-- The loop over the chunks of a stream changes no row. -/
theorem putStreamChunks_fs (E : Ext K) (p : Str) : ∀ (fuel idx : ℕ) (src : Reader) {db db' : Db K}
    {b : Bytes}, putStreamChunks E p fuel idx src db = .ok b db' → db'.fs = db.fs := by
  intro fuel idx src db db' b h
  refine (?_ : ∀ (fuel idx : ℕ) (src : Reader), Triple (fun d : Db K => d.fs = db.fs)
    (putStreamChunks E p fuel idx src) fun _ d => d.fs = db.fs) fuel idx src db b db' rfl h
  intro fuel
  induction fuel with
  | zero => exact fun _ _ => Triple.pure fun _ h => h
  | succ fuel ih =>
    intro idx src
    have happ : ∀ piece, Triple (fun d : Db K => d.fs = db.fs) (appendChunk E p idx piece)
        fun _ d => d.fs = db.fs :=
      fun piece d v d' hd hx => (appendChunk_ok hx).1.trans hd
    rw [putStreamChunks]
    refine Triple.bind (q := fun _ d => d.fs = db.fs) (Triple.query fun _ _ h _ => h) ?_
    rintro ⟨piece, rest⟩
    dsimp only
    split_ifs
    · exact Triple.pure fun _ h => h
    · exact Triple.bind (happ piece) fun _ => Triple.pure fun _ h => h
    · exact Triple.bind (happ piece) fun _ => Triple.bind (ih (idx + 1) rest) fun _ =>
        Triple.pure fun _ h => h

/-- A file is written from a stream. -/
theorem touched_fsPutFileStreamNs {E : Ext K} {p : Str} {mode mtime ns : ℤ} {src : Reader} {n : ℕ}
    (h : RefOk db) (hx : fsPutFileStreamNs E p mode mtime ns src db = .ok n db') :
    Touched (· = p) db db' ∧ ∃ row, db'.fs.get? p = some row := by
  have hinv := (keeps_fsPutFileStreamNs E (P := (· = p)) rfl mode mtime ns src).triple db n db'
    (h.refInv _) hx
  have hsame : SameUndo db db' := by
    refine (Keeps.inSavepoint (I := SameUndo db) (Triple.bind (q := fun _ => SameUndo db) ?_
      fun _ => Triple.bind (q := fun _ => SameUndo db) ?_ fun _ =>
        Triple.bind (q := fun _ => SameUndo db) ?_ fun _ => Triple.pure fun _ h => h)).triple
          db n db' ⟨rfl, rfl, rfl⟩ hx
    · exact (sameUndo_deleteChunks _).triple
    · exact sameUndo_putStreamChunks E p _ _ _
    · exact (sameUndo_upsertFs _ _ _).triple
  unfold fsPutFileStreamNs inSavepoint at hx
  -- The three statements are at `p`: its chunks go, those of the stream come, the row is put.
  obtain ⟨_, db₁, hdel, hbody⟩ := bind_eq_ok.1 (savepoint_eq_ok.1 hx)
  obtain ⟨whole, db₂, hstream, hbody⟩ := bind_eq_ok.1 hbody
  obtain ⟨_, db₃, hput, hret⟩ := bind_eq_ok.1 hbody
  cases hret
  obtain ⟨hrow, hother, -⟩ := upsertFs_rows hput
  have hfs₂ := putStreamChunks_fs E p _ _ _ hstream
  have hthere : ∃ row, db'.fs.get? p = some row := by
    rcases hrow with ⟨_, hrow⟩ | hrow
    · exact ⟨_, hrow⟩
    · exact ⟨_, hrow⟩
  refine ⟨⟨fun q hq => ?_, hinv, hsame.1, hsame.2.1, fun q hq => hsame.2.2 ▸ hq, ?_⟩, hthere⟩
  · rw [hother q hq, hfs₂, deleteChunks_ok hdel]
    rfl
  · rintro q rfl hnone
    obtain ⟨row, hrow⟩ := hthere
    rw [hnone] at hrow
    cases hrow

/-- Columns of a row that is there are changed. -/
theorem touched_updateFs {p : Str} {f : FsRow K → FsRow K} (h : RefOk db)
    (hf : ∀ row, row.content = none → (f row).content = none)
    (hx : updateFs p f db = .ok u db') :
    Touched (fun q => q = p ∧ db.fs.get? q ≠ none) db db' := by
  have hinv :=
    (keeps_updateFs (P := fun q => q = p ∧ db.fs.get? q ≠ none) (Z := NoBlob) p hf).triple
    db u db' (h.refInv _) hx
  have hsame := (sameUndo_updateFs p f).triple db u db' ⟨rfl, rfl, rfl⟩ hx
  refine ⟨fun q hq => ?_, hinv, hsame.1, hsame.2.1, fun q hq => hsame.2.2 ▸ hq, ?_⟩
  · rcases updateFs_ok hx with ⟨-, rfl⟩ | ⟨row, hrow, rfl⟩
    · rfl
    · rw [Db.get?_setFs, if_neg]
      rintro rfl
      exact hq ⟨rfl, by rw [hrow]; simp⟩
  · rintro q ⟨rfl, hrow⟩ hnone
    rcases updateFs_ok hx with ⟨hnone', -⟩ | ⟨row, hrow, rfl⟩
    · exact absurd hnone' hrow
    · rw [Db.get?_setFs, if_pos rfl, hrow] at hnone
      cases hnone

/-- A delete of rows touches the paths it selects only. -/
theorem touched_deleteFs {sel : Str → Bool} (h : RefOk db) (hx : deleteFs sel db = .ok u db') :
    Touched (fun q => sel q = true ∧ db.fs.get? q ≠ none) db db' := by
  rw [deleteFs_ok hx]
  refine ⟨fun q hq => ?_, ?_, rfl, rfl, fun q hq => (List.mem_filter.1 hq).1, fun q hq _ i => ?_⟩
  · rw [Db.get?_delFs]
    split_ifs with hs
    · rcases hrow : db.fs.get? q with _ | row
      · rfl
      · exact absurd ⟨hs, by rw [hrow]; simp⟩ hq
    · rfl
  · refine RefInv.delFs_rows (h.refInv _) fun q hs hhas => ⟨hs, ?_⟩
    obtain ⟨row, hrow⟩ := Table.has_eq_true.1 hhas
    rw [hrow]
    simp
  · have hhas : db.fs.has q = true := by
      obtain ⟨row, hrow⟩ := Option.ne_none_iff_exists'.1 hq.2
      exact Table.has_eq_true.2 ⟨row, hrow⟩
    have hdel : (db.delChunks fun p _ => sel p && db.fs.has p).chunks.get? (q, i) = _ :=
      Db.get?_delChunks _ q i
    rw [if_pos (by simp [hq.1, hhas])] at hdel
    exact hdel

end Touched

/-! ## The record -/

section Recorded

variable {id : ℕ} {db₀ db db' : Db K} {P : Str → Prop}

/-- The record `id` has no entries. -/
structure FreshUndo (id : ℕ) (db : Db K) : Prop where
  /-- The record is there. -/
  there : db.undo.has id = true
  /-- No rows. -/
  entries : ∀ p, db.undoFs.get? (id, p) = none
  /-- No chunks. -/
  chunks : ∀ p i, db.undoChunks.get? (id, p, i) = none

/-- The record `id` is exact with respect to `db₀`. -/
structure Recorded (id : ℕ) (db₀ db : Db K) : Prop where
  /-- The counts are right. -/
  refs : RefOk db
  /-- The record is there. -/
  there : db.undo.has id = true
  /-- The records are the same. -/
  undo : db.undo = db₀.undo
  /-- The dictionaries are the same. -/
  dicts : db.dicts = db₀.dicts
  /-- An entry is the row that was there. -/
  entry : ∀ p m, db.undoFs.get? (id, p) = some m → m = (db₀.fs.get? p).map fun row => row.toFsMeta
  /-- The chunks of an entry are those that were there. -/
  chunks : ∀ p i, db.undoChunks.get? (id, p, i) =
    if db.undoFs.get? (id, p) = none then none
    else (db₀.fs.get? p).bind fun _ => db₀.chunks.get? (p, i)
  /-- A path without an entry is as it was. -/
  kept : ∀ p, db.undoFs.get? (id, p) = none →
    db.fs.get? p = db₀.fs.get? p ∧ ∀ i, db.chunks.get? (p, i) = db₀.chunks.get? (p, i)
  /-- Chunks without a row have been there before. -/
  orphans : ∀ p i, db.fs.get? p = none → db.chunks.get? (p, i) = none ∨
    (db₀.fs.get? p = none ∧ db.chunks.get? (p, i) = db₀.chunks.get? (p, i))
  /-- No new dirty mark. -/
  dirty : ∀ p ∈ db.dirty, p ∈ db₀.dirty
  /-- The blobs of the files that were there are stored. -/
  vals : ∀ p i k c, db₀.fs.get? p ≠ none → db₀.chunks.get? (p, i) = some k →
    db₀.blobs.get? k = some c → ∃ c', db.blobs.get? k = some c' ∧ c'.val = c.val
  /-- The entries of other records are the same. -/
  others : ∀ c, c.1 ≠ id → db.undoFs.get? c = db₀.undoFs.get? c
  /-- The chunks of other records are the same. -/
  otherChunks : ∀ c, c.1 ≠ id → db.undoChunks.get? c = db₀.undoChunks.get? c
  /-- The blobs of other records are stored. -/
  saved : ∀ x k c, x.1 ≠ id → db₀.undoChunks.get? x = some k → db₀.blobs.get? k = some c →
    ∃ c', db.blobs.get? k = some c' ∧ c'.val = c.val

/-- A record without an entry records that nothing has changed. -/
theorem FreshUndo.recorded (h : FreshUndo id db) (hok : RefOk db) : Recorded id db db where
  refs := hok
  there := h.there
  undo := rfl
  dicts := rfl
  entry := by
    intro p m hm
    rw [h.entries p] at hm
    cases hm
  chunks := by
    intro p i
    rw [h.chunks, if_pos (h.entries p)]
  kept := fun _ _ => ⟨rfl, fun _ => rfl⟩
  orphans := fun _ _ hnone => Or.inr ⟨hnone, rfl⟩
  dirty := fun _ hp => hp
  vals := fun _ _ _ c _ _ hc => ⟨c, hc, rfl⟩
  others := fun _ _ => rfl
  otherChunks := fun _ _ => rfl
  saved := fun _ _ c _ _ hc => ⟨c, hc, rfl⟩

/-- The chunks of a row that was there have a copy in its entry. -/
theorem Recorded.copy (h : Recorded id db₀ db) {p : Str} {i : ℕ} {k : K}
    (hp : db.undoFs.get? (id, p) ≠ none) (hrow : db₀.fs.get? p ≠ none)
    (hk : db₀.chunks.get? (p, i) = some k) : db.undoChunks.get? (id, p, i) = some k := by
  obtain ⟨row, hrow⟩ := Option.ne_none_iff_exists'.1 hrow
  rw [h.chunks, if_neg hp, hrow]
  exact hk

/-- A write to paths with an entry. -/
theorem Recorded.touched (h : Recorded id db₀ db) (ht : Touched P db db')
    (hcap : ∀ p, P p → db.undoFs.get? (id, p) ≠ none) : Recorded id db₀ db' where
  refs := ht.inv.refOk
  there := by
    rw [ht.undo]
    exact h.there
  undo := ht.undo.trans h.undo
  dicts := ht.inv.kept.dicts.trans h.dicts
  entry := by
    rw [ht.undoFs]
    exact h.entry
  chunks := by
    rw [ht.undoFs, ht.inv.kept.undos]
    exact h.chunks
  kept := by
    intro p hp
    rw [ht.undoFs] at hp
    have hP : ¬ P p := fun hP => hcap p hP hp
    obtain ⟨hfs, hch⟩ := h.kept p hp
    exact ⟨(ht.fs p hP).trans hfs, fun i => (ht.inv.kept.chunks p i hP).trans (hch i)⟩
  orphans := by
    intro p i hnone
    by_cases hP : P p
    · exact Or.inl (ht.clean p hP hnone i)
    · rw [ht.inv.kept.chunks p i hP]
      rw [ht.fs p hP] at hnone
      exact h.orphans p i hnone
  dirty := fun p hp => h.dirty p (ht.dirty p hp)
  vals := by
    intro p i k c hrow hk hc
    obtain ⟨c', hc', hv⟩ := h.vals p i k c hrow hk hc
    -- The key has a row that the write leaves alone: the chunk itself or its copy in the record.
    have hkeep : ∃ c'', db'.blobs.get? k = some c'' ∧ c''.val = c'.val := by
      by_cases hp : db.undoFs.get? (id, p) = none
      · have hch : db.chunks.get? (p, i) = some k := ((h.kept p hp).2 i).trans hk
        exact ht.inv.kept.vals p i k c' (fun hP => hcap p hP hp) hch hc'
      · have hcopy := h.copy hp hrow hk
        refine ht.inv.kept.saved k c' ?_ hc'
        have := Table.count_pos_iff.2 ⟨_, hcopy⟩
        omega
    obtain ⟨c'', hc'', hv'⟩ := hkeep
    exact ⟨c'', hc'', hv'.trans hv⟩
  others := by
    rw [ht.undoFs]
    exact h.others
  otherChunks := by
    rw [ht.inv.kept.undos]
    exact h.otherChunks
  saved := by
    intro x k c hx hk hc
    obtain ⟨c', hc', hv⟩ := h.saved x k c hx hk hc
    have hpos : 0 < db.snapChunks.count k + db.undoChunks.count k := by
      have := Table.count_pos_iff.2 ⟨x, (h.otherChunks x hx).trans hk⟩
      omega
    obtain ⟨c'', hc'', hv'⟩ := ht.inv.kept.saved k c' hpos hc'
    exact ⟨c'', hc'', hv'.trans hv⟩

/-! ## Capture -/

/-- Chunk rows are copied into a record that has none of them. -/
theorem foldlM_insertUndoChunk : ∀ {l : List ((Str × ℕ) × K)} {d : Db K}, (l.map Prod.fst).Nodup →
    (∀ r ∈ l, d.undoChunks.get? (id, r.1) = none) → d.undo.has id = true →
      ∃ d', l.foldlM (Db.insertUndoChunk? id) d = .ok d' ∧ d'.fs = d.fs ∧ d'.chunks = d.chunks ∧
        d'.undo = d.undo ∧ d'.undoFs = d.undoFs ∧ d'.dicts = d.dicts ∧ d'.dirty = d.dirty ∧
        (∀ x k, d'.undoChunks.get? x = some k ↔
          d.undoChunks.get? x = some k ∨ ∃ r ∈ l, x = (id, r.1) ∧ k = r.2) ∧
        ∀ k c, d.blobs.get? k = some c → ∃ c', d'.blobs.get? k = some c' ∧ c'.val = c.val
  | [], d, _, _, _ =>
    ⟨d, rfl, rfl, rfl, rfl, rfl, rfl, rfl, by simp, fun _ c hc => ⟨c, hc, rfl⟩⟩
  | r :: l, d, hnd, hfree, hthere => by
    rw [List.map_cons, List.nodup_cons] at hnd
    have hr := hfree r (by simp)
    obtain ⟨d₁, hd₁⟩ : ∃ d₁ : Db K, d₁ = { d with
        undoChunks := d.undoChunks.insertIgnore (id, r.1) r.2
        blobs := d.blobs.acquire r.2 } := ⟨_, rfl⟩
    have hstep : Db.insertUndoChunk? id d r = .ok d₁ := by
      rw [Db.insertUndoChunk?, hthere, Table.has_eq_false.2 hr, hd₁]
      rfl
    have hget : ∀ x, d₁.undoChunks.get? x =
        if x = (id, r.1) then some r.2 else d.undoChunks.get? x := by
      intro x
      rw [hd₁]
      show (d.undoChunks.insertIgnore (id, r.1) r.2).get? x = _
      rw [Table.get?_insertIgnore, hr]
      rfl
    obtain ⟨d', hrun, hfs, hch, hun, hunfs, hdic, hdir, hiff, hval⟩ :=
      foldlM_insertUndoChunk (l := l) (d := d₁) hnd.2 (fun r' hr' => by
        rw [hget, if_neg, hfree r' (by simp [hr'])]
        intro he
        exact hnd.1 (List.mem_map.2 ⟨r', hr', (Prod.mk.inj he).2⟩)) (by rw [hd₁]; exact hthere)
    -- By induction on the rows: the first one is inserted, the rest come after it under other
    -- keys.
    refine ⟨d', ?_, ?_, ?_, ?_, ?_, ?_, ?_, fun x k => ?_, fun k c hc => ?_⟩
    · rw [List.foldlM_cons, hstep]
      exact hrun
    · rw [hfs, hd₁]
    · rw [hch, hd₁]
    · rw [hun, hd₁]
    · rw [hunfs, hd₁]
    · rw [hdic, hd₁]
    · rw [hdir, hd₁]
    · rw [hiff, hget]
      split_ifs with hx
      · subst hx
        simp only [List.mem_cons, exists_eq_or_imp, Option.some.injEq, hr, true_and]
        constructor
        · rintro (h | h)
          · exact Or.inr (Or.inl h.symm)
          · exact Or.inr (Or.inr h)
        · rintro (h | h | h)
          · cases h
          · exact Or.inl h.symm
          · exact Or.inr h
      · simp only [List.mem_cons, exists_eq_or_imp, hx, false_and, false_or]
    · have hacq : ∃ c₁, d₁.blobs.get? k = some c₁ ∧ c₁.val = c.val := by
        rw [hd₁]
        show ∃ c₁, (d.blobs.acquire r.2).get? k = some c₁ ∧ c₁.val = c.val
        rw [Store.get?_acquire]
        split_ifs with hk
        · rw [← hk, hc]
          exact ⟨_, rfl, rfl⟩
        · exact ⟨c, hc, rfl⟩
      obtain ⟨c₁, hc₁, hv₁⟩ := hacq
      obtain ⟨c', hc', hv⟩ := hval k c₁ hc₁
      exact ⟨c', hc', hv.trans hv₁⟩

omit [DecidableEq K] in
/-- The chunk rows of a path are those with its name. -/
theorem mem_select_path {db : Db K} {p : Str} {r : (Str × ℕ) × K} :
    r ∈ db.chunks.select (fun c _ => c.1 = p) ↔ r.1.1 = p ∧ db.chunks.get? r.1 = some r.2 := by
  rw [Table.select, List.mem_filter, Table.get?_eq_some_iff]
  simp [and_comm]

/-- The state after the first capture of `p`: its row and its chunk rows are copied. -/
structure Captured (id : ℕ) (p : Str) (db db' : Db K) : Prop where
  /-- The rows stay. -/
  fs : db'.fs = db.fs
  /-- The chunk rows stay. -/
  live : db'.chunks = db.chunks
  /-- The records stay. -/
  undo : db'.undo = db.undo
  /-- The dictionaries stay. -/
  dicts : db'.dicts = db.dicts
  /-- The dirty marks stay. -/
  dirty : db'.dirty = db.dirty
  /-- The new entry. -/
  entry : ∀ c, db'.undoFs.get? c =
    if c = (id, p) then some ((db.fs.get? p).map fun row => row.toFsMeta) else db.undoFs.get? c
  /-- Its chunks. -/
  chunks : ∀ x k, db'.undoChunks.get? x = some k ↔ db.undoChunks.get? x = some k ∨
    ∃ i, x = (id, p, i) ∧ db.fs.get? p ≠ none ∧ db.chunks.get? (p, i) = some k
  /-- The blobs stay. -/
  vals : ∀ k c, db.blobs.get? k = some c → ∃ c', db'.blobs.get? k = some c' ∧ c'.val = c.val

/-- The first capture of a path returns. -/
theorem undoCapture_new {p : Str} (hthere : db.undo.has id = true)
    (hseen : db.undoFs.get? (id, p) = none) (hfree : ∀ i, db.undoChunks.get? (id, p, i) = none) :
    ∃ db', undoCapture id p db = .ok () db' ∧ Captured id p db db' := by
  have hhas : db.undoFs.has (id, p) = false := Table.has_eq_false.2 hseen
  -- The entry first.
  obtain ⟨m, hm⟩ : ∃ m, m = (db.fs.get? p).map fun row => row.toFsMeta := ⟨_, rfl⟩
  obtain ⟨d₁, hd₁⟩ : ∃ d₁ : Db K, d₁ = { db with undoFs := db.undoFs.insertIgnore (id, p) m } :=
    ⟨_, rfl⟩
  have hins : insertUndoFs id p m db = .ok () d₁ := by
    refine statement_of_ok ?_
    rw [hthere, hhas, hd₁]
    rfl
  have hget : ∀ c, d₁.undoFs.get? c = if c = (id, p) then some m else db.undoFs.get? c := by
    intro c
    rw [hd₁]
    show (db.undoFs.insertIgnore (id, p) m).get? c = _
    rw [Table.get?_insertIgnore, hseen]
    rfl
  unfold undoCapture
  rw [reads_bind, hhas, if_neg (by simp), reads_bind]
  rcases hrow : db.fs.get? p with _ | row
  · rw [hrow, Option.map_none] at hm
    rw [hm] at hins hget
    refine ⟨d₁, hins, ?_, ?_, ?_, ?_, ?_, fun q => ?_, fun x k => ?_, fun k c hc => ?_⟩
    · rw [hd₁]
    · rw [hd₁]
    · rw [hd₁]
    · rw [hd₁]
    · rw [hd₁]
    · rw [hget, hrow, Option.map_none]
    · rw [show d₁.undoChunks = db.undoChunks by rw [hd₁], hrow]
      simp
    · exact ⟨c, by rw [hd₁]; exact hc, rfl⟩
  · -- Then the chunks of the row.
    rw [hrow, Option.map_some] at hm
    rw [hm] at hins hget
    have hnd : ((db.chunks.select fun c _ => c.1 = p).map Prod.fst).Nodup :=
      db.chunks.nodup.sublist (List.filter_sublist.map _)
    obtain ⟨d', hrun, hfs', hch', hun, hunfs, hdic, hdir, hiff, hval⟩ := @foldlM_insertUndoChunk
      K _ id (db.chunks.select fun c _ => c.1 = p) d₁ hnd (fun r hr => by
        obtain ⟨hp, -⟩ := mem_select_path.1 hr
        obtain ⟨⟨q, i⟩, k⟩ := r
        cases hp
        rw [hd₁]
        exact hfree i) (by rw [hd₁]; exact hthere)
    have hcopy : copyUndoChunks id p d₁ = .ok () d' := by
      refine statement_of_ok ?_
      rw [show d₁.chunks = db.chunks by rw [hd₁]]
      exact hrun
    refine ⟨d', ?_, ?_, ?_, ?_, ?_, ?_, fun q => ?_, fun x k => ?_, fun k c hc => ?_⟩
    · dsimp only
      rw [bind_of_ok hins]
      exact hcopy
    · rw [hfs', hd₁]
    · rw [hch', hd₁]
    · rw [hun, hd₁]
    · rw [hdic, hd₁]
    · rw [hdir, hd₁]
    · rw [hunfs, hget, hrow, Option.map_some]
    · rw [hiff, show d₁.undoChunks = db.undoChunks by rw [hd₁]]
      refine or_congr_right ⟨?_, ?_⟩
      · rintro ⟨⟨⟨q, i⟩, k'⟩, hr, rfl, rfl⟩
        obtain ⟨hq, hk⟩ := mem_select_path.1 hr
        cases hq
        exact ⟨i, rfl, by rw [hrow]; simp, hk⟩
      · rintro ⟨i, rfl, -, hk⟩
        exact ⟨((p, i), k), mem_select_path.2 ⟨rfl, hk⟩, rfl, rfl⟩
    · refine hval k c ?_
      rw [hd₁]
      exact hc

/-- A first capture records what was there: the path has not been written yet. -/
theorem Recorded.captured {p : Str} (h : Recorded id db₀ db) (hseen : db.undoFs.get? (id, p) = none)
    (hc : Captured id p db db') (hrefs : RefOk db') : Recorded id db₀ db' where
  refs := hrefs
  there := by
    rw [hc.undo]
    exact h.there
  undo := hc.undo.trans h.undo
  dicts := hc.dicts.trans h.dicts
  -- The capture adds an entry at `p`, which had none, and copies its chunks; what is recorded of
  -- other paths stays.
  entry := by
    intro q m hq
    rw [hc.entry] at hq
    split_ifs at hq with hqp
    · cases hq
      cases hqp
      rw [(h.kept p hseen).1]
    · exact h.entry q m hq
  chunks := by
    intro q i
    apply Option.ext
    intro k
    rw [hc.chunks, hc.entry, h.chunks]
    rcases eq_or_ne q p with rfl | hqp
    · rw [if_pos hseen, if_pos rfl, if_neg (by simp), ← (h.kept q hseen).1]
      constructor
      · rintro (hx | ⟨j, hj, hne, hk⟩)
        · cases hx
        · cases hj
          obtain ⟨row, hrow⟩ := Option.ne_none_iff_exists'.1 hne
          rw [hrow, Option.bind_some, ← (h.kept q hseen).2 i]
          exact hk
      · intro hk
        obtain ⟨row, hrow, hk'⟩ := Option.bind_eq_some_iff.1 hk
        exact Or.inr ⟨i, rfl, by rw [hrow]; simp, ((h.kept q hseen).2 i).trans hk'⟩
    · rw [if_neg fun he => hqp (Prod.mk.inj he).2]
      constructor
      · rintro (hx | ⟨j, hj, -⟩)
        · exact hx
        · exact absurd (congrArg (fun x => x.2.1) hj) hqp
      · exact Or.inl
  kept := by
    intro q hq
    rw [hc.entry] at hq
    split_ifs at hq
    rw [hc.fs, hc.live]
    exact h.kept q hq
  orphans := by
    intro q i hnone
    rw [hc.fs] at hnone
    rw [hc.live]
    exact h.orphans q i hnone
  dirty := by
    rw [hc.dirty]
    exact h.dirty
  vals := by
    intro q i k c hrow hk hcell
    obtain ⟨c', hc', hv⟩ := h.vals q i k c hrow hk hcell
    obtain ⟨c'', hc'', hv'⟩ := hc.vals k c' hc'
    exact ⟨c'', hc'', hv'.trans hv⟩
  others := by
    intro c hne
    rw [hc.entry, if_neg fun he => hne (congrArg Prod.fst he)]
    exact h.others c hne
  otherChunks := by
    intro x hne
    rw [← h.otherChunks x hne]
    apply Option.ext
    intro k
    rw [hc.chunks]
    constructor
    · rintro (hx | ⟨_, hx, -⟩)
      · exact hx
      · exact absurd (congrArg Prod.fst hx) hne
    · exact Or.inl
  saved := by
    intro x k c hx hk hcell
    obtain ⟨c', hc', hv⟩ := h.saved x k c hx hk hcell
    obtain ⟨c'', hc'', hv'⟩ := hc.vals k c' hc'
    exact ⟨c'', hc'', hv'.trans hv⟩

/-- A capture returns, and the record is as exact as before, with an entry for the path. -/
theorem undoCapture_total (h : Recorded id db₀ db) (p : Str) : ∃ db',
    undoCapture id p db = .ok () db' ∧ Recorded id db₀ db' ∧ db'.undoFs.get? (id, p) ≠ none ∧
      db'.fs = db.fs ∧ db'.chunks = db.chunks ∧
      ∀ q, db.undoFs.get? (id, q) ≠ none → db'.undoFs.get? (id, q) ≠ none := by
  rcases hseen : db.undoFs.get? (id, p) with _ | m
  · obtain ⟨db', hrun, hc⟩ := undoCapture_new h.there hseen fun i => by
      rw [h.chunks, if_pos hseen]
    have hrefs : RefOk db' := (keeps_undoCapture id p).triple db () db' h.refs hrun
    refine ⟨db', hrun, h.captured hseen hc hrefs, ?_, hc.fs, hc.live, fun q hq => ?_⟩
    · rw [hc.entry, if_pos rfl]
      simp
    · rw [hc.entry]
      split_ifs
      · simp
      · exact hq
  · have hhas : db.undoFs.has (id, p) = true := Table.has_eq_true.2 ⟨m, hseen⟩
    refine ⟨db, ?_, h, by rw [hseen]; simp, rfl, rfl, fun _ hq => hq⟩
    unfold undoCapture
    rw [reads_bind, hhas]
    rfl

end Recorded

end Dbvm
