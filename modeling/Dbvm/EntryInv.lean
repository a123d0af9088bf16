import Dbvm.Entries
import Dbvm.RestorePoints

/-!
# Invariants of entries

A property of entries, given for every path, holds of the live entries and of the copies of them
that snapshots and undo records keep. A copy is made of a live entry and put back as one, so the
property is kept by all operations on copies; what is left for each invariant are the writers of one
entry (`EntryInv.at`). Live files that are marked dirty may have a property of their own.
-/

namespace Dbvm

open Lib Lib.Chunks Lib.Prog

variable {K : Type} [DecidableEq K] {E : Ext K} {p : Str} {db db' db₀ : Db K}

/-- A property of entries: of a path, the columns of its row and its chunk list. -/
abbrev EntryProp (K : Type) := Str → FsMeta K → (ℕ → Option K) → Prop

/-- The chunk list of a path. -/
def Db.keysAt (db : Db K) (p : Str) : ℕ → Option K := fun i => db.chunks.get? (p, i)

/-- What the tables owe each other. -/
structure Tidy (db : Db K) : Prop where
  /-- No row has inline content. -/
  inline : ∀ p row, db.fs.get? p = some row → row.content = none
  /-- A chunk belongs to a row. -/
  rows : ∀ p i, db.fs.get? p = none → db.chunks.get? (p, i) = none
  /-- A mark belongs to a row. -/
  marks : ∀ p ∈ db.dirty, db.fs.get? p ≠ none
  /-- A row of a snapshot belongs to a snapshot. -/
  snapRows : ∀ id p, db.snapshots.get? id = none → db.snapFs.get? (id, p) = none
  /-- A chunk of a snapshot belongs to a row of it. -/
  snapCopies : ∀ id p i, db.snapFs.get? (id, p) = none → db.snapChunks.get? (id, p, i) = none
  /-- A chunk of an undo record belongs to an entry of a row. -/
  copies : ∀ id p i, (∀ m, db.undoFs.get? (id, p) ≠ some (some m)) →
    db.undoChunks.get? (id, p, i) = none

/-- The entries that are not marked and all copies have the property `G`, the marked ones have `D`.
-/
structure EntryInv (G D : EntryProp K) (db : Db K) : Prop extends Tidy db where
  /-- The live entries. -/
  live : ∀ p row, db.fs.get? p = some row → p ∉ db.dirty → G p row.toFsMeta (db.keysAt p)
  /-- The marked ones. -/
  marked : ∀ p row, db.fs.get? p = some row → p ∈ db.dirty → D p row.toFsMeta (db.keysAt p)
  /-- Snapshots. -/
  snaps : ∀ id p m, db.snapFs.get? (id, p) = some m → G p m fun i => db.snapChunks.get? (id, p, i)
  /-- Undo records. -/
  undos : ∀ id p m, db.undoFs.get? (id, p) = some (some m) →
    G p m fun i => db.undoChunks.get? (id, p, i)

variable {G D : EntryProp K}

/-! ## One entry changes -/

omit [DecidableEq K] in
/-- What is left to show for a write to one entry: the entry itself. -/
theorem EntryInv.at (h : EntryInv G D db) (honly : OnlyAt p db db')
    (hnone : db'.fs.get? p = none → p ∉ db'.dirty ∧ ∀ i, db'.chunks.get? (p, i) = none)
    (hrow : ∀ row, db'.fs.get? p = some row → row.content = none ∧
      (p ∉ db'.dirty → G p row.toFsMeta (db'.keysAt p)) ∧
      (p ∈ db'.dirty → D p row.toFsMeta (db'.keysAt p))) :
    EntryInv G D db' := by
  have hkeys : ∀ q, q ≠ p → db'.keysAt q = db.keysAt q :=
    fun q hq => funext fun i => honly.chunks q i hq
  -- Away from `p` everything is as it was; at `p` the three hypotheses say what there is.
  refine ⟨⟨fun q row hq => ?_, fun q i hq => ?_, fun q hq => ?_, fun id q hid => ?_,
    fun id q i hid => ?_,
    fun id q i hm => ?_⟩, fun q row hq hd => ?_, fun q row hq hd => ?_, fun id q m hm => ?_,
    fun id q m hm => ?_⟩
  · rcases eq_or_ne q p with rfl | hne
    · exact (hrow row hq).1
    · exact h.inline q row (honly.fs q hne ▸ hq)
  · rcases eq_or_ne q p with rfl | hne
    · exact (hnone hq).2 i
    · rw [honly.chunks q i hne]
      exact h.rows q i (honly.fs q hne ▸ hq)
  · rcases eq_or_ne q p with rfl | hne
    · exact fun hq' => (hnone hq').1 hq
    · rw [honly.fs q hne]
      exact h.marks q ((honly.dirty q hne).1 hq)
  · rw [honly.snaps.snapFs]
    exact h.snapRows id q (honly.snaps.snapshots ▸ hid)
  · rw [honly.snaps.snapChunks]
    exact h.snapCopies id q i (honly.snaps.snapFs ▸ hid)
  · rw [honly.undoChunks]
    exact h.copies id q i (honly.undoFs ▸ hm)
  · rcases eq_or_ne q p with rfl | hne
    · exact (hrow row hq).2.1 hd
    · rw [hkeys q hne]
      exact h.live q row (honly.fs q hne ▸ hq) fun hin => hd ((honly.dirty q hne).2 hin)
  · rcases eq_or_ne q p with rfl | hne
    · exact (hrow row hq).2.2 hd
    · rw [hkeys q hne]
      exact h.marked q row (honly.fs q hne ▸ hq) ((honly.dirty q hne).1 hd)
  · rw [honly.snaps.snapChunks]
    exact h.snaps id q m (honly.snaps.snapFs ▸ hm)
  · rw [honly.undoChunks]
    exact h.undos id q m (honly.undoFs ▸ hm)

/-- Nothing that an entry consists of has changed. -/
structure SameEntries (db db' : Db K) : Prop where
  /-- The rows. -/
  fs : ∀ p, db'.fs.get? p = db.fs.get? p
  /-- The chunks. -/
  chunks : ∀ p i, db'.chunks.get? (p, i) = db.chunks.get? (p, i)
  /-- The marks. -/
  dirty : ∀ p, p ∈ db'.dirty ↔ p ∈ db.dirty
  /-- The snapshots. -/
  snaps : SameSnaps db db'
  /-- The entries of undo records. -/
  undoFs : db'.undoFs = db.undoFs
  /-- Their chunks. -/
  undoChunks : db'.undoChunks = db.undoChunks

omit [DecidableEq K] in
/-- The properties are about entries and copies only. -/
theorem EntryInv.same (h : EntryInv G D db) (hsame : SameEntries db db') : EntryInv G D db' := by
  obtain ⟨hfs, hch, hdi, ⟨hsn, hsf, hsc⟩, huf, huc⟩ := hsame
  have hkeys : db'.keysAt = db.keysAt := funext fun p => funext fun i => hch p i
  refine ⟨⟨fun p row => ?_, fun p i => ?_, fun p => ?_, ?_, ?_, ?_⟩, fun p row => ?_,
    fun p row => ?_, ?_, ?_⟩
  · rw [hfs]
    exact h.inline p row
  · rw [hfs, hch]
    exact h.rows p i
  · rw [hfs, hdi]
    exact h.marks p
  · rw [hsn, hsf]
    exact h.snapRows
  · rw [hsf, hsc]
    exact h.snapCopies
  · rw [huf, huc]
    exact h.copies
  · rw [hfs, hdi, hkeys]
    exact h.live p row
  · rw [hfs, hdi, hkeys]
    exact h.marked p row
  · rw [hsf, hsc]
    exact h.snaps
  · rw [huf, huc]
    exact h.undos

omit [DecidableEq K] in
/-- The bypass is no matter of entries. -/
theorem EntryInv.setBypass (h : EntryInv G D db) (b : Bool) :
    EntryInv G D { db with bypass := b } :=
  h.same ⟨fun _ => rfl, fun _ _ => rfl, fun _ => Iff.rfl, ⟨rfl, rfl, rfl⟩, rfl, rfl⟩

omit [DecidableEq K] in
/-- Making a missing parent directory keeps the property of all entries. -/
theorem EntryInv.keeps_parent (hdir : ∀ now, G p (dirRow 493 now).toFsMeta fun _ => none)
    (now : ℤ) :
    Keeps (EntryInv G D) (insertFsIgnore (K := K) p (dirRow 493 now)) := by
  refine Keeps.statement fun db db' h hf => ?_
  rcases insertFsIgnore_ok (u := ()) (statement_of_ok hf) with ⟨-, rfl⟩ | ⟨hfree, rfl⟩
  · exact h
  · have hget : ∀ q, (db.addFs p (dirRow 493 now)).fs.get? q =
        if q = p then some (dirRow 493 now) else db.fs.get? q := fun q => Db.get?_addFs _ hfree q
    have hkeys : (db.addFs p (dirRow 493 now)).keysAt p = fun _ => none :=
      funext fun i => h.rows p i hfree
    refine h.at
      ⟨fun q hq => by rw [hget, if_neg hq], fun _ _ _ => rfl, fun _ _ => Iff.rfl, ⟨rfl, rfl, rfl⟩,
      rfl, rfl, rfl⟩ (fun hnone => ?_) fun row hrow => ?_
    · rw [hget, if_pos rfl] at hnone
      cases hnone
    · rw [hget, if_pos rfl] at hrow
      cases hrow
      refine ⟨rfl, fun _ => ?_, fun hin => absurd hfree (h.marks p hin)⟩
      rw [hkeys]
      exact hdir now

omit [DecidableEq K] in
/-- Making the parent directories of a path keeps the property of all entries. -/
theorem EntryInv.keeps_parents (hdir : ∀ p now, G p (dirRow 493 now).toFsMeta fun _ => none)
    (vmPath : Str) (now : ℤ) : Keeps (EntryInv G D) (ensureParentDirs (K := K) vmPath now) :=
  Keeps.forM (fun d => EntryInv.keeps_parent (hdir d) now) _

/-- Rows are deleted, with their chunks and marks. -/
theorem EntryInv.delFs (h : EntryInv G D db) (sel : Str → Bool) : EntryInv G D (db.delFs sel) := by
  have hfs : ∀ q, (db.delFs sel).fs.get? q = if sel q then none else db.fs.get? q := fun q =>
    Db.get?_delFs sel q
  have hkept : ∀ q row, (db.delFs sel).fs.get? q = some row → sel q = false ∧
    db.fs.get? q = some row := by
    intro q row hq
    rw [hfs] at hq
    split_ifs at hq with hsel
    exact ⟨Bool.eq_false_iff.2 hsel, hq⟩
  have hch : ∀ q i, (db.delFs sel).chunks.get? (q, i) =
      if (sel q && db.fs.has q) = true then none else db.chunks.get? (q, i) := fun q i =>
    Db.get?_delChunks (fun q _ => sel q && db.fs.has q) q i
  have hkeys : ∀ q, sel q = false → (db.delFs sel).keysAt q = db.keysAt q := by
    intro q hq
    funext i
    show (db.delFs sel).chunks.get? (q, i) = _
    rw [hch, hq, if_neg (by simp)]
    rfl
  have hmarks : ∀ q, q ∈ (db.delFs sel).dirty ↔ q ∈ db.dirty ∧ (sel q && db.fs.has q) = false := by
    intro q
    show q ∈ db.dirty.filter _ ↔ _
    rw [List.mem_filter, Bool.not_eq_true', Bool.and_eq_false_iff]
  -- What stays keeps row, chunks and mark; what goes takes its chunks and its mark along.
  refine ⟨⟨fun q row hq => ?_, fun q i hq => ?_, fun q hq => ?_, h.snapRows,
    h.snapCopies, h.copies⟩, fun q row hq hd => ?_,
    fun q row hq hd => ?_, h.snaps, h.undos⟩
  · exact h.inline q row (hkept q row hq).2
  · rw [hch]
    split_ifs with hgone
    · rfl
    · rcases hrow : db.fs.get? q with _ | row
      · exact h.rows q i hrow
      · rw [hfs] at hq
        rw [Table.has_eq_true.2 ⟨row, hrow⟩, Bool.and_true] at hgone
        rw [if_neg hgone, hrow] at hq
        cases hq
  · obtain ⟨hin, hstay⟩ := (hmarks q).1 hq
    obtain ⟨row, hrow⟩ := Option.ne_none_iff_exists'.1 (h.marks q hin)
    rw [Table.has_eq_true.2 ⟨row, hrow⟩, Bool.and_true] at hstay
    rw [hfs, hstay, if_neg (by simp), hrow]
    simp
  · obtain ⟨hsel, hrow⟩ := hkept q row hq
    rw [hkeys q hsel]
    refine h.live q row hrow fun hin => hd ((hmarks q).2 ⟨hin, ?_⟩)
    rw [hsel, Bool.false_and]
  · obtain ⟨hsel, hrow⟩ := hkept q row hq
    rw [hkeys q hsel]
    exact h.marked q row hrow ((hmarks q).1 hd).1

/-- A delete of rows keeps the property of the others. -/
theorem EntryInv.keeps_deleteFs (sel : Str → Bool) : Keeps (EntryInv G D) (deleteFs (K := K) sel) :=
  Keeps.statement fun db db' h hf => by
    rw [deleteFs_ok (u := ()) (statement_of_ok hf)]
    exact h.delFs sel

/-! ## Copies -/

section Copies

variable {id : ℕ} {u : Unit}

/-- An undo record gets an entry, or nothing happens. -/
theorem undoCapture_cases (id : ℕ) (p : Str) (h : Tidy db) : endState (undoCapture id p) db = db ∨
    db.undoFs.get? (id, p) = none ∧ Captured id p db (endState (undoCapture id p) db) ∧
      SameSnaps db (endState (undoCapture id p) db) := by
  have hsnaps : SameSnaps db (endState (undoCapture id p) db) :=
    sameSnaps_of_effects (effects_undoCapture id p db Relation.ReflTransGen.refl)
  -- A path is captured once. The first time the record takes its row and its chunks, later on
  -- nothing changes.
  rcases hseen : db.undoFs.get? (id, p) with _ | m
  · by_cases hthere : db.undo.has id = true
    · have hfree : ∀ i, db.undoChunks.get? (id, p, i) = none :=
        fun i => h.copies id p i (by simp [hseen])
      obtain ⟨db', hrun, hcap⟩ := undoCapture_new hthere hseen hfree
      unfold endState at hsnaps ⊢
      rw [hrun] at hsnaps ⊢
      exact Or.inr ⟨rfl, hcap, hsnaps⟩
    · -- There is no such record: the foreign key refuses the entry.
      left
      have hins : ∀ m, insertUndoFs id p m db = .error .foreignKey db := by
        intro m
        unfold insertUndoFs statement
        dsimp only
        rw [Bool.eq_false_iff.2 hthere]
        rfl
      unfold endState undoCapture
      rw [reads_bind, Table.has_eq_false.2 hseen, if_neg (by simp), reads_bind]
      rcases db.fs.get? p with _ | row
      · dsimp only
        rw [hins]
      · dsimp only
        rw [bind_of_error (hins _)]
  · left
    unfold endState undoCapture
    rw [reads_bind, Table.has_eq_true.2 ⟨m, hseen⟩]
    rfl

/-- A capture leaves the tree as it was. -/
theorem undoCapture_live (id : ℕ) (p : Str) (h : Tidy db) :
    (endState (undoCapture id p) db).fs = db.fs ∧
    (endState (undoCapture id p) db).chunks = db.chunks ∧
    (endState (undoCapture id p) db).dirty = db.dirty := by
  rcases undoCapture_cases id p h with hsame | ⟨-, hcap, -⟩
  · rw [hsame]
    exact ⟨rfl, rfl, rfl⟩
  · exact ⟨hcap.fs, hcap.live, hcap.dirty⟩

/-- An entry that is not marked is copied into an undo record. -/
theorem EntryInv.capture (h : EntryInv G D db) (hclean : p ∈ db.dirty → ∀ m c, D p m c → G p m c) :
    EntryInv G D (endState (undoCapture id p) db) := by
  rcases undoCapture_cases id p h.toTidy with hsame | ⟨hseen, hcap, hsnaps⟩
  · rw [hsame]
    exact h
  generalize endState (undoCapture id p) db = db' at hcap hsnaps
  obtain ⟨hsn, hsf, hsc⟩ := hsnaps
  have hkeys : db'.keysAt = db.keysAt := by
    unfold Db.keysAt
    rw [hcap.live]
  have hchunk : ∀ x k, db'.undoChunks.get? x = some k ↔ db.undoChunks.get? x = some k ∨
      ∃ i, x = (id, p, i) ∧ db.fs.get? p ≠ none ∧ db.chunks.get? (p, i) = some k := hcap.chunks
  -- The chunks of an old entry, and those of the new one.
  have hold : ∀ id' q i, (id', q) ≠ (id, p) →
      db'.undoChunks.get? (id', q, i) = db.undoChunks.get? (id', q, i) := by
    intro id' q i hne
    apply Option.ext
    intro k
    rw [hchunk]
    refine or_iff_left ?_
    rintro ⟨j, hj, -⟩
    exact hne (by cases hj; rfl)
  have hnew : ∀ i, db'.undoChunks.get? (id, p, i) = db.chunks.get? (p, i) := by
    intro i
    apply Option.ext
    intro k
    rw [hchunk, h.copies id p i (by simp [hseen])]
    constructor
    · rintro (hk | ⟨j, hj, -, hk⟩)
      · cases hk
      · cases hj
        exact hk
    · refine fun hk => Or.inr ⟨i, rfl, fun hnone => ?_, hk⟩
      rw [h.rows p i hnone] at hk
      cases hk
  refine ⟨⟨?_, ?_, ?_, ?_, ?_, fun id' q i hm => ?_⟩, ?_, ?_, ?_, fun id' q m hm => ?_⟩
  · rw [hcap.fs]
    exact h.inline
  · rw [hcap.fs, hcap.live]
    exact h.rows
  · rw [hcap.fs, hcap.dirty]
    exact h.marks
  · rw [hsn, hsf]
    exact h.snapRows
  · rw [hsf, hsc]
    exact h.snapCopies
  · simp only [hcap.entry] at hm
    by_cases hx : (id', q) = (id, p)
    · cases hx
      rw [hnew]
      refine h.rows p i ?_
      rcases hrow : db.fs.get? p with _ | row
      · rfl
      · have := hm row.toFsMeta
        rw [if_pos rfl, hrow] at this
        exact absurd rfl this
    · rw [hold id' q i hx]
      refine h.copies id' q i fun m => ?_
      have := hm m
      rwa [if_neg hx] at this
  · rw [hcap.fs, hcap.dirty, hkeys]
    exact h.live
  · rw [hcap.fs, hcap.dirty, hkeys]
    exact h.marked
  · rw [hsf, hsc]
    exact h.snaps
  · rw [hcap.entry] at hm
    split_ifs at hm with hx
    · cases hx
      obtain ⟨row, hrow, rfl⟩ := Option.map_eq_some_iff.1 (Option.some.inj hm)
      simp only [hnew]
      by_cases hin : p ∈ db.dirty
      · exact hclean hin _ _ (h.marked p row hrow hin)
      · exact h.live p row hrow hin
    · simp only [hold id' q _ hx]
      exact h.undos id' q m hm

omit [DecidableEq K] in
/-- A new undo record has no entry yet. -/
theorem EntryInv.keeps_undoBegin : Keeps (EntryInv G D) (undoBegin (K := K)) := by
  intro db h
  exact h.same ⟨fun _ => rfl, fun _ _ => rfl, fun _ => Iff.rfl, ⟨rfl, rfl, rfl⟩, rfl, rfl⟩

/-- Deleting an undo record deletes copies only. -/
theorem EntryInv.keeps_undoDelete (id : ℕ) : Keeps (EntryInv G D) (undoDelete (K := K) id) := by
  refine Keeps.statement fun db db' h hf => ?_
  split_ifs at hf
  · cases hf
    have hfs : ∀ id' q, (db.undoFs.deleteWhere fun c _ => c.1 = id).get? (id', q) =
        if id' = id then none else db.undoFs.get? (id', q) := by
      intro id' q
      rw [Table.get?_deleteWhere_key _ fun c : ℕ × Str => decide (c.1 = id)]
      simp
    have hch : ∀ id' q i, (db.undoChunks.deleteWhere fun c _ => c.1 = id).get? (id', q, i) =
        if id' = id then none else db.undoChunks.get? (id', q, i) := by
      intro id' q i
      rw [Table.get?_deleteWhere_key _ fun c : ℕ × Str × ℕ => decide (c.1 = id)]
      simp
    -- The record goes with its entries and copies, and those of the other records stay.
    refine ⟨⟨h.inline, h.rows, h.marks, h.snapRows, h.snapCopies, fun id' q i hm => ?_⟩,
      h.live, h.marked,
      h.snaps, fun id' q m hm => ?_⟩
    · dsimp only at hm ⊢
      simp only [hfs] at hm
      rw [hch]
      split_ifs with hid
      · rfl
      · simp only [if_neg hid] at hm
        exact h.copies id' q i hm
    · dsimp only at hm ⊢
      rw [hfs] at hm
      split_ifs at hm with hid
      simp only [hch, if_neg hid]
      exact h.undos id' q m hm
  · cases hf
    exact h

/-- Deleting a snapshot deletes copies only. -/
theorem EntryInv.keeps_deleteSnapshot (id : ℕ) :
    Keeps (EntryInv G D) (deleteSnapshot (K := K) id) := by
  refine Keeps.statement fun db db' h hf => ?_
  split_ifs at hf
  · cases hf
    have hfs : ∀ id' q, (db.snapFs.deleteWhere fun c _ => c.1 = id).get? (id', q) =
        if id' = id then none else db.snapFs.get? (id', q) := by
      intro id' q
      rw [Table.get?_deleteWhere_key _ fun c : ℕ × Str => decide (c.1 = id)]
      simp
    have hch : ∀ id' q i, (db.snapChunks.deleteWhere fun c _ => c.1 = id).get? (id', q, i) =
        if id' = id then none else db.snapChunks.get? (id', q, i) := by
      intro id' q i
      rw [Table.get?_deleteWhere_key _ fun c : ℕ × Str × ℕ => decide (c.1 = id)]
      simp
    -- What is left of the other snapshots is what it was; the deleted one has no rows that could
    -- be wrong.
    refine ⟨⟨h.inline, h.rows, h.marks, fun id' q hid' => ?_, fun id' q i hq => ?_, h.copies⟩,
      h.live, h.marked,
      fun id' q m hm => ?_, h.undos⟩
    · dsimp only at hid' ⊢
      rw [hfs]
      split_ifs with hid
      · rfl
      · refine h.snapRows id' q ?_
        rwa [Table.get?_deleteWhere_key _ fun i : ℕ => decide (i = id),
          if_neg (by simpa using hid)] at hid'
    · dsimp only at hq ⊢
      rw [hfs] at hq
      rw [hch]
      split_ifs with hid
      · rfl
      · rw [if_neg hid] at hq
        exact h.snapCopies id' q i hq
    · dsimp only at hm ⊢
      rw [hfs] at hm
      split_ifs at hm with hid
      simp only [hch, if_neg hid]
      exact h.snaps id' q m hm
  · cases hf
    exact h

/-- The copies of a snapshot leave the undo records alone. -/
theorem copyTree_undo (h : copyTree id db = .ok u db') :
    db'.undoFs = db.undoFs ∧ db'.undoChunks = db.undoChunks := by
  have hsame : ∀ {α : Type} {ins : Db K → α → Except Err (Db K)} {l : List α} {d d' : Db K},
      (∀ t r t', ins t r = .ok t' → t'.undoFs = t.undoFs ∧ t'.undoChunks = t.undoChunks) →
        l.foldlM ins d = .ok d' → d'.undoFs = d.undoFs ∧ d'.undoChunks = d.undoChunks := by
    intro α ins l d d' hins hfold
    refine foldlM_inv (I := fun t : Db K => t.undoFs = d.undoFs ∧ t.undoChunks = d.undoChunks) ?_
      ⟨rfl, rfl⟩ hfold
    rintro r - t t' ⟨hfs, hch⟩ hstep
    obtain ⟨hfs', hch'⟩ := hins t r t' hstep
    exact ⟨hfs'.trans hfs, hch'.trans hch⟩
  obtain ⟨_, d₁, hfs, hch⟩ := bind_eq_ok.1 h
  obtain ⟨h₁, h₁'⟩ := hsame (fun t r t' hstep => by
    unfold Db.insertSnapFs? at hstep
    split_ifs at hstep
    cases hstep
    exact ⟨rfl, rfl⟩) (statement_eq_ok.1 hfs)
  obtain ⟨h₂, h₂'⟩ := hsame (fun t r t' hstep => by
    unfold Db.insertSnapChunk? at hstep
    split_ifs at hstep
    cases hstep
    exact ⟨rfl, rfl⟩) (statement_eq_ok.1 hch)
  exact ⟨h₂.trans h₁, h₂'.trans h₁'⟩

/-- A snapshot of a tree whose marked entries have the property of the others keeps it. -/
theorem EntryInv.snapshot (h : EntryInv G D db) (hclean : ∀ p ∈ db.dirty, ∀ m c, D p m c → G p m c)
    {name : Str} (hcopy : copyTree (nextId db.snapshots)
      { db with snapshots := db.snapshots.insertIgnore (nextId db.snapshots) name } = .ok u db') :
    EntryInv G D db' := by
  have hfree : db.snapshots.get? (nextId db.snapshots) = none := get?_nextId _
  have hrows : ∀ p, db.snapFs.get? (nextId db.snapshots, p) = none := fun p => h.snapRows _ p hfree
  have hchunks : ∀ c : Str × ℕ, db.snapChunks.get? (nextId db.snapshots, c) = none := fun c =>
    h.snapCopies _ c.1 c.2 (hrows c.1)
  obtain ⟨hsn, hother, hotherCh⟩ := copyTree_frame hcopy
  obtain ⟨hundoFs, hundoChunks⟩ := copyTree_undo hcopy
  obtain ⟨hfs, hch, hdi, hsnap⟩ := copyTree_ok (d := { db with
    snapshots := db.snapshots.insertIgnore (nextId db.snapshots) name }) hrows hchunks hcopy
  dsimp only at hsn hother hotherCh hundoFs hundoChunks hfs hch hdi
  have hkeys : db'.keysAt = db.keysAt := by
    unfold Db.keysAt
    rw [hch]
  -- The new snapshot's rows are copies of the tree's; all other rows stay.
  refine ⟨⟨?_, ?_, ?_, fun id' q hid => ?_, fun id' q i hq => ?_, ?_⟩, ?_, ?_,
    fun id' q m hm => ?_, ?_⟩
  · rw [hfs]
    exact h.inline
  · rw [hfs, hch]
    exact h.rows
  · rw [hfs, hdi]
    exact h.marks
  · have hne : id' ≠ nextId db.snapshots := by
      rintro rfl
      rw [hsn, Table.get?_insertIgnore, if_pos rfl] at hid
      cases hid
    rw [hother id' q hne]
    refine h.snapRows id' q ?_
    rwa [hsn, Table.get?_insertIgnore, if_neg hne] at hid
  · rcases eq_or_ne id' (nextId db.snapshots) with rfl | hne
    · rw [hsnap.rows, Option.map_eq_none_iff, hfs] at hq
      rw [hsnap.chunks, hch]
      exact h.rows q i hq
    · rw [hother id' q hne] at hq
      rw [hotherCh id' _ hne]
      exact h.snapCopies id' q i hq
  · rw [hundoFs, hundoChunks]
    exact h.copies
  · rw [hfs, hdi, hkeys]
    exact h.live
  · rw [hfs, hdi, hkeys]
    exact h.marked
  · rcases eq_or_ne id' (nextId db.snapshots) with rfl | hne
    · rw [hsnap.rows, hfs] at hm
      obtain ⟨row, hrow, rfl⟩ := Option.map_eq_some_iff.1 hm
      simp only [hsnap.chunks, hch]
      by_cases hin : q ∈ db.dirty
      · exact hclean q hin _ _ (h.marked q row hrow hin)
      · exact h.live q row hrow hin
    · rw [hother id' q hne] at hm
      simp only [hotherCh id' _ hne]
      exact h.snaps id' q m hm
  · rw [hundoFs, hundoChunks]
    exact h.undos

/-! ## Copies put back -/

/-- What a restore leaves alone. -/
structure SameCopies (db db' : Db K) : Prop where
  /-- The snapshots. -/
  snaps : SameSnaps db db'
  /-- The undo records. -/
  undo : db'.undo = db.undo
  /-- Their entries. -/
  undoFs : db'.undoFs = db.undoFs
  /-- Their chunks. -/
  undoChunks : db'.undoChunks = db.undoChunks

omit [DecidableEq K] in
/-- Two changes that leave the copies alone leave them alone together. -/
theorem SameCopies.trans {db'' : Db K} (h : SameCopies db db') (h' : SameCopies db' db'') :
    SameCopies db db'' :=
  ⟨h.snaps.trans h'.snaps, h'.undo.trans h.undo, h'.undoFs.trans h.undoFs,
    h'.undoChunks.trans h.undoChunks⟩

omit [DecidableEq K] in
/-- Rows that are inserted, all or none. -/
theorem insertFsRows_ok :
    ∀ {rows : List (Str × FsRow K)} {d d' : Db K}, rows.foldlM Db.insertFs? d = .ok d' →
    (∀ p row, d'.fs.get? p = some row ↔ d.fs.get? p = some row ∨ (p, row) ∈ rows) ∧
      d'.chunks = d.chunks ∧
      d'.dirty = d.dirty ∧ SameCopies d d'
  | [], d, d', h => by
    cases h
    exact ⟨by simp, rfl, rfl, ⟨rfl, rfl, rfl⟩, rfl, rfl, rfl⟩
  | r :: rows, d, d', h => by
    rw [List.foldlM_cons] at h
    -- The first row is inserted into a free place, the rest by induction.
    rcases hr : d.insertFs? r with e | d₁
    · rw [hr] at h
      cases h
    · rw [hr] at h
      obtain ⟨hfs, hch, hdi, hcop⟩ := insertFsRows_ok h
      obtain ⟨hfree, rfl⟩ := insertFs?_ok hr
      have hone : SameCopies d (d.addFs r.1 r.2) := ⟨⟨rfl, rfl, rfl⟩, rfl, rfl, rfl⟩
      refine ⟨fun p row => ?_, hch, hdi, hone.trans hcop⟩
      rw [hfs, Db.get?_addFs _ hfree, List.mem_cons]
      split_ifs with hp
      · rw [hp, hfree]
        constructor
        · rintro (hrow | hrow)
          · exact Or.inr (Or.inl (by rw [← Option.some.inj hrow]))
          · exact Or.inr (Or.inr hrow)
        · rintro (hrow | hrow | hrow)
          · cases hrow
          · exact Or.inl (by rw [← hrow])
          · exact Or.inr hrow
      · refine or_congr_right ⟨Or.inr, ?_⟩
        rintro (rfl | hrow)
        · exact absurd rfl hp
        · exact hrow

/-- Chunk rows that are inserted, all or none. -/
theorem insertChunks_ok :
    ∀ {l : List ((Str × ℕ) × K)} {d d' : Db K}, l.foldlM Db.insertChunk? d = .ok d' →
    (∀ x k, d'.chunks.get? x = some k ↔ d.chunks.get? x = some k ∨ (x, k) ∈ l) ∧ d'.fs = d.fs ∧
      d'.dirty = d.dirty ∧ SameCopies d d'
  | [], d, d', h => by
    cases h
    exact ⟨by simp, rfl, rfl, ⟨rfl, rfl, rfl⟩, rfl, rfl, rfl⟩
  | r :: l, d, d', h => by
    rw [List.foldlM_cons] at h
    -- The first row is inserted into a free place, the rest by induction.
    rcases hr : d.insertChunk? r with e | d₁
    · rw [hr] at h
      cases h
    · rw [hr] at h
      obtain ⟨hch, hfs, hdi, hcop⟩ := insertChunks_ok (l := l) h
      obtain ⟨hfree, rfl⟩ := insertChunk?_ok hr
      have hone : SameCopies d (d.addChunk r.1.1 r.1.2 r.2) := ⟨⟨rfl, rfl, rfl⟩, rfl, rfl, rfl⟩
      refine ⟨fun x k => ?_, hfs, hdi, hone.trans hcop⟩
      rw [hch, Db.addChunk, Table.get?_insertIgnore, List.mem_cons]
      split_ifs with hx
      · have hx' : x = r.1 := hx
        rw [hx', hfree, Option.getD_none]
        constructor
        · rintro (hk | hk)
          · exact Or.inr (Or.inl (by rw [← Option.some.inj hk]))
          · exact Or.inr (Or.inr hk)
        · rintro (hk | hk | hk)
          · cases hk
          · exact Or.inl (by rw [← hk])
          · exact Or.inr hk
      · refine or_congr_right ⟨Or.inr, ?_⟩
        rintro (rfl | hk)
        · exact absurd rfl hx
        · exact hk

omit [DecidableEq K] in
/-- A program that returns under the bypass returns what it returns with the bypass on. -/
theorem withBypass_ok {α : Type} {x : Sql K α} {a : α} (h : withBypass x db = .ok a db') :
    ∃ d, x { db with bypass := true } = .ok a d ∧ db' = { d with bypass := false } := by
  unfold withBypass at h
  rcases hx : x { db with bypass := true } with ⟨b, d⟩ | ⟨e, d⟩
  · rw [hx] at h
    cases h
    exact ⟨d, rfl, rfl⟩
  · rw [hx] at h
    cases h

omit [DecidableEq K] in
/-- A program that fails under the bypass fails as it does with the bypass on. -/
theorem withBypass_error {α : Type} {x : Sql K α} {e : Err} (h : withBypass x db = .error e db') :
    ∃ d, x { db with bypass := true } = .error e d ∧ db' = { d with bypass := false } := by
  unfold withBypass at h
  rcases hx : x { db with bypass := true } with ⟨b, d⟩ | ⟨e', d⟩
  · rw [hx] at h
    cases h
  · rw [hx] at h
    cases h
    exact ⟨d, rfl, rfl⟩

/-- The live tree is the one of a snapshot. -/
structure Restored (id : ℕ) (db db' : Db K) : Prop where
  /-- The rows. -/
  fs : ∀ p, db'.fs.get? p = (db.snapFs.get? (id, p)).map FsMeta.toRow
  /-- The chunks. -/
  chunks : ∀ p i, db'.chunks.get? (p, i) = db.snapChunks.get? (id, p, i)
  /-- Only a mark without a row is left. -/
  dirty : ∀ p ∈ db'.dirty, p ∈ db.dirty ∧ db.fs.get? p = none
  /-- The copies stay. -/
  copies : SameCopies db db'

omit [DecidableEq K] in
/-- The rows of a snapshot as they are put back. -/
theorem mem_snapRows {q : Str × FsRow K} (le : Str × FsRow K → Str × FsRow K → Bool) :
    q ∈ ((db.snapFs.select fun c _ => c.1 = id).map fun r => (r.1.2, r.2.toRow)).insertionSort
        (fun a b => le a b = true) ↔ ∃ m, db.snapFs.get? (id, q.1) = some m ∧ m.toRow = q.2 := by
  rw [List.mem_insertionSort, List.mem_map]
  constructor
  · rintro ⟨r, hr, rfl⟩
    rw [Table.select, List.mem_filter, decide_eq_true_eq] at hr
    obtain ⟨⟨n, p⟩, m⟩ := r
    obtain ⟨hmem, rfl⟩ := hr
    exact ⟨m, Table.get?_eq_some_iff.2 hmem, rfl⟩
  · rintro ⟨m, hm, hq⟩
    refine ⟨((id, q.1), m), ?_, by rw [hq]⟩
    rw [Table.select, List.mem_filter]
    exact ⟨Table.get?_eq_some_iff.1 hm, by simp⟩

/-- What `snapshot_restore` does when it returns. -/
theorem snapshotRestore_ok {name : Str} (h : snapshotRestore name db = .ok u db') :
    ∃ id, db.snapshotId name = .ok id ∧ Restored id db db' := by
  obtain ⟨d, hx, rfl⟩ := withBypass_ok h
  obtain ⟨id, d₀, hid, hx⟩ := bind_eq_ok.1 hx
  obtain ⟨hname, rfl⟩ := query_eq_ok.1 hid
  obtain ⟨_, d₁, hdc, hx⟩ := bind_eq_ok.1 (savepoint_eq_ok.1 hx)
  obtain ⟨_, d₂, hdf, hx⟩ := bind_eq_ok.1 hx
  rw [reads_bind] at hx
  obtain ⟨_, d₃, hrows, hx⟩ := bind_eq_ok.1 hx
  rw [reads_bind] at hx
  rw [deleteChunks_ok hdc] at hdf
  have hd₂ := deleteFs_ok hdf
  obtain ⟨hfs, hch, hdi, hcop⟩ := insertFsRows_ok (statement_eq_ok.1 hrows)
  obtain ⟨hch', hfs', hdi', hcop'⟩ := insertChunks_ok (statement_eq_ok.1 hx)
  have hsame : SameCopies db d₂ := by
    rw [hd₂]
    exact ⟨⟨rfl, rfl, rfl⟩, rfl, rfl, rfl⟩
  -- The live tables are empty in between.
  have hempty : ∀ p, d₂.fs.get? p = none := by
    intro p
    rw [hd₂, Db.get?_delFs]
    rfl
  have hemptyCh : ∀ x, d₂.chunks.get? x = none := by
    rintro ⟨q, i⟩
    rw [hd₂]
    refine (Db.get?_delChunks (fun p _ => true && Table.has _ p) q i).trans ?_
    split_ifs
    · rfl
    · exact (Db.get?_delChunks (fun _ _ => true) q i).trans (if_pos rfl)
  have hend : SameCopies db { d with bypass := false } :=
    ((hsame.trans hcop).trans hcop').trans ⟨⟨rfl, rfl, rfl⟩, rfl, rfl, rfl⟩
  refine ⟨id, hname, fun p => ?_, fun p i => ?_, fun p hp => ?_, hend⟩
  · apply Option.ext
    intro row
    show d.fs.get? p = some row ↔ _
    rw [hfs', hfs, hempty, mem_snapRows, hsame.snaps.snapFs, Option.map_eq_some_iff]
    simp
  · apply Option.ext
    intro k
    show d.chunks.get? (p, i) = some k ↔ _
    rw [hch', hch, hemptyCh, List.mem_map, (hsame.trans hcop).snaps.snapChunks]
    simp only [Table.select, List.mem_filter, decide_eq_true_eq, reduceCtorEq, false_or]
    constructor
    · rintro ⟨⟨⟨n, c⟩, k'⟩, ⟨hmem, hn⟩, he⟩
      cases he
      cases hn
      exact Table.get?_eq_some_iff.2 hmem
    · intro hk
      exact ⟨((id, p, i), k), ⟨Table.get?_eq_some_iff.1 hk, rfl⟩, rfl⟩
  · have hp' : p ∈ d.dirty := hp
    rw [hdi', hdi, hd₂] at hp'
    have hp'' : p ∈ db.dirty.filter fun p => !(true && db.fs.has p) := hp'
    rw [List.mem_filter] at hp''
    refine ⟨hp''.1, ?_⟩
    simpa using hp''.2

/-- A restore that fails leaves everything as it was. -/
theorem snapshotRestore_error {name : Str} {e : Err} (h : snapshotRestore name db = .error e db') :
    db' = { db with bypass := false } := by
  obtain ⟨d, hx, rfl⟩ := withBypass_error h
  rw [Atomic.query_bind (fun _ => Atomic.savepoint _) _ e d hx]

omit [DecidableEq K] in
/-- Putting a snapshot back puts copies into the tree. -/
theorem EntryInv.restored (h : EntryInv G D db) (hr : Restored id db db') : EntryInv G D db' := by
  obtain ⟨⟨hsn, hsf, hsc⟩, -, huf, huc⟩ := hr.copies
  -- After a restore no path is marked, and the live rows are copies of the snapshot's.
  have hclean : ∀ p, p ∉ db'.dirty := by
    intro p hp
    obtain ⟨hin, hnone⟩ := hr.dirty p hp
    exact h.marks p hin hnone
  refine ⟨⟨fun p row hp => ?_, fun p i hp => ?_, fun p hp => absurd hp (hclean p), ?_, ?_, ?_⟩,
    fun p row hp _ => ?_, fun p row _ hd => absurd hd (hclean p), ?_, ?_⟩
  · rw [hr.fs] at hp
    obtain ⟨m, -, rfl⟩ := Option.map_eq_some_iff.1 hp
    rfl
  · rw [hr.fs, Option.map_eq_none_iff] at hp
    rw [hr.chunks]
    exact h.snapCopies id p i hp
  · rw [hsn, hsf]
    exact h.snapRows
  · rw [hsf, hsc]
    exact h.snapCopies
  · rw [huf, huc]
    exact h.copies
  · rw [hr.fs] at hp
    obtain ⟨m, hm, rfl⟩ := Option.map_eq_some_iff.1 hp
    unfold Db.keysAt
    simp only [hr.chunks]
    exact h.snaps id p m hm
  · rw [hsf, hsc]
    exact h.snaps
  · rw [huf, huc]
    exact h.undos

/-- A restored tree consists of copies. -/
theorem EntryInv.keeps_snapshotRestore (name : Str) :
    Keeps (EntryInv G D) (snapshotRestore (K := K) name) := by
  intro db h
  unfold endState
  rcases hx : snapshotRestore name db with ⟨v, d⟩ | ⟨e, d⟩
  · obtain ⟨id, -, hr⟩ := snapshotRestore_ok hx
    exact h.restored hr
  · rw [snapshotRestore_error hx]
    exact h.setBypass false

/-- One path of an undo record is put back. -/
theorem EntryInv.undoPut (h : EntryInv G D db) {r : Str × Option (FsMeta K)}
    (hrec : db.undoFs.get? (id, r.1) = some r.2) (hx : Dbvm.undoPut id r db = .ok u db') :
    EntryInv G D db' ∧ db'.undoFs = db.undoFs := by
  obtain ⟨p, m⟩ := r
  rcases m with _ | m
  · cases hx
    exact ⟨h, rfl⟩
  · obtain ⟨_, d₁, hins, hx⟩ := bind_eq_ok.1 hx
    rw [reads_bind] at hx
    obtain ⟨hfree, rfl⟩ := insertFs_ok hins
    obtain ⟨hch, hfs, hdi, hcop⟩ := insertChunks_ok (statement_eq_ok.1 hx)
    dsimp only at hrec hch
    have hget : ∀ q, (db.addFs p m.toRow).fs.get? q = if q = p then some m.toRow
      else db.fs.get? q :=
      fun q => Db.get?_addFs _ hfree q
    have hmark : p ∉ db'.dirty := by
      rw [hdi]
      exact fun hin => h.marks p hin hfree
    -- The path had no chunks, so it has those of the record.
    have hnew : ∀ i, db'.chunks.get? (p, i) = db.undoChunks.get? (id, p, i) := by
      intro i
      apply Option.ext
      intro k
      rw [hch, mem_undoRows]
      have hnone : (db.addFs p m.toRow).chunks.get? (p, i) = none := h.rows p i hfree
      rw [hnone]
      simp [Db.addFs]
    have hothers : ∀ q i, q ≠ p → db'.chunks.get? (q, i) = db.chunks.get? (q, i) := by
      intro q i hq
      apply Option.ext
      intro k
      rw [hch, mem_undoRows]
      refine or_iff_left ?_
      rintro ⟨hqp, -⟩
      exact hq hqp
    have honly : OnlyAt p db db' := by
      refine ⟨fun q hq => ?_, hothers, fun q _ => ?_, ⟨hcop.snaps.snapshots, hcop.snaps.snapFs,
        hcop.snaps.snapChunks⟩, hcop.undo, hcop.undoFs, hcop.undoChunks⟩
      · rw [hfs, hget, if_neg hq]
      · rw [hdi]
        rfl
    refine ⟨h.at honly (fun hnone => ?_) fun row hrow => ?_, hcop.undoFs⟩
    · rw [hfs, hget, if_pos rfl] at hnone
      cases hnone
    · rw [hfs, hget, if_pos rfl] at hrow
      cases hrow
      refine ⟨rfl, fun _ => ?_, fun hin => absurd hin hmark⟩
      unfold Db.keysAt
      simp only [hnew]
      exact h.undos id p m hrec

/-- Putting an undo record back puts copies into the tree. -/
theorem EntryInv.keeps_undoApply (id : ℕ) : Keeps (EntryInv G D) (undoApply (K := K) id) := by
  refine Keeps.withBypass (fun _ b h => h.setBypass b) (Keeps.inSavepoint ?_)
  intro db v db' h hx
  rw [reads_bind] at hx
  obtain ⟨_, d₁, hdel, hput⟩ := bind_eq_ok.1 hx
  -- The records do not change, so what was read of them at the start is there.
  have hdel' : EntryInv G D d₁ ∧ d₁.undoFs = db.undoFs := by
    refine Triple.forM_inv (p := fun d : Db K => EntryInv G D d ∧ d.undoFs = db.undoFs) ?_ db _ d₁
      ⟨h, rfl⟩ hdel
    rintro r - d _ d' ⟨hd, hu⟩ hstep
    rw [deleteFs_ok hstep]
    exact ⟨hd.delFs _, hu⟩
  refine (Triple.forM_inv (p := fun d : Db K => EntryInv G D d ∧ d.undoFs = db.undoFs) ?_ d₁ _ db'
    hdel' hput).1
  rintro r hr d _ d' ⟨hd, hu⟩ hstep
  have hrec : d.undoFs.get? (id, r.1) = some r.2 := by
    rw [hu]
    exact (mem_record_rows _).1 (List.mem_reverse.1 hr)
  obtain ⟨hd', hu'⟩ := hd.undoPut hrec hstep
  exact ⟨hd', hu'.trans hu⟩

end Copies

/-! ## Renames -/

section Moves

variable {old new : Str} {u : Unit}

/-- The rows of a table in which one has moved to a free key. -/
theorem exists_moved {ρ : Type} {t : Table Str ρ} {q : Str} {r : ρ} (hnew : t.get? new = none) :
    (∃ k, (if k = old then new else k) = q ∧ t.get? k = some r) ↔
      (if q = new then t.get? old else if q = old then none else t.get? q) = some r := by
  constructor
  · rintro ⟨k, hk, hr⟩
    split_ifs at hk with hold
    · rw [if_pos hk.symm, ← hold]
      exact hr
    · subst hk
      have hq : k ≠ new := by
        rintro rfl
        rw [hnew] at hr
        cases hr
      rw [if_neg hq, if_neg hold]
      exact hr
  · intro hr
    split_ifs at hr with hq hq'
    · exact ⟨old, by rw [if_pos rfl, hq], hr⟩
    · exact ⟨q, if_neg hq', hr⟩

omit [DecidableEq K] in
/-- A row that is moved leaves its path free. -/
theorem moveFs_ok (hne : old ≠ new) (h : moveFs old new db = .ok u db') :
    (db.fs.get? old = none ∧ db' = db) ∨ (db.fs.get? old ≠ none ∧ db.fs.get? new = none ∧
      (∀ q, db'.fs.get? q = if q = new then db.fs.get? old else if q = old then none
        else db.fs.get? q) ∧
      db'.dirty = (db.dirty.map fun p => if p = old then new else p) ∧ db'.chunks = db.chunks ∧
      SameCopies db db') := by
  rw [moveFs, statement_eq_ok] at h
  rcases hrow : db.fs.get? old with _ | row
  · rw [hrow] at h
    cases h
    exact Or.inl ⟨rfl, rfl⟩
  · rw [hrow] at h
    dsimp only at h
    split_ifs at h
    -- The statement fails when the new path has a row. Else the row of `old` is found at `new`.
    rcases hre : db.fs.rekey (fun p => if p = old then new else p) with _ | fs
    · rw [hre] at h
      cases h
    · rw [hre] at h
      cases h
      have hget : ∀ {q : Str} {r : FsRow K}, fs.get? q = some r ↔
          ∃ k, (if k = old then new else k) = q ∧ db.fs.get? k = some r := Table.get?_rekey hre
      have hnew : db.fs.get? new = none := by
        rcases hrow' : db.fs.get? new with _ | row'
        · rfl
        · -- Both rows would have the key `new`.
          have he : (if old = old then new else old) = if new = old then new else new := by
            rw [if_pos rfl, ite_self]
          exact absurd (Table.rekey_inj hre hrow hrow' he) hne
      refine Or.inr ⟨by simp, hnew, fun q => ?_, rfl, rfl, ⟨rfl, rfl, rfl⟩, rfl, rfl, rfl⟩
      apply Option.ext
      intro r
      dsimp only
      rw [hget, exists_moved hnew, hrow]

omit [DecidableEq K] in
/-- The chunks of a file that is moved. -/
theorem moveChunks_ok (hne : old ≠ new) (hnew : ∀ i, db.chunks.get? (new, i) = none)
    (h : moveChunks old new db = .ok u db') :
    (∀ q i, db'.chunks.get? (q, i) =
      if q = new then db.chunks.get? (old, i) else if q = old then none
      else db.chunks.get? (q, i)) ∧
      db'.fs = db.fs ∧ db'.dirty = db.dirty ∧ SameCopies db db' := by
  rw [moveChunks, statement_eq_ok] at h
  split_ifs at h
  -- The statement fails when two rows would get one key. Else each chunk of `old` is found below
  -- `new`.
  rcases hre : db.chunks.rekey (fun c => if c.1 = old then (new, c.2) else c) with _ | chunks
  · rw [hre] at h
    cases h
  · rw [hre] at h
    cases h
    refine ⟨fun q i => ?_, rfl, rfl, ⟨rfl, rfl, rfl⟩, rfl, rfl, rfl⟩
    apply Option.ext
    intro k
    dsimp only
    rw [Table.get?_rekey hre]
    constructor
    · rintro ⟨⟨c, j⟩, hc, hk⟩
      dsimp only at hc
      split_ifs at hc with hold
      · cases hc
        rw [if_pos rfl, ← hold]
        exact hk
      · cases hc
        have hq : q ≠ new := by
          rintro rfl
          rw [hnew] at hk
          cases hk
        rw [if_neg hq, if_neg hold]
        exact hk
    · intro hk
      split_ifs at hk with hq hq'
      · exact ⟨(old, i), by rw [if_pos rfl, hq], hk⟩
      · exact ⟨(q, i), if_neg hq', hk⟩

omit [DecidableEq K] in
/-- Moving the chunks of a path without chunks changes nothing. -/
theorem moveChunks_none (hnone : ∀ i, db.chunks.get? (old, i) = none)
    (h : moveChunks old new db = .ok u db') :
    SameEntries db db' := by
  rw [moveChunks, statement_eq_ok] at h
  split_ifs at h
  rcases hre : db.chunks.rekey (fun c => if c.1 = old then (new, c.2) else c) with _ | chunks
  · rw [hre] at h
    cases h
  · rw [hre] at h
    cases h
    refine ⟨fun _ => rfl, fun q i => ?_, fun _ => Iff.rfl, ⟨rfl, rfl, rfl⟩, rfl, rfl⟩
    apply Option.ext
    intro k
    dsimp only
    rw [Table.get?_rekey hre]
    have hold : ∀ c j, db.chunks.get? (c, j) = some k → c ≠ old := by
      rintro c j hk rfl
      rw [hnone] at hk
      cases hk
    constructor
    · rintro ⟨⟨c, j⟩, hc, hk⟩
      rw [if_neg (hold c j hk)] at hc
      rw [← hc]
      exact hk
    · exact fun hk => ⟨(q, i), if_neg (hold q i hk), hk⟩

/-- Renaming every key to itself changes nothing. -/
theorem rekey_self {κ ρ : Type} [DecidableEq κ] {t t' : Table κ ρ} {g : κ → κ} (hg : ∀ k, g k = k)
    (h : t.rekey g = some t') (k : κ) : t'.get? k = t.get? k := by
  apply Option.ext
  intro r
  rw [Table.get?_rekey h]
  simp only [hg, exists_eq_left]

/-- The rows and the chunks of one path get another. -/
def moveEntry (m : Str × Str) : Sql K Unit := do
  moveFs m.1 m.2
  moveChunks m.1 m.2

omit [DecidableEq K] in
/-- A move of a path to itself changes nothing. -/
theorem EntryInv.moved_self (h : EntryInv G D db) (hx : moveEntry (old, old) db = .ok u db') :
    EntryInv G D db' := by
  obtain ⟨_, d, hfs, hch⟩ := bind_eq_ok.1 hx
  -- A move onto itself changes no row and no chunk.
  have hd : EntryInv G D d := by
    rw [moveFs, statement_eq_ok] at hfs
    dsimp only at hfs
    split at hfs
    · cases hfs
      exact h
    · split_ifs at hfs
      split at hfs
      · cases hfs
      · rename_i fs hre
        cases hfs
        have hmap : (db.dirty.map fun p => if p = old then old else p) = db.dirty := by
          conv_rhs => rw [← List.map_id db.dirty]
          exact List.map_congr_left fun p _ => by split_ifs with hp <;> simp [hp]
        refine h.same ⟨fun q => rekey_self (fun k => by split_ifs with hk <;> simp [hk]) hre q,
          fun _ _ => rfl,
          fun q => ?_, ⟨rfl, rfl, rfl⟩, rfl, rfl⟩
        dsimp only
        rw [hmap]
  rw [moveChunks, statement_eq_ok] at hch
  dsimp only at hch
  split_ifs at hch
  split at hch
  · cases hch
  · rename_i chunks hre
    cases hch
    refine hd.same ⟨fun _ => rfl, fun q i => rekey_self (fun k => ?_) hre (q, i), fun _ => Iff.rfl,
      ⟨rfl, rfl, rfl⟩, rfl, rfl⟩
    split_ifs with hk
    · rw [← hk]
    · rfl

/-- An entry may have another path. -/
def MayMove (G D : EntryProp K) (db : Db K) (m : Str × Str) : Prop :=
  ∀ row, db.fs.get? m.1 = some row →
  (m.1 ∉ db.dirty → G m.1 row.toFsMeta (db.keysAt m.1) → G m.2 row.toFsMeta (db.keysAt m.1)) ∧
    (m.1 ∈ db.dirty → D m.1 row.toFsMeta (db.keysAt m.1) → D m.2 row.toFsMeta (db.keysAt m.1))

omit [DecidableEq K] in
/-- An entry keeps its property at its new path when it may move there. -/
theorem EntryInv.moved (h : EntryInv G D db) (hmay : MayMove G D db (old, new))
    (hx : moveEntry (old, new) db = .ok u db') : EntryInv G D db' := by
  rcases eq_or_ne old new with rfl | hne
  · exact h.moved_self hx
  obtain ⟨_, d, hfs, hch⟩ := bind_eq_ok.1 hx
  rcases moveFs_ok hne hfs with ⟨hnone, rfl⟩ | ⟨hsome, hfree, hrows, hmarks, hsame, hcop⟩
  · -- There is no entry: there are no chunks either.
    exact h.same (moveChunks_none (fun i => h.rows old i hnone) hch)
  obtain ⟨hkeys, hfs', hdi', hcop'⟩ :=
    moveChunks_ok hne (fun i => by rw [hsame]; exact h.rows new i hfree) hch
  obtain ⟨⟨hsn, hsf, hsc⟩, -, huf, huc⟩ := hcop.trans hcop'
  rw [hsame] at hkeys
  have hrow : ∀ q, db'.fs.get? q = if q = new then db.fs.get? old else if q = old then none
    else db.fs.get? q := by
    rw [hfs']
    exact hrows
  have hfreeMark : new ∉ db.dirty := fun hin => h.marks new hin hfree
  have hmark : ∀ q, q ∈ db'.dirty ↔ if q = new then old ∈ db.dirty else q ≠ old ∧ q ∈ db.dirty := by
    intro q
    rw [hdi', hmarks, List.mem_map]
    split_ifs with hq
    · constructor
      · rintro ⟨x, hx, he⟩
        split_ifs at he with hxo
        · rwa [← hxo]
        · rw [he, hq] at hx
          exact absurd hx hfreeMark
      · exact fun hin => ⟨old, hin, by rw [if_pos rfl, hq]⟩
    · constructor
      · rintro ⟨x, hx, he⟩
        split_ifs at he with hxo
        · exact absurd he.symm hq
        · rw [← he]
          exact ⟨hxo, hx⟩
      · exact fun hin => ⟨q, hin.2, if_neg hin.1⟩
  -- The entries afterwards: the moved one and the others.
  have hentry : ∀ q row, db'.fs.get? q = some row →
      (q = new ∧ db.fs.get? old = some row ∧ db'.keysAt q = db.keysAt old ∧
        (q ∈ db'.dirty ↔ old ∈ db.dirty)) ∨
        (db.fs.get? q = some row ∧ db'.keysAt q = db.keysAt q ∧
          (q ∈ db'.dirty ↔ q ∈ db.dirty)) := by
    intro q row hq
    rw [hrow] at hq
    split_ifs at hq with hnew hold
    · refine Or.inl ⟨hnew, hq, funext fun i => ?_, ?_⟩
      · exact (hkeys q i).trans (if_pos hnew)
      · rw [hmark, if_pos hnew]
    · refine Or.inr ⟨hq, funext fun i => ?_, ?_⟩
      · exact (hkeys q i).trans (by rw [if_neg hnew, if_neg hold]; rfl)
      · rw [hmark, if_neg hnew, and_iff_right hold]
  refine ⟨⟨fun q row hq => ?_, fun q i hq => ?_, fun q hq => ?_, ?_, ?_, ?_⟩, fun q row hq hd => ?_,
    fun q row hq hd => ?_, ?_, ?_⟩
  · rcases hentry q row hq with ⟨-, hold, -⟩ | ⟨hq', -⟩
    · exact h.inline old row hold
    · exact h.inline q row hq'
  · rw [hrow] at hq
    rw [hkeys]
    split_ifs at hq ⊢
    · exact absurd hq hsome
    · rfl
    · exact h.rows q i hq
  · rw [hmark] at hq
    rw [hrow]
    split_ifs at hq ⊢ with hnew hold
    · exact hsome
    · exact absurd hold hq.1
    · exact h.marks q hq.2
  · rw [hsn, hsf]
    exact h.snapRows
  · rw [hsf, hsc]
    exact h.snapCopies
  · rw [huf, huc]
    exact h.copies
  · rcases hentry q row hq with ⟨rfl, hold, hk, hm⟩ | ⟨hq', hk, hm⟩
    · rw [hk]
      rw [hm] at hd
      exact (hmay row hold).1 hd (h.live old row hold hd)
    · rw [hk]
      rw [hm] at hd
      exact h.live q row hq' hd
  · rcases hentry q row hq with ⟨rfl, hold, hk, hm⟩ | ⟨hq', hk, hm⟩
    · rw [hk]
      rw [hm] at hd
      exact (hmay row hold).2 hd (h.marked old row hold hd)
    · rw [hk]
      rw [hm] at hd
      exact h.marked q row hq' hd
  · rw [hsf, hsc]
    exact h.snaps
  · rw [huf, huc]
    exact h.undos

omit [DecidableEq K] in
/-- Entries that may move keep their property on the way. -/
theorem EntryInv.movedAll {ms : List (Str × Str)} (h : EntryInv G D db)
    (hmay : InTurn moveEntry (MayMove G D) ms db) (hx : ms.forM moveEntry db = .ok u db') :
    EntryInv G D db' :=
  InTurn.returned (fun _ _ _ hd hm hone => EntryInv.moved hd hm hone) hmay h hx

/-- A rename of the mount keeps the property when each entry may move. -/
theorem EntryInv.fuseRename (h : EntryInv G D db) {replaced : Option Str}
    {moves : List (Str × Str)}
    (hmay : InTurn moveEntry (MayMove G D) moves (replaced.elim db fun d =>
      db.delFs fun q => q = d)) :
    EntryInv G D (endState (Dbvm.fuseRename replaced moves) db) := by
  refine endState_savepoint (fun _ => h) fun v db' hx => ?_
  rcases replaced with _ | d
  · exact h.movedAll hmay hx
  · obtain ⟨_, d₁, hdel, hx⟩ := bind_eq_ok.1 hx
    rw [deleteFs_ok hdel] at hx
    exact (h.delFs _).movedAll hmay hx

end Moves

/-! ## Writers -/

section Writers

variable {mode mtime ns : ℤ} {data : Bytes} {u : Unit}

/-- The entry of a path has the property it must have, marked or not. -/
def Fits (G D : EntryProp K) (db : Db K) (p : Str) (m : FsMeta K) (c : ℕ → Option K) : Prop :=
  (p ∉ db.dirty → G p m c) ∧ (p ∈ db.dirty → D p m c)

omit [DecidableEq K] in
/-- A write that leaves a row, and the marks as they were. -/
theorem EntryInv.write (h : EntryInv G D db) {row : FsRow K} {c : ℕ → Option K}
    (honly : OnlyAt p db db') (hdirty : db'.dirty = db.dirty) (hrow : db'.fs.get? p = some row)
    (hc : ∀ i, db'.chunks.get? (p, i) = c i) (hinline : row.content = none)
    (hfits : Fits G D db p row.toFsMeta c) : EntryInv G D db' := by
  refine h.at honly (fun hnone => ?_) fun row' hrow' => ?_
  · rw [hrow] at hnone
    cases hnone
  · rw [hrow] at hrow'
    cases hrow'
    have hkeys : db'.keysAt p = c := funext hc
    rw [hdirty, hkeys]
    exact ⟨hinline, hfits⟩

/-- `fs_put_file` writes an entry that fits. -/
theorem EntryInv.fsPutFile (h : EntryInv G D db)
    (hfits : Fits G D db p (fileRow E mode mtime (db.stampAt p) data).toFsMeta (chunkRow E data)) :
    EntryInv G D (endState (Dbvm.fsPutFile E p mode mtime data) db) := by
  refine Atomic.endState (Atomic.savepoint _) h fun v db' hx => ?_
  obtain ⟨honly, hdirty, hrow, hch⟩ := fsPutFile_entry hx
  exact h.write honly hdirty hrow hch rfl hfits

/-- `fs_put_node` writes an entry that fits. -/
theorem EntryInv.fsPutNode {kind : Kind} {link : Option Str} (h : EntryInv G D db)
    (hfits : Fits G D db p (nodeRow kind mode mtime (db.stampAt p) link).toFsMeta fun _ => none) :
    EntryInv G D (endState (Dbvm.fsPutNode p kind mode mtime link) db) := by
  refine Atomic.endState (Atomic.savepoint _) h fun v db' hx => ?_
  obtain ⟨honly, hdirty, hrow, hch⟩ := fsPutNode_entry hx
  exact h.write honly hdirty hrow hch rfl hfits

/-- `fs_put_file_stream_ns` writes an entry that fits, whatever the reader gives. -/
theorem EntryInv.fsPutFileStreamNs {src : Reader} (h : EntryInv G D db)
    (hfits : ∀ whole, Fits G D db p (fileRow E mode mtime ns whole).toFsMeta (chunkRow E whole)) :
    EntryInv G D (endState (Dbvm.fsPutFileStreamNs E p mode mtime ns src) db) := by
  refine Atomic.endState (Atomic.savepoint _) h fun v db' hx => ?_
  obtain ⟨honly, hdirty, whole, hrow, hch⟩ := fsPutFileStreamNs_entry hx
  exact h.write honly hdirty hrow hch rfl (hfits whole)

/-- An update of columns keeps the property when the new columns fit. -/
theorem EntryInv.updateFs {f : FsRow K → FsRow K} (h : EntryInv G D db)
    (hf : ∀ row, (f row).content = row.content)
    (hfits : ∀ row, db.fs.get? p = some row → Fits G D db p (f row).toFsMeta (db.keysAt p)) :
    EntryInv G D (endState (Dbvm.updateFs p f) db) := by
  unfold endState
  rcases hx : Dbvm.updateFs p f db with ⟨v, db'⟩ | ⟨e, db'⟩
  · rcases updateFs_ok hx with ⟨-, rfl⟩ | ⟨row, hrow, rfl⟩
    · exact h
    · have hget : (db.setFs p f).fs.get? p = some (f row) := by
        rw [Db.get?_setFs, if_pos rfl, hrow]
        rfl
      have honly := (rowKept_onlyAt p db).update f |>.triple db v _ (OnlyAt.refl p db) hx
      refine h.write honly rfl hget (fun _ => rfl) ?_ (hfits row hrow)
      rw [hf]
      exact h.inline p row hrow
  · rw [statement_error hx]
    exact h

omit [DecidableEq K] in
/-- A file has a new size and time and is marked. -/
theorem EntryInv.resized {size : ℕ} (h : EntryInv G D db) (hr : Resized p size mtime db db')
    (hfits : ∀ row, db.fs.get? p = some row → row.kind = .file →
      D p { row with size := size, mtime := mtime }.toFsMeta (db'.keysAt p)) :
    EntryInv G D db' := by
  obtain ⟨row, hrow, hkind, hrow'⟩ := hr.row
  refine h.at hr.only (fun hnone => ?_) fun row₁ hrow₁ => ?_
  · rw [hrow'] at hnone
    cases hnone
  · rw [hrow'] at hrow₁
    cases hrow₁
    exact ⟨h.inline p row hrow, fun hn => absurd hr.mark hn, fun _ => hfits row hrow hkind⟩

/-- The hash of a marked file is computed. -/
theorem EntryInv.keeps_finalizeFile
    (hfin : ∀ db row whole, EntryInv G D db → db.fs.get? p = some row →
      D p row.toFsMeta (db.keysAt p) → wholeFileHash E p row.size db = .ok whole db →
      G p { row with hash := .key whole }.toFsMeta (db.keysAt p)) :
    Keeps (EntryInv G D) (Dbvm.finalizeFile E p) := by
  intro db h
  unfold endState
  -- The hash is the one of the whole content, which is what the invariant asks of a row without a
  -- mark.
  rcases hx : Dbvm.finalizeFile E p db with ⟨b, db'⟩ | ⟨e, db'⟩
  · rcases finalizeFile_cases hx with ⟨-, rfl⟩ | ⟨hp, row, whole, hrow, hhash, rfl⟩
    · exact h
    · have hget : (db.setFs p fun row => { row with hash := .key whole }).fs.get? p =
          some { row with hash := .key whole } := by
        rw [Db.get?_setFs, if_pos rfl, hrow]
        rfl
      have honly : OnlyAt p db { db.setFs p (fun row => { row with hash := .key whole }) with
          dirty := db.dirty.filter (· ≠ p) } := by
        refine ⟨fun q hq => ?_, fun _ _ _ => rfl, fun q hq => ?_, ⟨rfl, rfl, rfl⟩, rfl, rfl, rfl⟩
        · exact (Db.get?_setFs p _ q).trans (if_neg hq)
        · simp [hq]
      have hunmarked : p ∉ db.dirty.filter (· ≠ p) := by simp
      refine h.at honly (fun hnone => ?_) fun row' hrow' => ?_
      · exact absurd (hget.symm.trans hnone) (by simp)
      · have he : { row with hash := .key whole } = row' := Option.some.inj (hget.symm.trans hrow')
        subst he
        exact ⟨h.inline p row hrow,
          fun _ => hfin db row whole h hrow (h.marked p row hrow hp) hhash,
          fun hin => absurd hin hunmarked⟩
  · rw [finalizeFile_error hx]
    exact h

end Writers

end Dbvm
