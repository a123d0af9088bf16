import Dbvm.Lib.Journal
import Dbvm.Undo.Capture

/-!
# Applying an undo record

`undo_apply` as an undo log (`Dbvm.Lib.Journal`): a database gives every path an entry, which is the
copied columns of its row and its chunk list, and a record gives the old entry of some paths.
Applying a record always returns, and what the database then gives is the record put over what it
gave before.
-/

namespace Dbvm

open Lib Lib.Prog Lib.Journal

variable {K : Type} [DecidableEq K]

/-- What a path holds: the columns that records copy, and the chunk list. `none` when it has no row.
-/
abbrev Entry (K : Type) := Option (FsMeta K × (ℕ → Option K))

/-- The entry of a path. -/
def Db.entry (db : Db K) : Str → Entry K := fun p =>
  (db.fs.get? p).map fun row => (row.toFsMeta, fun i => db.chunks.get? (p, i))

/-- The entries of a record. -/
def Db.record (db : Db K) (id : ℕ) : Rec Str (Entry K) := fun p =>
  (db.undoFs.get? (id, p)).map fun m => m.map fun m => (m, fun i => db.undoChunks.get? (id, p, i))

section Lists

variable {db db' : Db K} {id : ℕ} {P : Str → Prop}

omit [DecidableEq K] in
/-- A record says nothing of a path without an entry. -/
theorem Db.record_eq_none {p : Str} : db.record id p = none ↔ db.undoFs.get? (id, p) = none := by
  unfold Db.record
  rw [Option.map_eq_none_iff]

/-! ## Rows out -/

/-- The rows of a list of paths are deleted, one after the other. -/
theorem deleteRows_total {β : Type} : ∀ (l : List (Str × β)) {db : Db K}, RefOk db → db.Unpoliced →
    ∃ db', (l.forM fun r => deleteFs fun q => q = r.1) db = .ok () db' ∧
      Touched (fun q => (∃ r ∈ l, r.1 = q) ∧ db.fs.get? q ≠ none) db db' ∧
      (∀ q, (∃ r ∈ l, r.1 = q) → db'.fs.get? q = none) ∧ db'.bypass = db.bypass
  | [], db, h, _ => by
    refine ⟨db, rfl, ?_, by simp, rfl⟩
    exact (Touched.refl h).mono (fun _ hq => hq.elim) fun q hq => by simp at hq
  | r :: l, db, h, hu => by
    -- By induction on the list: the triggers of each deletion drop the chunks of its row.
    have hdel := deleteFs_of_unpoliced hu fun q => q = r.1
    have ht := touched_deleteFs h hdel
    have hu' : (db.delFs fun q => q = r.1).Unpoliced := hu.of_eq rfl rfl
    obtain ⟨db', hrun, ht', hgone, hby⟩ := deleteRows_total l ht.inv.refOk hu'
    have hget : ∀ q, (db.delFs fun q => q = r.1).fs.get? q =
        if q = r.1 then none else db.fs.get? q := by
      intro q
      rw [Db.get?_delFs]
      simp
    refine ⟨db', ?_, (ht.trans ht').mono ?_ ?_, ?_, hby⟩
    · rw [List.forM_eq_forM, List.forM_cons, bind_of_ok hdel]
      exact hrun
    · rintro q (⟨hq, hrow⟩ | ⟨⟨r', hr', rfl⟩, hrow⟩)
      · exact ⟨⟨r, by simp, (of_decide_eq_true hq).symm⟩, hrow⟩
      · refine ⟨⟨r', by simp [hr'], rfl⟩, fun hnone => hrow ?_⟩
        rw [hget, hnone, ite_self]
    · intro q hq _ hnone
      exact absurd hnone hq.2
    · rintro q ⟨r', hr', rfl⟩
      rcases List.mem_cons.1 hr' with rfl | hr'
      · by_cases hl : ∃ r'' ∈ l, r''.1 = r'.1
        · exact hgone _ hl
        · rw [ht'.fs _ fun hq => hl hq.1, hget, if_pos rfl]
      · exact hgone _ ⟨r', hr', rfl⟩

/-! ## Rows in -/

/-- Chunk rows are added: free places, and blobs that a record refers to. -/
theorem insertChunks_total {db₀ : Db K} : ∀ {l : List ((Str × ℕ) × K)} {d : Db K},
    RefInv P db₀ NoBlob d → d.Unpoliced → (l.map Prod.fst).Nodup →
      (∀ r ∈ l, P r.1.1 ∧ d.chunks.get? r.1 = none ∧ ∃ x, db₀.undoChunks.get? x = some r.2) →
      ∃ d', l.foldlM Db.insertChunk? d = .ok d' ∧ RefInv P db₀ NoBlob d' ∧ d'.fs = d.fs ∧
        d'.undo = d.undo ∧ d'.undoFs = d.undoFs ∧ d'.bypass = d.bypass ∧ d'.dirty = d.dirty ∧
        ∀ x k, d'.chunks.get? x = some k ↔ d.chunks.get? x = some k ∨ ∃ r ∈ l, x = r.1 ∧ k = r.2
  | [], d, h, _, _, _ => ⟨d, rfl, h, rfl, rfl, rfl, rfl, rfl, by simp⟩
  | r :: l, d, h, hu, hnd, hl => by
    rw [List.map_cons, List.nodup_cons] at hnd
    obtain ⟨hP, hfree, x, hx⟩ := hl r (by simp)
    -- The record's own row keeps the blob.
    have hrow : d.undoChunks.get? x = some r.2 := by
      rw [h.kept.undos]
      exact hx
    obtain ⟨c, hc⟩ := h.kept.exact.get?_of_pos (Db.refs_pos_of_undo hrow)
    have hstep : d.insertChunk? r = .ok (d.addChunk r.1.1 r.1.2 r.2) := by
      rw [Db.insertChunk?, hu.refusesPath, if_neg (by simp), Table.has_eq_false.2 hfree,
        if_neg (by simp)]
    have hget : ∀ y, (d.addChunk r.1.1 r.1.2 r.2).chunks.get? y =
        if y = r.1 then some r.2 else d.chunks.get? y := by
      intro y
      rw [Db.addChunk, Table.get?_insertIgnore, hfree]
      rfl
    have hinv : RefInv P db₀ NoBlob (d.addChunk r.1.1 r.1.2 r.2) :=
      (h.addChunk hP hfree hc).mono fun _ hk => hk.1
    obtain ⟨d', hrun, hinv', hfs, hun, hunfs, hby, hdi, hiff⟩ := insertChunks_total (l := l) hinv
      (hu.of_eq rfl rfl) hnd.2 fun r' hr' => by
        obtain ⟨hP', hfree', hx'⟩ := hl r' (by simp [hr'])
        refine ⟨hP', ?_, hx'⟩
        rw [hget, if_neg, hfree']
        intro he
        exact hnd.1 (List.mem_map.2 ⟨r', hr', he⟩)
    refine ⟨d', ?_, hinv', hfs, hun, hunfs, hby, hdi, fun y k => ?_⟩
    · rw [List.foldlM_cons, hstep]
      exact hrun
    · rw [hiff, hget]
      split_ifs with hy
      · subst hy
        simp only [List.mem_cons, exists_eq_or_imp, Option.some.injEq, hfree, true_and]
        constructor
        · rintro (hk | hk)
          · exact Or.inr (Or.inl hk.symm)
          · exact Or.inr (Or.inr hk)
        · rintro (hk | hk | hk)
          · cases hk
          · exact Or.inl hk.symm
          · exact Or.inr hk
      · simp only [List.mem_cons, exists_eq_or_imp, hy, false_and, false_or]

end Lists

/-! ## The record put back -/

section Apply

variable {db db₀ d d' : Db K} {id : ℕ}

/-- A path that the record has a row for has chunks only with a row. -/
def Db.Frees (db : Db K) (id : ℕ) : Prop := ∀ p m, db.undoFs.get? (id, p) = some (some m) →
  db.fs.get? p = none → ∀ i, db.chunks.get? (p, i) = none

/-- Between the two loops of `undo_apply`, and in the second: the rows of the record are out, and
those of `done` are back. -/
structure Undoing (id : ℕ) (db₀ : Db K) (done : List Str) (d : Db K) : Prop where
  /-- The chunks and the blobs. -/
  inv : RefInv (fun p => db₀.undoFs.get? (id, p) ≠ none) db₀ NoBlob d
  /-- The records. -/
  undo : d.undo = db₀.undo
  /-- Their entries. -/
  undoFs : d.undoFs = db₀.undoFs
  /-- No policy is in force. -/
  bypass : d.bypass = true
  /-- No new dirty mark. -/
  dirty : ∀ p ∈ d.dirty, p ∈ db₀.dirty
  /-- The rows. -/
  fs : ∀ p, d.fs.get? p = match db₀.undoFs.get? (id, p) with
    | none => db₀.fs.get? p
    | some m => if p ∈ done then m.map FsMeta.toRow else none
  /-- The chunks of the rows of the record. -/
  chunks : ∀ p m, db₀.undoFs.get? (id, p) = some (some m) → ∀ i,
    d.chunks.get? (p, i) = if p ∈ done then db₀.undoChunks.get? (id, p, i) else none
  /-- Chunks without a row have been there before. -/
  orphans : ∀ p, db₀.undoFs.get? (id, p) = some none → ∀ i,
    d.chunks.get? (p, i) = if db₀.fs.get? p = none then db₀.chunks.get? (p, i) else none

omit [DecidableEq K] in
/-- The copied chunk rows of a path are those of the record. -/
theorem mem_undoRows {p : Str} {r : (Str × ℕ) × K} :
    r ∈ (db.undoChunks.select fun c _ => c.1 = id && c.2.1 = p).map (fun c => (c.1.2, c.2)) ↔
      r.1.1 = p ∧ db.undoChunks.get? (id, r.1) = some r.2 := by
  rw [List.mem_map]
  constructor
  · rintro ⟨⟨⟨id', q, i⟩, k⟩, hc, rfl⟩
    rw [Table.select, List.mem_filter] at hc
    simp only [Bool.and_eq_true, decide_eq_true_eq] at hc
    obtain ⟨hrow, rfl, rfl⟩ := hc
    exact ⟨rfl, Table.get?_eq_some_iff.2 hrow⟩
  · rintro ⟨rfl, hk⟩
    refine ⟨((id, r.1), r.2), ?_, rfl⟩
    rw [Table.select, List.mem_filter]
    exact ⟨Table.get?_eq_some_iff.1 hk, by simp⟩

omit [DecidableEq K] in
/-- No two of them have the same place. -/
theorem nodup_undoRows (db : Db K) (id : ℕ) (p : Str) :
    (((db.undoChunks.select fun c _ => c.1 = id && c.2.1 = p).map
      fun c => (c.1.2, c.2)).map Prod.fst).Nodup := by
  rw [List.map_map]
  have hkeys : ((db.undoChunks.select fun c _ => c.1 = id && c.2.1 = p).map Prod.fst).Nodup :=
    db.undoChunks.nodup.sublist (List.filter_sublist.map _)
  refine List.Nodup.map_on ?_ (List.Nodup.of_map _ hkeys)
  intro c hc c' hc' he
  rw [Table.select, List.mem_filter] at hc hc'
  simp only [Bool.and_eq_true, decide_eq_true_eq] at hc hc'
  -- Both keys begin with the id of the record.
  have hkey : c.1 = c'.1 := Prod.ext (hc.2.1.trans hc'.2.1.symm) he
  have hval : some c.2 = some c'.2 := by
    rw [← Table.get?_eq_some_iff.2 hc.1, ← Table.get?_eq_some_iff.2 hc'.1, hkey]
  exact Prod.ext hkey (Option.some.inj hval)

/-- One more path is put back. -/
theorem Undoing.put {done : List Str} {p : Str} {m : Option (FsMeta K)}
    (h : Undoing id db₀ done d) (hp : p ∉ done) (hm : db₀.undoFs.get? (id, p) = some m) :
    ∃ d', undoPut id (p, m) d = .ok () d' ∧ Undoing id db₀ (p :: done) d' := by
  -- An entry without metadata records that the path was free; otherwise its row and its chunks
  -- are put back.
  rcases m with _ | m
  · refine ⟨d, rfl, h.inv, h.undo, h.undoFs, h.bypass, h.dirty, fun q => ?_, fun q m hq => ?_,
      h.orphans⟩
    · rw [h.fs]
      rcases eq_or_ne q p with rfl | hqp
      · rw [hm]
        simp
      · simp [hqp]
    · have hqp : q ≠ p := by
        rintro rfl
        rw [hm] at hq
        cases hq
      intro i
      rw [h.chunks q m hq]
      simp [hqp]
  · have hu : d.Unpoliced := Or.inl h.bypass
    have hfree : d.fs.get? p = none := by
      rw [h.fs, hm]
      exact if_neg hp
    have hins := insertFs_of_unpoliced hu m.toRow hfree
    have hinv : RefInv (fun p => db₀.undoFs.get? (id, p) ≠ none) db₀ NoBlob (d.addFs p m.toRow) :=
      h.inv.addFs p rfl
    have hun : (d.addFs p m.toRow).undoChunks = db₀.undoChunks := hinv.kept.undos
    obtain ⟨d', hrun, hinv', hfs, hundo, hundoFs, hby, hdi, hiff⟩ := insertChunks_total
      (l := (db₀.undoChunks.select fun c _ => c.1 = id && c.2.1 = p).map fun c => (c.1.2, c.2))
      hinv (hu.of_eq rfl rfl) (nodup_undoRows db₀ id p) fun r hr => by
        obtain ⟨rfl, hk⟩ := mem_undoRows.1 hr
        refine ⟨by rw [hm]; simp, ?_, _, hk⟩
        have hnone := h.chunks r.1.1 m hm r.1.2
        rw [if_neg hp] at hnone
        exact hnone
    have hrow : ∀ q, (d.addFs p m.toRow).fs.get? q =
        if q = p then some m.toRow else d.fs.get? q := by
      intro q
      rw [Db.addFs, Table.get?_insertIgnore, hfree]
      rfl
    have hchunk : ∀ q i, d'.chunks.get? (q, i) =
        if q = p then db₀.undoChunks.get? (id, p, i) else d.chunks.get? (q, i) := by
      intro q i
      apply Option.ext
      intro k
      rw [hiff]
      have hnone : d.chunks.get? (p, i) = none := by
        rw [h.chunks p m hm, if_neg hp]
      split_ifs with hq
      · subst hq
        show d.chunks.get? (q, i) = some k ∨ _ ↔ _
        rw [hnone]
        constructor
        · rintro (hx | ⟨r, hr, hx, rfl⟩)
          · cases hx
          · rw [hx]
            exact (mem_undoRows.1 hr).2
        · intro hk
          exact Or.inr ⟨((q, i), k), mem_undoRows.2 ⟨rfl, hk⟩, rfl, rfl⟩
      · constructor
        · rintro (hx | ⟨r, hr, hx, rfl⟩)
          · exact hx
          · exact absurd ((congrArg Prod.fst hx).trans (mem_undoRows.1 hr).1) hq
        · exact Or.inl
    refine ⟨d', ?_, hinv', hundo.trans h.undo, hundoFs.trans h.undoFs, hby.trans h.bypass,
      by rw [hdi]; exact h.dirty, fun q => ?_, fun q m' hq i => ?_, fun q hq i => ?_⟩
    · show (insertFs p m.toRow >>= fun _ => _) d = _
      rw [bind_of_ok hins, reads_bind, hun]
      exact statement_of_ok hrun
    · rw [hfs, hrow, h.fs]
      rcases eq_or_ne q p with rfl | hqp
      · rw [if_pos rfl, hm]
        simp
      · simp [hqp]
    · rw [hchunk]
      rcases eq_or_ne q p with rfl | hqp
      · simp
      · rw [if_neg hqp, h.chunks q m' hq]
        simp [hqp]
    · have hqp : q ≠ p := by
        rintro rfl
        rw [hm] at hq
        cases hq
      rw [hchunk, if_neg hqp, h.orphans q hq]

/-- By induction on the entries, the second loop puts every path back. -/
theorem Undoing.putAll : ∀ (l : List (Str × Option (FsMeta K))) {done : List Str} {d : Db K},
    Undoing id db₀ done d → (l.map Prod.fst).Nodup → (∀ r ∈ l, r.1 ∉ done) →
      (∀ r ∈ l, db₀.undoFs.get? (id, r.1) = some r.2) →
      ∃ d', l.forM (undoPut id) d = .ok () d' ∧
        Undoing id db₀ ((l.map Prod.fst).reverse ++ done) d'
  | [], done, d, h, _, _, _ => ⟨d, rfl, h⟩
  | r :: l, done, d, h, hnd, hnew, hl => by
    rw [List.map_cons, List.nodup_cons] at hnd
    obtain ⟨d₁, hput, h₁⟩ := h.put (hnew r (by simp)) (hl r (by simp))
    obtain ⟨d', hrun, h'⟩ := h₁.putAll l hnd.2 (fun r' hr' => by
      rw [List.mem_cons, not_or]
      exact ⟨fun he => hnd.1 (List.mem_map.2 ⟨r', hr', he⟩), hnew r' (by simp [hr'])⟩)
      fun r' hr' => hl r' (by simp [hr'])
    refine ⟨d', ?_, ?_⟩
    · rw [List.forM_eq_forM, List.forM_cons, bind_of_ok hput]
      exact hrun
    · rw [List.map_cons, List.reverse_cons, List.append_assoc]
      exact h'

omit [DecidableEq K] in
/-- The rows of a record are its entries, in any order. -/
theorem mem_record_rows (le : Str × Option (FsMeta K) → Str × Option (FsMeta K) → Bool)
    {r : Str × Option (FsMeta K)} :
    r ∈ ((db.undoFs.select fun c _ => c.1 = id).map fun c => (c.1.2, c.2)).insertionSort
      (fun a b => le a b) ↔ db.undoFs.get? (id, r.1) = some r.2 := by
  rw [(List.perm_insertionSort _ _).mem_iff, List.mem_map]
  constructor
  · rintro ⟨⟨⟨id', p⟩, m⟩, hc, rfl⟩
    rw [Table.select, List.mem_filter, decide_eq_true_eq] at hc
    obtain ⟨hrow, rfl⟩ := hc
    exact Table.get?_eq_some_iff.2 hrow
  · intro hr
    refine ⟨((id, r.1), r.2), ?_, rfl⟩
    rw [Table.select, List.mem_filter]
    exact ⟨Table.get?_eq_some_iff.1 hr, by simp⟩

omit [DecidableEq K] in
/-- They name each path once. -/
theorem nodup_record_rows (le : Str × Option (FsMeta K) → Str × Option (FsMeta K) → Bool) :
    ((((db.undoFs.select fun c _ => c.1 = id).map fun c => (c.1.2, c.2)).insertionSort
      fun a b => le a b).map Prod.fst).Nodup := by
  rw [((List.perm_insertionSort _ _).map Prod.fst).nodup_iff, List.map_map]
  have hkeys : ((db.undoFs.select fun c _ => c.1 = id).map Prod.fst).Nodup :=
    db.undoFs.nodup.sublist (List.filter_sublist.map _)
  refine List.Nodup.map_on ?_ (List.Nodup.of_map _ hkeys)
  intro c hc c' hc' he
  rw [Table.select, List.mem_filter, decide_eq_true_eq] at hc hc'
  have hkey : c.1 = c'.1 := Prod.ext (hc.2.trans hc'.2.symm) he
  have hval : some c.2 = some c'.2 := by
    rw [← Table.get?_eq_some_iff.2 hc.1, ← Table.get?_eq_some_iff.2 hc'.1, hkey]
  exact Prod.ext hkey (Option.some.inj hval)

/-- What `undo_apply` does: the old entries are put over those of the database. -/
structure Undid (id : ℕ) (db db' : Db K) : Prop where
  /-- The chunks and the blobs. -/
  inv : RefInv (fun p => db.undoFs.get? (id, p) ≠ none) db NoBlob db'
  /-- The records. -/
  undo : db'.undo = db.undo
  /-- Their entries. -/
  undoFs : db'.undoFs = db.undoFs
  /-- No new dirty mark. -/
  dirty : ∀ p ∈ db'.dirty, p ∈ db.dirty
  /-- The entries of the paths. -/
  entry : db'.entry = Journal.undo (db.record id) db.entry
  /-- Chunks without a row have been there before. -/
  orphans : ∀ p, db'.fs.get? p = none → ∀ i, db'.chunks.get? (p, i) =
    if db.fs.get? p = none then db.chunks.get? (p, i) else none

/-- When every entry of a record is undone, the record is. -/
theorem Undoing.undid {done : List Str} (h : Undoing id db done d)
    (hdone : ∀ p m, db.undoFs.get? (id, p) = some m → p ∈ done) :
    Undid id db { d with bypass := false } where
  inv := h.inv.of_fs h.inv.kept.inline rfl rfl rfl rfl rfl
  undo := h.undo
  undoFs := h.undoFs
  dirty := h.dirty
  -- Path by path: one outside of the record is as it was, one inside has been put back.
  entry := by
    funext p
    show (d.fs.get? p).map _ = _
    rcases hm : db.undoFs.get? (id, p) with _ | m
    · rw [undo_of_none (Db.record_eq_none.2 hm), h.fs, hm]
      dsimp only
      have hch : ∀ i, d.chunks.get? (p, i) = db.chunks.get? (p, i) := fun i =>
        h.inv.kept.chunks p i fun hne => hne hm
      simp only [Db.entry, hch]
    · have hp : p ∈ done := hdone p m hm
      have hrec : db.record id p =
          some (m.map fun m => (m, fun i => db.undoChunks.get? (id, p, i))) := by
        rw [Db.record, hm]
        rfl
      rw [undo_of_some hrec, h.fs, hm]
      dsimp only
      rw [if_pos hp]
      rcases m with _ | m
      · rfl
      · have hch : ∀ i, d.chunks.get? (p, i) = db.undoChunks.get? (id, p, i) := by
          intro i
          rw [h.chunks p m hm, if_pos hp]
        simp only [Option.map_some, hch]
        rfl
  orphans := by
    intro p hnone i
    rcases hm : db.undoFs.get? (id, p) with _ | m
    · have hrow : db.fs.get? p = none := by
        have hfs := h.fs p
        rw [hm] at hfs
        exact hfs.symm.trans hnone
      rw [if_pos hrow]
      exact h.inv.kept.chunks p i fun hne => hne hm
    · rcases m with _ | m
      · exact h.orphans p hm i
      · have hfs := h.fs p
        rw [hm] at hfs
        dsimp only at hfs
        rw [if_pos (hdone p _ hm)] at hfs
        cases hfs.symm.trans hnone

/-- After the first loop no path of the record has a row. -/
theorem Undoing.start (hfree : db.Frees id)
    (ht : Touched (fun q => db.undoFs.get? (id, q) ≠ none ∧ db.fs.get? q ≠ none)
      { db with bypass := true } d)
    (hgone : ∀ q, db.undoFs.get? (id, q) ≠ none → d.fs.get? q = none) (hby : d.bypass = true) :
    Undoing id db [] d where
  inv := by
    have hinv := ht.inv.weaken (Q := fun q => db.undoFs.get? (id, q) ≠ none) fun _ hq => hq.1
    exact ⟨⟨hinv.kept.exact, hinv.kept.inline, hinv.kept.dicts, hinv.kept.chunks, hinv.kept.vals,
      hinv.kept.snaps, hinv.kept.undos, hinv.kept.saved⟩, hinv.tight⟩
  undo := ht.undo
  undoFs := ht.undoFs
  bypass := hby
  dirty := ht.dirty
  fs := by
    intro p
    rcases hm : db.undoFs.get? (id, p) with _ | m
    · exact ht.fs p fun hp => hp.1 hm
    · exact hgone p (by rw [hm]; simp)
  -- A path of the record has lost its chunks with its row; any other one keeps what it has.
  chunks := by
    intro p m hm i
    have hne : db.undoFs.get? (id, p) ≠ none := by rw [hm]; simp
    rw [if_neg (by simp)]
    by_cases hrow : db.fs.get? p = none
    · rw [ht.inv.kept.chunks p i fun hp => hp.2 hrow]
      exact hfree p m hm hrow i
    · exact ht.clean p ⟨hne, hrow⟩ (hgone p hne) i
  orphans := by
    intro p hm i
    have hne : db.undoFs.get? (id, p) ≠ none := by rw [hm]; simp
    split_ifs with hrow
    · exact ht.inv.kept.chunks p i fun hp => hp.2 hrow
    · exact ht.clean p ⟨hne, hrow⟩ (hgone p hne) i

/-- A record can always be applied. -/
theorem undoApply_total (h : RefOk db) (hfree : db.Frees id) :
    ∃ db', undoApply id db = .ok () db' ∧ Undid id db db' := by
  obtain ⟨d₀, hd₀⟩ : ∃ d₀ : Db K, d₀ = { db with bypass := true } := ⟨_, rfl⟩
  have h₀ : RefOk d₀ := by
    rw [hd₀]
    exact h.setBypass true
  obtain ⟨rows, hrows⟩ : ∃ rows, rows =
      ((d₀.undoFs.select fun c _ => c.1 = id).map fun r => (r.1.2, r.2)).insertionSort fun a b =>
        (sqlLength b.1 < sqlLength a.1 ||
          (sqlLength a.1 = sqlLength b.1 && decide (a.1 ≤ b.1)) : Bool) :=
    ⟨_, rfl⟩
  have hmem : ∀ r, r ∈ rows ↔ db.undoFs.get? (id, r.1) = some r.2 := by
    intro r
    rw [hrows, mem_record_rows _, hd₀]
  have hnd : (rows.map Prod.fst).Nodup := by
    rw [hrows]
    exact nodup_record_rows _
  -- The rows of the record go out.
  obtain ⟨d₁, hdel, ht, hgone, hby⟩ := deleteRows_total rows h₀ (Or.inl (by rw [hd₀]))
  have hin : ∀ q, (∃ r ∈ rows, r.1 = q) ↔ db.undoFs.get? (id, q) ≠ none := by
    intro q
    rw [Option.ne_none_iff_exists']
    constructor
    · rintro ⟨r, hr, rfl⟩
      exact ⟨r.2, (hmem r).1 hr⟩
    · rintro ⟨m, hm⟩
      exact ⟨(q, m), (hmem _).2 hm, rfl⟩
  have hstart : Undoing id db [] d₁ := by
    simp only [hin, hd₀] at ht hgone hby
    exact Undoing.start hfree ht hgone hby
  -- They come back.
  obtain ⟨d₂, hput, h₂⟩ := hstart.putAll rows.reverse
    (by rw [List.map_reverse, List.nodup_reverse]; exact hnd) (by simp)
    fun r hr => (hmem r).1 (List.mem_reverse.1 hr)
  refine ⟨{ d₂ with bypass := false }, ?_, h₂.undid fun p m hm => ?_⟩
  · unfold undoApply withBypass
    have hbody : (inSavepoint (do
        let rows ← Prog.reads fun db =>
          ((db.undoFs.select fun c _ => c.1 = id).map fun r => (r.1.2, r.2)).insertionSort
            fun a b =>
            (sqlLength b.1 < sqlLength a.1 ||
              (sqlLength a.1 = sqlLength b.1 && decide (a.1 ≤ b.1)) : Bool)
        rows.forM fun r => deleteFs fun q => q = r.1
        rows.reverse.forM (undoPut id))) d₀ = .ok () d₂ := by
      refine inSavepoint_of_ok ?_
      rw [reads_bind, ← hrows, bind_of_ok hdel]
      exact hput
    rw [hd₀] at hbody
    rw [hbody]
  · rw [List.append_nil, List.mem_reverse, List.mem_map]
    exact ⟨(p, m), List.mem_reverse.2 ((hmem _).2 hm), rfl⟩

end Apply

/-! ## What an exact record gives back -/

section Exact

variable {E : Ext K} {db db₀ db' : Db K} {id : ℕ}

/-- An exact record leads back to the tree it is exact for. -/
theorem Recorded.undo_record (h : Recorded id db₀ db) :
    Journal.undo (db.record id) db.entry = db₀.entry := by
  funext p
  rcases hm : db.undoFs.get? (id, p) with _ | m
  · obtain ⟨hfs, hch⟩ := h.kept p hm
    rw [undo_of_none (Db.record_eq_none.2 hm)]
    simp only [Db.entry, hfs, hch]
  · have hrec : db.record id p =
        some (m.map fun m => (m, fun i => db.undoChunks.get? (id, p, i))) := by
      rw [Db.record, hm]
      rfl
    rw [undo_of_some hrec, h.entry p m hm]
    rcases hrow : db₀.fs.get? p with _ | row
    · rw [Db.entry, hrow]
      rfl
    · have hch : ∀ i, db.undoChunks.get? (id, p, i) = db₀.chunks.get? (p, i) := by
        intro i
        rw [h.chunks, hm, if_neg (by simp), hrow]
        rfl
      rw [Db.entry, hrow]
      simp only [Option.map_some, hch]

/-- A recorded state can be put back: each entry's path is free for it. -/
theorem Recorded.frees (h : Recorded id db₀ db) : db.Frees id := by
  intro p m hm hnone
  have hm' := h.entry p (some m) hm
  intro i
  refine (h.orphans p i hnone).resolve_right fun horphan => ?_
  rw [horphan.1] at hm'
  cases hm'

/-- The same entry, the same dictionaries and the same blobs give the same bytes. -/
theorem fileBytes_congr {p : Str} (he : db'.entry p = db.entry p) (hd : db'.dicts = db.dicts)
    (hv : ∀ i k, db.fs.get? p ≠ none → db.chunks.get? (p, i) = some k →
      (db'.blobs.get? k).map (fun c => c.val) = (db.blobs.get? k).map fun c => c.val) :
    fileBytes E db' p = fileBytes E db p := by
  unfold Db.entry at he
  rcases hrow : db.fs.get? p with _ | row
  · rw [hrow, Option.map_none, Option.map_eq_none_iff] at he
    rw [fileBytes, fileBytes, hrow, he]
  · rw [hrow] at he
    obtain ⟨row', hrow', heq⟩ := Option.map_eq_some_iff.1 he
    obtain ⟨hmeta, hch⟩ := Prod.mk.inj heq
    have hlist : db'.chunkList p = db.chunkList p :=
      Db.chunkList_congr fun i => congrFun hch i
    have hrows : ((db'.chunkList p).filterMap fun r =>
        (db'.blobs.get? r.2).map fun c => (r.1, r.2, c.val)) = (db.chunkList p).filterMap fun r =>
        (db.blobs.get? r.2).map fun c => (r.1, r.2, c.val) := by
      rw [hlist]
      refine List.filterMap_congr fun r hr => ?_
      have hval := hv r.1 r.2 (by rw [hrow]; simp) (Db.mem_chunkList.1 hr)
      have hmap := congrArg (Option.map fun v => (r.1, r.2, v)) hval
      rw [Option.map_map, Option.map_map] at hmap
      exact hmap
    have hkind : row'.kind = row.kind := congrArg FsMeta.kind hmeta
    have hsize : row'.size = row.size := congrArg FsMeta.size hmeta
    rw [fileBytes, fileBytes, hrow, hrow']
    simp only [hkind, hsize, hrows, hd]

/-- Applying an exact record gives the tree and the bytes of every file back. -/
theorem Recorded.undoApply (h : Recorded id db₀ db) (h₀ : RefOk db₀) : ∃ db',
    Dbvm.undoApply id db = .ok () db' ∧ Undid id db db' ∧ db'.entry = db₀.entry ∧
      ∀ E : Ext K, ∀ p, fileBytes E db' p = fileBytes E db₀ p := by
  obtain ⟨db', hrun, hun⟩ := undoApply_total h.refs h.frees
  have hentry : db'.entry = db₀.entry := hun.entry.trans h.undo_record
  refine ⟨db', hrun, hun, hentry, fun E p => fileBytes_congr (congrFun hentry p)
    (hun.inv.kept.dicts.trans h.dicts) fun i k hrow hk => ?_⟩
  obtain ⟨c, hc⟩ := h₀.exact.get?_of_pos (Db.refs_pos_of_chunk hk)
  obtain ⟨c', hc', hv⟩ := h.vals p i k c hrow hk hc
  have hkeep : ∃ c'', db'.blobs.get? k = some c'' ∧ c''.val = c'.val := by
    by_cases hp : db.undoFs.get? (id, p) = none
    · have hch : db.chunks.get? (p, i) = some k := ((h.kept p hp).2 i).trans hk
      exact hun.inv.kept.vals p i k c' (fun hne => hne hp) hch hc'
    · have hcopy := h.copy hp hrow hk
      refine hun.inv.kept.saved k c' ?_ hc'
      have := Table.count_pos_iff.2 ⟨_, hcopy⟩
      omega
  obtain ⟨c'', hc'', hv'⟩ := hkeep
  rw [hc, hc'']
  exact congrArg some (hv'.trans hv)

/-! ## The change list -/

/-- A change list is the difference of two trees. -/
structure SnapDiff.Between (d : SnapDiff) (old new : Db K) : Prop where
  /-- The new paths. -/
  created : ∀ p, p ∈ d.created ↔ old.fs.get? p = none ∧ new.fs.get? p ≠ none
  /-- The paths that differ in kind, hash, mode or link target. -/
  modified : ∀ p, p ∈ d.modified ↔ ∃ r r', old.fs.get? p = some r ∧ new.fs.get? p = some r' ∧
    (r.kind ≠ r'.kind ∨ r.hash ≠ r'.hash ∨ r.mode ≠ r'.mode ∨ r.linkTarget ≠ r'.linkTarget)
  /-- The paths that are gone. -/
  deleted : ∀ p, p ∈ d.deleted ↔ old.fs.get? p ≠ none ∧ new.fs.get? p = none

/-- The change list of an exact record. -/
theorem Recorded.undoDiff (h : Recorded id db₀ db) : (db.undoDiff id).Between db₀ db := by
  have hmem : ∀ (f : Str × Option (FsMeta K) → Bool) (p : Str),
      p ∈ ((((db.undoFs.select fun c _ => c.1 = id).map fun r => (r.1.2, r.2)).insertionSort
        fun a b => decide (a.1 ≤ b.1)).filter f).map Prod.fst ↔
      ∃ m, db.undoFs.get? (id, p) = some m ∧ f (p, m) = true := by
    intro f p
    rw [List.mem_map]
    constructor
    · rintro ⟨r, hr, rfl⟩
      rw [List.mem_filter, mem_record_rows fun a b => decide (a.1 ≤ b.1)] at hr
      exact ⟨r.2, hr⟩
    · rintro ⟨m, hm⟩
      refine ⟨(p, m), ?_, rfl⟩
      rw [List.mem_filter, mem_record_rows fun a b => decide (a.1 ≤ b.1)]
      exact hm
  -- A path that has changed has an entry.
  have hcap : ∀ p, db.fs.get? p ≠ db₀.fs.get? p →
      db.undoFs.get? (id, p) = some ((db₀.fs.get? p).map fun row => row.toFsMeta) := by
    intro p hne
    rcases hm : db.undoFs.get? (id, p) with _ | m
    · exact absurd (h.kept p hm).1 hne
    · rw [h.entry p m hm]
  refine ⟨fun p => ?_, fun p => ?_, fun p => ?_⟩
  · refine (hmem _ p).trans ⟨?_, ?_⟩
    · rintro ⟨m, hm, hf⟩
      simp only [Bool.and_eq_true, Option.isNone_iff_eq_none] at hf
      obtain ⟨rfl, hhas⟩ := hf
      obtain ⟨row, hrow⟩ := Table.has_eq_true.1 hhas
      exact ⟨Option.map_eq_none_iff.1 (h.entry p none hm).symm, by rw [hrow]; simp⟩
    · rintro ⟨hnone, hrow⟩
      refine ⟨_, hcap p (by rw [hnone]; exact hrow), ?_⟩
      obtain ⟨row, hrow⟩ := Option.ne_none_iff_exists'.1 hrow
      rw [hnone, Table.has_eq_true.2 ⟨row, hrow⟩]
      rfl
  · refine (hmem _ p).trans ⟨?_, ?_⟩
    · rintro ⟨m, hm, hf⟩
      rcases m with _ | m
      · cases hf
      rcases hr' : db.fs.get? p with _ | r'
      · rw [Option.any_some, hr'] at hf
        cases hf
      rw [Option.any_some, hr', Option.any_some] at hf
      obtain ⟨r, hr, hmeta⟩ := Option.map_eq_some_iff.1 (h.entry p (some m) hm).symm
      refine ⟨r, r', hr, rfl, ?_⟩
      rw [← hmeta] at hf
      simpa [FsMeta.differs, or_assoc] using hf
    · rintro ⟨r, r', hr, hr', hne⟩
      have hdiff : db.fs.get? p ≠ db₀.fs.get? p := by
        rw [hr, hr']
        rintro ⟨⟩
        simp at hne
      refine ⟨_, hcap p hdiff, ?_⟩
      rw [hr, hr']
      simpa [FsMeta.differs, or_assoc] using hne
  · refine (hmem _ p).trans ⟨?_, ?_⟩
    · rintro ⟨m, hm, hf⟩
      simp only [Bool.and_eq_true, Bool.not_eq_true', Table.has_eq_false,
        Option.isSome_iff_exists] at hf
      obtain ⟨⟨m, rfl⟩, hnone⟩ := hf
      refine ⟨fun hrow => ?_, hnone⟩
      have hm' := h.entry p (some m) hm
      rw [hrow] at hm'
      cases hm'
    · rintro ⟨hrow, hnone⟩
      refine ⟨_, hcap p (by rw [hnone]; exact hrow.symm), ?_⟩
      obtain ⟨row, hrow⟩ := Option.ne_none_iff_exists'.1 hrow
      rw [hrow, Table.has_eq_false.2 hnone]
      rfl

end Exact

end Dbvm
