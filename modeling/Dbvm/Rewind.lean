import Dbvm.Session

/-!
# Rewinding

The undo records of a database are an undo log (`Dbvm.Lib.Journal`). A command adds an exact record
on top, so the log still leads back to where every older command began; a rewind undoes the newest
records, which leaves the log as good for every command that is not newer than the one it goes back
to. For the newer ones it is not: the state is no longer the one their records were written over.
-/

namespace Dbvm

open Lib Lib.Prog Lib.Journal Lib.Posix

variable {K : Type} [DecidableEq K]

/-! ## The log of a database -/

section Log

variable {db db' : Db K}

/-- The records of a database as a log. -/
def Db.log (db : Db K) : List (ℕ × Rec Str (Entry K)) := db.undoIds.map fun id => (id, db.record id)

omit [DecidableEq K] in
/-- The records of a database are those of its table. -/
theorem Db.mem_undoIds {id : ℕ} : id ∈ db.undoIds ↔ db.undo.has id = true := by
  rw [Db.undoIds, (List.perm_insertionSort _ _).mem_iff, Table.mem_keys_iff, Table.has_eq_true]

omit [DecidableEq K] in
/-- The records come newest first. -/
theorem Db.pairwise_undoIds (db : Db K) : db.undoIds.Pairwise (fun a b => b < a) := by
  have hnd : db.undoIds.Nodup := (List.perm_insertionSort _ _).nodup_iff.2 db.undo.nodup
  have hsorted : db.undoIds.Pairwise (fun a b => b ≤ a) :=
    List.pairwise_insertionSort (fun a b : ℕ => b ≤ a) _
  exact (hsorted.and hnd).imp fun hab => lt_of_le_of_ne hab.1 hab.2.symm

omit [DecidableEq K] in
/-- The ids are determined by their order and their members. -/
theorem Db.undoIds_eq {l : List ℕ} (hl : l.Pairwise (fun a b => b < a))
    (hmem : ∀ id, id ∈ l ↔ db.undo.has id = true) : db.undoIds = l := by
  have hnd : ∀ {m : List ℕ}, m.Pairwise (fun a b => b < a) → m.Nodup := fun hm =>
    hm.imp fun hab => (ne_of_gt hab)
  have hperm : db.undoIds.Perm l := by
    refine (List.perm_ext_iff_of_nodup (hnd db.pairwise_undoIds) (hnd hl)).2 fun id => ?_
    rw [hmem, Db.mem_undoIds]
  exact List.Perm.eq_of_pairwise (fun a b _ _ hab hba => absurd hab (lt_asymm hba))
    db.pairwise_undoIds hl hperm

omit [DecidableEq K] in
/-- The entries of the log come newest first. -/
theorem Db.pairwise_log (db : Db K) : db.log.Pairwise fun e e' => e'.1 < e.1 := by
  rw [Db.log, List.pairwise_map]
  exact db.pairwise_undoIds

omit [DecidableEq K] in
/-- The records from a number on are those of the ids from it on. -/
theorem Db.since_log (u : ℕ) :
    since u db.log = (db.undoIds.filter fun i => u ≤ i).map db.record := by
  rw [since, Db.log, List.filter_map, List.map_map]
  rfl

omit [DecidableEq K] in
/-- The log depends on the records and their rows alone. -/
theorem Db.log_congr (hundo : db'.undo = db.undo) (hfs : db'.undoFs = db.undoFs)
    (hch : db'.undoChunks = db.undoChunks) : db'.log = db.log := by
  have hids : db'.undoIds = db.undoIds := by
    unfold Db.undoIds
    rw [hundo]
  unfold Db.log
  rw [hids]
  refine List.map_congr_left fun id _ => ?_
  unfold Db.record
  rw [hfs, hch]

end Log

/-! ## A new record -/

section Begin

variable {db db₁ db₂ : Db K}

/-- A database with one more record. -/
def Db.begun (db : Db K) : Db K := { db with undo := db.undo.insertIgnore (nextId db.undo) () }

omit [DecidableEq K] in
/-- `undo_begin` takes the next number. -/
theorem undoBegin_eq (db : Db K) : undoBegin db = .ok (nextId db.undo) db.begun := rfl

omit [DecidableEq K] in
/-- The new record is one more. -/
theorem Db.has_begun {id : ℕ} :
    db.begun.undo.has id = true ↔ db.undo.has id = true ∨ id = nextId db.undo := by
  show (db.undo.insertIgnore (nextId db.undo) ()).has id = true ↔ _
  rw [Table.has_eq_true, Table.get?_insertIgnore, get?_nextId]
  split_ifs with hid
  · simp [hid]
  · simp [hid, Table.has_eq_true]

/-- The new record has no entry yet. -/
theorem UndoOk.freshUndo (h : UndoOk db) : FreshUndo (nextId db.undo) db.begun where
  there := Db.has_begun.2 (Or.inr rfl)
  entries := by
    intro p
    rcases hm : db.undoFs.get? (nextId db.undo, p) with _ | m
    · exact hm
    · exact absurd (lt_nextId (h.entries _ p m hm)) (lt_irrefl _)
  chunks := by
    intro p i
    rcases hk : db.undoChunks.get? (nextId db.undo, p, i) with _ | k
    · exact hk
    · obtain ⟨m, hm⟩ := h.copies _ p i k hk
      exact absurd (lt_nextId (h.entries _ p _ hm)) (lt_irrefl _)

/-- A new record keeps the records in order. -/
theorem UndoOk.begun (h : UndoOk db) : UndoOk db.begun where
  refs := h.refs.of_fs h.refs.inline (fun _ => rfl) rfl
  entries := fun id p m hm => Db.has_begun.2 (Or.inl (h.entries id p m hm))
  copies := h.copies
  frees := h.frees

/-- After the sync of a command, the log has one more record. -/
theorem Recorded.log (h : Recorded (nextId db.undo) db.begun db₂) :
    db₂.log = (nextId db.undo, db₂.record (nextId db.undo)) :: db.log := by
  have hids : db₂.undoIds = nextId db.undo :: db.undoIds := by
    refine Db.undoIds_eq (List.pairwise_cons.2 ⟨fun id hid => ?_, db.pairwise_undoIds⟩) fun id => ?_
    · exact lt_nextId (Db.mem_undoIds.1 hid)
    · rw [h.undo, Db.has_begun, List.mem_cons, Db.mem_undoIds, or_comm]
  unfold Db.log
  rw [hids, List.map_cons]
  refine congrArg _ (List.map_congr_left fun id hid => ?_)
  have hne : id ≠ nextId db.undo := ne_of_lt (lt_nextId (Db.mem_undoIds.1 hid))
  refine congrArg (Prod.mk id) (funext fun p => ?_)
  have hfs : db₂.undoFs.get? (id, p) = db.undoFs.get? (id, p) := h.others (id, p) hne
  have hch : ∀ i, db₂.undoChunks.get? (id, p, i) = db.undoChunks.get? (id, p, i) := fun i =>
    h.otherChunks (id, p, i) hne
  simp only [Db.record, hfs, hch]

/-- The sync of a command keeps the records well formed. -/
theorem Recorded.undoOk {id : ℕ} (h : Recorded id db₁ db₂) (h₁ : UndoOk db₁) : UndoOk db₂ where
  -- The record `id` holds copies of what the tree had, the other records are those from before.
  refs := h.refs
  entries := by
    intro id' p m hm
    by_cases hid : id' = id
    · rw [hid]
      exact h.there
    · rw [h.others (id', p) hid] at hm
      rw [h.undo]
      exact h₁.entries id' p m hm
  copies := by
    intro id' p i k hk
    by_cases hid : id' = id
    · subst hid
      rw [h.chunks] at hk
      split_ifs at hk with hnone
      obtain ⟨m, hm⟩ := Option.ne_none_iff_exists'.1 hnone
      obtain ⟨row, hrow, -⟩ := Option.bind_eq_some_iff.1 hk
      have hentry := h.entry p m hm
      rw [hrow] at hentry
      exact ⟨row.toFsMeta, by rw [hm, hentry]; rfl⟩
    · rw [h.otherChunks (id', p, i) hid] at hk
      obtain ⟨m, hm⟩ := h₁.copies id' p i k hk
      exact ⟨m, (h.others (id', p) hid).trans hm⟩
  frees := by
    intro id' p m hm hnone i
    by_cases hid : id' = id
    · subst hid
      exact h.frees p m hm hnone i
    · rw [h.others (id', p) hid] at hm
      rcases h.orphans p i hnone with hch | ⟨hrow, hch⟩
      · exact hch
      · rw [hch]
        exact h₁.frees id' p m hm hrow i

end Begin

/-! ## Records applied -/

section Apply

variable {db db' : Db K} {id : ℕ}

/-- Undoing one record keeps the others in order. -/
theorem Undid.undoOk (h : Undid id db db') (hok : UndoOk db) : UndoOk db' where
  refs := h.inv.refOk
  entries := by
    rw [h.undoFs, h.undo]
    exact hok.entries
  copies := by
    rw [h.undoFs, h.inv.kept.undos]
    exact hok.copies
  frees := by
    intro id' p m hm hnone i
    rw [h.undoFs] at hm
    rw [h.orphans p hnone]
    split_ifs with hrow
    · exact hok.frees id' p m hm hrow i
    · rfl

/-- What applying some records does. -/
structure UndidAll (ids : List ℕ) (db db' : Db K) : Prop where
  /-- The records stay well formed. -/
  ok : UndoOk db'
  /-- The records are the same. -/
  undo : db'.undo = db.undo
  /-- Their entries are the same. -/
  undoFs : db'.undoFs = db.undoFs
  /-- Their chunks are the same. -/
  undoChunks : db'.undoChunks = db.undoChunks
  /-- The dictionaries are the same. -/
  dicts : db'.dicts = db.dicts
  /-- No new dirty mark. -/
  dirty : ∀ p ∈ db'.dirty, p ∈ db.dirty
  /-- The records are put over the tree. -/
  entry : db'.entry = undoAll (ids.map db.record) db.entry
  /-- A blob that a record needs, or a file that no record names, is kept. -/
  vals : ∀ k c, db.blobs.get? k = some c → ((∃ x, db.undoChunks.get? x = some k) ∨
    ∃ p i, db.chunks.get? (p, i) = some k ∧ ∀ id ∈ ids, db.undoFs.get? (id, p) = none) →
    ∃ c', db'.blobs.get? k = some c' ∧ c'.val = c.val

/-- Records can always be applied. -/
theorem undoApplyAll_total : ∀ (ids : List ℕ) {db : Db K}, UndoOk db →
    ∃ db', ids.forM undoApply db = .ok () db' ∧ UndidAll ids db db'
  | [], db, h => ⟨db, rfl, h, rfl, rfl, rfl, rfl, fun _ hp => hp, rfl, fun _ c hc _ => ⟨c, hc, rfl⟩⟩
  | id :: ids, db, h => by
    -- One record is applied, and what it leaves meets the conditions of the next.
    obtain ⟨d, happly, hd⟩ := undoApply_total h.refs (h.frees id)
    obtain ⟨db', hrun, hall⟩ := undoApplyAll_total ids (hd.undoOk h)
    have hrec : ∀ id', d.record id' = db.record id' := by
      intro id'
      unfold Db.record
      rw [hd.undoFs, hd.inv.kept.undos]
    refine ⟨db', ?_, hall.ok, hall.undo.trans hd.undo, hall.undoFs.trans hd.undoFs,
      hall.undoChunks.trans hd.inv.kept.undos, hall.dicts.trans hd.inv.kept.dicts,
      fun p hp => hd.dirty p (hall.dirty p hp), ?_, fun k c hc href => ?_⟩
    · rw [List.forM_eq_forM, List.forM_cons, bind_of_ok happly]
      exact hrun
    · have hrecs : ids.map d.record = ids.map db.record :=
        List.map_congr_left fun id' _ => hrec id'
      rw [hall.entry, hrecs, List.map_cons, undoAll_cons, ← hd.entry]
    · -- The blob survives the first record, and what refers to it is still there.
      rcases href with ⟨x, hx⟩ | ⟨p, i, hch, hnone⟩
      · have hpos : 0 < db.snapChunks.count k + db.undoChunks.count k := by
          have := Table.count_pos_iff.2 ⟨x, hx⟩
          omega
        obtain ⟨c', hc', hv⟩ := hd.inv.kept.saved k c hpos hc
        obtain ⟨c'', hc'', hv'⟩ := hall.vals k c' hc'
          (Or.inl ⟨x, by rw [hd.inv.kept.undos]; exact hx⟩)
        exact ⟨c'', hc'', hv'.trans hv⟩
      · have hne : ¬ db.undoFs.get? (id, p) ≠ none := fun hne => hne (hnone id (by simp))
        obtain ⟨c', hc', hv⟩ := hd.inv.kept.vals p i k c hne hch hc
        obtain ⟨c'', hc'', hv'⟩ := hall.vals k c' hc' (Or.inr ⟨p, i,
          (hd.inv.kept.chunks p i hne).trans hch, fun id' hid' => by
            rw [hd.undoFs]
            exact hnone id' (by simp [hid'])⟩)
        exact ⟨c'', hc'', hv'.trans hv⟩

/-- What `undo_delete` of a record does. -/
structure Dropped (id : ℕ) (db db' : Db K) : Prop where
  /-- The rows stay. -/
  fs : db'.fs = db.fs
  /-- The chunk rows stay. -/
  chunks : db'.chunks = db.chunks
  /-- The dictionaries stay. -/
  dicts : db'.dicts = db.dicts
  /-- The dirty marks stay. -/
  dirty : db'.dirty = db.dirty
  /-- The other records stay. -/
  undo : ∀ i, db'.undo.has i = true ↔ db.undo.has i = true ∧ i ≠ id
  /-- Their entries stay. -/
  undoFs : ∀ c, db'.undoFs.get? c = if c.1 = id then none else db.undoFs.get? c
  /-- Their chunks stay. -/
  undoChunks : ∀ c, db'.undoChunks.get? c = if c.1 = id then none else db.undoChunks.get? c
  /-- The counts are right. -/
  refs : RefOk db'
  /-- A blob that still has a reference is kept. -/
  vals : ∀ k c, db.blobs.get? k = some c → 0 < db'.refs k →
    ∃ c', db'.blobs.get? k = some c' ∧ c'.val = c.val

/-- A record can be deleted. -/
theorem undoDelete_total (id : ℕ) (h : RefOk db) (hid : db.undo.has id = true) :
    ∃ db', undoDelete id db = .ok () db' ∧ Dropped id db db' := by
  obtain ⟨d, hd⟩ : ∃ d : Db K, d = { db.releaseBlobs (db.undoKeys id) with
      undo := db.undo.deleteWhere fun i _ => i = id
      undoFs := db.undoFs.deleteWhere fun c _ => c.1 = id
      undoChunks := db.undoChunks.deleteWhere fun c _ => c.1 = id } := ⟨_, rfl⟩
  have hrun : undoDelete id db = .ok () d := by
    unfold undoDelete deleteUndo
    refine statement_of_ok ?_
    rw [if_pos hid, hd]
  have hrefs : ∀ k, db.refs k = d.refs k + (db.undoKeys id).count k := by
    intro k
    have := Table.count_deleteWhere db.undoChunks (fun c _ => c.1 = id) k
    rw [hd]
    simp only [Db.refs, Db.undoKeys, Db.releaseBlobs]
    omega
  -- Exact counts leave room for every reference that the record gives back.
  refine ⟨d, hrun, ?_, ?_, ?_, ?_, fun i => ?_, fun c => ?_, fun c => ?_,
    (keeps_undoDelete id).triple db () d h hrun, fun k c hc hpos => ?_⟩
  · rw [hd]
    rfl
  · rw [hd]
    rfl
  · rw [hd]
    rfl
  · rw [hd]
    rfl
  · rw [hd]
    show (db.undo.deleteWhere _).has i = true ↔ _
    rw [Table.has_eq_true, Table.get?_deleteWhere_key, Table.has_eq_true]
    by_cases hi : i = id
    · simp [hi]
    · simp [hi]
  · rw [hd]
    show (db.undoFs.deleteWhere _).get? c = _
    rw [Table.get?_deleteWhere_key]
    simp only [decide_eq_true_eq]
  · rw [hd]
    show (db.undoChunks.deleteWhere _).get? c = _
    rw [Table.get?_deleteWhere_key]
    simp only [decide_eq_true_eq]
  · have hlt : ((db.undoKeys id).count k : ℤ) < c.refcnt := by
      rw [h.exact.count k c hc, hrefs k]
      push_cast
      omega
    rw [hd]
    exact Store.releaseAll_keeps _ hc hlt

/-- Dropping one record keeps the others in order. -/
theorem Dropped.undoOk (h : Dropped id db db') (hok : UndoOk db) : UndoOk db' where
  refs := h.refs
  entries := by
    intro id' p m hm
    rw [h.undoFs] at hm
    split_ifs at hm with hid
    exact (h.undo id').2 ⟨hok.entries id' p m hm, hid⟩
  copies := by
    intro id' p i k hk
    rw [h.undoChunks] at hk
    split_ifs at hk with hid
    obtain ⟨m, hm⟩ := hok.copies id' p i k hk
    exact ⟨m, by rw [h.undoFs, if_neg hid]; exact hm⟩
  frees := by
    intro id' p m hm hnone i
    rw [h.undoFs] at hm
    split_ifs at hm
    rw [h.fs] at hnone
    rw [h.chunks]
    exact hok.frees id' p m hm hnone i

end Apply

/-! ## The way back to a command -/

section Back

variable {E : Ext K} {u v : ℕ} {db db' s : Db K}

/-- The blobs of the files of `s` are stored in `db`. -/
def Stores (s db : Db K) : Prop := db.dicts = s.dicts ∧ ∀ p i k c, s.fs.get? p ≠ none →
  s.chunks.get? (p, i) = some k → s.blobs.get? k = some c →
  ∃ c', db.blobs.get? k = some c' ∧ c'.val = c.val

/-- The records of `db` lead back to the state `s` in which the command `u` was run. -/
structure BackTo (u : ℕ) (s db : Db K) : Prop where
  /-- The tree. -/
  leads : LeadsTo u db.log db.entry s.entry
  /-- The blobs. -/
  stores : Stores s db

omit [DecidableEq K] in
/-- A record that holds the entry of a path refers to its blobs. -/
theorem Db.record_chunk {id : ℕ} {p : Str} {i : ℕ} {k : K} (h : db.record id p = some (s.entry p))
    (hrow : s.fs.get? p ≠ none) (hk : s.chunks.get? (p, i) = some k) :
    db.undoChunks.get? (id, p, i) = some k := by
  obtain ⟨row, hrow⟩ := Option.ne_none_iff_exists'.1 hrow
  have hentry : s.entry p = some (row.toFsMeta, fun i => s.chunks.get? (p, i)) := by
    rw [Db.entry, hrow]
    rfl
  obtain ⟨m, -, hm⟩ := Option.map_eq_some_iff.1 h
  rw [hentry] at hm
  obtain ⟨m', rfl, heq⟩ := Option.map_eq_some_iff.1 hm
  have hch := congrFun (Prod.mk.inj heq).2 i
  exact hch.trans hk

omit [DecidableEq K] in
/-- A live entry refers to its blobs. -/
theorem Db.live_chunk {p : Str} {i : ℕ} {k : K} (h : db.entry p = s.entry p)
    (hrow : s.fs.get? p ≠ none) (hk : s.chunks.get? (p, i) = some k) :
    db.fs.get? p ≠ none ∧ db.chunks.get? (p, i) = some k := by
  obtain ⟨row, hrow⟩ := Option.ne_none_iff_exists'.1 hrow
  have hentry : s.entry p = some (row.toFsMeta, fun i => s.chunks.get? (p, i)) := by
    rw [Db.entry, hrow]
    rfl
  rw [hentry] at h
  obtain ⟨row', hrow', heq⟩ := Option.map_eq_some_iff.1 h
  have hch := congrFun (Prod.mk.inj heq).2 i
  exact ⟨by rw [hrow']; simp, hch.trans hk⟩

omit [DecidableEq K] in
/-- What the records lead back to is referred to: by a record, or by a file that no record from `u`
on names. -/
theorem referenced (h : LeadsTo u db.log db.entry s.entry) {p : Str} {i : ℕ} {k : K}
    (hrow : s.fs.get? p ≠ none) (hk : s.chunks.get? (p, i) = some k) :
    (∃ x, db.undoChunks.get? x = some k) ∨ ((∀ r ∈ since u db.log, r p = none) ∧
      db.entry p = s.entry p ∧ db.fs.get? p ≠ none ∧ db.chunks.get? (p, i) = some k) := by
  have hval : undoAll (since u db.log) db.entry p = s.entry p := congrFun h p
  rcases undoAll_cases (since u db.log) db.entry p with ⟨r, hr, hrp⟩ | ⟨hnone, hlive⟩
  · rw [Db.since_log] at hr
    obtain ⟨id, -, rfl⟩ := List.mem_map.1 hr
    rw [hval] at hrp
    exact Or.inl ⟨_, Db.record_chunk hrp hrow hk⟩
  · rw [hval] at hlive
    have hch := Db.live_chunk hlive.symm hrow hk
    exact Or.inr ⟨hnone, hlive.symm, hch⟩

/-- A command is added to the history. -/
theorem BackTo.recorded (h : BackTo u s db) (hok : UndoOk db) (hu : u ≤ nextId db.undo)
    (hrec : Recorded (nextId db.undo) db.begun db') : BackTo u s db' where
  leads := by
    rw [hrec.log]
    exact h.leads.step hu hrec.undo_record
  stores := by
    refine ⟨hrec.dicts.trans h.stores.1, fun p i k c hrow hk hc => ?_⟩
    obtain ⟨c', hc', hv⟩ := h.stores.2 p i k c hrow hk hc
    have hkeep : ∃ c'', db'.blobs.get? k = some c'' ∧ c''.val = c'.val := by
      rcases referenced h.leads hrow hk with ⟨x, hx⟩ | ⟨-, -, hrow', hch⟩
      · -- An older record.
        obtain ⟨m, hm⟩ := hok.copies x.1 x.2.1 x.2.2 k hx
        exact hrec.saved x k c' (ne_of_lt (lt_nextId (hok.entries _ _ _ hm))) hx hc'
      · exact hrec.vals p i k c' hrow' hch hc'
    obtain ⟨c'', hc'', hv'⟩ := hkeep
    exact ⟨c'', hc'', hv'.trans hv⟩

/-- The way back to the command that has just been run. -/
theorem backTo_begun (hrec : Recorded (nextId db.undo) db.begun db') :
    BackTo (nextId db.undo) db db' where
  leads := by
    rw [hrec.log]
    refine LeadsTo.step (LeadsTo.start fun e he => ?_) (le_refl _) hrec.undo_record
    obtain ⟨id, hid, rfl⟩ := List.mem_map.1 he
    exact lt_nextId (Db.mem_undoIds.1 hid)
  stores := ⟨hrec.dicts, hrec.vals⟩

/-- A rewind that does no harm leaves the state within reach. -/
theorem BackTo.rewind (h : BackTo u s db) (hun : UndidAll (db.undoIds.filter fun i => v ≤ i) db db')
    (hv : Harmless u v db.log db.entry) : BackTo u s db' := by
  have hlog : db'.log = db.log := Db.log_congr hun.undo hun.undoFs hun.undoChunks
  have hentry : db'.entry = undoAll (since v db.log) db.entry := by
    rw [Db.since_log]
    exact hun.entry
  refine ⟨?_, hun.dicts.trans h.stores.1, fun p i k c hrow hk hc => ?_⟩
  · rw [hlog, hentry]
    exact h.leads.rewind db.pairwise_log hv
  · obtain ⟨c', hc', hval⟩ := h.stores.2 p i k c hrow hk hc
    -- The record that leads back refers to the blob, and undoing later records drops no
    -- referenced blob.
    have hkeep : ∃ c'', db'.blobs.get? k = some c'' ∧ c''.val = c'.val := by
      refine hun.vals k c' hc' ?_
      rcases referenced h.leads hrow hk with hx | ⟨hnone, hsame, -, hch⟩
      · exact Or.inl hx
      · -- The rewind leaves the path as it is: with a record of this entry, or with none at all.
        have hstay : undoAll (since v db.log) db.entry p = db.entry p := by
          rcases Nat.lt_or_ge v u with hlt | hge
          · exact hv hlt p hnone
          · obtain ⟨rest, hrest⟩ := since_split hge db.pairwise_log
            refine undoAll_of_none (fun r hr => hnone r ?_) _
            rw [hrest]
            exact List.mem_append_left _ hr
        rcases undoAll_cases (since v db.log) db.entry p with ⟨r, hr, hrp⟩ | ⟨hnone', -⟩
        · rw [Db.since_log] at hr
          obtain ⟨id, -, rfl⟩ := List.mem_map.1 hr
          rw [hstay, hsame] at hrp
          exact Or.inl ⟨_, Db.record_chunk hrp hrow hk⟩
        · refine Or.inr ⟨p, i, hch, fun id hid => Db.record_eq_none.1 (hnone' _ ?_)⟩
          rw [Db.since_log]
          exact List.mem_map_of_mem hid
    obtain ⟨c'', hc'', hval'⟩ := hkeep
    exact ⟨c'', hc'', hval'.trans hval⟩

/-- After a rewind to `u` the tree and the bytes of every file are those of `s`. -/
theorem BackTo.reached (h : BackTo u s db) (hs : RefOk s)
    (hun : UndidAll (db.undoIds.filter fun i => u ≤ i) db db') :
    db'.entry = s.entry ∧ ∀ p, fileBytes E db' p = fileBytes E s p := by
  have hentry : db'.entry = s.entry := by
    rw [hun.entry, ← Db.since_log]
    exact h.leads
  have hback : BackTo u s db' := h.rewind hun fun hlt => absurd hlt (lt_irrefl u)
  refine ⟨hentry, fun p => fileBytes_congr (congrFun hentry p) hback.stores.1
    fun i k hrow hk => ?_⟩
  obtain ⟨c, hc⟩ := hs.exact.get?_of_pos (Db.refs_pos_of_chunk hk)
  obtain ⟨c', hc', hv⟩ := hback.stores.2 p i k c hrow hk hc
  rw [hc, hc']
  exact congrArg some hv

/-- The newest record is undone and deleted: the database is as before the command. -/
theorem BackTo.dropped {d : Db K} (h : BackTo u s db) (hd : BackTo u s d)
    (hrec : Dropped (nextId db.undo) d db') (hundo : d.undo = db.begun.undo)
    (hrecords : ∀ id, id ≠ nextId db.undo → d.record id = db.record id)
    (hentry : d.entry = db.entry) :
    BackTo u s db' := by
  -- Without the session's own record the log is that from before the session.
  have hids : db'.undoIds = db.undoIds := by
    refine Db.undoIds_eq db.pairwise_undoIds fun id => ?_
    rw [hrec.undo, hundo, Db.has_begun, Db.mem_undoIds]
    constructor
    · intro hid
      exact ⟨Or.inl hid, ne_of_lt (lt_nextId hid)⟩
    · rintro ⟨hid | hid, hne⟩
      · exact hid
      · exact absurd hid hne
  have hlog : db'.log = db.log := by
    unfold Db.log
    rw [hids]
    refine List.map_congr_left fun id hid => ?_
    have hne : id ≠ nextId db.undo := ne_of_lt (lt_nextId (Db.mem_undoIds.1 hid))
    refine congrArg (Prod.mk id) ?_
    rw [← hrecords id hne]
    funext p
    simp only [Db.record, hrec.undoFs, hrec.undoChunks, hne, if_false]
  have hentry' : db'.entry = db.entry := by
    rw [← hentry]
    unfold Db.entry
    rw [hrec.fs, hrec.chunks]
  have hleads : LeadsTo u db'.log db'.entry s.entry := by
    rw [hlog, hentry']
    exact h.leads
  refine ⟨hleads, hrec.dicts.trans hd.stores.1, fun p i k c hrow hk hc => ?_⟩
  obtain ⟨c', hc', hv⟩ := hd.stores.2 p i k c hrow hk hc
  -- A blob the log or the tree refers to keeps a reference, so it survives the removal.
  have hpos : 0 < db'.refs k := by
    rcases referenced hleads hrow hk with ⟨x, hx⟩ | ⟨-, -, -, hch⟩
    · exact Db.refs_pos_of_undo hx
    · exact Db.refs_pos_of_chunk hch
  obtain ⟨c'', hc'', hv'⟩ := hrec.vals k c' hc' hpos
  exact ⟨c'', hc'', hv'.trans hv⟩

end Back

/-! ## Histories -/

section History

variable {E : Ext K} {u : ℕ} {before : List (ℕ × Db K)} {db db' : Db K}

/-- A state of a history from which the command `u` can be rewound, if its record is there. -/
structure Good (u : ℕ) (before : List (ℕ × Db K)) (db : Db K) : Prop where
  /-- The records are well formed. -/
  ok : UndoOk db
  /-- No hash is pending. -/
  dirty : db.dirty = []
  /-- The way back. -/
  back : ∀ s, before.lookup u = some s → db.undo.has u = true → BackTo u s db

/-- Without marks nothing is finished before a tree is restored. -/
theorem restoreTree_nil {c : Tx.Link (Db K)} (h : c.cur.dirty = []) :
    restoreTree E c = .ok () c := by
  unfold restoreTree
  rw [bind_of_ok (Tx.lift_of_ok (finalizeDirty_nil h))]
  rfl

/-- A history that is good for `u` in what the connection sees and in what a rollback would bring
back. -/
structure Rewindable (u : ℕ) (h : History K) : Prop where
  /-- What the connection sees. -/
  cur : Good u h.before h.link.cur
  /-- What was committed. -/
  opened : ∀ d ∈ h.link.opened, Good u h.before d
  /-- A record that was committed is still there. -/
  ids : ∀ d ∈ h.link.opened, ∀ id, d.undo.has id = true → h.link.cur.undo.has id = true
  /-- The counts were right before every command. -/
  past : ∀ e ∈ h.before, RefOk e.2

/-- The state before a command and its record, in any state with an exact record of it. -/
theorem Good.recorded (h : Good u before db) (hrec : Recorded (nextId db.undo) db.begun db') :
    Good u ((nextId db.undo, db) :: before) db' where
  ok := hrec.undoOk h.ok.begun
  dirty := by
    refine List.eq_nil_iff_forall_not_mem.2 fun p hp => ?_
    have hp' : p ∈ db.dirty := hrec.dirty p hp
    rw [h.dirty] at hp'
    cases hp'
  back := by
    intro s hs hu
    rw [List.lookup_cons] at hs
    rw [hrec.undo, Db.has_begun] at hu
    by_cases hn : u = nextId db.undo
    · subst hn
      rw [beq_self_eq_true] at hs
      cases hs
      exact backTo_begun hrec
    · rw [beq_false_of_ne hn] at hs
      have hu' : db.undo.has u = true := hu.resolve_right hn
      exact (h.back s hs hu').recorded h.ok (le_of_lt (lt_nextId hu')) hrec

/-- A state that was committed before the command. -/
theorem Good.older (h : Good u before db) {n : ℕ} {d : Db K} (hn : db.undo.has n = false) :
    Good u ((n, d) :: before) db where
  ok := h.ok
  dirty := h.dirty
  back := by
    intro s hs hu
    rw [List.lookup_cons] at hs
    have hne : u ≠ n := by
      rintro rfl
      rw [hn] at hu
      cases hu
    rw [beq_false_of_ne hne] at hs
    exact h.back s hs hu

/-- The sync of a command returns or fails, and its record is exact either way. -/
theorem Command.sync_spec (cmd : Command) (h : UndoOk db) (hd : db.dirty = [])
    (opened : List (Db K)) :
    (∃ rep d, cmd.sync E (nextId db.undo) ⟨db.begun, opened⟩ = .ok rep ⟨d, opened⟩ ∧
      Recorded (nextId db.undo) db.begun d) ∨
    ∃ e d opened', cmd.sync E (nextId db.undo) ⟨db.begun, opened⟩ = .error e ⟨d, opened'⟩ ∧
      Recorded (nextId db.undo) db.begun d ∧ (opened' = opened ∨ opened' = [db.begun]) := by
  have hrec := h.freshUndo.recorded h.begun.refs
  have hfin : finalizeDirty E db.begun = .ok 0 db.begun := finalizeDirty_nil hd
  unfold Command.sync
  -- A full sync opens its own transaction, a sync of paths runs on the connection as it is.
  split_ifs
  · unfold syncReportTx
    rw [bind_of_ok (Tx.lift_of_ok (c := ⟨db.begun, opened⟩) hfin)]
    rcases opened with _ | ⟨t, ts⟩
    · rw [Tx.bare_of_autocommit]
      have hkeep := keeps_recorded_syncBody E ⟨false, some (nextId db.undo), cmd.now⟩ rfl
        cmd.fs cmd.tree db.begun hrec
      unfold endState at hkeep
      rcases hx : syncBody E ⟨false, some (nextId db.undo), cmd.now⟩ cmd.fs cmd.tree db.begun with
        ⟨rep, d⟩ | ⟨e, d⟩
      · rw [hx] at hkeep
        exact Or.inl ⟨rep, d, rfl, hkeep⟩
      · rw [hx] at hkeep
        exact Or.inr ⟨e, d, _, rfl, hkeep, Or.inr rfl⟩
    · rw [Tx.bare_of_open (by simp)]
      exact Or.inr ⟨_, _, _, rfl, hrec, Or.inl rfl⟩
  · have hpaths : vmSyncPaths E cmd.fs cmd.tree cmd.changes.paths (some (nextId db.undo)) cmd.now
        db.begun = inSavepoint (cmd.changes.paths.foldlM (syncPath E
          ⟨false, some (nextId db.undo), cmd.now⟩ cmd.fs cmd.tree (linkAliases db.begun.links)) {})
          db.begun := by
      unfold vmSyncPaths
      rw [bind_of_ok hfin, reads_bind]
    rcases hx : vmSyncPaths E cmd.fs cmd.tree cmd.changes.paths (some (nextId db.undo)) cmd.now
        db.begun with ⟨rep, d⟩ | ⟨e, d⟩
    · rw [Tx.lift_of_ok (c := ⟨db.begun, opened⟩) hx]
      rw [hpaths] at hx
      refine Or.inl ⟨rep, d, rfl, ?_⟩
      exact (Keeps.foldlM (keeps_recorded_syncPath E rfl cmd.fs cmd.tree _) cmd.changes.paths
        {}).triple db.begun rep d hrec (savepoint_eq_ok.1 hx)
    · rw [Tx.lift_of_error (c := ⟨db.begun, opened⟩) hx]
      rw [hpaths] at hx
      rw [inSavepoint_error hx]
      exact Or.inr ⟨e, _, _, rfl, hrec, Or.inl rfl⟩

/-- Applying one record undoes its entries. -/
theorem undoApply_all (id : ℕ) (h : UndoOk db) :
    ∃ db', undoApply id db = .ok () db' ∧ Undid id db db' ∧ UndidAll [id] db db' := by
  obtain ⟨d, happly, hd⟩ := undoApply_total h.refs (h.frees id)
  obtain ⟨db', hrun, hall⟩ := undoApplyAll_total [id] h
  rw [List.forM_eq_forM, List.forM_cons, bind_of_ok happly] at hrun
  cases hrun
  exact ⟨d, happly, hd, hall⟩

/-- A rewind that does no harm leaves the command rewindable. -/
theorem Good.rewind (h : Good u before db) {v : ℕ}
    (hun : UndidAll (db.undoIds.filter fun i => v ≤ i) db db')
    (hv : db.undo.has u = true → Harmless u v db.log db.entry) : Good u before db' where
  ok := hun.ok
  dirty := by
    refine List.eq_nil_iff_forall_not_mem.2 fun p hp => ?_
    have hp' : p ∈ db.dirty := hun.dirty p hp
    rw [h.dirty] at hp'
    cases hp'
  back := by
    intro s hs hu
    rw [hun.undo] at hu
    exact (h.back s hs hu).rewind hun (hv hu)

/-- The record of a command that has just been run is the only one from it on. -/
theorem Recorded.newest (hrec : Recorded (nextId db.undo) db.begun db') :
    (db'.undoIds.filter fun i => nextId db.undo ≤ i) = [nextId db.undo] := by
  have hids : db'.undoIds = nextId db.undo :: db.undoIds := by
    have hlog := congrArg (List.map Prod.fst) hrec.log
    simpa [Db.log, List.map_map, Function.comp_def] using hlog
  rw [hids, List.filter_cons, if_pos (by simp), List.filter_eq_nil_iff.2]
  intro id hid
  have := lt_nextId (Db.mem_undoIds.1 hid)
  simp only [decide_eq_true_eq]
  omega

/-- Undoing the command that was just recorded gives the state before it. -/
theorem Good.undone (h : Good u before db) (hrec : Recorded (nextId db.undo) db.begun db') :
    ∃ d, undoApply (nextId db.undo) db' = .ok () d ∧ Undid (nextId db.undo) db' d ∧
      d.entry = db.entry ∧ Good u ((nextId db.undo, db) :: before) d := by
  have hgood := h.recorded hrec
  obtain ⟨d, happly, hun, hall⟩ := undoApply_all (nextId db.undo) hgood.ok
  refine ⟨d, happly, hun, hun.entry.trans hrec.undo_record, ?_⟩
  rw [← hrec.newest] at hall
  refine hgood.rewind hall fun hu hlt => ?_
  -- No record is newer than this one.
  rw [hrec.undo, Db.has_begun] at hu
  rcases hu with hu | rfl
  · exact absurd hlt (lt_asymm (lt_nextId hu))
  · exact absurd hlt (lt_irrefl _)

/-- The command is undone and its record deleted. -/
theorem Good.dropped (h : Good u before db) {d : Db K}
    (hrec : Recorded (nextId db.undo) db.begun db') (hun : Undid (nextId db.undo) db' d)
    (hentry : d.entry = db.entry) (hgood : Good u ((nextId db.undo, db) :: before) d) :
    ∃ d', undoDelete (nextId db.undo) d = .ok () d' ∧
      (∀ id, d'.undo.has id = true ↔ db.undo.has id = true) ∧
      Good u ((nextId db.undo, db) :: before) d' := by
  have hundo : d.undo = db.begun.undo := hun.undo.trans hrec.undo
  obtain ⟨d', hdel, hdrop⟩ := undoDelete_total (nextId db.undo) hgood.ok.refs
    (by rw [hundo]; exact Db.has_begun.2 (Or.inr rfl))
  have hids : ∀ id, d'.undo.has id = true ↔ db.undo.has id = true := by
    intro id
    rw [hdrop.undo, hundo, Db.has_begun]
    constructor
    · rintro ⟨hid | hid, hne⟩
      · exact hid
      · exact absurd hid hne
    · intro hid
      exact ⟨Or.inl hid, ne_of_lt (lt_nextId hid)⟩
  have hrecords : ∀ id, id ≠ nextId db.undo → d.record id = db.record id := by
    intro id hne
    funext p
    have hfs : db'.undoFs.get? (id, p) = db.undoFs.get? (id, p) := hrec.others (id, p) hne
    have hch : ∀ i, db'.undoChunks.get? (id, p, i) = db.undoChunks.get? (id, p, i) := fun i =>
      hrec.otherChunks (id, p, i) hne
    simp only [Db.record, hun.undoFs, hun.inv.kept.undos, hfs, hch]
  refine ⟨d', hdel, hids, hdrop.undoOk hgood.ok, hdrop.dirty.trans hgood.dirty, fun s hs hu => ?_⟩
  have hu' := (hids u).1 hu
  have hne : u ≠ nextId db.undo := ne_of_lt (lt_nextId hu')
  -- A record from before the session goes back to its state from here; the session's own record
  -- is undone and dropped.
  have hback : BackTo u s db := by
    rw [List.lookup_cons, beq_false_of_ne hne] at hs
    exact h.back s hs hu'
  have hback' : BackTo u s d := by
    refine hgood.back s hs ?_
    rw [hundo]
    exact Db.has_begun.2 (Or.inl hu')
  exact hback.dropped hback' hdrop hundo hrecords hentry

/-- A command leaves every earlier one rewindable, whatever becomes of it. -/
theorem Rewindable.exec {h : History K} (hh : Rewindable u h) (cmd : Command) :
    Rewindable u ((SessionOp.exec cmd).step E h) := by
  obtain ⟨⟨db, opened⟩, before⟩ := h
  have hcur : Good u before db := hh.cur
  have hopened : ∀ d ∈ opened, Good u ((nextId db.undo, db) :: before) d := by
    intro d hd
    refine (hh.opened d hd).older ?_
    by_contra hn
    exact absurd (lt_nextId (hh.ids d hd _ (Bool.of_not_eq_false hn))) (lt_irrefl _)
  -- A state with the ids of the database and the new one.
  have hids : ∀ d' : Db K, (∀ id, db.undo.has id = true → d'.undo.has id = true) →
      ∀ d ∈ opened, ∀ id, d.undo.has id = true → d'.undo.has id = true := fun d' hd' d hd id hid =>
    hd' id (hh.ids d hd id hid)
  have hbegun : ∀ d' : Db K, d'.undo = db.begun.undo →
      ∀ id, db.undo.has id = true → d'.undo.has id = true := by
    intro d' hd' id hid
    rw [hd']
    exact Db.has_begun.2 (Or.inl hid)
  have hpast : ∀ e ∈ (nextId db.undo, db) :: before, RefOk e.2 :=
    List.forall_mem_cons.2 ⟨hcur.ok.refs, hh.past⟩
  unfold SessionOp.step sessionExec endState
  dsimp only
  rw [bind_of_ok (Tx.lift_of_ok (c := ⟨db, opened⟩) (undoBegin_eq db))]
  rcases cmd.sync_spec (E := E) hcur.ok hcur.dirty opened with
    ⟨rep, d, hsync, hrec⟩ | ⟨e, d, opened', hsync, hrec, hop⟩
  · rw [bind_of_ok hsync]
    obtain ⟨d₃, happly, hun, hentry, hgood⟩ := hcur.undone hrec
    have happly := Tx.lift_of_ok (c := ⟨d, opened⟩) happly
    by_cases hfail : rep.failures ≠ []
    · rw [if_pos hfail]
      obtain ⟨d₄, hdel, hids₄, hgood₄⟩ := hcur.dropped hrec hun hentry hgood
      rw [bind_of_ok happly, bind_of_ok (Tx.lift_of_ok (c := ⟨d₃, opened⟩) hdel),
        bind_of_ok (restoreTree_nil (c := ⟨d₄, opened⟩) hgood₄.dirty)]
      exact ⟨hgood₄, hopened, hids d₄ (fun id hid => (hids₄ id).2 hid), hpast⟩
    · rw [if_neg hfail, reads_bind]
      by_cases hroll : (cmd.failed && cmd.rollbackOnFail) = true
      · rw [if_pos hroll, bind_of_ok happly,
          bind_of_ok (restoreTree_nil (c := ⟨d₃, opened⟩) hgood.dirty)]
        exact ⟨hgood, hopened, hids d₃ (hbegun d₃ (hun.undo.trans hrec.undo)), hpast⟩
      · rw [if_neg hroll]
        exact ⟨hcur.recorded hrec, hopened, hids d (hbegun d hrec.undo), hpast⟩
  · rw [bind_of_error hsync]
    refine ⟨hcur.recorded hrec, ?_, ?_, hpast⟩
    · rcases hop with rfl | rfl
      · exact hopened
      · intro d' hd'
        rw [List.mem_singleton] at hd'
        rw [hd']
        exact hcur.recorded (hcur.ok.freshUndo.recorded hcur.ok.begun.refs)
    · rcases hop with rfl | rfl
      · exact hids d (hbegun d hrec.undo)
      · intro d' hd' id hid
        rw [List.mem_singleton] at hd'
        rw [hd', ← hrec.undo] at hid
        exact hid

/-- A rewind spares the command `u`: it goes back to `u` or to a newer command, or it leaves alone
the paths that no record from `u` on names. -/
def SessionOp.Spares (u : ℕ) (h : History K) : SessionOp → Prop
  | .rewind v => h.link.cur.undo.has u = true → Harmless u v h.link.cur.log h.link.cur.entry
  | _ => True

/-- A rewind to a record that is there returns; another one fails and changes nothing. -/
theorem sessionRewind_cases {v : ℕ} {c : Tx.Link (Db K)} (hok : UndoOk c.cur)
    (hd : c.cur.dirty = []) : sessionRewind E v c = .error (.noUndo v) c ∨
      ∃ d, sessionRewind E v c = .ok () ⟨d, c.opened⟩ ∧ c.cur.undo.has v = true ∧
        UndidAll (c.cur.undoIds.filter fun i => v ≤ i) c.cur d := by
  obtain ⟨d, hrun, hall⟩ := undoApplyAll_total (c.cur.undoIds.filter fun i => v ≤ i) hok
  unfold sessionRewind
  rw [reads_bind]
  by_cases hv : v ∉ c.cur.undoIds.filter fun i => v ≤ i
  · rw [if_pos hv]
    exact Or.inl rfl
  · have hsave : Tx.savepoint ((c.cur.undoIds.filter fun i => v ≤ i).forM undoApply) c =
        .ok () ⟨d, c.opened⟩ := by
      rw [Tx.savepoint_eq, hrun]
    have hdirty : d.dirty = [] := by
      refine List.eq_nil_iff_forall_not_mem.2 fun p hp => ?_
      have hp' := hall.dirty p hp
      rw [hd] at hp'
      cases hp'
    rw [if_neg hv]
    dsimp only
    rw [bind_of_ok hsave, restoreTree_nil (c := ⟨d, c.opened⟩) hdirty]
    have hmem := (List.mem_filter.1 (not_not.1 hv)).1
    exact Or.inr ⟨d, rfl, Db.mem_undoIds.1 hmem, hall⟩

/-- A rewind that spares a command leaves it rewindable. -/
theorem Rewindable.rewind {h : History K} (hh : Rewindable u h) {v : ℕ}
    (hv : (SessionOp.rewind v).Spares u h) : Rewindable u ((SessionOp.rewind v).step E h) := by
  unfold SessionOp.step endState
  dsimp only
  rcases sessionRewind_cases (E := E) (v := v) hh.cur.ok hh.cur.dirty with
    herr | ⟨d, hok, -, hall⟩
  · rw [herr]
    exact hh
  · rw [hok]
    refine ⟨hh.cur.rewind hall hv, hh.opened, fun d' hd' id hid => ?_, hh.past⟩
    show d.undo.has id = true
    rw [hall.undo]
    exact hh.ids d' hd' id hid

/-- Opening the session again leaves a command rewindable. -/
theorem Rewindable.reopen {h : History K} (hh : Rewindable u h) :
    Rewindable u (SessionOp.reopen.step E h) := by
  have hgood : Good u h.before h.link.committed := by
    unfold Tx.Link.committed
    rcases hlast : h.link.opened.getLast? with _ | d
    · exact hh.cur
    · exact hh.opened d (List.mem_of_getLast? hlast)
  unfold SessionOp.step endState
  dsimp only
  rw [restoreTree_nil (c := h.link.close) hgood.dirty]
  exact ⟨hgood, by simp [Tx.Link.close], by simp [Tx.Link.close], hh.past⟩

/-- New hashes keep the records in order. -/
theorem Rehashed.undoOk (h : Rehashed db db') (hrefs : RefOk db') (hok : UndoOk db) :
    UndoOk db' where
  refs := hrefs
  entries := by
    rw [h.undoFs, h.undo]
    exact hok.entries
  copies := by
    rw [h.undoFs, h.undoChunks]
    exact hok.copies
  frees := by
    intro id p m hm hnone i
    rw [h.undoFs] at hm
    have hrow := h.rows p
    rw [hnone, Option.map_none] at hrow
    rw [h.chunks]
    exact hok.frees id p m hm (Option.map_eq_none_iff.1 hrow.symm) i

/-- In every history whose rewinds spare `u`, the records lead back to `u`. -/
theorem rewindable_of_sessions {h : History K}
    (hh : Sessions (fun h op => op.Spares u h) E h) : Rewindable u h := by
  induction hh with
  | @start db db' n hok hopen =>
    obtain ⟨hre, hdirty⟩ := finalizeDirty_ok hopen
    refine ⟨⟨hre.undoOk ?_ hok, hdirty, by rintro s ⟨⟩⟩, by simp, by simp, by simp⟩
    exact (keeps_refOk_of fun _ => keeps_finalizeDirty E).triple _ _ _ hok.refs hopen
  | step op _ hC ih =>
    rcases op with cmd | v | _
    · exact ih.exec cmd
    · exact ih.rewind hC
    · exact ih.reopen

/-- After a rewind to a command that the earlier rewinds have spared, every path's row and chunk
list and the bytes of every file are those of the state in which the command was run. -/
theorem rewind_restores {K : Type} [DecidableEq K] {E : Ext K} {u : ℕ} {h : History K}
    (hh : Sessions (fun h op => op.Spares u h) E h) {s : Db K} (hs : h.before.lookup u = some s)
    {c : Tx.Link (Db K)} (hrun : sessionRewind E u h.link = .ok () c) :
    (∀ p, c.cur.entry p = s.entry p) ∧ ∀ p, fileBytes E c.cur p = fileBytes E s p := by
  have hrew := rewindable_of_sessions hh
  have hok : RefOk s := by
    obtain ⟨l, l', hl, -⟩ := List.lookup_eq_some_iff.1 hs
    exact hrew.past (u, s) (by rw [hl]; simp)
  rcases sessionRewind_cases (E := E) (v := u) hrew.cur.ok hrew.cur.dirty with
    herr | ⟨d, hd, hu, hall⟩
  · rw [herr] at hrun
    cases hrun
  · rw [hd] at hrun
    cases hrun
    obtain ⟨hentry, hbytes⟩ := (hrew.cur.back s hs hu).reached (E := E) hok hall
    exact ⟨congrFun hentry, hbytes⟩

/-- A command after which the tree holds some directories. -/
def mkdirCommand (dirs : List Name) (paths : List Str) : Command :=
  { fs := dirs.foldl (fun t d => t.insertIgnore [d] (.dir 0o755 true)) Table.empty
    tree := [], changes := ⟨paths, false⟩, failed := false, rollbackOnFail := false, now := 0 }

/-- A history of two commands: `/a` is created, then `/b`. -/
def twoCommands : History Bytes :=
  [SessionOp.exec (mkdirCommand ["a".toList] ["/a".toList]),
    .exec (mkdirCommand ["a".toList, "b".toList] ["/b".toList])].foldl (SessionOp.step plainExt)
      ⟨⟨initDb 0, []⟩, []⟩

/-- A new database has no record. -/
theorem undoOk_initDb (now : ℤ) : UndoOk (initDb now : Db K) where
  refs := refOk_initDb now
  entries := by rintro id p m ⟨⟩
  copies := by rintro id p i k ⟨⟩
  frees := by rintro id p m ⟨⟩

/-- The example is a session of two commands. -/
theorem sessions_twoCommands {C : History Bytes → SessionOp → Prop}
    (hC : ∀ h cmd, C h (.exec cmd)) :
    Sessions C plainExt twoCommands :=
  Sessions.step _ (Sessions.step _ (Sessions.start (undoOk_initDb 0) (finalizeDirty_nil rfl))
    (hC _ _))
    (hC _ _)

/-- The second command of this history is rewound. -/
theorem rewind_restores_second : ∃ s c, twoCommands.before.lookup 2 = some s ∧
    sessionRewind plainExt 2 twoCommands.link = .ok () c ∧ s.fs.has "/a".toList = true ∧
    ∀ p, c.cur.entry p = s.entry p := by
  obtain ⟨s, hs⟩ : ∃ s, twoCommands.before.lookup 2 = some s :=
    Option.isSome_iff_exists.1 (by decide +kernel)
  obtain ⟨_, hrun⟩ := exists_of_returns (x := sessionRewind plainExt 2) (s := twoCommands.link)
    (by decide +kernel)
  have hrest := rewind_restores (u := 2) (sessions_twoCommands fun _ _ => trivial) hs hrun
  refine ⟨s, _, hs, hrun, ?_, hrest.1⟩
  have hhas : ((twoCommands.before.lookup 2).map fun s => s.fs.has "/a".toList) = some true := by
    decide +kernel
  rw [hs] at hhas
  exact Option.some.inj hhas

/-- After a rewind to the first command, a rewind to the second one does not bring `/a` back, which
was there when the second one was run. -/
theorem rewind_after_rewind : ∃ (h : History Bytes) (s : Db Bytes) (c : Tx.Link (Db Bytes)),
    Sessions (fun _ _ => True) plainExt h ∧ h.before.lookup 2 = some s ∧
      sessionRewind plainExt 2 h.link = .ok () c ∧ s.fs.has "/a".toList = true ∧
      c.cur.fs.has "/a".toList = false := by
  obtain ⟨s, hs⟩ : ∃ s, twoCommands.before.lookup 2 = some s :=
    Option.isSome_iff_exists.1 (by decide +kernel)
  obtain ⟨_, hrun⟩ := exists_of_returns (x := sessionRewind plainExt 2)
    (s := (SessionOp.step plainExt twoCommands (.rewind 1)).link) (by decide +kernel)
  refine ⟨_, s, _, Sessions.step (.rewind 1) (sessions_twoCommands fun _ _ => trivial) trivial, hs,
    hrun,
    ?_, by decide +kernel⟩
  have hhas : ((twoCommands.before.lookup 2).map fun s => s.fs.has "/a".toList) = some true := by
    decide +kernel
  rw [hs] at hhas
  exact Option.some.inj hhas

end History

end Dbvm
