import Dbvm.Effects
import Dbvm.Lib.Totals

/-!
# The counters of `vm_meta`

Six triggers (`VM_COUNTER_TRIGGERS_SQL` of `src/vm/schema.rs`) add up what every change of a row
does to five counters. `Counters.Exact` says that the counters are what a count of the rows would
give. One lemma per trigger shows that it keeps this; an effect of a statement is made up of them
(`Db.Effect.countersExact`).
-/

namespace Dbvm

open Lib Lib.Prog

variable {K : Type} [DecidableEq K]

/-! ## Counters and totals -/

/-- The counter `'count_' || kind`. -/
def Counters.count (c : Counters) : Kind → ℤ
  | .file => c.countFile
  | .dir => c.countDir
  | .symlink => c.countSymlink

/-- The counters are what `VM_COUNTERS_INIT_SQL` computes from the rows. -/
structure Counters.Exact (c : Counters) (fs : Table Str (FsRow K)) (blobs : Store K Block) :
    Prop where
  /-- The number of rows of each kind. -/
  count : ∀ kind, c.count kind = ((fs.rows.filter fun r => r.2.kind = kind).length : ℤ)
  /-- The sum of the sizes of the files. -/
  logicalBytes : c.logicalBytes =
    ((fs.rows.filter fun r => r.2.kind = .file).map fun r => (r.2.size : ℤ)).sum
  /-- The sum of the lengths of the stored blobs. -/
  blobBytes : c.blobBytes = (blobs.rows.map fun r => (r.2.val.body.length : ℤ)).sum

/-- What a row adds to the counter of a kind. -/
def FsRow.ofKind (kind : Kind) (row : FsRow K) : ℤ := if row.kind = kind then 1 else 0

/-- What a blob adds to `blob_bytes`. -/
def Block.stored (b : Block) : ℤ := b.body.length

variable {c : Counters} {fs fs' : Table Str (FsRow K)} {blobs blobs' : Store K Block}

omit [DecidableEq K] in
/-- The counters are exact iff they are totals over the rows and the blobs. -/
theorem Counters.exact_iff :
    c.Exact fs blobs ↔ (∀ kind, c.count kind = fs.total (FsRow.ofKind kind)) ∧
    c.logicalBytes = fs.total (fun row => row.logical) ∧
    c.blobBytes = blobs.total Block.stored := by
  have hcount : ∀ kind, ((fs.rows.filter fun r => r.2.kind = kind).length : ℤ) =
      fs.total (FsRow.ofKind kind) := by
    intro kind
    rw [Table.length_filter_eq_total fs fun row => decide (row.kind = kind)]
    simp only [decide_eq_true_eq]
    rfl
  have hsum : ((fs.rows.filter fun r => r.2.kind = .file).map fun r => (r.2.size : ℤ)).sum =
      fs.total fun row => row.logical := by
    rw [Table.sum_filter_eq_total fs (fun row => decide (row.kind = .file)) fun row =>
      (row.size : ℤ)]
    simp only [FsMeta.logical, decide_eq_true_eq]
  constructor
  · intro h
    exact ⟨fun kind => (h.count kind).trans (hcount kind), h.logicalBytes.trans hsum, h.blobBytes⟩
  · rintro ⟨h₁, h₂, h₃⟩
    exact ⟨fun kind => (h₁ kind).trans (hcount kind).symm, h₂.trans hsum.symm, h₃⟩

/-! ## The triggers -/

/-- A bump changes the count of its kind. -/
theorem Counters.count_bump (c : Counters) (kind kind' : Kind) (d : ℤ) :
    (c.bump kind d).count kind' = c.count kind' + if kind = kind' then d else 0 := by
  rcases kind with _ | _ | _ <;> rcases kind' with _ | _ | _ <;> simp [Counters.bump,
    Counters.count]

/-- A bump of a count leaves the logical bytes. -/
@[simp] theorem Counters.bump_logicalBytes (c : Counters) (kind : Kind) (d : ℤ) :
    (c.bump kind d).logicalBytes = c.logicalBytes := by
  rcases kind with _ | _ | _ <;> rfl

/-- A bump of a count leaves the bytes of the blobs. -/
@[simp] theorem Counters.bump_blobBytes (c : Counters) (kind : Kind) (d : ℤ) :
    (c.bump kind d).blobBytes = c.blobBytes := by
  rcases kind with _ | _ | _ <;> rfl

omit [DecidableEq K] in
/-- The insert trigger counts one more row of the kind. -/
theorem Counters.count_insFs (c : Counters) (m : FsMeta K) (kind : Kind) :
    (c.insFs m).count kind = c.count kind + if m.kind = kind then 1 else 0 := by
  rw [← Counters.count_bump]
  rcases kind with _ | _ | _ <;> rfl

omit [DecidableEq K] in
/-- The delete trigger counts one row of the kind less. -/
theorem Counters.count_delFs (c : Counters) (m : FsMeta K) (kind : Kind) :
    (c.delFs m).count kind = c.count kind - if m.kind = kind then 1 else 0 := by
  have hbump : (c.delFs m).count kind = (c.bump m.kind (-1)).count kind := by
    rcases kind with _ | _ | _ <;> rfl
  rw [hbump, Counters.count_bump]
  split_ifs <;> omega

omit [DecidableEq K] in
/-- The update trigger moves a row from its old kind to its new one. -/
theorem Counters.count_updFs (c : Counters) (old new : FsMeta K) (kind : Kind) :
    (c.updFs old new).count kind =
      c.count kind - (if old.kind = kind then 1 else 0) + if new.kind = kind then 1 else 0 := by
  unfold Counters.updFs
  by_cases hkind : old.kind = new.kind
  · have hsame :
      Counters.count { c with logicalBytes := c.logicalBytes - old.logical + new.logical } kind =
        c.count kind := by
      rcases kind with _ | _ | _ <;> rfl
    rw [if_pos hkind, hsame, hkind]
    omega
  · have hbump : Counters.count { (c.bump old.kind (-1)).bump new.kind 1 with
        logicalBytes := c.logicalBytes - old.logical + new.logical } kind =
          ((c.bump old.kind (-1)).bump new.kind 1).count kind := by
      rcases kind with _ | _ | _ <;> rfl
    rw [if_neg hkind, hbump, Counters.count_bump, Counters.count_bump]
    split_ifs <;> omega

omit [DecidableEq K] in
/-- The insert trigger adds the row's logical bytes. -/
@[simp] theorem Counters.insFs_logicalBytes (c : Counters) (m : FsMeta K) :
    (c.insFs m).logicalBytes = c.logicalBytes + m.logical := rfl

omit [DecidableEq K] in
/-- The delete trigger subtracts the row's logical bytes. -/
@[simp] theorem Counters.delFs_logicalBytes (c : Counters) (m : FsMeta K) :
    (c.delFs m).logicalBytes = c.logicalBytes - m.logical := rfl

omit [DecidableEq K] in
/-- The update trigger replaces the row's logical bytes. -/
@[simp] theorem Counters.updFs_logicalBytes (c : Counters) (old new : FsMeta K) :
    (c.updFs old new).logicalBytes = c.logicalBytes - old.logical + new.logical := by
  unfold Counters.updFs
  split_ifs <;> rfl

omit [DecidableEq K] in
/-- The insert trigger leaves the bytes of the blobs. -/
@[simp] theorem Counters.insFs_blobBytes (c : Counters) (m : FsMeta K) :
    (c.insFs m).blobBytes = c.blobBytes := Counters.bump_blobBytes c m.kind 1

omit [DecidableEq K] in
/-- The delete trigger leaves the bytes of the blobs. -/
@[simp] theorem Counters.delFs_blobBytes (c : Counters) (m : FsMeta K) :
    (c.delFs m).blobBytes = c.blobBytes := Counters.bump_blobBytes c m.kind (-1)

omit [DecidableEq K] in
/-- The update trigger leaves the bytes of the blobs. -/
@[simp] theorem Counters.updFs_blobBytes (c : Counters) (old new : FsMeta K) :
    (c.updFs old new).blobBytes = c.blobBytes := by
  unfold Counters.updFs
  split_ifs
  · rfl
  · simp

omit [DecidableEq K] in
/-- The trigger `vm_cnt_fs_ins` keeps the counters exact. -/
theorem Counters.Exact.insFs (h : c.Exact fs blobs) {p : Str} (hp : fs.get? p = none)
    (row : FsRow K) :
    (c.insFs row.toFsMeta).Exact (fs.insertIgnore p row) blobs := by
  obtain ⟨hcount, hlogical, hblob⟩ := Counters.exact_iff.1 h
  refine Counters.exact_iff.2 ⟨fun kind => ?_, ?_, ?_⟩
  · rw [Counters.count_insFs, Table.total_insertIgnore hp, hcount kind]
    rfl
  · rw [Counters.insFs_logicalBytes, Table.total_insertIgnore hp, hlogical]
  · rw [Counters.insFs_blobBytes, hblob]

omit [DecidableEq K] in
/-- The trigger `vm_cnt_fs_upd` keeps the counters exact. -/
theorem Counters.Exact.updFs (h : c.Exact fs blobs) {p : Str} {row : FsRow K}
    (hp : fs.get? p = some row) (f : FsRow K → FsRow K) :
    (c.updFs row.toFsMeta (f row).toFsMeta).Exact (fs.update p f) blobs := by
  obtain ⟨hcount, hlogical, hblob⟩ := Counters.exact_iff.1 h
  refine Counters.exact_iff.2 ⟨fun kind => ?_, ?_, ?_⟩
  · rw [Counters.count_updFs, Table.total_update hp, hcount kind]
    rfl
  · rw [Counters.updFs_logicalBytes, Table.total_update hp, hlogical]
  · rw [Counters.updFs_blobBytes, hblob]

omit [DecidableEq K] in
/-- What the deletion of rows takes from the counters. -/
theorem Counters.foldl_delFs (rows : List (Str × FsRow K)) : ∀ c : Counters,
    (∀ kind, (rows.foldl (fun c r => c.delFs r.2.toFsMeta) c).count kind =
      c.count kind - (rows.map fun r => FsRow.ofKind kind r.2).sum) ∧
    (rows.foldl (fun c r => c.delFs r.2.toFsMeta) c).logicalBytes =
      c.logicalBytes - (rows.map fun r => r.2.logical).sum ∧
    (rows.foldl (fun c r => c.delFs r.2.toFsMeta) c).blobBytes = c.blobBytes := by
  induction rows with
  | nil => exact fun c => ⟨fun _ => by simp, by simp, rfl⟩
  | cons r rows ih =>
    intro c
    obtain ⟨h₁, h₂, h₃⟩ := ih (c.delFs r.2.toFsMeta)
    refine ⟨fun kind => ?_, ?_, ?_⟩
    · rw [List.foldl_cons, h₁, Counters.count_delFs, List.map_cons, List.sum_cons, FsRow.ofKind]
      omega
    · rw [List.foldl_cons, h₂, Counters.delFs_logicalBytes, List.map_cons, List.sum_cons]
      omega
    · rw [List.foldl_cons, h₃, Counters.delFs_blobBytes]

omit [DecidableEq K] in
/-- The trigger `vm_cnt_fs_del`, fired for every row of a deletion, keeps the counters exact. -/
theorem Counters.Exact.delFs (h : c.Exact fs blobs) (sel : Str → FsRow K → Bool) :
    ((fs.select sel).foldl (fun c r => c.delFs r.2.toFsMeta) c).Exact (fs.deleteWhere sel)
    blobs := by
  obtain ⟨hcount, hlogical, hblob⟩ := Counters.exact_iff.1 h
  obtain ⟨h₁, h₂, h₃⟩ := Counters.foldl_delFs (fs.select sel) c
  refine Counters.exact_iff.2 ⟨fun kind => ?_, ?_, ?_⟩
  · have := Table.total_deleteWhere fs sel (FsRow.ofKind kind)
    rw [h₁, hcount kind]
    omega
  · have := Table.total_deleteWhere fs sel fun row => row.logical
    rw [h₂, hlogical]
    omega
  · rw [h₃, hblob]

omit [DecidableEq K] in
/-- `vm_cnt_blob_ins`, `vm_cnt_blob_upd` and `vm_cnt_blob_del`: the counter changes as the total
does. -/
theorem Counters.Exact.addBlobBytes (h : c.Exact fs blobs) {d : ℤ}
    (hd : blobs'.total Block.stored = blobs.total Block.stored + d) :
    (c.addBlobBytes d).Exact fs blobs' := by
  obtain ⟨hcount, hlogical, hblob⟩ := Counters.exact_iff.1 h
  refine Counters.exact_iff.2 ⟨fun kind => ?_, hlogical, ?_⟩
  · rw [← hcount kind]
    rcases kind with _ | _ | _ <;> rfl
  · rw [hd, ← hblob]
    rfl

omit [DecidableEq K] in
/-- Rows that weigh the same as before have the same exact counters. -/
theorem Counters.Exact.of_totals (h : c.Exact fs blobs) (hfs : ∀ w, fs'.total w = fs.total w)
    (hblobs : blobs'.total Block.stored = blobs.total Block.stored) : c.Exact fs' blobs' := by
  obtain ⟨hcount, hlogical, hblob⟩ := Counters.exact_iff.1 h
  exact Counters.exact_iff.2
    ⟨fun kind => by rw [hfs, hcount kind], by rw [hfs, hlogical], by rw [hblobs, hblob]⟩

/-- `vm_cnt_blob_del`, for every blob that a list of releases drops. -/
theorem Counters.Exact.released (ks : List K) : ∀ {c : Counters} {blobs : Store K Block},
    c.Exact fs blobs → (Counters.released blobs c ks).Exact fs (blobs.releaseAll ks) := by
  induction ks with
  | nil => exact fun h => h
  | cons k ks ih =>
    intro c blobs h
    have htotal := Store.total_release blobs k Block.stored
    refine ih ?_
    rcases hk : blobs.get? k with _ | b
    · rw [Store.dropped, hk, Option.elim_none] at htotal
      exact h.of_totals (fun _ => rfl) (by omega)
    · rw [Store.dropped, hk, Option.elim_some] at htotal
      dsimp only
      split_ifs at htotal ⊢ with hcnt
      · exact h.addBlobBytes (by rw [htotal]; exact sub_eq_add_neg _ _)
      · exact h.of_totals (fun _ => rfl) (by omega)

/-! ## Effects -/

/-- The counters of a database equal its rows. -/
def Db.CountersExact (db : Db K) : Prop := db.counters.Exact db.fs db.blobs

variable {db db' : Db K}

/-- The chunks of deleted rows go first, then the rows. -/
theorem Db.CountersExact.delFs (h : db.CountersExact) (sel : Str → Bool) :
    (db.delFs sel).CountersExact := by
  have hchunks : (Counters.released db.blobs db.counters
      (db.chunkKeys fun p _ => sel p && db.fs.has p)).Exact db.fs
        (db.blobs.releaseAll (db.chunkKeys fun p _ => sel p && db.fs.has p)) := h.released _
  exact hchunks.delFs fun p _ => sel p

omit [DecidableEq K] in
/-- An update of a row keeps the counters exact. -/
theorem Db.CountersExact.setFs (h : db.CountersExact) (p : Str) (f : FsRow K → FsRow K) :
    (db.setFs p f).CountersExact := by
  unfold Db.CountersExact Db.setFs
  rcases hp : db.fs.get? p with _ | row
  · exact Counters.Exact.of_totals h (Table.total_update_of_none hp f) rfl
  · exact Counters.Exact.updFs h hp f

/-- A new encoding of a blob keeps the counters exact. -/
theorem Db.CountersExact.setBlob (h : db.CountersExact) (k : K) (e : Enc) :
    (db.setBlob k e).CountersExact := by
  unfold Db.CountersExact Db.setBlob
  rcases hk : db.blobs.get? k with _ | b
  · have htotal :=
      Table.total_update_of_none hk (fun b => { b with val := { b.val with toEnc := e } })
      fun b => b.val.stored
    exact Counters.Exact.of_totals h (fun _ => rfl) htotal
  · refine Counters.Exact.addBlobBytes h ?_
    have htotal := Table.total_update hk (fun b => { b with val := { b.val with toEnc := e } })
      fun b => b.val.stored
    change Table.total _ _ = Table.total _ _ + _
    rw [htotal]
    simp only [Block.stored]
    omega

/-- A copy of the live tree leaves rows, blobs and counters. -/
theorem countersExact_copyTree {id : ℕ} {u : Unit} (hx : copyTree id db = .ok u db')
    (h : db.CountersExact) :
    db'.CountersExact := by
  obtain ⟨_, d₁, hfs, hch⟩ := bind_eq_ok.1 hx
  rw [copySnapFs, statement_eq_ok] at hfs
  rw [copySnapChunks, statement_eq_ok] at hch
  have h₁ : d₁.CountersExact := by
    refine foldlM_inv (I := Db.CountersExact) ?_ h hfs
    intro r _ d d' hd hstep
    unfold Db.insertSnapFs? at hstep
    split_ifs at hstep
    cases hstep
    exact hd
  refine foldlM_inv (I := Db.CountersExact) ?_ h₁ hch
  intro r _ d d' hd hstep
  unfold Db.insertSnapChunk? at hstep
  split_ifs at hstep
  cases hstep
  exact Counters.Exact.of_totals hd (fun _ => rfl) (Store.total_acquire _ _ _)

/-- Every effect keeps the counters equal to the rows. -/
theorem Db.Effect.countersExact (hstep : Db.Effect db db') (h : db.CountersExact) :
    db'.CountersExact := by
  -- One case for each effect. Only those on `vm_fs` and on the blobs reach the counters.
  cases hstep with
  | addFs row hp => exact Counters.Exact.insFs h hp row
  | setFs p f => exact h.setFs p f
  | delFs sel => exact h.delFs sel
  | moveFs hre => exact Counters.Exact.of_totals h (Table.total_rekey hre) rfl
  | addChunk k _ => exact Counters.Exact.of_totals h (fun _ => rfl) (Store.total_acquire _ _ _)
  | delChunks sel => exact Counters.Exact.released _ h
  | moveChunks _ => exact h
  | addBlob b hk => exact Counters.Exact.addBlobBytes h (Table.total_insertIgnore hk _ _)
  | setBlob k e => exact h.setBlob k e
  | addDict _ => exact h
  | setDirty _ => exact h
  | setPolicies _ => exact h
  | setBypass _ => exact h
  | snapshot hcopy => exact countersExact_copyTree hcopy h
  | checkpoint _ => exact h
  | delSnapshot hx =>
    rw [deleteSnapshot, statement_eq_ok] at hx
    split_ifs at hx
    · cases hx
      exact Counters.Exact.released _ h
    · cases hx
      exact h
  | addUndo => exact h
  | addUndoFs _ _ _ => exact h
  | addUndoChunk hx =>
    unfold Db.insertUndoChunk? at hx
    split_ifs at hx
    cases hx
    exact Counters.Exact.of_totals h (fun _ => rfl) (Store.total_acquire _ _ _)
  | delUndo hx =>
    rw [deleteUndo, statement_eq_ok] at hx
    split_ifs at hx
    · cases hx
      exact Counters.Exact.released _ h
    · cases hx
      exact h

omit [DecidableEq K] in
/-- The counters of a new database are exact. -/
theorem countersExact_initDb (now : ℤ) : (initDb now : Db K).CountersExact := by
  have hempty : Counters.Exact ⟨0, 0, 0, 0, 0⟩ (Table.empty : Table Str (FsRow K)) Table.empty := by
    refine ⟨fun kind => ?_, rfl, rfl⟩
    rcases kind with _ | _ | _ <;> rfl
  exact hempty.insFs rfl _

end Dbvm
