import Dbvm.EntryInv
import Dbvm.Host.Walk

/-!
# Invariants of entries under the operations

Every operation on the tree writes entries one at a time, copies them or puts copies back. What is
left for a pair of properties to be an invariant of it (`EntryRules`, and conditions on the entries
it writes) is collected here, operation by operation.
-/

namespace Dbvm

open Lib Lib.Chunks Lib.Prog Lib.Posix

variable {K : Type} [DecidableEq K] {E : Ext K} {p : Str} {db db' : Db K} {G D : EntryProp K}

/-- What every operation needs of the properties. -/
structure EntryRules (E : Ext K) (G D : EntryProp K) : Prop where
  /-- Directories and links have the first, whatever the row before them had for nanoseconds. -/
  node : ∀ (p : Str) {kind : Kind} (mode mtime ns : ℤ) (link : Option Str), kind ≠ .file →
    G p (nodeRow kind mode mtime ns link).toFsMeta fun _ => none
  /-- A marked file has the first once its hash is computed. -/
  finalized : ∀ (p : Str) (db : Db K) (row : FsRow K) (whole : K), EntryInv G D db →
    db.fs.get? p = some row →
    D p row.toFsMeta (db.keysAt p) → wholeFileHash E p row.size db = .ok whole db →
    G p { row with hash := .key whole }.toFsMeta (db.keysAt p)

variable {R : EntryRules E G D}

/-! ## Files, directories and links -/

section Add

variable {vmPath target : Str} {mode mtime now : ℤ} {data : Bytes}

omit [DecidableEq K] in
/-- A directory that was missing has no nanoseconds, as no row had. -/
theorem keeps_stampAt_parents (p : Str) (ns : ℤ) (marks : List Str) (vmPath : Str) (now : ℤ) :
    Keeps (fun d : Db K => d.stampAt p = ns ∧ d.dirty = marks) (ensureParentDirs vmPath now) := by
  refine Keeps.forM (fun q => Keeps.statement fun d d' h hf => ?_) _
  rcases insertFsIgnore_ok (u := ()) (statement_of_ok hf) with ⟨-, rfl⟩ | ⟨hfree, rfl⟩
  · exact h
  · refine ⟨?_, h.2⟩
    rw [← h.1, Db.stampAt, Db.stampAt, Db.get?_addFs _ hfree]
    split_ifs with hp
    · rw [hp, hfree]
      rfl
    · rfl

/-- The parent directories of a path are made, then its entry is written. -/
theorem EntryInv.parents_then (h : EntryInv G D db) (R : EntryRules E G D) {x : Sql K Unit}
    (p : Str)
    (hx : ∀ d, EntryInv G D d → d.stampAt p = db.stampAt p → d.dirty = db.dirty →
      EntryInv G D (endState x d)) :
    EntryInv G D (endState (ensureParentDirs vmPath now >>= fun _ => x) db) := by
  have hdir : ∀ q now, G q (dirRow 493 now).toFsMeta fun _ => none := fun q now =>
    R.node q 493 now 0 none (by decide)
  have hkeep := EntryInv.keeps_parents (G := G) (D := D) hdir vmPath now
  have hsame := keeps_stampAt_parents (K := K) p (db.stampAt p) db.dirty vmPath now
  refine endState_bind (fun e d hrun => ?_) fun _ d hrun => ?_
  · have hend := hkeep db h
    unfold endState at hend
    rw [hrun] at hend
    exact hend
  · obtain ⟨hns, hmarks⟩ := hsame.triple db _ d ⟨rfl, rfl⟩ hrun
    exact hx d (hkeep.triple db _ d h hrun) hns hmarks

omit [DecidableEq K] in
/-- What fits an entry depends on its mark only. -/
theorem Fits.congr {m : FsMeta K} {c : ℕ → Option K} (h : Fits G D db p m c)
    (hd : db'.dirty = db.dirty) :
    Fits G D db' p m c := by
  unfold Fits at h ⊢
  rwa [hd]

/-- A file that is written fits. -/
def FileFits (E : Ext K) (G D : EntryProp K) (db : Db K) (p : Str) (mode mtime : ℤ) (data : Bytes) :
    Prop :=
  Fits G D db p (fileRow E mode mtime (db.stampAt p) data).toFsMeta (chunkRow E data)

/-- A directory or a link that is written fits. -/
def NodeFits (D : EntryProp K) (db : Db K) (p : Str) (kind : Kind) (mode mtime : ℤ)
    (link : Option Str) : Prop :=
  p ∈ db.dirty → D p (nodeRow kind mode mtime (db.stampAt p) link).toFsMeta fun _ => none

/-- A file that fits may be added. -/
theorem EntryInv.vmAddBytes (h : EntryInv G D db) (R : EntryRules E G D)
    (hfits : FileFits E G D db (normalizeVmPath vmPath) mode mtime data) :
    EntryInv G D (endState (Dbvm.vmAddBytes E vmPath data mode mtime now) db) := by
  refine h.parents_then R (normalizeVmPath vmPath) fun d hd hns hmarks => hd.fsPutFile ?_
  rw [hns]
  exact hfits.congr hmarks

/-- A directory or a link that fits may be written, with its parent directories before it. -/
theorem EntryInv.putNode {kind : Kind} {link : Option Str} (h : EntryInv G D db)
    (R : EntryRules E G D) (hkind : kind ≠ .file) (hfits : NodeFits D db p kind mode mtime link) :
    EntryInv G D
    (endState (ensureParentDirs vmPath now >>= fun _ => Dbvm.fsPutNode p kind mode mtime link)
      db) := by
  refine h.parents_then R p fun d hd hns hmarks => hd.fsPutNode ?_
  rw [hns]
  exact Fits.congr ⟨fun _ => R.node p mode mtime _ link hkind, hfits⟩ hmarks

/-- A directory that fits may be added. -/
theorem EntryInv.vmAddDir (h : EntryInv G D db) (R : EntryRules E G D)
    (hfits : NodeFits D db (normalizeVmPath vmPath) .dir mode mtime none) :
    EntryInv G D (endState (Dbvm.vmAddDir vmPath mode mtime now) db) :=
  h.putNode R (by decide) hfits

/-- A link that fits may be added. -/
theorem EntryInv.vmAddSymlink (h : EntryInv G D db) (R : EntryRules E G D)
    (hfits : NodeFits D db (normalizeVmPath vmPath) .symlink 511 now (some target)) :
    EntryInv G D (endState (Dbvm.vmAddSymlink vmPath target now) db) :=
  h.putNode R (by decide) hfits

end Add

/-! ## Packed files -/

section Pack

variable {now : ℤ} {entry : PackEntry}

/-- A file that the parallel packer writes fits. -/
def PackEntry.FileFits (E : Ext K) (G D : EntryProp K) (db : Db K) : PackEntry → Prop
  | .file p data mode mtime _ => Dbvm.FileFits E G D db p mode mtime data
  | _ => True

/-- The row and the chunks of a packed file are those that `fs_put_file` writes. -/
theorem EntryInv.packFile (h : EntryInv G D db) (R : EntryRules E G D)
    (hfits : entry.FileFits E G D db) {u : Unit} (hx : Dbvm.packFile E now entry db = .ok u db') :
    EntryInv G D db' := by
  rcases entry with ⟨p, mode, mtime⟩ | ⟨p, target⟩ | ⟨p, data, mode, mtime, readable⟩
  · cases hx
    exact h
  · cases hx
    exact h
  · obtain ⟨_, d, hq, hwrite⟩ := bind_eq_ok.1 hx
    obtain ⟨-, rfl⟩ := query_eq_ok.1 hq
    obtain ⟨_, d₁, hparents, hput⟩ := bind_eq_ok.1 hwrite
    have hrun : (ensureParentDirs p now >>= fun _ => Dbvm.fsPutFile E p mode mtime data) d = .ok
      () db' := by
      rw [bind_of_ok hparents, Dbvm.fsPutFile, inSavepoint, savepoint_eq_ok]
      exact hput
    have hend : EntryInv G D
        (endState (ensureParentDirs p now >>= fun _ => Dbvm.fsPutFile E p mode mtime data) d) := by
      refine h.parents_then R p fun d' hd' hns hmarks => hd'.fsPutFile ?_
      rw [hns]
      exact Fits.congr hfits hmarks
    rw [endState_of_ok hrun] at hend
    exact hend

/-- The files of a batch are written, or none of them is. -/
theorem EntryInv.packFiles {entries : List PackEntry} (h : EntryInv G D db) (R : EntryRules E G D)
    (hfits : InTurn (Dbvm.packFile E now) (fun d e => e.FileFits E G D d) entries db) :
    EntryInv G D (endState (inSavepoint (entries.forM (Dbvm.packFile E now))) db) :=
  endState_savepoint (fun _ => h) fun _ _ hx =>
    InTurn.returned (fun _ _ _ hd hf hone => EntryInv.packFile hd R hf hone) hfits h hx

end Pack

/-! ## Pending hashes and snapshots -/

section Snapshots

/-- `finalize_file` turns the property of a marked entry into that of a finished one. -/
theorem EntryRules.keeps_finalizeFile (R : EntryRules E G D) (p : Str) :
    Keeps (EntryInv G D) (Dbvm.finalizeFile E p) :=
  EntryInv.keeps_finalizeFile fun db row whole => R.finalized p db row whole

/-- `finalize_dirty` finishes the marked entries one by one. -/
theorem EntryRules.keeps_finalizeDirty (R : EntryRules E G D) :
    Keeps (EntryInv G D) (finalizeDirty E) :=
  Keeps.bind (Keeps.reads _) fun paths => Keeps.foldlM (fun _ p =>
    Keeps.bind (R.keeps_finalizeFile p) fun _ => Keeps.pure _) paths 0

/-- What is done once no file is marked. -/
theorem EntryInv.finalized_then {α : Type} (h : EntryInv G D db) (R : EntryRules E G D)
    {x : ℕ → Sql K α}
    (hx : ∀ n d, EntryInv G D d → d.dirty = [] → finalizeDirty E db = .ok n d →
      EntryInv G D (endState (x n) d)) :
    EntryInv G D (endState (finalizeDirty E >>= x) db) := by
  refine endState_bind (fun e d hrun => ?_) fun n d hrun => ?_
  · have hend := R.keeps_finalizeDirty db h
    unfold endState at hend
    rw [hrun] at hend
    exact hend
  · exact hx n d (R.keeps_finalizeDirty.triple db n d h hrun) (finalizeDirty_ok hrun).2 hrun

/-- A snapshot copies finished entries. -/
theorem EntryRules.keeps_snapshotCreate (R : EntryRules E G D) (name : Str) :
    Keeps (EntryInv G D) (Dbvm.snapshotCreate E name) := by
  intro db h
  refine h.finalized_then R fun n d hd hclean _ => endState_savepoint (fun _ => hd) fun id d' hx =>
    ?_
  obtain ⟨id', d₁, hins, hx⟩ := bind_eq_ok.1 hx
  obtain ⟨_, d₂, hcopy, hret⟩ := bind_eq_ok.1 hx
  cases hret
  obtain ⟨rfl, -, rfl⟩ := insertSnapshot_ok hins
  refine hd.snapshot (fun p hp => ?_) hcopy
  rw [hclean] at hp
  cases hp

/-- So does one with a generated name. -/
theorem EntryRules.keeps_snapshotCreateNamed (R : EntryRules E G D) (pfx placeholder : Str) :
    Keeps (EntryInv G D) (Dbvm.snapshotCreateNamed E pfx placeholder) := by
  intro db h
  refine h.finalized_then R fun n d hd hclean _ => endState_savepoint (fun _ => hd) fun r d' hx =>
    ?_
  obtain ⟨rfl, -, hcopy⟩ := snapshot_named_ok hx
  refine hd.snapshot (fun p hp => ?_) hcopy
  rw [hclean] at hp
  cases hp

/-- Deleting a snapshot deletes copies only. -/
theorem EntryInv.keeps_snapshotDelete (name : Str) :
    Keeps (EntryInv G D) (Dbvm.snapshotDelete (K := K) name) :=
  Keeps.bind (Keeps.query _) fun id =>
  Keeps.inSavepoint (Keeps.triple (EntryInv.keeps_deleteSnapshot id))

/-- So does `snapshot_retain`. -/
theorem EntryInv.keeps_snapshotRetain (keep : ℕ) :
    Keeps (EntryInv G D) (Dbvm.snapshotRetain (K := K) keep) :=
  Keeps.bind (Keeps.reads _) fun _ => Keeps.bind (Keeps.forM EntryInv.keeps_snapshotDelete _)
    fun _ =>
    Keeps.pure _

omit [DecidableEq K] in
/-- A row of `vm_snapshots` alone brings no copy. -/
theorem EntryInv.keeps_insertSnapshot (name : Str) :
    Keeps (EntryInv G D) (insertSnapshot (K := K) name) := by
  intro db h
  unfold endState
  rw [insertSnapshot_eq]
  split_ifs
  · exact h
  · refine ⟨⟨h.inline, h.rows, h.marks, fun id p hid => ?_, h.snapCopies, h.copies⟩, h.live,
      h.marked, h.snaps, h.undos⟩
    dsimp only at hid ⊢
    rw [Table.get?_insertIgnore] at hid
    split_ifs at hid with hnew
    exact h.snapRows id p hid

end Snapshots

/-! ## Undo records -/

section Undo

variable {id : ℕ} {path : Str}

/-- An entry may be copied with its mark. -/
def Copyable (G D : EntryProp K) (db : Db K) (p : Str) : Prop :=
  p ∈ db.dirty → ∀ m c, D p m c → G p m c

/-- A capture leaves the tree alone. -/
theorem EntryInv.keeps_capture {fs : Table Str (FsRow K)} {marks : List Str}
    (hclean : p ∈ marks → ∀ m c, D p m c → G p m c) :
    Keeps (fun d => EntryInv G D d ∧ d.fs = fs ∧ d.dirty = marks) (undoCapture id p) := by
  rintro d ⟨h, hfs, hmarks⟩
  obtain ⟨hfs', -, hmarks'⟩ := undoCapture_live id p h.toTidy
  exact ⟨h.capture fun hin => hclean (hmarks ▸ hin), hfs'.trans hfs, hmarks'.trans hmarks⟩

/-- The capture of a subtree copies its entries and leaves the tree alone. -/
theorem EntryInv.undoCaptureTree (h : EntryInv G D db) (hclean : ∀ p,
      (p = path || like (trimEndSlashes path ++ ['/', '%']) p) = true → Copyable G D db p) :
    EntryInv G D (endState (Dbvm.undoCaptureTree id path) db) ∧
      (endState (Dbvm.undoCaptureTree id path) db).fs = db.fs ∧
      (endState (Dbvm.undoCaptureTree id path) db).dirty = db.dirty := by
  unfold Dbvm.undoCaptureTree
  refine endState_bind (Q := fun d => EntryInv G D d ∧ d.fs = db.fs ∧ d.dirty = db.dirty) ?_ ?_
  · rintro e d ⟨⟩
  · rintro below d ⟨⟩
    refine Keeps.forM_mem (fun p hp => EntryInv.keeps_capture (hclean p ?_)) db ⟨h, rfl, rfl⟩
    obtain ⟨r, hr, rfl⟩ := List.mem_map.1 hp
    exact (List.mem_filter.1 hr).2

end Undo

/-! ## Ranged writes -/

section Ranges

/-- A file that is written in part fits. -/
def RangeOp.Fits (D : EntryProp K) (db : Db K) (op : RangeOp K) : Prop :=
  ∀ q size mid row, op.writes db = some (q, size) → Resized q size op.time db mid →
    db.fs.get? q = some row →
    row.kind = .file → D q { row with size := size, mtime := op.time }.toFsMeta (mid.keysAt q)

/-- A range operation that fits keeps the property of all entries. -/
theorem EntryInv.rangeOp {op : RangeOp K} (h : EntryInv G D db) (R : EntryRules E G D)
    (hfits : op.Fits D db) :
    EntryInv G D (endState (op.run E) db) := by
  refine Atomic.endState op.atomic h fun u db' hx => ?_
  obtain ⟨mid, hranged, hrest⟩ := RangeOp.parts_of_run hx
  have hmid : EntryInv G D mid := by
    unfold Ranged at hranged
    rcases htarget : op.writes db with _ | ⟨q, size⟩
    · rw [htarget] at hranged
      rw [hranged]
      exact h
    · rw [htarget] at hranged
      exact h.resized hranged fun row hrow hkind => hfits q size mid row htarget hranged hrow hkind
  rcases hrest with rfl | ⟨real, b, hfin⟩
  · exact hmid
  · exact (R.keeps_finalizeFile real).triple mid b db' hmid hfin

end Ranges

end Dbvm
