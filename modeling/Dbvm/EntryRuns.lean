import Dbvm.EntryOps
import Dbvm.TreeRuns

/-!
# Entries over whole runs

Properties of entries that no operation needs a condition for: files, directories and links have
them when they are written, and they do not depend on the path, the mode or the time of an entry.
Every operation on a database that is not the Delta of an overlay keeps them, as long as an undo
record copies entries without a mark and what is injected has them itself. So they hold in every
state of a run (`UniformRules.of_run`).
-/

namespace Dbvm

open Lib Lib.Chunks Lib.Prog Lib.Posix

variable {K : Type} [DecidableEq K] {E : Ext K} {p : Str} {db db' : Db K} {G D : EntryProp K}
  {R : RangeOp K → Db K → Prop} {mode mtime now : ℤ}

omit [DecidableEq K] in
/-- A condition that is always met is met in turn. -/
theorem inTurn_of_forall {α : Type} {f : α → Sql K Unit} {C : Db K → α → Prop} (h : ∀ d x, C d x) :
    ∀ (xs : List α) (d : Db K), InTurn f C xs d
  | [], _ => trivial
  | _ :: xs, d => ⟨h d _, fun d' _ => inTurn_of_forall h xs d'⟩

/-! ## The rules -/

/-- What the operations need of properties that do not depend on the path, the mode or the time of
an entry. Range operations keep them as far as `R` is met. -/
structure UniformRules (E : Ext K) (G D : EntryProp K) (R : RangeOp K → Db K → Prop) : Prop
    extends EntryRules E G D where
  /-- A marked entry has the second one. -/
  weaken : ∀ {p m c}, G p m c → D p m c
  /-- Files have the first one. -/
  file : ∀ (p : Str) (mode mtime ns : ℤ) (data : Bytes),
    G p (fileRow E mode mtime ns data).toFsMeta (chunkRow E data)
  /-- Modes and times may change. -/
  touch : ∀ {p : Str} {row : FsRow K} {f : FsRow K → FsRow K} {c : ℕ → Option K}, Touches f →
    (G p row.toFsMeta c → G p (f row).toFsMeta c) ∧ (D p row.toFsMeta c → D p (f row).toFsMeta c)
  /-- An entry may have another path. -/
  move : ∀ {p q : Str} {m : FsMeta K} {c : ℕ → Option K}, (G p m c → G q m c) ∧ (D p m c → D q m c)
  /-- A file of more than one chunk has its first two chunks. -/
  second : ∀ {p : Str} {m : FsMeta K} {c : ℕ → Option K}, D p m c → m.kind = .file →
    chunkSize < m.size →
    c 0 ≠ none ∧ c 1 ≠ none
  /-- Range operations. -/
  range : ∀ (op : RangeOp K) (db : Db K), EntryInv G D db → R op db →
    EntryInv G D (endState (op.run E) db)

/-- What adds files, directories and links one by one keeps. -/
structure AddsKept (E : Ext K) (I : Db K → Prop) : Prop where
  /-- Missing parent directories are made. -/
  parents : ∀ vmPath now, Keeps I (ensureParentDirs vmPath now)
  /-- A file is written. -/
  putFile : ∀ p mode mtime data, Keeps I (fsPutFile E p mode mtime data)
  /-- A directory or a link is written. -/
  putNode : ∀ p kind mode mtime link, kind ≠ .file → Keeps I (fsPutNode p kind mode mtime link)

namespace AddsKept

variable {I : Db K → Prop} {vmPath target : Str}

/-- `vm_add_bytes` keeps what the three writers keep. -/
theorem vmAddBytes (h : AddsKept E I) (vmPath : Str) (data : Bytes) (mode mtime now : ℤ) :
    Keeps I (Dbvm.vmAddBytes E vmPath data mode mtime now) :=
  Keeps.bind (h.parents _ now) fun _ => h.putFile _ mode mtime data

/-- `vm_add_dir` keeps what the three writers keep. -/
theorem vmAddDir (h : AddsKept E I) (vmPath : Str) (mode mtime now : ℤ) :
    Keeps I (Dbvm.vmAddDir vmPath mode mtime now) :=
  Keeps.bind (h.parents _ now) fun _ => h.putNode _ _ _ _ _ (by decide)

/-- `vm_add_symlink` keeps what the three writers keep. -/
theorem vmAddSymlink (h : AddsKept E I) (vmPath target : Str) (now : ℤ) :
    Keeps I (Dbvm.vmAddSymlink vmPath target now) :=
  Keeps.bind (h.parents _ now) fun _ => h.putNode _ _ _ _ _ (by decide)

/-- One entry of a pack keeps what the three writers keep. -/
theorem packEntry (h : AddsKept E I) (now : ℤ) (entry : PackEntry) :
    Keeps I (Dbvm.packEntry E now entry) := by
  rcases entry with ⟨p, mode, mtime⟩ | ⟨p, target⟩ | ⟨p, data, mode, mtime, readable⟩
  · exact h.vmAddDir _ _ _ _
  · exact h.vmAddSymlink _ _ _
  · exact Keeps.bind (h.parents _ now) fun _ => Keeps.bind (Keeps.query _) fun _ =>
      h.vmAddBytes _ _ _ _ _

/-- One member of an archive keeps what the three writers keep. -/
theorem importEntry (h : AddsKept E I) (opts : TarOptions) (now : ℤ) (entry : Except Err TarEntry) :
    Keeps I (Dbvm.importEntry E opts now entry) := by
  rcases entry with e | ⟨epath, ekind, emode, emtime⟩
  · exact fun _ hI => hI
  rcases epath with e | path
  · exact fun _ hI => hI
  show Keeps I (let p := tarVmPath path opts.strip
    if p = [] ∨ p = root then pure () else if opts.skips p then pure () else _)
  dsimp only
  split_ifs
  · exact Keeps.pure _
  · exact Keeps.pure _
  · -- One member: a directory, a link, a hard link, a file, or nothing.
    intro db hI
    rcases ekind with _ | target | target | data | _
    · exact h.vmAddDir _ _ _ _ db hI
    · refine endState_query_bind hI fun t ht => ?_
      rcases t with _ | t
      · exact hI
      · exact h.vmAddSymlink _ _ _ db hI
    · refine endState_query_bind hI fun t ht => ?_
      rcases t with _ | t
      · exact hI
      · exact Keeps.bind (Keeps.query _) (fun data => h.vmAddBytes _ data _ _ now) db hI
    · exact endState_query_bind hI fun bytes _ => h.vmAddBytes _ bytes _ _ now db hI
    · exact hI

/-- `vm_add_file` keeps what the three writers keep. -/
theorem vmAddFile (h : AddsKept E I) (fs : Fs) (mtimeOf : Loc → ℤ) (now : ℤ) :
    ∀ (fuel : ℕ) (loc : Loc) (vmPath : Str), Keeps I (Dbvm.vmAddFile E fs mtimeOf now fuel
      loc vmPath)
  | 0, _, _ => Keeps.pure _
  | fuel + 1, loc, vmPath => by
    refine Keeps.bind (Keeps.query _) fun node => Keeps.bind (h.parents _ now) fun _ => ?_
    cases node with
    | dir mode listable =>
      refine Keeps.bind (h.putNode _ _ _ _ _ (by decide)) fun _ => ?_
      split_ifs
      · exact Keeps.forM (fun name => h.vmAddFile fs mtimeOf now fuel _ _) _
      · exact Keeps.throw _
    | link t => exact h.putNode _ _ _ _ _ (by decide)
    | file data mode ns readable =>
      exact Keeps.bind (Keeps.query _) fun _ => h.vmAddBytes _ data _ _ now
    | special k => exact Keeps.throw _

/-- One step of `vm_import_closure` keeps what the three writers keep. -/
theorem closureStep (h : AddsKept E I) (fs : Fs) (mtimeOf : Loc → ℤ) (now : ℤ) (fuel : ℕ)
    (step : ClosureStep) :
    Keeps I (step.run E fs mtimeOf now fuel) := by
  cases step with
  | parents path => exact Keeps.ignoring (Keeps.attempt (h.parents path now))
  | tryLink path target => exact Keeps.ignoring (Keeps.attempt (h.vmAddSymlink _ _ _))
  | soname path target =>
    refine Keeps.bind (Keeps.reads _) fun found => ?_
    cases found with
    | ok _ => exact Keeps.pure _
    | error _ => exact Keeps.bind (h.parents path now) fun _ => h.vmAddSymlink _ _ _
  | link path target => exact h.vmAddSymlink _ _ _
  | file loc vmPath => exact h.vmAddFile fs mtimeOf now fuel loc vmPath

end AddsKept

/-! ## Writers -/

namespace UniformRules

variable (U : UniformRules E G D R)

include U

/-- An entry that has the property fits wherever it is written. -/
theorem fits {m : FsMeta K} {c : ℕ → Option K} (h : G p m c) :
    Fits G D db p m c := ⟨fun _ => h, fun _ => U.weaken h⟩

/-- The three writers keep the property when every entry they write has it. -/
theorem addsKept : AddsKept E (EntryInv G D) where
  parents vmPath now :=
    EntryInv.keeps_parents (fun q now => U.node q 493 now 0 none (by decide)) vmPath now
  putFile p mode mtime data _ h := h.fsPutFile (U.fits (U.file p mode mtime _ data))
  putNode p _ mode mtime link hkind _ h := h.fsPutNode (U.fits (U.node p mode mtime _ link hkind))

/-- A file is written from a stream. -/
theorem keeps_stream (p : Str) (mode mtime ns : ℤ) (src : Reader) :
    Keeps (EntryInv G D) (fsPutFileStreamNs E p mode mtime ns src) := fun _ h =>
  h.fsPutFileStreamNs fun whole => U.fits (U.file p mode mtime ns whole)

/-- The mode or the time of an entry is set. -/
theorem keeps_touch (p : Str) {f : FsRow K → FsRow K} (hf : Touches f) :
    Keeps (EntryInv G D) (updateFs p f) := fun _ h =>
  h.updateFs (fun row => (hf row).1) fun row hrow =>
    ⟨fun hp => (U.touch hf).1 (h.live p row hrow hp),
      fun hp => (U.touch hf).2 (h.marked p row hrow hp)⟩

/-- The batch of files of a parallel pack keeps the property of all entries. -/
theorem keeps_packFiles (now : ℤ) (entries : List PackEntry) :
    Keeps (EntryInv G D) (inSavepoint (entries.forM (Dbvm.packFile E now))) := by
  intro db h
  refine h.packFiles U.toEntryRules ?_
  refine inTurn_of_forall (fun d e => ?_) _ _
  rcases e with _ | _ | ⟨p, data, mode, mtime, readable⟩
  · trivial
  · trivial
  · exact U.fits (U.file p mode mtime _ data)

/-! ## Syncs -/

omit U [DecidableEq K] in
/-- A savepoint that leaves the marks alone when it returns. -/
theorem marks_savepoint {α : Type} {x : Sql K α}
    (hx : ∀ a d', inSavepoint x db = .ok a d' → d'.dirty = db.dirty) :
    (endState (inSavepoint x) db).dirty = db.dirty :=
  endState_savepoint (Q := fun d => d.dirty = db.dirty) (fun _ => rfl) fun a d' hrun =>
  hx a d' (savepoint_eq_ok.2 hrun)

/-- While no entry is marked, entries may be captured too. -/
theorem writerKept :
    WriterKept E (fun _ => True) (fun _ _ => True) fun d => EntryInv G D d ∧ d.dirty = [] where
  parents vmPath now := by
    rintro d ⟨h, hd⟩
    exact ⟨U.addsKept.parents vmPath now d h,
      (keeps_stampAt_parents vmPath (d.stampAt vmPath) d.dirty vmPath now d ⟨rfl, rfl⟩).2.trans hd⟩
  putFile p mode mtime data _ := by
    rintro d ⟨h, hd⟩
    exact ⟨U.addsKept.putFile p mode mtime data d h,
      (marks_savepoint fun _ _ hx => (fsPutFile_entry hx).2.1).trans hd⟩
  putNode p kind mode mtime link hkind _ _ := by
    rintro d ⟨h, hd⟩
    exact ⟨U.addsKept.putNode p kind mode mtime link hkind d h,
      (marks_savepoint fun _ _ hx => (fsPutNode_entry hx).2.1).trans hd⟩
  stream p mode mtime ns src _ := by
    rintro d ⟨h, hd⟩
    exact ⟨U.keeps_stream p mode mtime ns src d h,
      (marks_savepoint fun _ _ hx => (fsPutFileStreamNs_entry hx).2.1).trans hd⟩
  touch p f hf _ := by
    rintro d ⟨h, hd⟩
    refine ⟨U.keeps_touch p hf d h, ?_⟩
    exact Keeps.statement (I := fun s : Db K => s.dirty = []) (fun s s' hs hx => by
      rcases updateFs_ok (u := ()) (statement_of_ok hx) with ⟨-, rfl⟩ | ⟨_, -, rfl⟩
      · exact hs
      · exact hs) d hd
  delFs sel := by
    rintro d ⟨h, hd⟩
    refine ⟨EntryInv.keeps_deleteFs sel d h, ?_⟩
    exact Keeps.statement (I := fun s : Db K => s.dirty = []) (fun s s' hs hx => by
      rw [deleteFs_ok (u := ()) (statement_of_ok hx)]
      show s.dirty.filter _ = []
      rw [hs]
      rfl) d hd
  -- Without marks a capture copies entries that have the property, and `finalize_dirty` has
  -- nothing to do.
  capture id p _ := by
    rintro d ⟨h, hd⟩
    refine ⟨h.capture fun hp => ?_, (undoCapture_live id p h.toTidy).2.2.trans hd⟩
    rw [hd] at hp
    cases hp
  finalize := by
    rintro d ⟨h, hd⟩
    have hrun : finalizeDirty E d = .ok 0 d := by
      unfold finalizeDirty
      rw [reads_bind, hd]
      rfl
    rw [endState_of_ok hrun]
    exact ⟨h, hd⟩

/-- What follows the computation of the hashes in a sync. -/
theorem finalized_then {α : Type} {x : Sql K α}
    (hx : Keeps (fun d => EntryInv G D d ∧ d.dirty = []) x) :
    Keeps (EntryInv G D) (finalizeDirty E >>= fun _ => x) := fun _ h =>
  h.finalized_then U.toEntryRules fun _ d hd hclean _ => (hx d ⟨hd, hclean⟩).1

/-- A full sync keeps the property of all entries. -/
theorem keeps_syncReportImpl (ctx : SyncCtx) (fs : Fs) (tree : Loc) :
    Keeps (EntryInv G D) (syncReportImpl E ctx fs tree) :=
  U.finalized_then (U.writerKept.syncBody (fun _ => trivial) (fun _ _ => trivial) ctx fs tree)

/-- A sync of paths keeps the property of all entries. -/
theorem keeps_vmSyncPaths (fs : Fs) (tree : Loc) (paths : List Str) (undo : Option ℕ) (now : ℤ) :
    Keeps (EntryInv G D) (vmSyncPaths E fs tree paths undo now) :=
  U.finalized_then (U.writerKept.syncPathsBody (fun _ => trivial)
    (fun _ _ => trivial) ⟨false, undo, now⟩ fs tree
    paths)

/-! ## Renames -/

/-- A rename of the mount keeps the property of all entries. -/
theorem keeps_fuseRename (replaced : Option Str) (moves : List (Str × Str)) :
    Keeps (EntryInv G D) (fuseRename replaced moves) := fun _ h =>
  h.fuseRename (inTurn_of_forall (fun _ _ _ _ => ⟨fun _ => U.move.1, fun _ => U.move.2⟩) _ _)

/-! ## Maintenance -/

omit U in
/-- A path with two chunks is skipped. -/
theorem rechunkFile_skips {path : Str} (h0 : db.keysAt path 0 ≠ none)
    (h1 : db.keysAt path 1 ≠ none) (rep : RechunkReport) :
    rechunkFile E rep path db = .ok { rep with skipped := rep.skipped + 1 } db := by
  obtain ⟨k, hk⟩ := Option.ne_none_iff_exists'.1 h0
  obtain ⟨k', hk'⟩ := Option.ne_none_iff_exists'.1 h1
  have hne : (db.chunkList path).length ≠ 1 := by
    intro hone
    obtain ⟨r, hr⟩ := List.length_eq_one_iff.1 hone
    have hmem : (0, k) ∈ db.chunkList path := Db.mem_chunkList.2 hk
    have hmem' : (1, k') ∈ db.chunkList path := Db.mem_chunkList.2 hk'
    rw [hr, List.mem_singleton] at hmem hmem'
    cases hmem.trans hmem'.symm
  unfold rechunkFile
  rw [reads_bind, if_pos hne]
  rfl

omit U in
/-- If all of them have, nothing is done. -/
theorem rechunkFiles_skip : ∀ {paths : List Str} (rep : RechunkReport),
    (∀ path ∈ paths, db.keysAt path 0 ≠ none ∧ db.keysAt path 1 ≠ none) →
      ∃ rep', paths.foldlM (rechunkFile E) rep db = .ok rep' db
  | [], rep, _ => ⟨rep, rfl⟩
  | path :: paths, rep, h => by
    obtain ⟨h0, h1⟩ := h path List.mem_cons_self
    obtain ⟨rep', hrest⟩ := rechunkFiles_skip { rep with skipped := rep.skipped + 1 }
      fun q hq => h q (List.mem_cons_of_mem _ hq)
    refine ⟨rep', ?_⟩
    rw [List.foldlM_cons, bind_of_ok (rechunkFile_skips h0 h1 rep)]
    exact hrest

/-- No file has to be split again. -/
theorem keeps_vmRechunk : Keeps (EntryInv G D) (vmRechunk E) := by
  intro d h
  have hskip :
    ∀ path ∈ (d.fs.select fun _ row => row.kind = .file && chunkSize < row.size &&
      row.hash ≠ .null).map
      Prod.fst, d.keysAt path 0 ≠ none ∧ d.keysAt path 1 ≠ none := by
    intro path hpath
    obtain ⟨⟨q, row⟩, hsel, rfl⟩ := List.mem_map.1 hpath
    obtain ⟨hmem, hcond⟩ := List.mem_filter.1 hsel
    have hrow : d.fs.get? q = some row := Table.get?_eq_some_iff.2 hmem
    simp only [Bool.and_eq_true, decide_eq_true_eq] at hcond
    by_cases hq : q ∈ d.dirty
    · exact U.second (h.marked q row hrow hq) hcond.1.1 hcond.1.2
    · exact U.second (U.weaken (h.live q row hrow hq)) hcond.1.1 hcond.1.2
  obtain ⟨rep, hrun⟩ := rechunkFiles_skip (E := E) ⟨0, 0, 0⟩ hskip
  have hall : vmRechunk E d = .ok rep d := by
    unfold vmRechunk
    rw [reads_bind]
    exact hrun
  rw [endState_of_ok hall]
  exact h

omit U in
/-- Blobs are encoded again; no row has inline content. -/
theorem keeps_vmRecompress : Keeps (EntryInv G D) (vmRecompress E) := by
  have hblob : ∀ (k : K) (e : Enc), Keeps (EntryInv G D) (updateBlob k e) := fun k e =>
    Keeps.statement fun d d' h hx => by
      cases hx
      exact h.same ⟨fun _ => rfl, fun _ _ => rfl, fun _ => Iff.rfl, ⟨rfl, rfl, rfl⟩, rfl, rfl⟩
  have hraw : ∀ (k : K) (raw : Bytes), Keeps (EntryInv G D) (recompressBlob E k raw) := by
    intro k raw
    refine Keeps.bind (Keeps.reads _) fun enc => ?_
    cases enc with
    | none => exact Keeps.pure _
    | some e => exact hblob k e
  intro d h
  -- No row has inline content, so the first pass has nothing to do; the other three replace
  -- encodings only.
  have hnone : (d.fs.rows.filterMap fun r =>
      if r.2.kind = .file then r.2.content.map fun b => (r.1, b, r.2.compressed) else none) =
      [] := by
    rw [List.filterMap_eq_nil_iff]
    rintro ⟨q, row⟩ hmem
    rw [h.inline q row (Table.get?_eq_some_iff.2 hmem), Option.map_none, ite_self]
  unfold vmRecompress
  refine endState_bind (fun e d' hx => by cases hx) fun rows d' hx => ?_
  cases hx
  dsimp only
  rw [hnone]
  refine Keeps.bind (Keeps.pure _) (fun _ => ?_) d h
  refine Keeps.bind (Keeps.reads _) fun gz => Keeps.bind (Keeps.forM (fun r =>
    Keeps.bind (Keeps.query _) fun raw => hraw r.1 raw) gz) fun _ => ?_
  refine Keeps.bind (Keeps.reads _) fun plain => Keeps.bind (Keeps.forM (fun r => hraw r.1 _) plain)
    fun _ => ?_
  refine Keeps.bind (Keeps.reads _) fun zstd =>
    Keeps.forM (fun r => Keeps.bind (Keeps.query _) fun raw => ?_) zstd
  cases E.zstdCompress 19 raw with
  | none => exact Keeps.pure _
  | some c =>
    dsimp only
    split_ifs
    · exact hblob _ _
    · exact Keeps.pure _

/-! ## Packages -/

section Packages

variable {pkg : Db K} {dictMap : List (ℕ × ℕ)} {rep rep' : InjectReport}

omit U in
/-- The copies of a target are left alone. -/
theorem keeps_sameCopies_injectPath (p : Str) :
    Keeps (SameCopies db) (injectPath pkg dictMap rep p) := by
  have hst : ∀ {f : Db K → Except Err (Db K)}, (∀ d d', f d = .ok d' → SameCopies d d') →
      Keeps (SameCopies db) (statement f) :=
      fun hf => Keeps.statement fun d d' h hx => h.trans (hf d d' hx)
  have hdel : Keeps (SameCopies db) (deleteFs (K := K) fun q => q = p) := hst fun d d' hx => by
    rw [deleteFs_ok (u := ()) (statement_of_ok hx)]
    exact ⟨⟨rfl, rfl, rfl⟩, rfl, rfl, rfl⟩
  have hblob : ∀ r, Keeps (SameCopies db) (injectBlob (K := K) dictMap r) := fun r =>
    Keeps.bind (Keeps.query _) fun _ => hst fun d d' hx => by
      split_ifs at hx
      · cases hx
        exact ⟨⟨rfl, rfl, rfl⟩, rfl, rfl, rfl⟩
      · cases hx
        exact ⟨⟨rfl, rfl, rfl⟩, rfl, rfl, rfl⟩
  refine Keeps.bind (Keeps.reads _) fun existed => Keeps.bind ?_ fun _ => Keeps.bind ?_ fun _ =>
    Keeps.pure _
  · cases existed with
    | false => exact Keeps.pure _
    | true => exact hdel
  · exact Keeps.bind (hst fun _ _ hx => (insertFsRows_ok hx).2.2.2) fun _ =>
      Keeps.bind (Keeps.reads _) fun _ =>
      Keeps.bind (Keeps.forM hblob _) fun _ => Keeps.bind (Keeps.reads _) fun _ =>
        Keeps.bind (hst fun _ _ hx => (insertChunks_ok hx).2.2.2) fun _ => Keeps.pure _

omit U in
/-- One path of a package whose entry has the property. -/
theorem injectPath_entry (h : EntryInv G D db) {row : FsRow K} (hrow : pkg.fs.get? p = some row)
    (hG : G p row.toFsMeta (pkg.keysAt p)) (hx : injectPath pkg dictMap rep p db = .ok rep' db') :
    EntryInv G D db' := by
  obtain ⟨hfs, hch, hdirty⟩ := injectPath_ok hrow hx
  have hch' := hch fun hnone i => h.rows p i hnone
  have hcop :=
    (keeps_sameCopies_injectPath p).triple db rep' db' ⟨⟨rfl, rfl, rfl⟩, rfl, rfl, rfl⟩ hx
  have hclean : p ∉ db'.dirty := by
    intro hp
    obtain ⟨hin, hnone⟩ := (hdirty p).1 hp
    exact h.marks p hin (hnone.resolve_right fun hne => hne rfl)
  refine h.at ⟨fun q hq => by rw [hfs, if_neg hq], fun q i hq => by rw [hch', if_neg hq],
    fun q hq => by simp [hdirty, hq], hcop.snaps, hcop.undo, hcop.undoFs, hcop.undoChunks⟩
    (fun hnone => ?_)
    fun row' hrow' => ?_
  · rw [hfs, if_pos rfl] at hnone
    cases hnone
  · rw [hfs, if_pos rfl] at hrow'
    cases hrow'
    have hkeys : db'.keysAt p = pkg.keysAt p := funext fun i => (hch' p i).trans (if_pos rfl)
    rw [hkeys]
    exact ⟨rfl, fun _ => hG, fun hp => absurd hp hclean⟩

/-- A package all of whose entries have the property is injected. -/
theorem keeps_inject (base : Option (Db K))
    (hpkg : ∀ p row, pkg.fs.get? p = some row → G p row.toFsMeta (pkg.keysAt p)) :
    Keeps (EntryInv G D) (inject E base pkg) := by
  have hdict : ∀ pids : List ℕ, Keeps (EntryInv G D) (injectDicts pkg pids) := by
    intro pids
    induction pids with
    | nil => exact Keeps.pure _
    | cons _ _ ih =>
      refine Keeps.bind (Keeps.query _) fun _ => Keeps.bind (fun d h => ?_) fun _ =>
      Keeps.bind ih fun _ => Keeps.pure _
      exact h.same ⟨fun _ => rfl, fun _ _ => rfl, fun _ => Iff.rfl, ⟨rfl, rfl, rfl⟩, rfl, rfl⟩
  -- Each file of the package is an entry with the property, written over what was there.
  have hpaths : ∀ {m : List (ℕ × ℕ)} (paths : List Str) {rep rep' : InjectReport} {d d' : Db K},
      (∀ q ∈ paths, pkg.fs.has q = true) → EntryInv G D d →
        paths.foldlM (injectPath pkg m) rep d = .ok rep' d' → EntryInv G D d' := by
    intro m paths
    induction paths with
    | nil =>
      intro rep rep' d d' _ h hx
      cases hx
      exact h
    | cons q paths ih =>
      intro rep rep' d d' hhas h hx
      rw [List.foldlM_cons] at hx
      obtain ⟨rep₁, d₁, hone, hrest⟩ := bind_eq_ok.1 hx
      obtain ⟨row, hrow⟩ := Table.has_eq_true.1 (hhas q List.mem_cons_self)
      exact ih (fun q' hq' => hhas q' (List.mem_cons_of_mem _ hq'))
        (injectPath_entry h hrow (hpkg q row hrow) hone) hrest
  unfold inject
  dsimp only
  split_ifs
  · exact Keeps.throw _
  · refine Keeps.inSavepoint fun d rep d' h hx => ?_
    obtain ⟨m, d₁, hd, hx⟩ := bind_eq_ok.1 hx
    obtain ⟨rep₁, d₂, hfold, hx⟩ := bind_eq_ok.1 hx
    obtain ⟨drift, d₃, hverify, hx⟩ := bind_eq_ok.1 hx
    obtain ⟨n, d₄, hfin, hreads⟩ := bind_eq_ok.1 hverify
    cases hreads
    have h₂ : EntryInv G D d₂ := hpaths _ (fun q hq => ?_) ((hdict _).triple d m d₁ h hd) hfold
    · have h₃ := U.toEntryRules.keeps_finalizeDirty.triple d₂ n d₃ h₂ hfin
      split_ifs at hx
      · cases hx
      · cases hx
        exact h₃
    · rw [List.mem_insertionSort, List.mem_filter] at hq
      exact Table.has_eq_true.2 (Table.mem_keys_iff.1 hq.1)

end Packages

end UniformRules

/-! ## Runs -/

/-- An operation on a database that is not the Delta of an overlay. -/
inductive SoloOp (K : Type) where
  /-- An operation of the store. -/
  | store (op : StoreOp K)
  /-- `vm_add_file`. -/
  | addFile (fs : Fs) (mtimeOf : Loc → ℤ) (now : ℤ) (fuel : ℕ) (loc : Loc) (vmPath : Str)
  /-- A batch of `vm_pack_host_dir`, or the directories and links of `vm_pack_host_dir_parallel`. -/
  | packBatch (entries : List PackEntry) (now : ℤ)
  /-- A batch of files of `vm_pack_host_dir_parallel`. -/
  | packFiles (entries : List PackEntry) (now : ℤ)
  /-- Members of an archive are imported. -/
  | importTar (opts : TarOptions) (entries : List (Except Err TarEntry)) (now : ℤ)
  /-- A step of `vm_import_closure`. -/
  | importClosure (fs : Fs) (mtimeOf : Loc → ℤ) (now : ℤ) (fuel : ℕ) (step : ClosureStep)
  /-- `vm_sync_report`, `vm_sync_full` and `vm_sync_tree`. -/
  | syncReport (ctx : SyncCtx) (fs : Fs) (tree : Loc)
  /-- `vm_sync_paths`. -/
  | syncPaths (fs : Fs) (tree : Loc) (paths : List Str) (undo : Option ℕ) (now : ℤ)
  /-- `finalize_dirty`, as `vm_open` calls it. -/
  | finalize
  /-- `setattr` of the mount: the mode. -/
  | setMode (p : Str) (mode : ℤ)
  /-- `setattr` of the mount: the time. -/
  | setMtime (p : Str) (mtime : ℤ)
  /-- `vm_set_dict`. -/
  | setDict (dict : Bytes)
  /-- `vm_checkpoint`. -/
  | checkpoint (name : Str)
  /-- The triggers are rebuilt from other rules. -/
  | setPolicies (rules : List Rule)

/-- Run an operation. -/
def SoloOp.run (E : Ext K) : SoloOp K → Sql K Unit
  | .store op => op.run E
  | .addFile fs mtimeOf now fuel loc vmPath => vmAddFile E fs mtimeOf now fuel loc vmPath
  | .packBatch entries now => inSavepoint (entries.forM (packEntry E now))
  | .packFiles entries now => inSavepoint (entries.forM (packFile E now))
  | .importTar opts entries now => entries.forM (importEntry E opts now)
  | .importClosure fs mtimeOf now fuel step => step.run E fs mtimeOf now fuel
  | .syncReport ctx fs tree => ignoring (syncReportImpl E ctx fs tree)
  | .syncPaths fs tree paths undo now => ignoring (vmSyncPaths E fs tree paths undo now)
  | .finalize => ignoring (finalizeDirty E)
  | .setMode p mode => updateFs p fun row => { row with mode := mode }
  | .setMtime p mtime => updateFs p fun row => { row with mtime := mtime }
  | .setDict dict => ignoring (vmSetDict dict)
  | .checkpoint name => vmCheckpoint name
  | .setPolicies rules => statement fun db => .ok { db with policies := rules }

/-- What the code does not check: entries are captured without their marks, what is injected has the
property, and range operations meet their condition. -/
def SoloOp.Fits (G : EntryProp K) (R : RangeOp K → Db K → Prop) (db : Db K) : SoloOp K → Prop
  | .store (.writeRange vmPath off data mtime) => R (.write vmPath off data mtime) db
  | .store (.writeRangeDeferred cache vmPath off data mtime) =>
      R (.writeDeferred vmPath off data mtime cache) db
  | .store (.truncateRange vmPath newSize mtime) => R (.truncate vmPath newSize mtime) db
  | .store (.truncateRangeDeferred cache vmPath newSize mtime) =>
      R (.truncateDeferred vmPath newSize mtime cache) db
  | .store (.undoCapture _ path) => path ∉ db.dirty
  | .store (.undoCaptureTree _ path) =>
    ∀ p, (p = path || like (trimEndSlashes path ++ ['/', '%']) p) = true → p ∉ db.dirty
  | .store (.inject _ pkg) => ∀ p row, pkg.fs.get? p = some row → G p row.toFsMeta (pkg.keysAt p)
  | _ => True

/-- The databases that runs lead to, from a fresh one, by steps that meet a condition. A step that
fails leaves the state it ends in; one that an outer transaction rolls back leaves the state it
began in. -/
inductive SoloRun (E : Ext K) (C : Db K → SoloOp K → Prop) : Db K → Prop where
  /-- `init_vm_db`. -/
  | init (now : ℤ) : SoloRun E C (initDb now)
  /-- One more step. -/
  | step {db : Db K} (h : SoloRun E C db) (op : SoloOp K) (hop : C db op) :
      SoloRun E C (endState (op.run E) db)

namespace UniformRules

variable (U : UniformRules E G D R)

include U

/-- An operation of the store that fits keeps the property of all entries. -/
theorem storeOp (h : EntryInv G D db) (op : StoreOp K) (hfits : (SoloOp.store op).Fits G R db) :
    EntryInv G D (endState (op.run E) db) := by
  -- One case for each operation, by the lemma on what it calls.
  cases op with
  | addBytes vmPath data mode mtime now =>
    exact U.addsKept.vmAddBytes vmPath data mode mtime now db h
  | addDir vmPath mode mtime now => exact U.addsKept.vmAddDir vmPath mode mtime now db h
  | addSymlink vmPath target now => exact U.addsKept.vmAddSymlink vmPath target now db h
  | putFileStream p mode mtime src => exact Keeps.ignoring (U.keeps_stream p mode mtime 0 src) db h
  | writeRange vmPath off data mtime => exact U.range (.write vmPath off data mtime) db h hfits
  | writeRangeDeferred cache vmPath off data mtime =>
    exact U.range (.writeDeferred vmPath off data mtime cache) db h hfits
  | truncateRange vmPath newSize mtime => exact U.range (.truncate vmPath newSize mtime) db h hfits
  | truncateRangeDeferred cache vmPath newSize mtime =>
    exact U.range (.truncateDeferred vmPath newSize mtime cache) db h hfits
  | deleteRows sel => exact EntryInv.keeps_deleteFs sel db h
  | rename replaced moves => exact U.keeps_fuseRename replaced moves db h
  | snapshotCreate name => exact Keeps.ignoring (U.toEntryRules.keeps_snapshotCreate name) db h
  | snapshotCreateNamed pfx placeholder =>
    exact Keeps.ignoring (U.toEntryRules.keeps_snapshotCreateNamed pfx placeholder) db h
  | snapshotRestore name => exact EntryInv.keeps_snapshotRestore name db h
  | snapshotDelete name => exact EntryInv.keeps_snapshotDelete name db h
  | snapshotRetain keep => exact Keeps.ignoring (EntryInv.keeps_snapshotRetain keep) db h
  | undoBegin => exact Keeps.ignoring EntryInv.keeps_undoBegin db h
  | undoCapture id path => exact h.capture fun hp => absurd hp hfits
  | undoCaptureTree id path => exact (h.undoCaptureTree fun p hp hin => absurd hin (hfits p hp)).1
  | undoApply id => exact EntryInv.keeps_undoApply id db h
  | undoDelete id => exact EntryInv.keeps_undoDelete id db h
  | rechunk => exact Keeps.ignoring U.keeps_vmRechunk db h
  | recompress => exact keeps_vmRecompress db h
  | inject base pkg => exact Keeps.ignoring (U.keeps_inject base hfits) db h

/-- One step of a run keeps the property of all entries, by cases on the operation. -/
theorem step (h : EntryInv G D db) (op : SoloOp K) (hfits : op.Fits G R db) :
    EntryInv G D (endState (op.run E) db) := by
  -- One case for each operation, by the lemma on its writer.
  cases op with
  | store op => exact U.storeOp h op hfits
  | addFile fs mtimeOf now fuel loc vmPath =>
    exact U.addsKept.vmAddFile fs mtimeOf now fuel loc vmPath db h
  | packBatch entries now => exact Keeps.saved (Keeps.forM (U.addsKept.packEntry now) entries) db h
  | packFiles entries now => exact U.keeps_packFiles now entries db h
  | importTar opts entries now => exact Keeps.forM (U.addsKept.importEntry opts now) entries db h
  | importClosure fs mtimeOf now fuel step =>
    exact U.addsKept.closureStep fs mtimeOf now fuel step db h
  | syncReport ctx fs tree => exact Keeps.ignoring (U.keeps_syncReportImpl ctx fs tree) db h
  | syncPaths fs tree paths undo now =>
      exact Keeps.ignoring (U.keeps_vmSyncPaths fs tree paths undo now) db h
  | finalize => exact Keeps.ignoring U.toEntryRules.keeps_finalizeDirty db h
  | setMode p mode =>
    exact U.keeps_touch p (f := fun row => { row with mode := mode }) (fun _ => ⟨rfl, rfl, rfl,
      rfl⟩) db h
  | setMtime p mtime =>
    exact U.keeps_touch p (f := fun row => { row with mtime := mtime }) (fun _ => ⟨rfl, rfl, rfl,
      rfl⟩) db h
  | setDict dict =>
    exact h.same ⟨fun _ => rfl, fun _ _ => rfl, fun _ => Iff.rfl, ⟨rfl, rfl, rfl⟩, rfl, rfl⟩
  | checkpoint name => exact Keeps.ignoring (EntryInv.keeps_insertSnapshot name) db h
  | setPolicies rules =>
    exact h.same ⟨fun _ => rfl, fun _ _ => rfl, fun _ => Iff.rfl, ⟨rfl, rfl, rfl⟩, rfl, rfl⟩

omit U [DecidableEq K] in
/-- A new database has one entry, its root. -/
theorem entryInv_initDb (hroot : ∀ now, G root (dirRow 493 now : FsRow K).toFsMeta fun _ => none)
    (now : ℤ) :
    EntryInv G D (initDb now) := by
  have hget : ∀ q (row : FsRow K), (initDb now : Db K).fs.get? q = some row → q = root ∧
    row = dirRow 493 now := by
    intro q row hq
    have hmem := Table.get?_eq_some_iff.1 hq
    rw [show (initDb now : Db K).fs.rows = [(root, dirRow 493 now)] from rfl,
      List.mem_singleton] at hmem
    cases hmem
    exact ⟨rfl, rfl⟩
  refine ⟨⟨fun q row hq => ?_, fun _ _ _ => rfl, fun _ hq => absurd hq List.not_mem_nil,
    fun _ _ _ => rfl,
    fun _ _ _ _ => rfl, fun _ _ _ _ => rfl⟩, fun q row hq _ => ?_,
    fun _ _ _ hq => absurd hq List.not_mem_nil,
    fun _ _ _ hm => (by cases hm), fun _ _ _ hm => (by cases hm)⟩
  · rw [(hget q row hq).2]
    rfl
  · obtain ⟨rfl, rfl⟩ := hget q row hq
    exact hroot now

/-- The properties hold in every state of a run. -/
theorem of_run (h : SoloRun E (SoloOp.Fits G R) db) : EntryInv G D db := by
  induction h with
  | init now => exact entryInv_initDb (fun now => U.node root 493 now 0 none (by decide)) now
  | step _ op hop ih => exact U.step ih op hop

end UniformRules

end Dbvm
