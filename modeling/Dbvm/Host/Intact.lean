import Dbvm.RangeWrite
import Dbvm.Host.Entry
import Dbvm.Undo.Sync

/-!
# What a sync keeps

Every statement of a sync keeps the counts exact and the blobs decodable, so after it the rows alone
say what the files contain. A hash that is not marked stale is that of the file (`Db.Honest`): this
is what `vm_sync_full` relies on when it compares a stored hash with the content of a host file.
-/

namespace Dbvm

open Lib Lib.Chunks Lib.Prog Lib.Posix

variable {K : Type} [DecidableEq K] {E : Ext K} {db db' : Db K}

/-! ## Soundness -/

section Sound

/-- An upsert of a row without inline content keeps a database sound. -/
theorem keeps_sound_upsertFs (p : Str) {row : FsRow K} {upd : FsRow K → FsRow K}
    (hrow : row.content = none) (hupd : ∀ r, (upd r).content = none) :
    Keeps (Sound E) (upsertFs p row upd) := by
  refine Keeps.statement fun db db' h hx => ?_
  rcases upsertFs_ok (u := ()) (statement_eq_ok.2 hx) with ⟨old, -, rfl⟩ | ⟨-, rfl⟩
  · exact h.setFs p fun r _ => hupd r
  · exact h.addFs p hrow

/-- An update that brings no inline content keeps a database sound. -/
theorem keeps_sound_updateFs (p : Str) {f : FsRow K → FsRow K}
    (hf : ∀ row, row.content = none → (f row).content = none) : Keeps (Sound E) (updateFs p f) := by
  refine Keeps.statement fun db db' h hx => ?_
  rcases updateFs_ok (u := ()) (statement_eq_ok.2 hx) with ⟨-, rfl⟩ | ⟨_, -, rfl⟩
  · exact h
  · exact h.setFs p hf

/-- A delete of rows keeps a database sound. -/
theorem keeps_sound_deleteFs (sel : Str → Bool) : Keeps (Sound E) (deleteFs sel) := by
  refine Keeps.statement fun db db' h hx => ?_
  rw [deleteFs_ok (u := ()) (statement_eq_ok.2 hx)]
  exact h.delFs sel

/-- A delete of chunk rows keeps a database sound. -/
theorem keeps_sound_deleteChunks (sel : Str → ℕ → Bool) : Keeps (Sound E) (deleteChunks sel) := by
  refine Keeps.statement fun db db' h hx => ?_
  rw [deleteChunks_ok (u := ()) (statement_eq_ok.2 hx)]
  exact h.delChunks sel

/-- The end of a mark keeps a database sound. -/
theorem keeps_sound_deleteDirty (p : Str) : Keeps (Sound E) (deleteDirty p) := by
  refine Keeps.statement fun db db' h hx => ?_
  cases hx
  exact h.setDirty _

variable (hC : E.Faithful)

include hC

/-- A chunk that is stored and listed keeps a database sound. -/
theorem triple_sound_appendChunk (p : Str) (idx : ℕ) (piece : Bytes) :
    Triple (Sound E) (appendChunk E p idx piece) fun _ => Sound E := by
  intro db u db' h hx
  obtain ⟨flag, hflag⟩ := blobEnsureWith_eq E .archive db piece
  unfold appendChunk blobEnsure at hx
  rw [bind_of_ok hflag] at hx
  obtain ⟨hfree, rfl⟩ := insertChunk_ok hx
  rw [Db.withBlob_chunks] at hfree
  exact h.addChunk hC .archive hfree

/-- The loop over the chunks of a stream keeps a database sound. -/
theorem triple_sound_putStreamChunks (p : Str) : ∀ (fuel idx : ℕ) (src : Reader),
    Triple (Sound E) (putStreamChunks E p fuel idx src) fun _ => Sound E
  | 0, _, _ => Triple.pure fun _ h => h
  | fuel + 1, idx, src => by
    unfold putStreamChunks
    refine Triple.bind (Triple.query fun _ _ h _ => h) ?_
    rintro ⟨piece, rest⟩
    dsimp only
    split_ifs
    · exact Triple.pure fun _ h => h
    · exact Triple.bind (triple_sound_appendChunk hC p idx piece) fun _ => Triple.pure fun _ h => h
    · exact Triple.bind (triple_sound_appendChunk hC p idx piece) fun _ =>
        Triple.bind (triple_sound_putStreamChunks p fuel (idx + 1) rest) fun _ =>
        Triple.pure fun _ h => h

omit hC in
/-- `fs_put_node` keeps a database sound. -/
theorem keeps_sound_fsPutNode (p : Str) (kind : Kind) (mode mtime : ℤ) (link : Option Str) :
    Keeps (Sound E) (fsPutNode p kind mode mtime link) :=
  Keeps.inSavepoint (Keeps.triple (Keeps.bind (keeps_sound_deleteChunks _) fun _ =>
    keeps_sound_upsertFs p rfl fun _ => rfl))

/-- `fs_put_file_stream_ns` keeps a database sound. -/
theorem keeps_sound_fsPutFileStreamNs (p : Str) (mode mtime ns : ℤ) (src : Reader) :
    Keeps (Sound E) (fsPutFileStreamNs E p mode mtime ns src) :=
  Keeps.inSavepoint (Triple.bind (Keeps.triple (keeps_sound_deleteChunks _)) fun _ =>
    Triple.bind (triple_sound_putStreamChunks hC p _ 0 src) fun _ =>
      Triple.bind (Keeps.triple (keeps_sound_upsertFs p rfl fun _ => rfl)) fun _ =>
        Triple.pure fun _ h => h)

/-- `write_file_checked` keeps a database sound, whatever the file does meanwhile. -/
theorem keeps_sound_writeFileChecked (p : Str) (mode mtime ns : ℤ) (src : Reader) :
    Keeps (Sound E) (writeFileChecked E p mode mtime ns src) := by
  unfold writeFileChecked
  refine Keeps.bind (keeps_sound_fsPutFileStreamNs hC p mode mtime ns src) fun _ => ?_
  split_ifs
  · exact keeps_sound_updateFs p fun _ h => h
  · exact Keeps.pure _

/-- `sync_one` keeps a database sound. -/
theorem keeps_sound_syncOne {ctx : SyncCtx} (hundo : ctx.undo = none) (node : Node) (p : Str)
    (prev : Option (FsMeta K)) : Keeps (Sound E) (syncOne E ctx node p prev) := by
  refine keeps_syncOne_of (fun hx => ?_) (keeps_sound_fsPutNode p)
    (fun _ hf => keeps_sound_updateFs p hf)
    (keeps_sound_writeFileChecked hC p) node prev
  unfold SyncCtx.capture
  rw [hundo]
  exact Keeps.bind (Keeps.pure _) fun _ => hx

omit hC in
/-- The deletion of a row keeps a database sound. -/
theorem keeps_sound_syncDelete {ctx : SyncCtx} (hundo : ctx.undo = none) (rep : SyncReport)
    (p : Str) :
    Keeps (Sound E) (syncDelete ctx rep p) := by
  unfold syncDelete SyncCtx.capture
  rw [hundo]
  exact Keeps.bind (Keeps.pure _) fun _ => Keeps.bind (Keeps.reads _) fun _ =>
    Keeps.bind (keeps_sound_deleteFs _) fun _ => Keeps.pure _

/-- The whole tree, once the hashes are computed. -/
theorem keeps_sound_syncBody {ctx : SyncCtx} (hundo : ctx.undo = none) (fs : Fs) (tree : Loc) :
    Keeps (Sound E) (syncBody E ctx fs tree) := by
  have hentry : ∀ rows aliases st e, Keeps (Sound E) (syncEntry E ctx tree rows aliases st e) := by
    rintro rows aliases st (_ | ⟨loc, node⟩)
    · exact Keeps.pure _
    · unfold syncEntry
      dsimp only
      split_ifs
      · exact Keeps.pure _
      · split
        · exact Keeps.pure _
        · exact Keeps.bind (Keeps.attempt (keeps_sound_syncOne hC hundo _ _ _)) fun _ =>
            Keeps.pure _
  exact Keeps.bind (Keeps.reads _) fun d => Keeps.bind (Keeps.foldlM (hentry _ _) _ _) fun st =>
    Keeps.foldlM (keeps_sound_syncDelete hundo) _ _

end Sound

/-! ## Hashes -/

section Honest

/-- Every hash that is not marked stale is that of the file, and the files that are marked can be
read. -/
def Db.Honest (E : Ext K) (db : Db K) : Prop := ∀ p row, db.fs.get? p = some row →
  row.kind = .file →
  (p ∈ db.dirty → ∃ b, db.Holds E p b) ∧
    (p ∉ db.dirty → ∀ k, row.hash = .key k → ∃ b, db.Holds E p b ∧ k = E.blobKey b)

/-- The bytes of a file do not depend on its hash. -/
theorem Db.Holds.of_row {p : Str} {b : Bytes} {row : FsRow K} (row' : FsRow K)
    (h : db.Holds E p b) (hrow : db.fs.get? p = some row) (hrow' : db'.fs.get? p = some row')
    (hkind : row'.kind = row.kind) (hsize : row'.size = row.size) (hhash : row'.hash ≠ .null)
    (hch : db'.chunks = db.chunks) (hbl : db'.blobs = db.blobs) (hdicts : db'.dicts = db.dicts) :
    db'.Holds E p b := by
  obtain ⟨r, hr, hk, hs, -⟩ := h.row
  rw [hrow] at hr
  cases hr
  refine ⟨⟨row', hrow', hkind.trans hk, hsize.trans hs, hhash⟩, fun i => ?_, fun i hi => ?_⟩
  · rw [hch, h.chunks]
  · obtain ⟨c, hc, hdec, hkey⟩ := h.blobs i hi
    exact ⟨c, by rw [hbl, hc], by rw [hdicts, hdec], hkey⟩

/-- Computing one stale hash leaves the hashes honest. -/
theorem honest_finalizeFile (hE : Function.Injective E.blobKey) {p : Str} {flag : Bool}
    (hs : Sound E db) (h : db.Honest E) (hrun : finalizeFile E p db = .ok flag db') :
    Sound E db' ∧ db'.Honest E := by
  refine ⟨(keeps_finalizeFile_of (fun q _ => keeps_sound_updateFs q fun _ h => h)
    keeps_sound_deleteDirty E p).triple db flag db' hs hrun, ?_⟩
  rcases finalizeFile_cases hrun with ⟨-, rfl⟩ | ⟨hp, row, whole, hrow, hwhole, rfl⟩
  · exact h
  intro q row' hq hkind
  change (db.setFs p _).fs.get? q = some row' at hq
  rw [Db.get?_setFs] at hq
  -- Another path keeps its row and its mark.
  by_cases hqp : q = p
  · -- The hash that was computed is that of the bytes.
    rw [if_pos hqp, hrow, Option.map_some, Option.some.injEq] at hq
    have hkind' : row.kind = .file := by
      rw [← hkind, ← hq]
    obtain ⟨b, hb⟩ := (h p row hrow hkind').1 hp
    have hsize : row.size = b.length := by
      obtain ⟨r, hr, -, hs, -⟩ := hb.row
      rw [hrow] at hr
      cases hr
      exact hs
    rw [hsize, wholeFileHash_total hE hs hb.chunks] at hwhole
    have hkey : E.blobKey b = whole := by
      cases hwhole
      rfl
    refine ⟨fun hmem => absurd hqp (by simpa using (List.mem_filter.1 hmem).2),
      fun _ k hk => ⟨b, ?_, ?_⟩⟩
    · rw [hqp]
      refine hb.of_row { row with hash := .key whole } hrow ?_ rfl rfl (by simp) rfl rfl rfl
      change (db.setFs p _).fs.get? p = _
      rw [Db.get?_setFs, if_pos rfl, hrow]
      rfl
    · rw [← hq] at hk
      rw [hkey]
      exact (FileHash.key.inj hk).symm
  · rw [if_neg hqp] at hq
    have hdirty : q ∈ db.dirty.filter (· ≠ p) ↔ q ∈ db.dirty := by
      rw [List.mem_filter]
      simp [hqp]
    have hmove : ∀ b, db.Holds E q b →
        Db.Holds E ({ db.setFs p (fun row => { row with hash := .key whole })
        with dirty := db.dirty.filter (· ≠ p) } : Db K) q b := by
      intro b hb
      obtain ⟨r, hr, -, -, hnull⟩ := hb.row
      refine hb.of_row _ hr ?_ rfl rfl hnull rfl rfl rfl
      change (db.setFs p _).fs.get? q = _
      rw [Db.get?_setFs, if_neg hqp, hr]
    obtain ⟨hstale, hfresh⟩ := h q row' hq hkind
    refine ⟨fun hmem => ?_, fun hmem k hk => ?_⟩
    · obtain ⟨b, hb⟩ := hstale (hdirty.1 hmem)
      exact ⟨b, hmove b hb⟩
    · obtain ⟨b, hb, hkb⟩ := hfresh (fun hq => hmem (hdirty.2 hq)) k hk
      exact ⟨b, hmove b hb, hkb⟩

/-- Computing every stale hash leaves the hashes honest. -/
theorem honest_finalizeDirty (hE : Function.Injective E.blobKey) {n : ℕ} (hs : Sound E db)
    (h : db.Honest E) (hrun : finalizeDirty E db = .ok n db') : Sound E db' ∧ db'.Honest E := by
  have hone : ∀ p, Keeps (fun d => Sound E d ∧ d.Honest E) (finalizeFile E p) := by
    rintro p d ⟨hs, h⟩
    unfold endState
    rcases hx : finalizeFile E p d with ⟨b, d'⟩ | ⟨e, d'⟩
    · exact honest_finalizeFile hE hs h hx
    · rw [finalizeFile_error hx]
      exact ⟨hs, h⟩
  have hall : Keeps (fun d => Sound E d ∧ d.Honest E) (finalizeDirty E) :=
    Keeps.bind (Keeps.reads _) fun paths => Keeps.foldlM (fun n p =>
      Keeps.bind (hone p) fun b => Keeps.pure _) paths 0
  exact hall.triple db n db' ⟨hs, h⟩ hrun

/-- The rows without their hashes, in order. -/
def Db.shape (db : Db K) : List (Str × FsRow K) := db.fs.rows.map fun r => (r.1, r.2.unhashed)

/-- Computing the hashes leaves the rest of the rows, and their order. -/
theorem shape_finalizeDirty {n : ℕ} (hrun : finalizeDirty E db = .ok n db') :
    db'.shape = db.shape := by
  have hkeeps : Keeps (fun d : Db K => d.shape = db.shape) (finalizeDirty E) := by
    refine keeps_finalizeDirty_of (fun p h => Keeps.statement fun d d' hd hx => ?_)
      (fun p => Keeps.statement fun d d' hd hx => ?_) E
    · rcases updateFs_ok (u := ()) (statement_eq_ok.2 hx) with ⟨-, rfl⟩ | ⟨_, -, rfl⟩
      · exact hd
      · rw [← hd]
        unfold Db.shape Db.setFs Table.update
        rw [List.map_map]
        refine List.map_congr_left fun r _ => ?_
        rw [Function.comp_apply]
        split_ifs with hr
        · rw [hr]
          rfl
        · rfl
    · cases hx
      exact hd
  exact hkeeps.triple db n db' rfl hrun

omit [DecidableEq K] in
/-- The links are part of the shape. -/
theorem links_of_shape (h : db'.shape = db.shape) : db'.links = db.links := by
  have hlinks : ∀ d : Db K, d.links = d.shape.filterMap fun r =>
      if r.2.kind = .symlink then r.2.linkTarget.map fun t => (r.1, t) else none := by
    intro d
    unfold Db.shape
    rw [List.filterMap_map]
    rfl
  rw [hlinks, hlinks, h]

omit [DecidableEq K] in
/-- The paths are part of the shape. -/
theorem paths_of_shape (h : db'.shape = db.shape) :
    db'.fs.rows.map Prod.fst = db.fs.rows.map Prod.fst := by
  have hpaths : ∀ d : Db K, d.fs.rows.map Prod.fst = d.shape.map Prod.fst := by
    intro d
    unfold Db.shape
    rw [List.map_map]
    rfl
  rw [hpaths, hpaths, h]

omit [DecidableEq K] in
/-- The rows up to their hashes are part of the shape. -/
theorem row_of_shape (h : db'.shape = db.shape) (q : Str) :
    (db'.fs.get? q).map FsRow.unhashed = (db.fs.get? q).map FsRow.unhashed := by
  have hrow : ∀ d : Db K, (d.fs.get? q).map FsRow.unhashed =
      (d.shape.find? fun r => r.1 = q).map Prod.snd := by
    intro d
    unfold Db.shape Table.get?
    rw [List.find?_map, Option.map_map, Option.map_map]
    rfl
  rw [hrow, hrow, h]

omit [DecidableEq K] in
/-- The links that are served depend on the shape only. -/
theorem servedLinks_of_shape (h : db'.shape = db.shape) (aliases : List (Str × Str)) :
    db'.servedLinks aliases = db.servedLinks aliases := by
  have hkind : ∀ (d : Db K) (q : Str), (d.fs.get? q).any (fun row => row.kind ≠ .symlink) =
      ((d.fs.get? q).map FsRow.unhashed).any fun row => row.kind ≠ .symlink := by
    intro d q
    rcases d.fs.get? q with _ | row <;> rfl
  have hserved : ∀ d : Db K, d.servedLinks aliases = (d.shape.filter fun r => r.2.kind = .symlink &&
      (linkAliasTargetOf r.1 aliases).any fun q =>
        ((d.fs.get? q).map FsRow.unhashed).any fun row => row.kind ≠ .symlink).map Prod.fst := by
    intro d
    unfold Db.servedLinks Db.shape
    rw [List.filter_map, List.map_map]
    refine congrArg₂ List.map rfl (List.filter_congr fun r _ => ?_)
    rw [Function.comp_apply]
    rcases linkAliasTargetOf r.1 aliases with _ | q
    · rfl
    · exact congrArg (decide (r.2.kind = .symlink) && ·) (hkind d q)
  rw [hserved, hserved, h]
  refine congrArg₂ List.map rfl (List.filter_congr fun r _ => ?_)
  simp only [row_of_shape h]

omit [DecidableEq K] in
/-- A new database has a root and nothing else. -/
theorem row_initDb {now : ℤ} {q : Str} {row : FsRow K}
    (h : (initDb now : Db K).fs.get? q = some row) :
    q = root ∧ row.kind = .dir := by
  have hmem := Table.get?_eq_some_iff.1 h
  have hrow := List.mem_singleton.1 hmem
  rw [Prod.mk.injEq] at hrow
  exact ⟨hrow.1, by rw [hrow.2]⟩

/-- The root has no hash and no content. -/
theorem honest_initDb (E : Ext K) (now : ℤ) : (initDb now : Db K).Honest E := by
  intro p row hrow hkind
  rw [(row_initDb hrow).2] at hkind
  cases hkind

omit [DecidableEq K] in
/-- The only path of a new database is the root. -/
theorem normal_initDb {now : ℤ} {q : Str} (h : (initDb now : Db K).fs.has q = true) : Normal q := by
  obtain ⟨row, hrow⟩ := Table.has_eq_true.1 h
  rw [(row_initDb hrow).1]
  decide

end Honest

end Dbvm
