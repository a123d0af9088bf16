import Dbvm.Content
import Dbvm.Overlay.Refs

/-!
# What the overlay's operations do to rows and whiteouts

An operation that fails leaves the overlay as it was. One that returns clears the whiteouts of its
path and writes a row there, and `write`, `mkdir` and `symlink` create the parents that have no row
(`Wrote`); `remove` deletes the rows of a subtree and leaves a whiteout (`Removed`).
-/

namespace Dbvm

open Lib Lib.Chunks Lib.Prog

variable {K : Type} [DecidableEq K]

/-! ## The rows after a write of the store -/

section Store

variable {db db' : Db K} {u : Unit}

omit [DecidableEq K] in
/-- A new row is at its path; the others stay. -/
theorem Db.get?_addFs {p : Str} (row : FsRow K) (h : db.fs.get? p = none) (q : Str) :
    (db.addFs p row).fs.get? q = if q = p then some row else db.fs.get? q := by
  rw [Db.addFs, Table.get?_insertIgnore, h, Option.getD_none]

omit [DecidableEq K] in
/-- An update changes the row of its path; the others stay. -/
theorem Db.get?_setFs (p : Str) (f : FsRow K → FsRow K) (q : Str) :
    (db.setFs p f).fs.get? q = if q = p then (db.fs.get? p).map f else db.fs.get? q :=
  Table.get?_update _ _ _ _

/-- A delete takes out the rows it selects; the others stay. -/
theorem Db.get?_delFs (sel : Str → Bool) (q : Str) :
    (db.delFs sel).fs.get? q = if sel q then none else db.fs.get? q := by
  rw [Db.delFs, Table.get?_deleteWhere]
  by_cases h : sel q = true
  · rcases db.fs.get? q with _ | row <;> simp [h]
  · rcases db.fs.get? q with _ | row <;> simp [h]

omit [DecidableEq K] in
/-- The parents that were missing are there, the other rows are the old ones. -/
theorem ensureParentDirs_rows {p : Str} {now : ℤ} (h : ensureParentDirs p now db = .ok u db')
    (q : Str) : db'.fs.get? q =
      if q ∈ parentDirs p ∧ db.fs.get? q = none then some (dirRow 493 now)
      else db.fs.get? q := by
  -- The invariant of the loop: the parents done so far have rows, new where there was none.
  have hloop := Triple.forM (f := fun d => insertFsIgnore d (dirRow (K := K) 493 now))
    (J := fun rest d => ∃ done, parentDirs p = done ++ rest ∧ ∀ q, d.fs.get? q =
      if q ∈ done ∧ db.fs.get? q = none then some (dirRow 493 now) else db.fs.get? q) ?_
    (parentDirs p) db u db' ⟨[], rfl, fun q => (if_neg (by simp)).symm⟩ h
  · obtain ⟨done, hdone, hfs⟩ := hloop
    rw [List.append_nil] at hdone
    rw [hdone]
    exact hfs q
  · rintro x rest d v d' ⟨done, hdone, hfs⟩ hx
    refine ⟨done ++ [x], by simp [hdone], fun q => ?_⟩
    have hxd := hfs x
    rcases insertFsIgnore_ok hx with ⟨hold, rfl⟩ | ⟨hnew, rfl⟩
    · -- The directory has a row, an old one or one of this loop.
      rw [hfs q]
      rcases eq_or_ne q x with rfl | hne
      · by_cases hd : q ∈ done ∧ db.fs.get? q = none
        · rw [if_pos hd, if_pos ⟨by simp [hd.1], hd.2⟩]
        · rw [if_neg hd] at hxd
          rw [if_neg hd, if_neg (fun h' => hold (hxd.trans h'.2))]
      · simp [hne]
    · rw [Db.get?_addFs _ hnew]
      rcases eq_or_ne q x with rfl | hne
      · have hfree : db.fs.get? q = none := by
          rw [hnew] at hxd
          split_ifs at hxd with hd
          exact hxd.symm
        rw [if_pos rfl, if_pos ⟨by simp, hfree⟩]
      · rw [if_neg hne, hfs q]
        simp [hne]

omit [DecidableEq K] in
/-- `ensure_parent_dirs` leaves the chunk rows alone. -/
theorem ensureParentDirs_chunks {p : Str} {now : ℤ} (h : ensureParentDirs p now db = .ok u db') :
    db'.chunks = db.chunks := by
  refine Triple.forM_inv (p := fun d => d.chunks = db.chunks) (fun x _ d v d' hd hx => ?_) db u db'
    rfl h
  rcases insertFsIgnore_ok hx with ⟨-, rfl⟩ | ⟨-, rfl⟩
  · exact hd
  · exact hd

omit [DecidableEq K] in
/-- An insert that overwrites leaves the updated row or the new one, and the other rows. -/
theorem upsertFs_rows {p : Str} {row : FsRow K} {upd : FsRow K → FsRow K}
    (h : upsertFs p row upd db = .ok u db') :
    ((∃ old, db'.fs.get? p = some (upd old)) ∨ db'.fs.get? p = some row) ∧
      (∀ q, q ≠ p → db'.fs.get? q = db.fs.get? q) ∧ db'.chunks = db.chunks := by
  rcases upsertFs_ok h with ⟨old, hold, rfl⟩ | ⟨hnew, rfl⟩
  · refine ⟨Or.inl ⟨old, ?_⟩, fun q hq => ?_, rfl⟩
    · rw [Db.get?_setFs, if_pos rfl, hold]
      rfl
    · rw [Db.get?_setFs, if_neg hq]
  · refine ⟨Or.inr ?_, fun q hq => ?_, rfl⟩
    · rw [Db.get?_addFs _ hnew, if_pos rfl]
    · rw [Db.get?_addFs _ hnew, if_neg hq]

/-- A chunk that is stored and listed changes one chunk row and no row of the tree. -/
theorem appendChunk_ok {E : Ext K} {p : Str} {idx : ℕ} {piece : Bytes}
    (h : appendChunk E p idx piece db = .ok u db') :
    db'.fs = db.fs ∧ ∀ q i, db'.chunks.get? (q, i) =
      if (q, i) = (p, idx) then some (E.blobKey piece) else db.chunks.get? (q, i) := by
  obtain ⟨flag, hflag⟩ := blobEnsureWith_eq E .archive db piece
  unfold appendChunk blobEnsure at h
  rw [bind_of_ok hflag] at h
  obtain ⟨hfree, rfl⟩ := insertChunk_ok h
  refine ⟨Db.withBlob_fs E .archive db piece, fun q i => ?_⟩
  rw [Db.addChunk, Table.get?_insertIgnore, hfree, Option.getD_none, Db.withBlob_chunks]

/-- A delete takes out the chunk rows it selects; the others stay. -/
theorem Db.get?_delChunks (sel : Str → ℕ → Bool) (q : Str) (i : ℕ) :
    (db.delChunks sel).chunks.get? (q, i) = if sel q i then none else db.chunks.get? (q, i) := by
  rw [Db.delChunks, Table.get?_deleteWhere]
  by_cases h : sel q i = true
  · rcases db.chunks.get? (q, i) with _ | k <;> simp [h]
  · rcases db.chunks.get? (q, i) with _ | k <;> simp [h]

/-- A row that is deleted takes its own chunk rows with it and no others. -/
theorem Db.get?_chunks_delFs {sel : Str → Bool} {q : Str} (i : ℕ) (h : sel q = false) :
    (db.delFs sel).chunks.get? (q, i) = db.chunks.get? (q, i) := by
  have hdel : (db.delChunks fun p _ => sel p && db.fs.has p).chunks.get? (q, i) = _ :=
    Db.get?_delChunks _ q i
  rw [if_neg (by simp [h])] at hdel
  exact hdel

/-- The chunk rows of a file whose content is replaced. -/
theorem chunksReplace_ok {E : Ext K} {p : Str} {data : Bytes}
    (h : chunksReplace E p data db = .ok u db') :
    db'.fs = db.fs ∧ ∀ q i, db'.chunks.get? (q, i) =
      if q = p then chunkRow E data i else db.chunks.get? (q, i) := by
  obtain ⟨_, db₁, hdel, hloop⟩ := bind_eq_ok.1 h
  rw [deleteChunks_ok hdel] at hloop
  -- `n` chunks are there when the loop comes to chunk `n`.
  have hrun := Triple.forM (f := fun piece : Bytes × ℕ => appendChunk E p piece.2 piece.1)
    (J := fun rest d => ∃ n m, n + m = numChunks chunkSize data.length ∧
      rest = (List.range' n m).map (fun i => (chunkAt chunkSize data i, i)) ∧
      d.fs = db.fs ∧ ∀ q i, d.chunks.get? (q, i) =
        if q = p then if i < n then some (E.blobKey (chunkAt chunkSize data i)) else none
        else db.chunks.get? (q, i)) ?_
    (chunksOf chunkSize data).zipIdx _ _ _ ⟨0, _, Nat.zero_add _, zipIdx_chunksOf _ _,
      rfl, ?_⟩ hloop
  · obtain ⟨n, m, hnm, hnil, hfs, hch⟩ := hrun
    have hm : m = 0 := by
      have := congrArg List.length hnil
      simpa using this.symm
    rw [hm, Nat.add_zero] at hnm
    subst hnm
    exact ⟨hfs, hch⟩
  · rintro x rest d v d' ⟨n, m, hnm, heq, hfs, hch⟩ hx
    rcases m with _ | m
    · cases heq
    rw [List.range'_succ, List.map_cons] at heq
    cases heq
    obtain ⟨hfs', hch'⟩ := appendChunk_ok hx
    refine ⟨n + 1, m, by omega, rfl, hfs'.trans hfs, fun q i => ?_⟩
    rw [hch', hch]
    rcases eq_or_ne q p with rfl | hq
    · rcases lt_trichotomy i n with hi | rfl | hi
      · rw [if_neg (by rintro ⟨⟩; exact lt_irrefl _ hi)]
        simp [hi, Nat.lt_succ_of_lt hi]
      · simp
      · rw [if_neg (by rintro ⟨⟩; exact lt_irrefl _ hi)]
        simp [Nat.not_lt.2 (Nat.le_of_lt hi), Nat.not_lt.2 hi]
    · rw [if_neg (by rintro ⟨⟩; exact hq rfl), if_neg hq]
      simp [hq]
  · intro q i
    rw [Db.get?_delChunks]
    simp

/-- What a write of a whole entry leaves at `p`, and what it leaves alone. -/
structure Put (p : Str) (kind : Kind) (mode : ℤ) (size : ℕ) (link : Option Str) (db db' : Db K) :
    Prop where
  /-- The row. -/
  row : ∃ row, db'.fs.get? p = some row ∧ row.kind = kind ∧ row.mode = mode ∧ row.size = size ∧
    row.linkTarget = link
  /-- The rows at other paths. -/
  fs : ∀ q, q ≠ p → db'.fs.get? q = db.fs.get? q
  /-- The chunk rows of other paths. -/
  chunks : ∀ q i, q ≠ p → db'.chunks.get? (q, i) = db.chunks.get? (q, i)

/-- What `fs_put_file` leaves when it returns. -/
theorem fsPutFile_ok {E : Ext K} {p : Str} {mode mtime : ℤ} {data : Bytes}
    (h : fsPutFile E p mode mtime data db = .ok u db') :
    Put p .file mode data.length none db db' ∧ ∀ i, db'.chunks.get? (p, i) = chunkRow E data i := by
  unfold fsPutFile inSavepoint at h
  obtain ⟨_, db₁, hrep, hput⟩ := bind_eq_ok.1 (savepoint_eq_ok.1 h)
  obtain ⟨hfs, hch⟩ := chunksReplace_ok hrep
  obtain ⟨hrow, hother, hch'⟩ := upsertFs_rows hput
  refine ⟨⟨?_, fun q hq => ?_, fun q i hq => ?_⟩, fun i => ?_⟩
  · rcases hrow with ⟨old, hrow⟩ | hrow
    · exact ⟨_, hrow, rfl, rfl, rfl, rfl⟩
    · exact ⟨_, hrow, rfl, rfl, rfl, rfl⟩
  · rw [hother q hq, hfs]
  · rw [hch', hch, if_neg hq]
  · rw [hch', hch, if_pos rfl]

/-- What `fs_put_node` leaves when it returns. -/
theorem fsPutNode_ok {p : Str} {kind : Kind} {mode mtime : ℤ} {link : Option Str}
    (h : fsPutNode p kind mode mtime link db = .ok u db') :
    Put p kind mode 0 link db db' ∧ ∀ i, db'.chunks.get? (p, i) = none := by
  unfold fsPutNode inSavepoint at h
  obtain ⟨_, db₁, hdel, hput⟩ := bind_eq_ok.1 (savepoint_eq_ok.1 h)
  rw [deleteChunks_ok hdel] at hput
  obtain ⟨hrow, hother, hch⟩ := upsertFs_rows hput
  refine ⟨⟨?_, hother, fun q i hq => ?_⟩, fun i => ?_⟩
  · rcases hrow with ⟨old, hrow⟩ | hrow
    · exact ⟨_, hrow, rfl, rfl, rfl, rfl⟩
    · exact ⟨_, hrow, rfl, rfl, rfl, rfl⟩
  · rw [hch, Db.get?_delChunks, if_neg (by simp [hq])]
  · rw [hch, Db.get?_delChunks, if_pos (by simp)]

end Store

namespace Overlay

variable {E : Ext K} {o o' : Overlay K} {u : Unit}

/-! ## Operations that fail -/

/-- A program that leaves the state as it was when it fails. -/
def Atomic {α : Type} (x : Ov K α) : Prop := ∀ o e o', x o = .error e o' → o' = o

omit [DecidableEq K] in
/-- A query before an atomic program leaves it atomic. -/
theorem Atomic.query {α β : Type} {f : Overlay K → Except Err α} {g : α → Ov K β}
    (hg : ∀ a, Atomic (g a)) : Atomic (Prog.query f >>= g) := by
  intro o e o' h
  rcases hf : f o with e' | a
  · have hq : Prog.query f o = .error e' o := by rw [Prog.query, hf]
    rw [bind_of_error hq] at h
    cases h
    rfl
  · rw [bind_of_ok (query_of_ok hf)] at h
    exact hg a o e o' h

omit [DecidableEq K] in
/-- A transaction of the overlay is atomic. -/
theorem Atomic.writeTx {α : Type} (x : Ov K α) : Atomic (writeTx x) := by
  intro o e o' h
  unfold Overlay.writeTx savepoint at h
  rcases hx : x o with ⟨a, s⟩ | ⟨e', s⟩
  · rw [hx] at h
    cases h
  · rw [hx] at h
    cases h
    rfl

/-- An operation that fails leaves the overlay as it was. -/
theorem atomic_run (op : OverlayOp) : Atomic (op.run E : Ov K Unit) := by
  rcases op with _ | _ | _ | ⟨vmPath, off, data, mtime⟩ | _ | _
  · exact .query fun _ => .query fun _ => .query fun _ => .writeTx _
  · exact .query fun _ => .writeTx _
  · exact .query fun _ => .writeTx _
  · refine .query fun _ => ?_
    dsimp only
    split_ifs with hd
    · intro o e o' h
      cases h
    · exact .query fun _ => .query fun _ => .writeTx _
  · exact .query fun _ => .writeTx _
  · exact .query fun _ => .writeTx _

/-- The state an operation ends in is the one before, or it returned. -/
theorem endState_run (op : OverlayOp) (o : Overlay K) :
    endState (op.run E) o = o ∨ op.run E o = .ok () (endState (op.run E) o) := by
  rcases h : op.run E o with ⟨_, o'⟩ | ⟨e, o'⟩
  · exact Or.inr (by rw [endState_of_ok h])
  · refine Or.inl ?_
    rw [endState, h]
    exact atomic_run op o e o' h

/-! ## Operations that return -/

/-- The state after a write at `p` that also creates the missing ones among `dirs`. -/
structure Wrote (p : Str) (dirs : List Str) (now : ℤ) (o o' : Overlay K) : Prop where
  /-- The Base is never written. -/
  base : o'.base = o.base
  /-- The path and its ancestors are visible. -/
  whiteouts : o'.whiteouts = clearedWhiteouts o.base o.whiteouts p
  /-- The rows at other paths. -/
  fs : ∀ q, q ≠ p → o'.main.fs.get? q =
    if q ∈ dirs ∧ o.main.fs.get? q = none then some (dirRow 493 now) else o.main.fs.get? q
  /-- The chunk rows of other paths. -/
  chunks : ∀ q i, q ≠ p → o'.main.chunks.get? (q, i) = o.main.chunks.get? (q, i)

/-- The state after a removal of `p`. -/
structure Removed (p : Str) (o o' : Overlay K) : Prop where
  /-- The Base is never written. -/
  base : o'.base = o.base
  /-- What the Base has at the path is hidden. -/
  whiteouts : o'.whiteouts =
    if inBaseSubtree o.base p then addWhiteout o.whiteouts p else o.whiteouts
  /-- The rows that are left. -/
  fs : ∀ q, o'.main.fs.get? q = if inSubtree p q then none else o.main.fs.get? q
  /-- The chunk rows of the other paths. -/
  chunks : ∀ q i, inSubtree p q = false → o'.main.chunks.get? (q, i) = o.main.chunks.get? (q, i)

/-- What `remove` leaves when it returns. -/
theorem remove_ok {vmPath : Str} (h : remove vmPath o = .ok u o') :
    Removed (normalizeVmPath vmPath) o o' := by
  obtain ⟨_, _, hchk, hbody⟩ := bind_eq_ok.1 h
  obtain ⟨-, ho⟩ := query_eq_ok.1 hchk
  rw [ho] at hbody
  unfold writeTx at hbody
  obtain ⟨_, _, hdel, hmod⟩ := bind_eq_ok.1 (savepoint_eq_ok.1 hbody)
  obtain ⟨db, hdb, rfl⟩ := onMain_ok hdel
  rw [deleteFs_ok hdb, modify_apply] at hmod
  cases hmod
  refine ⟨?_, ?_, fun q => ?_, fun q i hq => ?_⟩
  · split_ifs <;> rfl
  · split_ifs <;> rfl
  · rw [← Db.get?_delFs]
    split_ifs <;> rfl
  · split_ifs <;> exact Db.get?_chunks_delFs i hq

omit [DecidableEq K] in
/-- The body of `write`, `mkdir` and `symlink`: the parents, then the entry itself. -/
theorem wrote_of_put {p : Str} {now : ℤ} {kind : Kind} {mode : ℤ} {size : ℕ} {link : Option Str}
    {x : Sql K Unit} {C : Db K → Prop} (hn : Normal p)
    (hx : ∀ db v db', x db = .ok v db' → Put p kind mode size link db db' ∧ C db')
    (h : writeTx (do
      clearWhiteoutsFor p
      onMain (do
        ensureParentDirs p now
        x)) o = .ok u o') :
    Wrote p (ancestors p) now o o' ∧ C o'.main ∧ ∃ row, o'.main.fs.get? p = some row ∧
      row.kind = kind ∧ row.mode = mode ∧ row.size = size ∧ row.linkTarget = link := by
  unfold writeTx at h
  have hbody := savepoint_eq_ok.1 h
  rw [bind_of_ok (clearWhiteoutsFor_apply p o)] at hbody
  obtain ⟨db, hdb, rfl⟩ := onMain_ok hbody
  obtain ⟨_, db₁, hdirs, hput⟩ := bind_eq_ok.1 hdb
  obtain ⟨hrows, hC⟩ := hx _ _ _ hput
  have hfs := ensureParentDirs_rows hdirs
  have hch := ensureParentDirs_chunks hdirs
  refine ⟨⟨rfl, rfl, fun q hq => ?_, fun q i hq => ?_⟩, hC, hrows.row⟩
  · have hget : db.fs.get? q = db₁.fs.get? q := hrows.fs q hq
    rw [show ({ o.unhide p with main := db } : Overlay K).main = db from rfl, hget, hfs q,
      unhide_main]
    simp only [mem_parentDirs hn]
  · have hget : db.chunks.get? (q, i) = db₁.chunks.get? (q, i) := hrows.chunks q i hq
    rw [show ({ o.unhide p with main := db } : Overlay K).main = db from rfl, hget, hch,
      unhide_main]

/-- What `write` leaves when it returns. -/
theorem write_ok {vmPath : Str} {data : Bytes} {mode mtime now : ℤ} {p : Str}
    (hp : normalizeVmPath vmPath = p) (hn : Normal p)
    (h : write E vmPath data mode mtime now o = .ok u o') :
    Wrote p (ancestors p) now o o' ∧ (∀ i, o'.main.chunks.get? (p, i) = chunkRow E data i) ∧
      ∃ row, o'.main.fs.get? p = some row ∧ row.kind = .file ∧ row.mode = mode ∧
        row.size = data.length ∧ row.linkTarget = none := by
  unfold write at h
  rw [hp] at h
  obtain ⟨_, _, h₁, hbody⟩ := bind_eq_ok.1 h
  obtain ⟨_, _, h₂, hbody⟩ := bind_eq_ok.1 hbody
  obtain ⟨_, _, h₃, hbody⟩ := bind_eq_ok.1 hbody
  rw [(query_eq_ok.1 h₃).2, (query_eq_ok.1 h₂).2, (query_eq_ok.1 h₁).2] at hbody
  unfold vmAddBytes at hbody
  rw [hn] at hbody
  exact wrote_of_put hn (fun _ _ _ hx => fsPutFile_ok hx) hbody

/-- What `mkdir` leaves when it returns. -/
theorem mkdir_ok {vmPath : Str} {now : ℤ} {p : Str} (hp : normalizeVmPath vmPath = p)
    (hn : Normal p) (h : mkdir vmPath now o = .ok u o') :
    Wrote p (ancestors p) now o o' ∧ (∀ i, o'.main.chunks.get? (p, i) = none) ∧
      ∃ row, o'.main.fs.get? p = some row ∧ row.kind = .dir ∧ row.mode = 493 ∧ row.size = 0 ∧
        row.linkTarget = none := by
  unfold mkdir at h
  rw [hp] at h
  obtain ⟨_, _, h₁, hbody⟩ := bind_eq_ok.1 h
  rw [(query_eq_ok.1 h₁).2] at hbody
  unfold vmAddDir at hbody
  rw [hn] at hbody
  exact wrote_of_put hn (fun _ _ _ hx => fsPutNode_ok hx) hbody

/-- What `symlink` leaves when it returns. -/
theorem symlink_ok {vmPath target : Str} {now : ℤ} {p : Str} (hp : normalizeVmPath vmPath = p)
    (hn : Normal p) (h : symlink vmPath target now o = .ok u o') :
    Wrote p (ancestors p) now o o' ∧ (∀ i, o'.main.chunks.get? (p, i) = none) ∧
      ∃ row, o'.main.fs.get? p = some row ∧ row.kind = .symlink ∧ row.mode = 511 ∧ row.size = 0 ∧
        row.linkTarget = some target := by
  unfold symlink at h
  rw [hp] at h
  obtain ⟨_, _, h₁, hbody⟩ := bind_eq_ok.1 h
  rw [(query_eq_ok.1 h₁).2] at hbody
  unfold vmAddSymlink at hbody
  rw [hn] at hbody
  exact wrote_of_put hn (fun _ _ _ hx => fsPutNode_ok hx) hbody

/-! ## Range writes that return -/

/-- The chunks `idxs` of `p` have been written. -/
structure Rewritten (p : Str) (idxs : List ℕ) (o o' : Overlay K) : Prop where
  /-- The Base is never written. -/
  base : o'.base = o.base
  /-- The whiteouts stay. -/
  whiteouts : o'.whiteouts = o.whiteouts
  /-- The rows stay. -/
  fs : o'.main.fs = o.main.fs
  /-- The chunks that are written. -/
  here : ∀ i ∈ idxs, ∃ k, o'.main.chunks.get? (p, i) = some k
  /-- The other chunks. -/
  others : ∀ q i, (q = p → i ∉ idxs) → o'.main.chunks.get? (q, i) = o.main.chunks.get? (q, i)

/-- What the loop of a range write leaves when it returns. -/
theorem rewriteChunks_ok {p : Str} {size : ℕ} {s : Schema} {f : ℕ → Bytes → Bytes} :
    ∀ {idxs : List ℕ} {o : Overlay K}, idxs.forM (rewriteChunk E p size s f) o = .ok u o' →
      Rewritten p idxs o o'
  | [], o, h => by
    cases h
    exact ⟨rfl, rfl, rfl, by simp, fun _ _ _ => rfl⟩
  | idx :: idxs, o, h => by
    rw [List.forM_eq_forM, List.forM_cons] at h
    obtain ⟨_, o₁, hfirst, hrest⟩ := bind_eq_ok.1 h
    obtain ⟨piece, -, rfl⟩ := rewriteChunk_ok hfirst
    have ih := rewriteChunks_ok hrest
    have hget := Db.get?_withChunk E .archive o.main p idx (f idx piece)
    refine ⟨ih.base, ih.whiteouts, ih.fs.trans (Db.withChunk_fs E .archive o.main p idx _),
      fun i hi => ?_, fun q i hqi => ?_⟩
    · by_cases hmem : i ∈ idxs
      · exact ih.here i hmem
      · -- Written in this round, and not again.
        have hidx : i = idx := by simpa [hmem] using hi
        rw [ih.others p i fun _ => hmem, hget, hidx, if_pos rfl]
        exact ⟨_, rfl⟩
    · rw [ih.others q i fun hq hi => hqi hq (by simp [hi]), hget, if_neg]
      rintro ⟨⟩
      exact hqi rfl (by simp)

/-- A row that is there or is made for a range write. -/
structure RangeRow (p : Str) (mode : ℤ) (size : ℕ) (db db' : Db K) : Prop where
  /-- The row. -/
  row : ∃ row, db'.fs.get? p = some row ∧ row.size = size ∧
    (∀ old, db.fs.get? p = some old → row.kind = old.kind ∧ row.mode = old.mode ∧
      row.linkTarget = old.linkTarget) ∧
    (db.fs.get? p = none → row.kind = .file ∧ row.mode = mode ∧ row.linkTarget = none)
  /-- The rows at other paths. -/
  fs : ∀ q, q ≠ p → db'.fs.get? q = db.fs.get? q

omit [DecidableEq K] in
/-- The copy of a file's row into the Delta changes no chunk. -/
theorem ensureDeltaFileRow_ok {p : Str} {mode mtime : ℤ} {size : ℕ} {db db' : Db K}
    (h : ensureDeltaFileRow p mode mtime size db = .ok u db') :
    RangeRow p mode size db db' ∧ db'.chunks = db.chunks := by
  unfold ensureDeltaFileRow at h
  rw [reads_bind] at h
  -- The row that is there gets the size and time; where none is there it is made, with the mode.
  split_ifs at h with hhas
  · obtain ⟨old, hold⟩ := Table.has_eq_true.1 hhas
    rcases updateFs_ok h with ⟨hnone, -⟩ | ⟨row, hrow, rfl⟩
    · rw [hold] at hnone
      cases hnone
    · refine ⟨⟨⟨{ row with size := size, mtime := mtime }, ?_, rfl, ?_, ?_⟩, fun q hq => ?_⟩, rfl⟩
      · rw [Db.get?_setFs, if_pos rfl, hrow]
        rfl
      · intro old' hold'
        rw [hrow] at hold'
        cases hold'
        exact ⟨rfl, rfl, rfl⟩
      · intro hnone
        rw [hrow] at hnone
        cases hnone
      · rw [Db.get?_setFs, if_neg hq]
  · obtain ⟨hnone, rfl⟩ := insertFs_ok h
    refine ⟨⟨⟨deltaFileRow mode mtime size, ?_, rfl, ?_, fun _ => ⟨rfl, rfl, rfl⟩⟩,
      fun q hq => ?_⟩, rfl⟩
    · rw [Db.get?_addFs _ hnone, if_pos rfl]
    · intro old hold
      rw [hnone] at hold
      cases hold
    · rw [Db.get?_addFs _ hnone, if_neg hq]

/-- The new size and hash change the row of the file and nothing else. -/
theorem refreshDeltaFile_ok {p : Str} {size : ℕ} {mtime : ℤ}
    (h : refreshDeltaFile E p size mtime o = .ok u o') :
    o'.base = o.base ∧ o'.whiteouts = o.whiteouts ∧ o'.main.chunks = o.main.chunks ∧
      ∃ hash, ∀ q, o'.main.fs.get? q = if q = p then (o.main.fs.get? p).map fun row =>
        { row with size := size, hash := hash, mtime := mtime } else o.main.fs.get? q := by
  obtain ⟨bytes, _, hread, hupd⟩ := bind_eq_ok.1 h
  rw [(query_eq_ok.1 hread).2] at hupd
  obtain ⟨db, hdb, rfl⟩ := onMain_ok hupd
  rcases updateFs_ok hdb with ⟨hnone, rfl⟩ | ⟨row, hrow, rfl⟩
  · refine ⟨rfl, rfl, rfl, .null, fun q => ?_⟩
    rcases eq_or_ne q p with rfl | hq
    · rw [if_pos rfl, hnone]
      rfl
    · rw [if_neg hq]
  · exact ⟨rfl, rfl, rfl, _, fun q => Db.get?_setFs p _ q⟩

/-- The state after a range write at `p`. -/
structure Ranged (p : Str) (mode : ℤ) (size : ℕ) (o o' : Overlay K) : Prop extends
    Wrote p [] 0 o o' where
  /-- The row. -/
  row : RangeRow p mode size o.main o'.main

/-- The row and the chunks of a range write, then its new hash. -/
theorem ranged_of_rewrite {p : Str} {mode mtime : ℤ} {size newSize : ℕ} {s : Schema}
    {f : ℕ → Bytes → Bytes} {idxs : List ℕ} {o₁ o₂ : Overlay K} {v : Unit}
    (hrow : onMain (ensureDeltaFileRow p mode mtime newSize) (o.unhide p) = .ok u o₁)
    (hloop : idxs.forM (rewriteChunk E p size s f) o₁ = .ok v o₂)
    {o₃ : Overlay K} (hhash : refreshDeltaFile E p newSize mtime o₃ = .ok u o')
    (hbase : o₃.base = o₂.base) (hwh : o₃.whiteouts = o₂.whiteouts)
    (hfs : o₃.main.fs = o₂.main.fs)
    (hch : ∀ q i, q ≠ p → o₃.main.chunks.get? (q, i) = o₂.main.chunks.get? (q, i)) :
    Ranged p mode newSize o o' ∧ (∀ i, o'.main.chunks.get? (p, i) = o₃.main.chunks.get? (p, i)) ∧
      ∀ i, (∃ k, o₂.main.chunks.get? (p, i) = some k) ↔
        i ∈ idxs ∨ ∃ k, o.main.chunks.get? (p, i) = some k := by
  -- The row is put first, the chunks are rewritten, and the size and hash are set at the end.
  obtain ⟨db, hdb, rfl⟩ := onMain_ok hrow
  obtain ⟨hrange, hchunks⟩ := ensureDeltaFileRow_ok hdb
  rw [unhide_main] at hrange hchunks
  have hre := rewriteChunks_ok hloop
  obtain ⟨hb, hw, hc, hash, hget⟩ := refreshDeltaFile_ok hhash
  have hdbfs : o₃.main.fs = db.fs := hfs.trans hre.fs
  refine ⟨⟨⟨?_, ?_, fun q hq => ?_, fun q i hq => ?_⟩, ?_, fun q hq => ?_⟩, fun i => by rw [hc],
    fun i => ?_⟩
  · rw [hb, hbase, hre.base]
    rfl
  · rw [hw, hwh, hre.whiteouts]
    rfl
  · rw [hget, if_neg hq, hdbfs, hrange.fs q hq, if_neg (by simp)]
  · rw [hc, hch q i hq, hre.others q i fun h => absurd h hq]
    exact congrArg (fun t => Table.get? t (q, i)) hchunks
  · obtain ⟨row, hrow, hsize, hold, hnew⟩ := hrange.row
    refine ⟨{ row with size := newSize, hash := hash, mtime := mtime }, ?_, rfl, hold, hnew⟩
    rw [hget, if_pos rfl, hdbfs, hrow]
    rfl
  · rw [hget, if_neg hq, hdbfs, hrange.fs q hq]
  · have hold : ∀ i, ({ o.unhide p with main := db } : Overlay K).main.chunks.get? (p, i) =
        o.main.chunks.get? (p, i) := fun i => congrArg (fun t => Table.get? t (p, i)) hchunks
    by_cases hi : i ∈ idxs
    · exact ⟨fun _ => Or.inl hi, fun _ => hre.here i hi⟩
    · rw [hre.others p i fun _ => hi, hold i]
      simp [hi]

/-- A range write that returned, of some bytes. -/
theorem writeRange_ok {vmPath : Str} {off : ℕ} {data : Bytes} {mtime : ℤ} {p : Str}
    (hp : normalizeVmPath vmPath = p) (hd : data ≠ [])
    (h : writeRange E vmPath off data mtime o = .ok u o') {size : ℕ} {mode : ℤ}
    {layer : Option Schema} (hv : (o.unhide p).fileView p = (size, mode, layer)) :
    Ranged p mode (max size (off + data.length)) o o' ∧
      ∀ i, (∃ k, o'.main.chunks.get? (p, i) = some k) ↔
        i ∈ List.range' (min off size / chunkSize)
          ((off + data.length - 1) / chunkSize + 1 - min off size / chunkSize) ∨
        ∃ k, o.main.chunks.get? (p, i) = some k := by
  unfold writeRange at h
  rw [hp] at h
  obtain ⟨_, _, h₁, hbody⟩ := bind_eq_ok.1 h
  rw [(query_eq_ok.1 h₁).2] at hbody
  dsimp only at hbody
  rw [if_neg hd] at hbody
  obtain ⟨_, _, h₂, hbody⟩ := bind_eq_ok.1 hbody
  obtain ⟨_, _, h₃, hbody⟩ := bind_eq_ok.1 hbody
  rw [(query_eq_ok.1 h₃).2, (query_eq_ok.1 h₂).2] at hbody
  unfold writeTx at hbody
  have htx := savepoint_eq_ok.1 hbody
  rw [bind_of_ok (clearWhiteoutsFor_apply p o), reads_bind, hv] at htx
  obtain ⟨_, o₁, hrow, htx⟩ := bind_eq_ok.1 htx
  obtain ⟨_, o₂, hloop, hhash⟩ := bind_eq_ok.1 htx
  obtain ⟨hr, hc, hiff⟩ := ranged_of_rewrite hrow hloop hhash rfl rfl rfl fun _ _ _ => rfl
  refine ⟨hr, fun i => ?_⟩
  rw [hc]
  exact hiff i

/-- A range write of no bytes changes nothing. -/
theorem writeRange_nil {vmPath : Str} {off : ℕ} {mtime : ℤ}
    (h : writeRange E vmPath off [] mtime o = .ok u o') : o' = o := by
  obtain ⟨_, _, h₁, hbody⟩ := bind_eq_ok.1 h
  rw [(query_eq_ok.1 h₁).2] at hbody
  cases hbody
  rfl

/-- A truncation that returned: the file was there, and nothing had to be done or it has its new
size. -/
theorem truncateRange_ok {vmPath : Str} {newSize : ℕ} {mtime : ℤ} {p : Str}
    (hp : normalizeVmPath vmPath = p) (h : truncateRange E vmPath newSize mtime o = .ok u o')
    {size : ℕ} {mode : ℤ} {layer : Option Schema}
    (hv : (o.unhide p).fileView p = (size, mode, layer)) :
    (∃ s, layer = some s) ∧ (newSize = size ∧ o' = o.unhide p ∨
      newSize ≠ size ∧ Ranged p mode newSize o o' ∧
        ∀ i, (∃ k, o'.main.chunks.get? (p, i) = some k) ↔ i < numChunks chunkSize newSize ∧
          (i ∈ List.range' (min newSize size / chunkSize)
            (numChunks chunkSize newSize - min newSize size / chunkSize) ∨
          ∃ k, o.main.chunks.get? (p, i) = some k)) := by
  unfold truncateRange at h
  rw [hp] at h
  obtain ⟨_, _, h₁, hbody⟩ := bind_eq_ok.1 h
  rw [(query_eq_ok.1 h₁).2] at hbody
  unfold writeTx at hbody
  -- The file that is seen after the whiteouts are cleared decides what is cut or filled.
  have htx := savepoint_eq_ok.1 hbody
  rw [bind_of_ok (clearWhiteoutsFor_apply p o), reads_bind, hv] at htx
  rcases layer with _ | s
  · cases htx
  refine ⟨⟨s, rfl⟩, ?_⟩
  dsimp only at htx
  split_ifs at htx with hsize
  · cases htx
    exact Or.inl ⟨hsize, rfl⟩
  · obtain ⟨_, o₁, hrow, htx⟩ := bind_eq_ok.1 htx
    obtain ⟨_, o₂, hloop, htx⟩ := bind_eq_ok.1 htx
    obtain ⟨_, o₃, hdel, hhash⟩ := bind_eq_ok.1 htx
    obtain ⟨db, hdb, rfl⟩ := onMain_ok hdel
    rw [deleteChunks_ok hdb] at hhash
    have hget : ∀ q i, (o₂.main.delChunks fun q i =>
        q = p && numChunks chunkSize newSize ≤ i).chunks.get? (q, i) = _ :=
      fun q i => Db.get?_delChunks _ q i
    obtain ⟨hr, hc, hiff⟩ := ranged_of_rewrite hrow hloop hhash rfl rfl rfl fun q i hq => by
      rw [hget, if_neg (by simp [hq])]
    refine Or.inr ⟨hsize, hr, fun i => ?_⟩
    rw [hc, hget, ← hiff]
    rcases Nat.lt_or_ge i (numChunks chunkSize newSize) with hi | hi
    · rw [if_neg (by simp [hi])]
      simp [hi]
    · rw [if_pos (by simp [hi])]
      simp [hi]

omit [DecidableEq K] in
/-- Only the whiteouts of a path are cleared. -/
theorem wrote_unhide (p : Str) (o : Overlay K) : Wrote p [] 0 o (o.unhide p) where
  base := rfl
  whiteouts := rfl
  fs := by
    intro q _
    rw [if_neg (by simp), unhide_main]
  chunks := by
    intro q i _
    rw [unhide_main]

/-! ## Every operation -/

/-- A removal. -/
def isRemove : OverlayOp → Bool
  | .remove _ => true
  | _ => false

/-- The directories an operation creates where they are missing. -/
def dirsOf : OverlayOp → List Str
  | .write vmPath .. => ancestors (normalizeVmPath vmPath)
  | .mkdir vmPath _ => ancestors (normalizeVmPath vmPath)
  | .symlink vmPath .. => ancestors (normalizeVmPath vmPath)
  | _ => []

/-- The directories that an operation may make are ancestors of its path. -/
theorem dirsOf_subset (op : OverlayOp) : ∀ d ∈ dirsOf op, d ∈ ancestors op.path := by
  intro d hd
  rcases op with _ | _ | _ | _ | _ | _
  · exact hd
  · exact hd
  · exact hd
  · cases hd
  · cases hd
  · cases hd

/-- An operation that returned, at a path in normal form: it did nothing, it removed its path, or it
wrote there. -/
theorem run_ok {op : OverlayOp} (hn : Normal op.path) (h : op.run E o = .ok u o') :
    o' = o ∨ (∃ vmPath, op = .remove vmPath ∧ Removed op.path o o') ∨
      isRemove op = false ∧ ∃ now, Wrote op.path (dirsOf op) now o o' := by
  rcases op with _ | _ | _ | ⟨vmPath, off, data, mtime⟩ | ⟨vmPath, newSize, mtime⟩ | vmPath
  · exact Or.inr (Or.inr ⟨rfl, _, (write_ok rfl hn h).1⟩)
  · exact Or.inr (Or.inr ⟨rfl, _, (mkdir_ok rfl hn h).1⟩)
  · exact Or.inr (Or.inr ⟨rfl, _, (symlink_ok rfl hn h).1⟩)
  · by_cases hd : data = []
    · subst hd
      exact Or.inl (writeRange_nil h)
    · exact Or.inr (Or.inr ⟨rfl, 0, (writeRange_ok rfl hd h rfl).1.toWrote⟩)
  · refine Or.inr (Or.inr ⟨rfl, 0, ?_⟩)
    rcases (truncateRange_ok rfl h rfl).2 with ⟨-, rfl⟩ | ⟨-, hr, -⟩
    · exact wrote_unhide (normalizeVmPath vmPath) o
    · exact hr.toWrote
  · exact Or.inr (Or.inl ⟨vmPath, rfl, remove_ok h⟩)

end Overlay

end Dbvm
