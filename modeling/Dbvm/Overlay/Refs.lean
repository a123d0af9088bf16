import Dbvm.Refs
import Dbvm.Overlay.Basic

/-!
# Reference counts under overlay writes

The overlay's own operations and the counts of its Delta. `write`, `mkdir`, `symlink` and `remove`
keep them like the functions of the store they call. `write_range` and `truncate_range` replace
chunk rows one by one and, unlike `put_chunk`, do not leave a row alone whose key would stay the
same: they keep the counts unless they drop a blob and store it again (`NoRevival`).
-/

namespace Dbvm

open Lib Lib.Chunks Lib.Prog

variable {K : Type} [DecidableEq K]

/-- What the overlay operations are applied to. -/
inductive OverlayOp where
  /-- `Overlay::write`. -/
  | write (vmPath : Str) (data : Bytes) (mode mtime now : ℤ)
  /-- `Overlay::mkdir`. -/
  | mkdir (vmPath : Str) (now : ℤ)
  /-- `Overlay::symlink`. -/
  | symlink (vmPath target : Str) (now : ℤ)
  /-- `Overlay::write_range`. -/
  | writeRange (vmPath : Str) (off : ℕ) (data : Bytes) (mtime : ℤ)
  /-- `Overlay::truncate_range`. -/
  | truncateRange (vmPath : Str) (newSize : ℕ) (mtime : ℤ)
  /-- `Overlay::remove`. -/
  | remove (vmPath : Str)

namespace OverlayOp

/-- Run an operation. -/
def run (E : Ext K) : OverlayOp → Ov K Unit
  | .write vmPath data mode mtime now => Overlay.write E vmPath data mode mtime now
  | .mkdir vmPath now => Overlay.mkdir vmPath now
  | .symlink vmPath target now => Overlay.symlink vmPath target now
  | .writeRange vmPath off data mtime => Overlay.writeRange E vmPath off data mtime
  | .truncateRange vmPath newSize mtime => Overlay.truncateRange E vmPath newSize mtime
  | .remove vmPath => Overlay.remove vmPath

/-- The path an operation is applied to, normalised. -/
def path : OverlayOp → Str
  | .write vmPath .. => normalizeVmPath vmPath
  | .mkdir vmPath _ => normalizeVmPath vmPath
  | .symlink vmPath .. => normalizeVmPath vmPath
  | .writeRange vmPath .. => normalizeVmPath vmPath
  | .truncateRange vmPath .. => normalizeVmPath vmPath
  | .remove vmPath => normalizeVmPath vmPath

/-- The paths whose chunks an operation may change. -/
def Touches : OverlayOp → Str → Prop
  | .write vmPath .., q => q = normalizeVmPath (normalizeVmPath vmPath)
  | .mkdir vmPath _, q => q = normalizeVmPath (normalizeVmPath vmPath)
  | .symlink vmPath .., q => q = normalizeVmPath (normalizeVmPath vmPath)
  | .writeRange vmPath .., q => q = normalizeVmPath vmPath
  | .truncateRange vmPath .., q => q = normalizeVmPath vmPath
  | .remove vmPath, q => Overlay.inSubtree (normalizeVmPath vmPath) q = true

end OverlayOp

namespace Overlay

/-! ## Chunks as a range write sees them -/

/-- The key of a chunk of a file whose row is in a layer. -/
def layeredKey (o : Overlay K) (s : Schema) (p : Str) (idx : ℕ) : Option K :=
  match s with
  | .main => (o.main.chunks.get? (p, idx)).or (o.base.chunks.get? (p, idx))
  | .base => o.base.chunks.get? (p, idx)

/-- `piece` is the content of chunk `idx` of a file of `size` bytes: the bytes its key names, or
nothing. -/
def IsChunk (E : Ext K) (o : Overlay K) (s : Schema) (p : Str) (size idx : ℕ) (piece : Bytes) :
    Prop :=
  if idx * chunkSize < size then
    match o.layeredKey s p idx with
    | some k => E.blobKey piece = k
    | none => piece = []
  else piece = []

/-- The overlay with the whiteouts that hide `p` cleared. -/
def unhide (o : Overlay K) (p : Str) : Overlay K :=
  { o with whiteouts := clearedWhiteouts o.base o.whiteouts p }

omit [DecidableEq K] in
/-- Clearing whiteouts leaves the Delta alone. -/
@[simp] theorem unhide_main (o : Overlay K) (p : Str) : (o.unhide p).main = o.main := rfl

omit [DecidableEq K] in
/-- Clearing whiteouts leaves the Base alone. -/
@[simp] theorem unhide_base (o : Overlay K) (p : Str) : (o.unhide p).base = o.base := rfl

/-- What a range write does to the chunks of its file. -/
structure Rewrite where
  /-- The layer the file is in. -/
  layer : Schema
  /-- Its size. -/
  size : ℕ
  /-- The chunks that are written. -/
  idxs : List ℕ
  /-- What becomes of the content of each. -/
  new : ℕ → Bytes → Bytes

/-- The range write of an operation, with the file it is applied to. -/
def rewriteOf (o : Overlay K) : OverlayOp → Option (Str × Rewrite)
  | .writeRange vmPath off data _ =>
    let p := normalizeVmPath vmPath
    let v := (o.unhide p).fileView p
    let first := min off v.1 / chunkSize
    some (p,
      { layer := v.2.2.getD .main
        size := v.1
        idxs := List.range' first ((off + data.length - 1) / chunkSize + 1 - first)
        new := fun idx piece =>
          overlayPiece piece (idx * chunkSize) (max v.1 (off + data.length)) off data })
  | .truncateRange vmPath newSize _ =>
    let p := normalizeVmPath vmPath
    let v := (o.unhide p).fileView p
    let first := min newSize v.1 / chunkSize
    some (p,
      { layer := v.2.2.getD .main
        size := v.1
        idxs := List.range' first (numChunks chunkSize newSize - first)
        new := fun idx piece => resize 0 piece (min (newSize - idx * chunkSize) chunkSize) })
  | _ => none

/-- A range write gives chunk `idx` content with key `k`. -/
def Stores (E : Ext K) (o : Overlay K) (p : Str) (r : Rewrite) (idx : ℕ) (k : K) : Prop :=
  ∃ piece, o.IsChunk E r.layer p r.size idx piece ∧ E.blobKey (r.new idx piece) = k

/-- A range write drops a blob and stores it again: chunk `idx` keeps its content `k` when no other
row refers to that, and the later chunk `j` gets the same content. -/
structure Revives (E : Ext K) (o : Overlay K) (p : Str) (r : Rewrite) (idx j : ℕ) (k : K) :
    Prop where
  /-- Both are written, `j` later. -/
  order : idx ∈ r.idxs ∧ j ∈ r.idxs ∧ idx < j
  /-- Chunk `idx` is in the Delta. -/
  row : o.main.chunks.get? (p, idx) = some k
  /-- It keeps its content. -/
  same : o.Stores E p r idx k
  /-- Chunk `j` gets this content. -/
  again : o.Stores E p r j k
  /-- No chunk that is not written has it. -/
  outside : ∀ q i, (q = p → i ∉ r.idxs) → o.main.chunks.get? (q, i) ≠ some k
  /-- No snapshot has it. -/
  snaps : ∀ c, o.main.snapChunks.get? c ≠ some k
  /-- No undo record has it. -/
  undos : ∀ c, o.main.undoChunks.get? c ≠ some k
  /-- No chunk written before has got it. -/
  before : ∀ i ∈ r.idxs, i < idx → ∃ k', k' ≠ k ∧ o.Stores E p r i k'
  /-- No chunk written later still has it. -/
  after : ∀ i ∈ r.idxs, idx < i → o.main.chunks.get? (p, i) ≠ some k

/-- The operation does not drop a blob and store it again. -/
def NoRevival (E : Ext K) (o : Overlay K) (op : OverlayOp) : Prop :=
  ∀ p r, o.rewriteOf op = some (p, r) → ∀ idx j k, ¬ o.Revives E p r idx j k

/-- What a read of a chunk returns is the content of the chunk. -/
theorem isChunk_of_readChunkLayered {E : Ext K} {o : Overlay K} {s : Schema} {p : Str}
    {size idx : ℕ} {piece : Bytes}
    (h : (if idx * chunkSize < size then o.readChunkLayered E s p idx else .ok []) = .ok piece) :
    o.IsChunk E s p size idx piece := by
  unfold IsChunk
  split_ifs at h ⊢ with hlt
  · have hread : ∀ s', o.readChunk E s' p idx = .ok piece →
        ∃ k, (o.db s').chunks.get? (p, idx) = some k ∧ E.blobKey piece = k := by
      intro s' hr
      unfold readChunk at hr
      rcases hk : (o.db s').chunks.get? (p, idx) with _ | k
      · rw [hk] at hr
        cases hr
      · rw [hk] at hr
        obtain ⟨_, _, _, hkey⟩ := Db.decodes_of_blobBytes hr
        exact ⟨k, rfl, hkey⟩
    unfold readChunkLayered at h
    -- A file of the base reads its chunks there, one of the delta falls back to the base.
    rcases s with _ | _
    · split_ifs at h with hm hb
      · -- The Delta has no such chunk: the Base's answers.
        obtain ⟨k, hk, hkey⟩ := hread .base h
        simp only [layeredKey, Table.has_eq_false.1 hm.2, Option.none_or]
        rw [show o.base.chunks.get? (p, idx) = some k from hk]
        exact hkey
      · cases h
        simp only [layeredKey, Table.has_eq_false.1 hm.2, Option.none_or,
          Table.get?_of_not_has hb]
      · obtain ⟨k, hk, hkey⟩ := hread .main h
        simp only [layeredKey]
        rw [show o.main.chunks.get? (p, idx) = some k from hk]
        exact hkey
    · rw [if_neg (by simp)] at h
      obtain ⟨k, hk, hkey⟩ := hread .base h
      simp only [layeredKey]
      rw [show o.base.chunks.get? (p, idx) = some k from hk]
      exact hkey
  · cases h
    rfl

omit [DecidableEq K] in
/-- The content of a chunk depends only on its rows in the two layers. -/
theorem IsChunk.congr {E : Ext K} {o o' : Overlay K} {s : Schema} {p : Str} {size idx : ℕ}
    {piece : Bytes} (h : o.IsChunk E s p size idx piece) (hb : o'.base = o.base)
    (hm : o'.main.chunks.get? (p, idx) = o.main.chunks.get? (p, idx)) :
    o'.IsChunk E s p size idx piece := by
  have hk : o'.layeredKey s p idx = o.layeredKey s p idx := by
    rcases s with _ | _ <;> simp only [layeredKey, hb, hm]
  unfold IsChunk at h ⊢
  rw [hk]
  exact h

/-! ## Programs on the Delta -/

section Programs

variable {α : Type} {I : Db K → Prop} {b : Db K}

omit [DecidableEq K] in
/-- What a program on the Delta keeps, with the Base as it was. -/
theorem Keeps.onMain {x : Sql K α} (h : Keeps I x) :
    Keeps (fun o : Overlay K => I o.main ∧ o.base = b) (onMain x) := by
  rintro o ⟨hI, hb⟩
  have := h o.main hI
  unfold endState Overlay.onMain at *
  rcases hx : x o.main with ⟨a, db⟩ | ⟨e, db⟩ <;> exact ⟨by simpa [hx] using this, hb⟩

omit [DecidableEq K] in
/-- A program on the Delta returns what it returns there. -/
theorem onMain_ok {x : Sql K α} {a : α} {o o' : Overlay K} (h : onMain x o = .ok a o') :
    ∃ db, x o.main = .ok a db ∧ o' = { o with main := db } := by
  unfold Overlay.onMain at h
  rcases hx : x o.main with ⟨a', db⟩ | ⟨e, db⟩
  · rw [hx] at h
    cases h
    exact ⟨db, rfl, rfl⟩
  · rw [hx] at h
    cases h

omit [DecidableEq K] in
/-- A transaction of the overlay keeps what the program in it keeps. -/
theorem Keeps.writeTx {J : Overlay K → Prop} {x : Ov K α} (h : Triple J x fun _ => J) :
    Keeps J (writeTx x) := Keeps.savepoint h fun _ _ hs => hs

omit [DecidableEq K] in
/-- Clearing the whiteouts of a path always succeeds. -/
theorem clearWhiteoutsFor_apply (p : Str) (o : Overlay K) :
    clearWhiteoutsFor p o = .ok ⟨⟩ (o.unhide p) := rfl

omit [DecidableEq K] in
/-- Clearing whiteouts keeps what is about Delta and Base. -/
theorem keeps_clearWhiteoutsFor (p : Str) :
    Keeps (fun o : Overlay K => I o.main ∧ o.base = b) (clearWhiteoutsFor p) := fun _ h => h

end Programs

/-! ## Operations -/

variable {P : Str → Prop} {db₀ b : Db K}

/-- The Delta's counts are exact and only files at the paths `P` have changed since `db₀`. -/
abbrev MainInv (P : Str → Prop) (db₀ b : Db K) (o : Overlay K) : Prop :=
  RefInv P db₀ NoBlob o.main ∧ o.base = b

/-- Clearing whiteouts keeps the counts of the Delta. -/
theorem mainInv_unhide {o : Overlay K} (h : MainInv P db₀ b o) (p : Str) :
    MainInv P db₀ b (o.unhide p) ∧ (o.unhide p).main = o.main := by
  simpa [MainInv] using h

/-- `write` keeps the reference counts of the Delta exact. -/
theorem keeps_write (E : Ext K) {vmPath : Str} (hP : P (normalizeVmPath (normalizeVmPath vmPath)))
    (data : Bytes) (mode mtime now : ℤ) :
    Keeps (MainInv P db₀ b) (write E vmPath data mode mtime now) :=
  Keeps.bind (Keeps.query _) fun _ => Keeps.bind (Keeps.query _) fun _ =>
    Keeps.bind (Keeps.query _) fun _ => Keeps.writeTx (Keeps.triple (Keeps.bind
      (keeps_clearWhiteoutsFor _) fun _ =>
      Keeps.onMain (keeps_vmAddBytes E hP data mode mtime now)))

/-- `mkdir` keeps the reference counts of the Delta exact. -/
theorem keeps_mkdir {vmPath : Str} (hP : P (normalizeVmPath (normalizeVmPath vmPath))) (now : ℤ) :
    Keeps (MainInv P db₀ b) (mkdir vmPath now) :=
  Keeps.bind (Keeps.query _) fun _ => Keeps.writeTx (Keeps.triple (Keeps.bind
    (keeps_clearWhiteoutsFor _) fun _ => Keeps.onMain (keeps_vmAddDir hP _ now now)))

/-- `symlink` keeps the reference counts of the Delta exact. -/
theorem keeps_symlink {vmPath : Str} (hP : P (normalizeVmPath (normalizeVmPath vmPath)))
    (target : Str) (now : ℤ) : Keeps (MainInv P db₀ b) (symlink vmPath target now) :=
  Keeps.bind (Keeps.query _) fun _ => Keeps.writeTx (Keeps.triple (Keeps.bind
    (keeps_clearWhiteoutsFor _) fun _ => Keeps.onMain (keeps_vmAddSymlink hP target now)))

/-- `remove` keeps the reference counts of the Delta exact. -/
theorem keeps_remove {vmPath : Str} (hP : ∀ q, inSubtree (normalizeVmPath vmPath) q = true → P q) :
    Keeps (MainInv P db₀ b) (remove vmPath) := by
  refine Keeps.bind (Keeps.query _) fun _ => Keeps.writeTx (Keeps.triple (Keeps.bind
    (Keeps.onMain (keeps_deleteFs hP)) fun _ => ?_))
  rintro o ⟨hI, hb⟩
  dsimp only [endState, modify_apply]
  split_ifs <;> exact ⟨hI, hb⟩

/-- Along the loop of a range write that started from `o₀`, with the chunks `rest` to come. -/
structure Rewriting (P : Str → Prop) (db₀ : Db K) (E : Ext K) (o₀ : Overlay K) (p : Str)
    (r : Rewrite) (rest : List ℕ) (o : Overlay K) : Prop where
  /-- The Base is never written. -/
  base : o.base = o₀.base
  /-- The chunks are written in order. -/
  order : rest <:+ r.idxs
  /-- The chunks to come have not changed. -/
  todo : ∀ i ∈ rest, o.main.chunks.get? (p, i) = o₀.main.chunks.get? (p, i)
  /-- The others have their new content. -/
  done : ∀ i ∈ r.idxs, i ∉ rest → ∃ k, o.main.chunks.get? (p, i) = some k ∧ o₀.Stores E p r i k
  /-- No other row has changed. -/
  others : ∀ q i, (q = p → i ∉ r.idxs) →
    o.main.chunks.get? (q, i) = o₀.main.chunks.get? (q, i)
  /-- No snapshot has changed. -/
  snaps : o.main.snapChunks = o₀.main.snapChunks
  /-- No undo record has changed. -/
  undos : o.main.undoChunks = o₀.main.undoChunks
  /-- The counts are exact, or a chunk has lost its blob for good. -/
  state : RefInv P db₀ NoBlob o.main ∨
    ∃ idx k, idx ∈ r.idxs ∧ idx ∉ rest ∧ o.main.chunks.get? (p, idx) = some k ∧
      o.main.blobs.get? k = none ∧ ∀ j ∈ rest, ¬ o₀.Stores E p r j k

/-- A chunk that keeps its content as the only reference to it: nothing brings it back. -/
theorem Rewriting.not_stores {E : Ext K} {o₀ o : Overlay K} {p : Str} {r : Rewrite} {idx : ℕ}
    {rest : List ℕ} {k : K} (h : Rewriting P db₀ E o₀ p r (idx :: rest) o)
    (hsort : r.idxs.Pairwise (· < ·)) (hnr : ∀ idx j k, ¬ o₀.Revives E p r idx j k)
    (hrow : o.main.chunks.get? (p, idx) = some k) (hsame : o₀.Stores E p r idx k)
    (hone : o.main.refs k ≤ 1) : ∀ j ∈ rest, ¬ o₀.Stores E p r j k := by
  have hmem : ∀ i, i = idx ∨ i ∈ rest → i ∈ r.idxs := by
    intro i hi
    exact h.order.subset (List.mem_cons.2 hi)
  obtain ⟨pre, hpre⟩ := h.order
  rw [← hpre, List.pairwise_append, List.pairwise_cons] at hsort
  have hcount : o.main.chunks.count k ≤ 1 ∧ o.main.snapChunks.count k = 0 ∧
      o.main.undoChunks.count k = 0 := by
    have hpos := Table.count_pos_iff.2 ⟨_, hrow⟩
    unfold Db.refs at hone
    omega
  -- Another row with this content would be a second reference.
  have hother : ∀ q i, (q, i) ≠ (p, idx) → o.main.chunks.get? (q, i) ≠ some k := by
    intro q i hne hqi
    have := Table.two_le_count hne hrow hqi
    omega
  intro j hj hstores
  refine hnr idx j k ⟨⟨hmem idx (Or.inl rfl), hmem j (Or.inr hj), hsort.2.1.1 j hj⟩,
    (h.todo idx (by simp)).symm.trans hrow, hsame, hstores, ?_, ?_, ?_, ?_, ?_⟩
  · intro q i hqi
    rw [← h.others q i hqi]
    refine hother q i ?_
    rintro ⟨⟩
    exact hqi rfl (hmem _ (Or.inl rfl))
  · intro c hc
    rw [← h.snaps] at hc
    have := Table.count_pos_iff.2 ⟨c, hc⟩
    omega
  · intro c hc
    rw [← h.undos] at hc
    have := Table.count_pos_iff.2 ⟨c, hc⟩
    omega
  · intro i hi hlt
    have hnot : i ∉ idx :: rest := by
      rw [List.mem_cons, not_or]
      exact ⟨ne_of_lt hlt, fun hir => absurd hlt (lt_asymm (hsort.2.1.1 i hir))⟩
    obtain ⟨k', hk', hs⟩ := h.done i hi hnot
    refine ⟨k', ?_, hs⟩
    rintro rfl
    exact hother p i (by simpa [Prod.ext_iff] using ne_of_lt hlt) hk'
  · intro i hi hlt
    have hir : i ∈ rest := by
      rw [← hpre, List.mem_append, List.mem_cons] at hi
      rcases hi with hi | rfl | hi
      · exact absurd hlt (lt_asymm (hsort.2.2 i hi idx (by simp)))
      · exact absurd hlt (lt_irrefl _)
      · exact hi
    rw [← h.todo i (by simp [hir])]
    exact hother p i (by simpa [Prod.ext_iff] using ne_of_gt hlt)

/-- A chunk that was written: its content was read and its new content stored. -/
theorem rewriteChunk_ok {E : Ext K} {p : Str} {size : ℕ} {s : Schema} {f : ℕ → Bytes → Bytes}
    {idx : ℕ} {o o' : Overlay K} {u : Unit} (h : rewriteChunk E p size s f idx o = .ok u o') :
    ∃ piece, o.IsChunk E s p size idx piece ∧
      o' = { o with main := o.main.withChunk E .archive p idx (f idx piece) } := by
  obtain ⟨piece, _, hread, hswap⟩ := bind_eq_ok.1 h
  obtain ⟨hread, rfl⟩ := query_eq_ok.1 hread
  obtain ⟨db, hdb, rfl⟩ := onMain_ok hswap
  rw [swapChunk_ok hdb]
  exact ⟨piece, isChunk_of_readChunkLayered hread, rfl⟩

/-- One round of a range write replaces one chunk row and keeps the counts. -/
theorem triple_rewriteChunk (E : Ext K) {p : Str} (hP : P p) {o₀ : Overlay K} {r : Rewrite}
    {idx : ℕ} {rest : List ℕ} (hsort : r.idxs.Pairwise (· < ·))
    (hnr : ∀ idx j k, ¬ o₀.Revives E p r idx j k) :
    Triple (Rewriting P db₀ E o₀ p r (idx :: rest)) (rewriteChunk E p r.size r.layer r.new idx)
      fun _ => Rewriting P db₀ E o₀ p r rest := by
  intro o _ o' h hx
  obtain ⟨piece, hpiece, rfl⟩ := rewriteChunk_ok hx
  have hidx : idx ∈ r.idxs := h.order.subset (by simp)
  have hstores : o₀.Stores E p r idx (E.blobKey (r.new idx piece)) :=
    ⟨piece, hpiece.congr h.base.symm (h.todo idx (by simp)).symm, rfl⟩
  have hnot : idx ∉ rest :=
    (List.nodup_cons.1 ((hsort.imp ne_of_lt).sublist h.order.sublist)).1
  have hget := Db.get?_withChunk E .archive o.main p idx (r.new idx piece)
  -- The round changes chunk `idx` only; the blob it stores is none that an earlier round has
  -- released, by `hnr`.
  refine ⟨h.base, (List.suffix_cons idx rest).trans h.order, fun i hi => ?_, fun i hi hir => ?_,
    fun q i hqi => ?_, ?_, ?_, ?_⟩
  · rw [hget, if_neg (by rintro ⟨⟩; exact hnot hi)]
    exact h.todo i (by simp [hi])
  · rcases eq_or_ne i idx with rfl | hne
    · exact ⟨_, by rw [hget, if_pos rfl], hstores⟩
    · rw [hget, if_neg (by simpa [Prod.ext_iff] using hne)]
      exact h.done i hi (by simp [hne, hir])
  · rw [hget, if_neg (by rintro ⟨⟩; exact hqi rfl hidx)]
    exact h.others q i hqi
  · exact (Db.withChunk_snapChunks E .archive o.main p idx _).trans h.snaps
  · exact (Db.withChunk_undoChunks E .archive o.main p idx _).trans h.undos
  · rcases h.state with hI | ⟨i₀, k₀, hi₀, hr₀, hrow₀, hblob₀, hno₀⟩
    · by_cases hrow : o.main.chunks.get? (p, idx) = some (E.blobKey (r.new idx piece))
      · by_cases hmore : 1 < o.main.refs (E.blobKey (r.new idx piece))
        · exact Or.inl (hI.withChunk E .archive hP (Or.inr hmore))
        · -- The blob is gone with the old row.
          have hone := not_lt.1 hmore
          exact Or.inr ⟨idx, _, hidx, hnot, by rw [hget, if_pos rfl],
            Db.withChunk_drops E .archive hI hrow hone,
            h.not_stores hsort hnr hrow hstores hone⟩
      · exact Or.inl (hI.withChunk E .archive hP (Or.inl hrow))
    · rw [List.mem_cons, not_or] at hr₀
      refine Or.inr ⟨i₀, k₀, hi₀, hr₀.2, ?_, ?_, fun j hj => hno₀ j (by simp [hj])⟩
      · rw [hget, if_neg (by simpa [Prod.ext_iff] using hr₀.1)]
        exact hrow₀
      · refine Db.withChunk_missing E .archive p idx hblob₀ ?_
        rintro rfl
        exact hno₀ idx (by simp) hstores

/-- By induction on the chunks, the loop of a range write keeps the counts. -/
theorem triple_rewriteChunks (E : Ext K) {p : Str} (hP : P p) {o₀ : Overlay K} {r : Rewrite}
    (hsort : r.idxs.Pairwise (· < ·)) (hnr : ∀ idx j k, ¬ o₀.Revives E p r idx j k) :
    Triple (Rewriting P db₀ E o₀ p r r.idxs)
      (r.idxs.forM (rewriteChunk E p r.size r.layer r.new)) fun _ => Rewriting P db₀ E o₀ p r [] :=
  Triple.forM (fun _ _ => triple_rewriteChunk E hP hsort hnr) r.idxs

/-- A row whose blob is gone cannot be read. -/
theorem layeredBytes_of_missing (E : Ext K) {o : Overlay K} {p : Str} {idx : ℕ} {k : K}
    (hrow : o.main.chunks.get? (p, idx) = some k) (hblob : o.main.blobs.get? k = none) :
    ∀ {idxs : List ℕ} {b : Bytes}, idx ∈ idxs → o.layeredBytes E p idxs ≠ .ok b
  | [], _, hmem => by cases hmem
  | i :: idxs, b, hmem => by
    intro h
    rcases hi : o.readChunkLayered E .main p i with e | piece
    · rw [layeredBytes, hi] at h
      cases h
    rcases htail : o.layeredBytes E p idxs with e | tail
    · rw [layeredBytes, hi, htail] at h
      cases h
    rcases List.mem_cons.1 hmem with rfl | hmem
    · have hhas : o.main.chunks.has (p, idx) = true := Table.has_eq_true.2 ⟨k, hrow⟩
      have hread : o.readChunk E .main p idx = .error (.missingBlob p idx) := by
        simp only [readChunk, Overlay.db, hrow, Db.blobBytes, hblob]
      rw [readChunkLayered, if_neg (by simp [hhas]), hread] at hi
      cases hi
    · exact layeredBytes_of_missing E hrow hblob hmem htail

/-- The copy of a file's row into the Delta changes no chunk list. -/
theorem triple_ensureDeltaFileRow {Z : K → Prop} (p : Str) (mode mtime : ℤ) (size : ℕ)
    (db₁ : Db K) :
    Triple (fun db => RefInv P db₀ Z db ∧ db.chunks = db₁.chunks ∧
        db.snapChunks = db₁.snapChunks ∧ db.undoChunks = db₁.undoChunks)
      (ensureDeltaFileRow p mode mtime size)
      fun _ db => RefInv P db₀ Z db ∧ db.chunks = db₁.chunks ∧
        db.snapChunks = db₁.snapChunks ∧ db.undoChunks = db₁.undoChunks := by
  intro db _ db' ⟨h, hch⟩ hx
  unfold ensureDeltaFileRow at hx
  rw [reads_bind] at hx
  split_ifs at hx
  · rcases updateFs_ok hx with ⟨-, rfl⟩ | ⟨_, -, rfl⟩
    · exact ⟨h, hch⟩
    · exact ⟨h.setFs p fun _ h => h, hch⟩
  · obtain ⟨-, rfl⟩ := insertFs_ok hx
    exact ⟨h.addFs p rfl, hch⟩

/-- The new size and hash keep the reference counts of the Delta exact. -/
theorem keeps_refreshDeltaFile (E : Ext K) (p : Str) (size : ℕ) (mtime : ℤ) :
    Keeps (MainInv P db₀ b) (refreshDeltaFile E p size mtime) :=
  Keeps.bind (Keeps.query _) fun _ => Keeps.onMain (keeps_updateFs p fun _ h => h)

/-- The row and the chunks of a range write: what its body does once it knows the file. `x` is the
rest, which does not return when a chunk has lost its blob. -/
theorem triple_rewrite (E : Ext K) {p : Str} (hP : P p) {o₀ : Overlay K} {r : Rewrite}
    (hsort : r.idxs.Pairwise (· < ·)) (hnr : ∀ idx j k, ¬ o₀.Revives E p r idx j k)
    (mode mtime : ℤ) (newSize : ℕ) {x : Ov K Unit} (hx : Keeps (MainInv P db₀ o₀.base) x)
    (hlost : ∀ o idx k, idx ∈ r.idxs → o.main.chunks.get? (p, idx) = some k →
      o.main.blobs.get? k = none → ∀ u o', x o ≠ .ok u o') :
    Triple (fun o => MainInv P db₀ o₀.base o ∧ o.main = o₀.main)
      (do
        onMain (ensureDeltaFileRow p mode mtime newSize)
        r.idxs.forM (rewriteChunk E p r.size r.layer r.new)
        x) fun _ => MainInv P db₀ o₀.base := by
  -- The row comes first, then the chunks one by one; what the last statement does keeps the
  -- invariant by hypothesis.
  refine Triple.bind (q := fun _ => Rewriting P db₀ E o₀ p r r.idxs) ?_ fun _ =>
    Triple.bind (triple_rewriteChunks E hP hsort hnr) fun _ => ?_
  · intro o _ o' ⟨h, hmain⟩ hrun
    obtain ⟨db, hdb, rfl⟩ := onMain_ok hrun
    rw [hmain] at hdb
    obtain ⟨hinv, hch, hs, hu⟩ := triple_ensureDeltaFileRow p mode mtime newSize o₀.main _ _ _
      ⟨hmain ▸ h.1, rfl, rfl, rfl⟩ hdb
    refine ⟨h.2, List.suffix_refl _, fun i _ => ?_, fun i hi hir => absurd hi hir,
      fun q i _ => ?_, hs, hu, Or.inl hinv⟩
    · rw [hch]
    · rw [hch]
  · intro o u o' h hrun
    rcases h.state with hI | ⟨idx, k, hidx, -, hrow, hblob, -⟩
    · exact Keeps.triple hx o u o' ⟨hI, h.base⟩ hrun
    · exact absurd hrun (hlost o idx k hidx hrow hblob u o')

/-- The hash of a file with a row whose blob is gone cannot be computed. -/
theorem refreshDeltaFile_of_missing (E : Ext K) {o : Overlay K} {p : Str} {idx : ℕ} {k : K}
    {size : ℕ} (mtime : ℤ) (hidx : idx < numChunks chunkSize size)
    (hrow : o.main.chunks.get? (p, idx) = some k) (hblob : o.main.blobs.get? k = none) (u : Unit)
    (o' : Overlay K) : refreshDeltaFile E p size mtime o ≠ .ok u o' := by
  intro h
  obtain ⟨b, _, hread, -⟩ := bind_eq_ok.1 h
  exact layeredBytes_of_missing E hrow hblob (List.mem_range.2 hidx) (query_eq_ok.1 hread).1

/-- A range write that revives no removed file keeps the counts, whether it succeeds or fails. -/
theorem endState_writeRange (E : Ext K) {vmPath : Str} (hP : P (normalizeVmPath vmPath)) {off : ℕ}
    {data : Bytes} {mtime : ℤ} {o : Overlay K} (h : MainInv P db₀ b o)
    (hd : NoRevival E o (.writeRange vmPath off data mtime)) :
    MainInv P db₀ b (endState (writeRange E vmPath off data mtime) o) := by
  unfold writeRange
  refine endState_query_bind (Q := MainInv P db₀ b) h fun _ _ => ?_
  dsimp only
  split_ifs with hdata
  · exact h
  · refine endState_query_bind (Q := MainInv P db₀ b) h fun _ _ => ?_
    refine endState_query_bind (Q := MainInv P db₀ b) h fun _ _ => ?_
    refine endState_savepoint (Q := MainInv P db₀ b) (fun _ => h) fun _ o' hbody => ?_
    rw [bind_of_ok (clearWhiteoutsFor_apply _ o), reads_bind] at hbody
    obtain ⟨hinv, rfl⟩ := h
    have hnr := hd _ _ rfl
    rcases hv : (o.unhide (normalizeVmPath vmPath)).fileView (normalizeVmPath vmPath) with
      ⟨size, mode, layer⟩
    rw [hv] at hnr hbody
    refine triple_rewrite E hP List.pairwise_lt_range' hnr mode mtime _
      (keeps_refreshDeltaFile E _ _ mtime) ?_ _ _ _ (mainInv_unhide ⟨hinv, rfl⟩ _) hbody
    intro o₁ idx k hidx hrow hblob
    refine refreshDeltaFile_of_missing E mtime ?_ hrow hblob
    have hlen := List.length_pos_iff.2 hdata
    have hle : idx ≤ (off + data.length - 1) / chunkSize := by
      have := List.mem_range'_1.1 hidx
      omega
    rw [Nat.le_div_iff_mul_le chunkSize_pos] at hle
    rw [lt_numChunks_iff chunkSize_pos]
    omega

/-- A truncation that revives no removed file keeps the counts, whether it succeeds or fails. -/
theorem endState_truncateRange (E : Ext K) {vmPath : Str} (hP : P (normalizeVmPath vmPath))
    {newSize : ℕ} {mtime : ℤ} {o : Overlay K} (h : MainInv P db₀ b o)
    (hd : NoRevival E o (.truncateRange vmPath newSize mtime)) :
    MainInv P db₀ b (endState (truncateRange E vmPath newSize mtime) o) := by
  unfold truncateRange
  refine endState_query_bind (Q := MainInv P db₀ b) h fun _ _ => ?_
  refine endState_savepoint (Q := MainInv P db₀ b) (fun _ => h) fun _ o' hbody => ?_
  rw [bind_of_ok (clearWhiteoutsFor_apply _ o), reads_bind] at hbody
  obtain ⟨hinv, rfl⟩ := h
  have hnr := hd _ _ rfl
  -- A path that is no file is refused before anything is written.
  rcases hv : (o.unhide (normalizeVmPath vmPath)).fileView (normalizeVmPath vmPath) with
    ⟨size, mode, layer⟩
  rw [hv] at hnr hbody
  rcases layer with _ | s
  · cases hbody
  · dsimp only [Option.getD_some] at hbody hnr
    split_ifs at hbody
    · cases hbody
      exact (mainInv_unhide ⟨hinv, rfl⟩ _).1
    · refine triple_rewrite E hP List.pairwise_lt_range' hnr mode mtime newSize ?_ ?_ _ _ _
        (mainInv_unhide ⟨hinv, rfl⟩ _) hbody
      · refine Keeps.bind (Keeps.onMain (keeps_deleteChunks ?_)) fun _ =>
          keeps_refreshDeltaFile E _ _ mtime
        intro q i hq
        rw [of_decide_eq_true (Bool.and_eq_true_iff.1 hq).1]
        exact hP
      · intro o₁ idx k hidx hrow hblob u o₂ hrun
        obtain ⟨_, o₃, hdel, hfresh⟩ := bind_eq_ok.1 hrun
        obtain ⟨db, hdb, rfl⟩ := onMain_ok hdel
        have hlt : idx < numChunks chunkSize newSize := by
          have := List.mem_range'_1.1 hidx
          omega
        refine refreshDeltaFile_of_missing E (k := k) mtime hlt ?_ ?_ _ _ hfresh
        · rw [deleteChunks_ok hdb, Db.delChunks, Table.get?_deleteWhere, hrow]
          simp [hlt]
        · rw [deleteChunks_ok hdb, Db.delChunks]
          exact Store.get?_releaseAll_of_none _ hblob

/-- An operation that does not drop a blob and store it again keeps the counts exact, in whatever
state it ends, and leaves the chunks of the paths it does not touch alone. -/
theorem endState_op (E : Ext K) {op : OverlayOp} (hP : ∀ q, op.Touches q → P q) {o : Overlay K}
    (h : MainInv P db₀ b o) (hd : NoRevival E o op) :
    MainInv P db₀ b (endState (op.run E) o) := by
  rcases op with _ | _ | _ | _ | _ | _
  · exact keeps_write E (hP _ rfl) _ _ _ _ o h
  · exact keeps_mkdir (hP _ rfl) _ o h
  · exact keeps_symlink (hP _ rfl) _ _ o h
  · exact endState_writeRange E (hP _ rfl) h hd
  · exact endState_truncateRange E (hP _ rfl) h hd
  · exact keeps_remove hP o h

end Overlay

end Dbvm
