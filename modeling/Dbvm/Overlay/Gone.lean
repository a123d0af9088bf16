import Dbvm.Overlay.Frame
import Dbvm.Overlay.Total

/-!
# Removed content of the Base

Once `remove` has taken a path of the Base, nothing of it comes back: as long as the Delta has no
row there, the path is missing, and when it has one, what is read there is what the operations since
have written. That second half is said by a comparison of two runs: over any other Base with the
same paths that differs at the removed path, the same operations go through the same states of the
Delta and the same bytes are read (`rebase`). It holds as long as no range write is applied to a
path that is hidden and no path is made visible whose content in the Base was hidden from above only
(`NoReturn`).
-/

namespace Dbvm.Overlay

open Lib Lib.Chunks Lib.Prog

variable {K : Type} [DecidableEq K] {U : Str → Prop} {E : Ext K} {o o' : Overlay K}

/-! ## Another Base -/

omit [DecidableEq K] in
/-- The same Delta and whiteouts over another Base. -/
def rebase (o : Overlay K) (b : Db K) : Overlay K := { o with base := b }

/-- A Base with the same paths as another that differs from it at `q` only, not in the kind, and has
no policies. -/
structure DiffersAt (E : Ext K) (q : Str) (base b : Db K) : Prop where
  /-- No rules. -/
  policies : b.policies = []
  /-- The same paths. -/
  paths : b.fs.rows.map Prod.fst = base.fs.rows.map Prod.fst
  /-- The same kinds. -/
  kinds : ∀ p, (b.fs.get? p).map (fun row => row.kind) = (base.fs.get? p).map fun row => row.kind
  /-- The same rows at other paths. -/
  rows : ∀ p, p ≠ q → b.fs.get? p = base.fs.get? p
  /-- The same chunk rows at other paths. -/
  chunks : ∀ p i, p ≠ q → b.chunks.get? (p, i) = base.chunks.get? (p, i)
  /-- Other paths read the same. -/
  bytes : ∀ p i k, p ≠ q → base.chunks.get? (p, i) = some k →
    b.blobBytes E p i k = base.blobBytes E p i k

section Differs

variable {q : Str} {base b : Db K} (h : DiffersAt E q base b)

include h

/-- The paths of the Base decide which whiteouts are cleared, and they are the same. -/
theorem DiffersAt.clearedWhiteouts (w : List Str) (p : Str) :
    Overlay.clearedWhiteouts b w p = Overlay.clearedWhiteouts base w p := by
  unfold Overlay.clearedWhiteouts basePathsUnder
  rw [h.paths]

/-- The two Bases have the same paths below any path. -/
theorem DiffersAt.inBaseSubtree (p : Str) :
    Overlay.inBaseSubtree b p = Overlay.inBaseSubtree base p := by
  have hany : ∀ db : Db K, Overlay.inBaseSubtree db p =
      (db.fs.rows.map Prod.fst).any (inSubtree p) := by
    intro db
    rw [Overlay.inBaseSubtree, List.any_map]
    rfl
  rw [hany, hany, h.paths]

/-- A chunk of another path is read alike from either Base. -/
theorem DiffersAt.readChunk {p : Str} (hp : p ≠ q) (i : ℕ) (hb : o.base = base) :
    (o.rebase b).readChunk E .base p i = o.readChunk E .base p i := by
  unfold Overlay.readChunk
  simp only [Overlay.db, rebase, hb, h.chunks p i hp]
  rcases hk : base.chunks.get? (p, i) with _ | k
  · rfl
  · exact h.bytes p i k hp hk

/-- A chunk reads the same unless it is one of the Base's at `q`. -/
theorem DiffersAt.readChunkLayered {s : Schema} {p : Str} {i : ℕ} (hb : o.base = base)
    (hp : p = q → s = .main ∧ ∃ k, o.main.chunks.get? (p, i) = some k) :
    (o.rebase b).readChunkLayered E s p i = o.readChunkLayered E s p i := by
  unfold Overlay.readChunkLayered
  rcases eq_or_ne p q with hpq | hpq
  · obtain ⟨rfl, k, hk⟩ := hp hpq
    have hhas : o.main.chunks.has (p, i) = true := Table.has_eq_true.2 ⟨k, hk⟩
    have hhas' : (o.rebase b).main.chunks.has (p, i) = true := hhas
    rw [hhas, hhas', if_neg (by simp), if_neg (by simp)]
    rfl
  · have hhas : (o.rebase b).base.chunks.has (p, i) = o.base.chunks.has (p, i) := by
      rw [Table.has, Table.has, rebase, h.chunks p i hpq, hb]
    rw [hhas, h.readChunk hpq i hb]
    rcases s with _ | _
    · rfl
    · rw [if_neg (by simp), if_neg (by simp), h.readChunk hpq i hb]

/-- A range write finds the same file, unless it is the Base's at `q`. -/
theorem DiffersAt.fileView {p : Str} (hb : o.base = base)
    (hp : p = q → o.main.fs.get? p = none → ∀ row, base.fs.get? p = some row → row.kind ≠ .file) :
    (o.rebase b).fileView p = o.fileView p := by
  have hwo : (o.rebase b).whitedOut p = o.whitedOut p := rfl
  -- A row of the delta decides without the base.
  rcases hm : o.main.fs.get? p with _ | row
  · have hkind := h.kinds p
    unfold Overlay.fileView lookupFile kindIn sizeIn
    rw [hwo]
    simp only [Overlay.db, rebase, hm, hb, hkind, Option.map_none]
    rcases hrow : base.fs.get? p with _ | row
    · rfl
    · dsimp only [Option.map_some]
      split_ifs with hhid
      · rfl
      · -- A file of the Base: this is not `q`.
        have hpq : p ≠ q := by
          intro hpq
          simp [hp hpq hm row hrow] at hhid
        simp only [h.rows p hpq, hrow]
  · unfold Overlay.fileView lookupFile kindIn sizeIn
    simp only [Overlay.db, rebase, hm, Option.map_some]
    split_ifs
    · rfl
    · rfl

end Differs

/-! ## The same operations over another Base -/

section Sim

variable {q : Str} {base b : Db K}

/-- The second overlay is the first one over the Base `b`, and `I` holds of the first. -/
def Over (base b : Db K) (I : Overlay K → Prop) (o t : Overlay K) : Prop :=
  t = o.rebase b ∧ o.base = base ∧ I o

omit [DecidableEq K] in
/-- A program on the Delta does the same over any Base. -/
theorem sim_onMain {α : Type} {I : Overlay K → Prop} {J : α → Overlay K → Prop} {x : Sql K α}
    (h : ∀ o a db, o.base = base → I o → x o.main = .ok a db → J a { o with main := db }) :
    Sim (Over base b I) (onMain x) (onMain x) fun a => Over base b (J a) := by
  rintro o t a o' ⟨rfl, hb, hI⟩ hx
  obtain ⟨db, hdb, rfl⟩ := onMain_ok hx
  exact ⟨({ o with main := db } : Overlay K).rebase b, onMain_of_ok hdb, rfl, hb,
    h o a db hb hI hdb⟩

omit [DecidableEq K] in
/-- A check of the Base's policies passes when there are none. -/
theorem sim_check {I : Overlay K → Prop} {x : Ov K Unit} (hx : ∀ o u o', x o = .ok u o' → o' = o)
    (hpass : ∀ o : Overlay K, o.base = b → x o = .ok () o) :
    Sim (Over base b I) x x fun _ => Over base b I := by
  rintro o t u o' ⟨rfl, hb, hI⟩ h
  rw [hx o u o' h]
  exact ⟨o.rebase b, hpass _ rfl, rfl, hb, hI⟩

/-- Clearing the whiteouts of a path runs alike over either Base. -/
theorem sim_clearWhiteoutsFor (h : DiffersAt E q base b) (p : Str) {I : Overlay K → Prop}
    {J : Overlay K → Prop} (hJ : ∀ o, o.base = base → I o → J (o.unhide p)) :
    Sim (Over base b I) (clearWhiteoutsFor p) (clearWhiteoutsFor p) fun _ => Over base b J := by
  rintro o t u o' ⟨rfl, hb, hI⟩ hx
  cases hx
  refine ⟨(o.unhide p).rebase b, ?_, rfl, hb, hJ o hb hI⟩
  rw [clearWhiteoutsFor_apply]
  unfold unhide rebase
  dsimp only
  rw [h.clearedWhiteouts, hb]

/-- Neither Base has a policy that refuses a path. -/
theorem sim_checkBasePolicy (h : DiffersAt E q base b) (p : Str) {I : Overlay K → Prop} :
    Sim (Over base b I) (checkBasePolicy p) (checkBasePolicy p) fun _ => Over base b I :=
  sim_check (fun _ _ _ hx => (query_eq_ok.1 hx).2) fun o ho =>
    checkBasePolicy_of_nil (by rw [ho]; exact h.policies) p

/-- Neither Base has a policy that bounds the size of a file. -/
theorem sim_checkBaseMaxFile (h : DiffersAt E q base b) (size : Overlay K → ℕ)
    {I : Overlay K → Prop} :
    Sim (Over base b I) (checkBaseMaxFile size) (checkBaseMaxFile size) fun _ => Over base b I :=
  sim_check (fun _ _ _ hx => (query_eq_ok.1 hx).2) fun o ho =>
    checkBaseMaxFile_of_nil (by rw [ho]; exact h.policies) size

/-- Neither Base has a quota. -/
theorem sim_checkBaseQuota (h : DiffersAt E q base b) (growth : Overlay K → ℤ)
    {I : Overlay K → Prop} :
    Sim (Over base b I) (checkBaseQuota growth) (checkBaseQuota growth) fun _ => Over base b I :=
  sim_check (fun _ _ _ hx => (query_eq_ok.1 hx).2) fun o ho =>
    checkBaseQuota_of_nil (by rw [ho]; exact h.policies) growth

/-- No condition on the first overlay. -/
abbrev Free : Overlay K → Prop := fun _ => True

/-- A write of a whole entry does the same over any Base. -/
theorem sim_entry (h : DiffersAt E q base b) (p : Str) (x : Sql K Unit) {I : Overlay K → Prop} :
    Sim (Over base b I) (writeTx (do
      clearWhiteoutsFor p
      onMain x)) (writeTx (do
      clearWhiteoutsFor p
      onMain x)) fun _ => Over base b Free :=
  Sim.savepoint (Sim.bind (sim_clearWhiteoutsFor h p (J := Free) fun _ _ _ => trivial) fun _ =>
    sim_onMain fun _ _ _ _ _ _ => trivial)

/-- A removal runs alike over either Base: it reads kinds and paths only. -/
theorem sim_remove (h : DiffersAt E q base b) (vmPath : Str) {I : Overlay K → Prop} :
    Sim (Over base b I) (remove vmPath) (remove vmPath) fun _ => Over base b Free := by
  refine Sim.bind (sim_checkBasePolicy h _) fun _ => Sim.savepoint (Sim.bind
    (sim_onMain (J := fun _ => Free) fun _ _ _ _ _ _ => trivial) fun _ => ?_)
  rintro o t u o' ⟨rfl, hb, -⟩ hx
  rw [modify_apply] at hx
  cases hx
  refine ⟨_, modify_apply _ _, ?_, ?_, trivial⟩
  · unfold rebase
    dsimp only
    rw [h.inBaseSubtree, hb]
    split_ifs <;> rfl
  · split_ifs <;> exact hb

/-! ## Range writes over another Base -/

/-- The chunks of `p` that a range write may need are in the Delta, if `p` is the path at which the
Bases differ. -/
def Serves (q p : Str) (need : ℕ → Prop) (o : Overlay K) : Prop :=
  p = q → ∀ i, need i → ∃ k, o.main.chunks.get? (p, i) = some k

/-- One chunk of a range write runs alike over either Base when it is read from the Delta. -/
theorem sim_rewriteChunk (h : DiffersAt E q base b) {p : Str} {size : ℕ} {s : Schema}
    (f : ℕ → Bytes → Bytes) (idx : ℕ) (hs : p = q → s = .main) {need need' : ℕ → Prop}
    (hsize : ∀ i, i * chunkSize < size → need i) (hneed : ∀ i, need' i → need i ∨ i = idx) :
    Sim (Over base b (Serves q p need)) (rewriteChunk E p size s f idx)
      (rewriteChunk E p size s f idx) fun _ => Over base b (Serves q p need') := by
  refine Sim.bind (S := fun _ => Over base b (Serves q p need)) (Sim.query ?_) fun piece =>
    sim_onMain fun o _ db hb hserve hdb => ?_
  · rintro o t piece ⟨rfl, hb, hserve⟩ hread
    refine ⟨?_, rfl, hb, hserve⟩
    split_ifs at hread ⊢ with hlt
    · rw [h.readChunkLayered hb fun hpq => ⟨hs hpq, hserve hpq idx (hsize idx hlt)⟩]
      exact hread
    · exact hread
  · intro hpq i hi
    rw [swapChunk_ok hdb]
    show ∃ k, (o.main.withChunk E .archive p idx (f idx piece)).chunks.get? (p, i) = some k
    rw [Db.get?_withChunk]
    by_cases hidx : i = idx
    · rw [hidx, if_pos rfl]
      exact ⟨_, rfl⟩
    · rw [if_neg (by simpa [Prod.ext_iff] using hidx)]
      exact hserve hpq i ((hneed i hi).resolve_right hidx)

/-- So do the chunks of a range write, one after the other. -/
theorem sim_rewriteChunks (h : DiffersAt E q base b) {p : Str} {size : ℕ} {s : Schema}
    (f : ℕ → Bytes → Bytes) (idxs : List ℕ) (hs : p = q → s = .main) :
    Sim (Over base b (Serves q p fun i => i * chunkSize < size))
      (idxs.forM (rewriteChunk E p size s f)) (idxs.forM (rewriteChunk E p size s f))
      fun _ => Over base b (Serves q p fun i => i * chunkSize < size ∨ i ∈ idxs) := by
  -- The chunks that have been written are there too.
  have hloop := Sim.forM (J := fun rest => Over base b (Serves q p fun i =>
      i * chunkSize < size ∨ i ∈ idxs ∧ i ∉ rest)) (f := rewriteChunk E p size s f)
    (g := rewriteChunk E p size s f) (fun x xs => sim_rewriteChunk h f x hs
      (fun i hi => Or.inl hi) fun i hi => ?_) idxs
  · refine hloop.mono (fun o t hR => ⟨hR.1, hR.2.1, fun hpq i hi => ?_⟩)
      fun _ o t hS => ⟨hS.1, hS.2.1, fun hpq i hi => ?_⟩
    · exact hR.2.2 hpq i (hi.resolve_right fun hmem => hmem.2 hmem.1)
    · exact hS.2.2 hpq i (hi.imp_right fun hmem => ⟨hmem, by simp⟩)
  · by_cases hx : i = x
    · exact Or.inr hx
    · refine Or.inl (hi.imp_right fun hmem => ⟨hmem.1, ?_⟩)
      rw [List.mem_cons, not_or]
      exact ⟨hx, hmem.2⟩

/-- The bytes of a list of chunks are those of the single reads. -/
theorem layeredBytes_congr {p : Str} : ∀ {l : List ℕ},
    (∀ i ∈ l, o'.readChunkLayered E .main p i = o.readChunkLayered E .main p i) →
      o'.layeredBytes E p l = o.layeredBytes E p l
  | [], _ => rfl
  | idx :: rest, hl => by
    rw [layeredBytes, layeredBytes, hl idx (by simp),
      layeredBytes_congr fun i hi => hl i (by simp [hi])]

/-- The new size and hash of a file run alike over either Base when its chunks are in the Delta. -/
theorem sim_refreshDeltaFile (h : DiffersAt E q base b) (p : Str) (size : ℕ) (mtime : ℤ) :
    Sim (Over base b (Serves q p fun i => i < numChunks chunkSize size))
      (refreshDeltaFile E p size mtime) (refreshDeltaFile E p size mtime)
      fun _ => Over base b Free := by
  refine Sim.bind (S := fun _ => Over base b Free) (Sim.query ?_) fun _ =>
    sim_onMain fun _ _ _ _ _ _ => trivial
  rintro o t bytes ⟨rfl, hb, hserve⟩ hread
  refine ⟨?_, rfl, hb, trivial⟩
  rw [layeredBytes_congr fun i hi => h.readChunkLayered hb fun hpq =>
    ⟨rfl, hserve hpq i (List.mem_range.1 hi)⟩]
  exact hread

/-- What a range write at `p` reads of `p` is in the Delta, if the Bases differ there. -/
structure FromDelta (q p : Str) (o : Overlay K) : Prop where
  /-- The Base has no file there unless the Delta has a row. -/
  row : p = q → o.main.fs.get? p = none → ∀ row, o.base.fs.get? p = some row → row.kind ≠ .file
  /-- The file is the Delta's. -/
  layer : p = q → (o.fileView p).2.2.getD .main = .main
  /-- Its chunks are there. -/
  serves : Serves q p (fun i => i * chunkSize < (o.fileView p).1) o

/-- The row and the chunks of a range write do the same over the other Base. -/
theorem sim_rewrite (h : DiffersAt E q base b) {p : Str} {size newSize : ℕ} {mode mtime : ℤ}
    {s : Schema} {f : ℕ → Bytes → Bytes} {idxs : List ℕ} (hs : p = q → s = .main) {x : Ov K Unit}
    (hx : Sim (Over base b (Serves q p fun i => i * chunkSize < size ∨ i ∈ idxs)) x x
      fun _ => Over base b Free) :
    Sim (Over base b (Serves q p fun i => i * chunkSize < size)) (do
        onMain (ensureDeltaFileRow p mode mtime newSize)
        idxs.forM (rewriteChunk E p size s f)
        x) (do
        onMain (ensureDeltaFileRow p mode mtime newSize)
        idxs.forM (rewriteChunk E p size s f)
        x) fun _ => Over base b Free := by
  refine Sim.bind (sim_onMain (J := fun _ => Serves q p fun i => i * chunkSize < size) ?_) fun _ =>
    Sim.bind (sim_rewriteChunks h f idxs hs) fun _ => hx
  intro o _ db hb hserve hdb hpq i hi
  show ∃ k, db.chunks.get? (p, i) = some k
  rw [(ensureDeltaFileRow_ok hdb).2]
  exact hserve hpq i hi

/-- A chunk of a file after a range write is one it had before or has been written. -/
theorem old_or_written {size off len i : ℕ} (hlen : 0 < len)
    (hi : i < numChunks chunkSize (max size (off + len))) : i * chunkSize < size ∨
      i ∈ List.range' (min off size / chunkSize)
        ((off + len - 1) / chunkSize + 1 - min off size / chunkSize) := by
  rw [lt_numChunks_iff chunkSize_pos] at hi
  rcases Nat.lt_or_ge (i * chunkSize) size with hlt | hge
  · exact Or.inl hlt
  · have hfirst : min off size / chunkSize ≤ i :=
      Nat.div_le_of_le_mul (by rw [Nat.mul_comm]; omega)
    have hlast : i ≤ (off + len - 1) / chunkSize := by
      rw [Nat.le_div_iff_mul_le chunkSize_pos]
      omega
    exact Or.inr (List.mem_range'_1.2 ⟨hfirst, by omega⟩)

/-- A chunk of a file after a truncation is one it had before or has been written. -/
theorem old_or_cut {size newSize i : ℕ} (hi : i < numChunks chunkSize newSize) :
    i * chunkSize < size ∨ i ∈ List.range' (min newSize size / chunkSize)
      (numChunks chunkSize newSize - min newSize size / chunkSize) := by
  rcases Nat.lt_or_ge (i * chunkSize) size with hlt | hge
  · exact Or.inl hlt
  · have hfirst : min newSize size / chunkSize ≤ i :=
      Nat.div_le_of_le_mul (by rw [Nat.mul_comm]; omega)
    exact Or.inr (List.mem_range'_1.2 ⟨hfirst, by omega⟩)

/-- A range write runs alike over either Base when its file is served from the Delta. -/
theorem sim_writeRange (h : DiffersAt E q base b) {vmPath : Str} {off : ℕ} {data : Bytes}
    {mtime : ℤ} {o₀ : Overlay K}
    (hd : FromDelta q (normalizeVmPath vmPath) (o₀.unhide (normalizeVmPath vmPath))) :
    Sim (Over base b (· = o₀)) (writeRange E vmPath off data mtime)
      (writeRange E vmPath off data mtime) fun _ => Over base b Free := by
  refine Sim.bind (sim_checkBasePolicy h _) fun _ => ?_
  dsimp only
  split_ifs with hnil
  · exact Sim.pure fun _ _ hR => ⟨hR.1, hR.2.1, trivial⟩
  refine Sim.bind (sim_checkBaseMaxFile h _) fun _ => Sim.bind (sim_checkBaseQuota h _) fun _ =>
    Sim.savepoint (Sim.bind (sim_clearWhiteoutsFor h _
      (J := (· = o₀.unhide (normalizeVmPath vmPath))) fun o _ ho => by rw [ho]) fun _ => ?_)
  generalize normalizeVmPath vmPath = p at hd ⊢
  refine Sim.bind (S := fun v => Over base b fun o => o = o₀.unhide p ∧
    v = (o₀.unhide p).fileView p) (Sim.reads ?_) fun v => ?_
  · rintro o t ⟨rfl, hb, rfl⟩
    exact ⟨h.fileView hb fun hpq hnone => by rw [← hb]; exact hd.row hpq hnone, rfl, hb, rfl, rfl⟩
  obtain ⟨size, mode, layer⟩ := v
  rintro o t u o' ⟨rfl, hb, rfl, hv⟩ hrun
  -- As for a truncation: at `q` the call reads the delta only.
  have hlayer : p = q → layer.getD .main = .main := by
    intro hpq
    have := hd.layer hpq
    rw [← hv] at this
    exact this
  have hserve : Serves q p (fun i => i * chunkSize < size) (o₀.unhide p) := by
    have := hd.serves
    rw [← hv] at this
    exact this
  refine sim_rewrite h hlayer ((sim_refreshDeltaFile h p _ mtime).mono ?_ fun _ _ _ hS => hS) _ _ u
    o' ⟨rfl, hb, hserve⟩ hrun
  rintro o t ⟨ht, hb, hin⟩
  refine ⟨ht, hb, fun hpq i hi => hin hpq i ?_⟩
  exact old_or_written (List.length_pos_iff.2 hnil) hi

/-- A truncation runs alike over either Base when its file is served from the Delta. -/
theorem sim_truncateRange (h : DiffersAt E q base b) {vmPath : Str} {newSize : ℕ} {mtime : ℤ}
    {o₀ : Overlay K}
    (hd : FromDelta q (normalizeVmPath vmPath) (o₀.unhide (normalizeVmPath vmPath))) :
    Sim (Over base b (· = o₀)) (truncateRange E vmPath newSize mtime)
      (truncateRange E vmPath newSize mtime) fun _ => Over base b Free := by
  refine Sim.bind (sim_checkBasePolicy h _) fun _ => Sim.savepoint (Sim.bind
    (sim_clearWhiteoutsFor h _ (J := (· = o₀.unhide (normalizeVmPath vmPath)))
      fun o _ ho => by rw [ho]) fun _ => ?_)
  generalize normalizeVmPath vmPath = p at hd ⊢
  refine Sim.bind (S := fun v => Over base b fun o => o = o₀.unhide p ∧
    v = (o₀.unhide p).fileView p) (Sim.reads ?_) fun v => ?_
  · rintro o t ⟨rfl, hb, rfl⟩
    exact ⟨h.fileView hb fun hpq hnone => by rw [← hb]; exact hd.row hpq hnone, rfl, hb, rfl, rfl⟩
  obtain ⟨size, mode, layer⟩ := v
  rcases layer with _ | s
  · exact Sim.throw
  dsimp only
  split_ifs with hsize
  · exact Sim.pure fun _ _ hR => ⟨hR.1, hR.2.1, trivial⟩
  rintro o t u o' ⟨rfl, hb, rfl, hv⟩ hrun
  -- The two bases differ at `q` only, where all that the call reads comes from the delta.
  have hlayer : p = q → s = .main := by
    intro hpq
    have := hd.layer hpq
    rw [← hv] at this
    exact this
  have hserve : Serves q p (fun i => i * chunkSize < size) (o₀.unhide p) := by
    have := hd.serves
    rw [← hv] at this
    exact this
  refine sim_rewrite h hlayer (Sim.bind (sim_onMain (J := fun _ =>
    Serves q p fun i => i < numChunks chunkSize newSize) ?_) fun _ =>
      sim_refreshDeltaFile h p newSize mtime) _ _ u o' ⟨rfl, hb, hserve⟩ hrun
  intro o _ db hb hin hdb hpq i hi
  show ∃ k, db.chunks.get? (p, i) = some k
  rw [deleteChunks_ok hdb, Db.get?_delChunks, if_neg (by simp [hi])]
  exact hin hpq i (old_or_cut hi)

end Sim

/-! ## What is gone stays gone -/

/-- A range write or a truncation. -/
def isRange : OverlayOp → Bool
  | .writeRange .. => true
  | .truncateRange .. => true
  | _ => false

/-- The condition on the operations after a removal. -/
structure NoReturn (U : Str → Prop) (o : Overlay K) (op : OverlayOp) : Prop where
  /-- The operation is at a plain path. -/
  plain : PlainOp U op
  /-- A range write is not applied to a hidden file of the Base. -/
  range : isRange op = true → Hides o.whiteouts op.path → ∀ row,
    o.base.fs.get? op.path = some row → row.kind ≠ .file
  /-- A range write is not applied below a hidden path of the Base. -/
  above : isRange op = true → ∀ a ∈ ancestors op.path, Hides o.whiteouts a →
    o.base.fs.get? a = none
  /-- A path that is hidden from above only has nothing of the Base below it. -/
  below : isRemove op = false → op.path ∉ o.whiteouts → ∀ q row, o.base.fs.get? q = some row →
    Below op.path q → Hides o.whiteouts op.path →
      ∃ a ∈ o.whiteouts, Below op.path a ∧ (a = q ∨ Below a q)

/-- The Base's content at `q` is out of reach: it is hidden, or the Delta has a row there and all
the chunks of the file. -/
structure Gone (q : Str) (o : Overlay K) : Prop where
  /-- Without a row in the Delta it is hidden. -/
  hidden : o.main.fs.get? q = none → ∀ row, o.base.fs.get? q = some row → Hides o.whiteouts q
  /-- A row in the Delta has its chunks. -/
  whole : ∀ row, o.main.fs.get? q = some row → ∀ i, i < numChunks chunkSize row.size →
    ∃ k, o.main.chunks.get? (q, i) = some k

omit [DecidableEq K] in
/-- A range write finds the Delta's file or none, when the Base has no file where the Delta has no
row. -/
theorem fileView_of_gone {p : Str} (h : o.main.fs.get? p = none → ∀ row,
      o.base.fs.get? p = some row → row.kind ≠ .file) :
    (∃ row, o.main.fs.get? p = some row ∧ row.kind = .file ∧
      o.fileView p = (row.size, row.mode, some .main)) ∨ o.fileView p = (0, 0o644, none) := by
  unfold fileView lookupFile kindIn sizeIn
  rcases hm : o.main.fs.get? p with _ | row
  · rcases hb : o.base.fs.get? p with _ | row
    · simp [Overlay.db, hm, hb]
    · simp [Overlay.db, hm, hb, h hm row hb]
  · by_cases hk : row.kind = .file
    · exact Or.inl ⟨row, rfl, hk, by simp [Overlay.db, hm, hk]⟩
    · exact Or.inr (by simp [Overlay.db, hm, hk])

section Step

variable {q : Str} {op : OverlayOp} {u : Unit}

omit [DecidableEq K] in
/-- A range operation under the condition never takes up a removed file of the Base. -/
theorem Gone.base_of_range (h : Gone q o) (hc : NoReturn U o op) (hrange : isRange op = true)
    (hq : op.path = q) (hnone : o.main.fs.get? q = none) (row : FsRow K)
    (hrow : o.base.fs.get? q = some row) : row.kind ≠ .file := by
  have hhid := h.hidden hnone row hrow
  rw [← hq] at hhid hrow
  exact hc.range hrange hhid row hrow

omit [DecidableEq K] in
/-- The file a range write finds at a path that is gone is the Delta's. -/
theorem Gone.fromDelta (h : Gone q o) (hc : NoReturn U o op) (hrange : isRange op = true) :
    FromDelta q op.path (o.unhide op.path) := by
  have hnone : op.path = q → (o.unhide op.path).main.fs.get? op.path = none → ∀ row,
      (o.unhide op.path).base.fs.get? op.path = some row → row.kind ≠ .file := by
    intro hq hm row hrow
    rw [unhide_main, hq] at hm
    rw [unhide_base, hq] at hrow
    exact h.base_of_range hc hrange hq hm row hrow
  refine ⟨hnone, fun hq => ?_, fun hq i hi => ?_⟩
  · rcases fileView_of_gone (hnone hq) with ⟨row, -, -, hv⟩ | hv
    · rw [hv]
      rfl
    · rw [hv]
      rfl
  · rcases fileView_of_gone (hnone hq) with ⟨row, hrow, -, hv⟩ | hv
    · rw [hv, ← lt_numChunks_iff chunkSize_pos] at hi
      rw [unhide_main] at hrow ⊢
      rw [hq] at hrow ⊢
      exact h.whole row hrow i hi
    · rw [hv] at hi
      exact absurd hi (Nat.not_lt_zero _)

omit [DecidableEq K] in
/-- A write at another path keeps the content out of reach. -/
theorem Gone.wrote (h : Gone q o) (ht : Tidy U o) (hU : Plain U) (hc : NoReturn U o op)
    (hrem : isRemove op = false) {now : ℤ} (hw : Wrote op.path (dirsOf op) now o o')
    (hq : q ≠ op.path) : Gone q o' := by
  have hfs := hw.fs q hq
  -- Without a Delta row at `q` the whiteout that hides it has to survive the clearing; with one
  -- its chunks have to stay.
  constructor
  · intro hnone row hrow
    rw [hw.base] at hrow
    rw [hnone] at hfs
    split_ifs at hfs with hd
    have hhid := h.hidden hfs.symm row hrow
    rw [hw.whiteouts]
    refine hides_cleared hU ht.base ht.white hc.plain.1 hrow hhid hq (fun hanc => ?_) fun hb => ?_
    · -- An ancestor without a row: this is a range write, which does not meet the condition.
      by_cases hrange : isRange op = true
      · rw [hc.above hrange q hanc hhid] at hrow
        cases hrow
      · refine hd ⟨?_, hfs.symm⟩
        rcases op with _ | _ | _ | _ | _ | _
        · exact hanc
        · exact hanc
        · exact hanc
        · exact absurd rfl hrange
        · exact absurd rfl hrange
        · cases hrem
    · by_cases hself : op.path ∈ o.whiteouts
      · exact Or.inl hself
      · obtain ⟨a, ha, haq⟩ := hhid
        rcases haq with rfl | haq
        · exact Or.inr ⟨_, ha, hb, Or.inl rfl⟩
        · rcases haq.total hb with rfl | hap | hpa
          · exact absurd ha hself
          · exact Or.inr (hc.below hrem hself q row hrow hb ⟨a, ha, Or.inr hap⟩)
          · exact Or.inr ⟨a, ha, hpa, Or.inr haq⟩
  · intro row hrow i hi
    rw [hw.chunks q i hq]
    rw [hrow] at hfs
    split_ifs at hfs with hd
    · have hsize : row.size = 0 := by
        rw [Option.some.inj hfs]
        rfl
      rw [hsize, numChunks_zero chunkSize_pos] at hi
      exact absurd hi (Nat.not_lt_zero i)
    · exact h.whole row hfs.symm i hi

omit [DecidableEq K] in
/-- A removal of any path keeps the content out of reach. -/
theorem Gone.removed (h : Gone q o) (ht : Tidy U o) (hU : Plain U) {p : Str} (hp : U p)
    (hroot : p ≠ root) (hr : Removed p o o') : Gone q o' := by
  constructor
  · intro hnone row hrow
    rw [hr.base] at hrow
    rw [hr.fs] at hnone
    rw [hr.whiteouts]
    by_cases hs : inSubtree p q = true
    · -- The path goes, and the Base's row at it makes the whiteout.
      have hin : inBaseSubtree o.base p = true := by
        unfold inBaseSubtree
        exact List.any_eq_true.2 ⟨(q, row), Table.get?_eq_some_iff.1 hrow, hs⟩
      rw [if_pos hin]
      refine ⟨p, mem_addWhiteout.2 (Or.inr rfl), ?_⟩
      exact ((hU.inSubtree_iff hp hroot (ht.base q row hrow)).1 hs).imp Eq.symm id
    · rw [if_neg hs] at hnone
      obtain ⟨a, ha, haq⟩ := h.hidden hnone row hrow
      refine ⟨a, ?_, haq⟩
      split_ifs
      · exact mem_addWhiteout.2 (Or.inl ha)
      · exact ha
  · intro row hrow i hi
    rw [hr.fs] at hrow
    split_ifs at hrow with hs
    rw [hr.chunks q i (by simpa using hs)]
    exact h.whole row hrow i hi

omit [DecidableEq K] in
/-- A path that has a row and all its chunks. -/
theorem gone_of_row {row : FsRow K} (hrow : o'.main.fs.get? q = some row)
    (hch : ∀ i, i < numChunks chunkSize row.size → ∃ k, o'.main.chunks.get? (q, i) = some k) :
    Gone q o' := by
  constructor
  · intro hnone
    rw [hrow] at hnone
    cases hnone
  · intro row' hrow'
    rw [hrow] at hrow'
    cases hrow'
    exact hch

omit [DecidableEq K] in
/-- A range write at the path itself. -/
theorem Gone.ranged (h : Gone q o) (hc : NoReturn U o op) (hrange : isRange op = true)
    (hq : op.path = q) {size newSize : ℕ} {mode : ℤ} {layer : Option Schema}
    (hv : (o.unhide q).fileView q = (size, mode, layer)) (hr : Ranged q mode newSize o o')
    (hch : ∀ i, i < numChunks chunkSize newSize → i * chunkSize < size ∨
      ∃ k, o'.main.chunks.get? (q, i) = some k)
    (hold : ∀ i, i < numChunks chunkSize newSize → (∃ k, o.main.chunks.get? (q, i) = some k) →
      ∃ k, o'.main.chunks.get? (q, i) = some k) : Gone q o' := by
  obtain ⟨row, hrow, hsize, -⟩ := hr.row.row
  refine gone_of_row hrow fun i hi => ?_
  rw [hsize] at hi
  rcases hch i hi with hlt | hthere
  · have hserves := (h.fromDelta hc hrange).serves
    rw [hq, hv] at hserves
    refine hold i hi ?_
    have := hserves rfl i hlt
    rw [unhide_main] at this
    exact this
  · exact hthere

omit [DecidableEq K] in
/-- A truncation to the size the file has. -/
theorem Gone.unhide (h : Gone q o) (hc : NoReturn U o op) (hrange : isRange op = true)
    (hq : op.path = q) {s : Schema} (hv : ((o.unhide q).fileView q).2.2 = some s) :
    Gone q (o.unhide q) := by
  have hrow := (h.fromDelta hc hrange).row
  rw [hq] at hrow
  rcases fileView_of_gone (hrow rfl) with ⟨row, hm, -, -⟩ | hnone
  · rw [unhide_main] at hm
    refine gone_of_row (by rw [unhide_main]; exact hm) fun i hi => ?_
    rw [unhide_main]
    exact h.whole row hm i hi
  · rw [hnone] at hv
    cases hv

/-- What is gone stays gone. -/
theorem Gone.step (h : Gone q o) (ht : Tidy U o) (hU : Plain U) (hc : NoReturn U o op)
    (hok : op.run E o = .ok u o') : Gone q o' := by
  have hn := hU.normal hc.plain.1
  -- At the path of the operation each kind writes a row or removes one. Elsewhere the general
  -- lemmas on writes and removals apply.
  rcases eq_or_ne q op.path with hq | hq
  · rcases op with ⟨_, data, _⟩ | _ | _ | ⟨vmPath, off, data, mtime⟩ | ⟨vmPath, newSize, mtime⟩ |
      vmPath
    · obtain ⟨-, hch, row, hrow, -, -, hsize, -⟩ := write_ok hq.symm (hq ▸ hn) hok
      refine gone_of_row hrow fun i hi => ?_
      rw [hsize] at hi
      rw [hch, chunkRow, if_pos hi]
      exact ⟨_, rfl⟩
    · obtain ⟨-, -, row, hrow, -, -, hsize, -⟩ := mkdir_ok hq.symm (hq ▸ hn) hok
      exact gone_of_row hrow fun i hi => by simp [hsize, numChunks_zero chunkSize_pos] at hi
    · obtain ⟨-, -, row, hrow, -, -, hsize, -⟩ := symlink_ok hq.symm (hq ▸ hn) hok
      exact gone_of_row hrow fun i hi => by simp [hsize, numChunks_zero chunkSize_pos] at hi
    · by_cases hd : data = []
      · subst hd
        rw [writeRange_nil hok]
        exact h
      · obtain ⟨hr, hch⟩ := writeRange_ok hq.symm hd hok rfl
        refine h.ranged hc rfl hq.symm rfl hr (fun i hi => ?_) fun i _ hthere =>
          (hch i).2 (.inr hthere)
        exact (old_or_written (List.length_pos_iff.2 hd) hi).imp_right fun hmem =>
          (hch i).2 (.inl hmem)
    · obtain ⟨⟨s, hs⟩, hcut⟩ := truncateRange_ok hq.symm hok rfl
      rcases hcut with ⟨-, rfl⟩ | ⟨-, hr, hch⟩
      · exact h.unhide hc rfl hq.symm hs
      · refine h.ranged hc rfl hq.symm rfl hr (fun i hi => ?_)
          fun i hi hthere => (hch i).2 ⟨hi, .inr hthere⟩
        exact (old_or_cut hi).imp_right fun hmem => (hch i).2 ⟨hi, .inl hmem⟩
    · exact h.removed ht hU hc.plain.1 (hc.plain.2 vmPath rfl) (remove_ok hok)
  · rcases run_ok hn hok with rfl | ⟨vmPath, hrem, hr⟩ | ⟨hrem, now, hw⟩
    · exact h
    · exact h.removed ht hU hc.plain.1 (hc.plain.2 vmPath hrem) hr
    · exact h.wrote ht hU hc hrem hw hq

/-- An operation that returned returns over the other Base, with the same Delta. -/
theorem run_over {base b : Db K} (h : DiffersAt E q base b) (hb : o.base = base) (hg : Gone q o)
    (hc : NoReturn U o op) (hok : op.run E o = .ok u o') :
    op.run E (o.rebase b) = .ok u (o'.rebase b) := by
  have hsim : Sim (Over base b (· = o)) (op.run E) (op.run E) fun _ => Over base b Free := by
    rcases op with _ | _ | _ | _ | _ | vmPath
    · exact Sim.bind (sim_checkBasePolicy h _) fun _ => Sim.bind (sim_checkBaseMaxFile h _) fun _ =>
        Sim.bind (sim_checkBaseQuota h _) fun _ => sim_entry h _ _
    · exact Sim.bind (sim_checkBasePolicy h _) fun _ => sim_entry h _ _
    · exact Sim.bind (sim_checkBasePolicy h _) fun _ => sim_entry h _ _
    · exact sim_writeRange h (hg.fromDelta hc rfl)
    · exact sim_truncateRange h (hg.fromDelta hc rfl)
    · exact sim_remove h vmPath
  obtain ⟨t, hrun, rfl, -⟩ := hsim o _ u o' ⟨rfl, hb, rfl⟩ hok
  exact hrun

end Step

/-! ## After a removal -/

section Run

variable {q : Str}

omit [DecidableEq K] in
/-- What a removal takes is gone. -/
theorem gone_of_removed (ht : Tidy U o) (hU : Plain U) {p : Str} (hp : U p) (hroot : p ≠ root)
    (hr : Removed p o o') (hq : q = p ∨ Below p q) : Gone q o' := by
  have hsub : U q → inSubtree p q = true := fun hUq =>
    (hU.inSubtree_iff hp hroot hUq).2 hq
  constructor
  · intro _ row hrow
    rw [hr.base] at hrow
    have hin : inBaseSubtree o.base p = true := by
      unfold inBaseSubtree
      exact List.any_eq_true.2 ⟨(q, row), Table.get?_eq_some_iff.1 hrow, hsub (ht.base q row hrow)⟩
    rw [hr.whiteouts, if_pos hin]
    exact ⟨p, mem_addWhiteout.2 (Or.inr rfl), hq.imp Eq.symm id⟩
  · intro row hrow
    rw [hr.fs] at hrow
    split_ifs at hrow with hs
    exact absurd (hsub (ht.delta q row hrow)) hs

/-- A sequence of operations. One that fails leaves the state as it was. -/
def runOps (E : Ext K) : Overlay K → List OverlayOp → Overlay K
  | o, [] => o
  | o, op :: ops => runOps E (endState (op.run E) o) ops

/-- The operations of a sequence that returned. -/
def returned (E : Ext K) : Overlay K → List OverlayOp → List OverlayOp
  | _, [] => []
  | o, op :: ops =>
    match op.run E o with
    | .ok _ o' => op :: returned E o' ops
    | .error _ o' => returned E o' ops

/-- Each operation of a sequence meets a condition in the state it is applied to. -/
def Along (C : Overlay K → OverlayOp → Prop) (E : Ext K) : Overlay K → List OverlayOp → Prop
  | _, [] => True
  | o, op :: ops => C o op ∧ Along C E (endState (op.run E) o) ops

/-- What is gone stays gone along a run, and the run is the same over another Base. -/
theorem gone_runOps (hU : Plain U) {base : Db K} : ∀ {ops : List OverlayOp} {o : Overlay K},
    Tidy U o → Gone q o → o.base = base → Along (NoReturn U) E o ops →
      Tidy U (runOps E o ops) ∧ Gone q (runOps E o ops) ∧ (runOps E o ops).base = base ∧
        ∀ b, DiffersAt E q base b →
          runOps E (o.rebase b) (returned E o ops) = (runOps E o ops).rebase b
  | [], _, ht, hg, hb, _ => ⟨ht, hg, hb, fun _ _ => rfl⟩
  | op :: ops, o, ht, hg, hb, ⟨hc, hrest⟩ => by
    have hbase := endState_base (E := E) (hU.normal hc.plain.1) o
    have ht' := ht.endState (E := E) hU hc.plain
    have hfail := atomic_run (E := E) op o
    -- An operation that returns is run over the other base as well; one that fails has changed
    -- nothing and is left out there.
    rcases hrun : op.run E o with ⟨_, o'⟩ | ⟨e, o'⟩
    · have hend := endState_of_ok hrun
      rw [hend] at hrest hbase ht'
      obtain ⟨h₁, h₂, h₃, h₄⟩ := gone_runOps hU ht' (hg.step ht hU hc hrun) (hbase.trans hb) hrest
      rw [runOps, hend]
      refine ⟨h₁, h₂, h₃, fun b hdiff => ?_⟩
      have hover := run_over hdiff hb hg hc hrun
      rw [returned, hrun, runOps, endState_of_ok hover]
      exact h₄ b hdiff
    · have hsame : o' = o := hfail e o' hrun
      have hend : endState (op.run E) o = o := by rw [endState, hrun]; exact hsame
      rw [hend] at hrest
      obtain ⟨h₁, h₂, h₃, h₄⟩ := gone_runOps hU ht hg hb hrest
      rw [runOps, hend]
      refine ⟨h₁, h₂, h₃, fun b hdiff => ?_⟩
      rw [returned, hrun, hsame]
      exact h₄ b hdiff

/-! ## Reading what is gone -/

/-- Content that is out of reach is so over the other Base. -/
theorem Gone.rebase {base b : Db K} (h : Gone q o) (hdiff : DiffersAt E q base b)
    (hb : o.base = base) : Gone q (o.rebase b) := by
  refine ⟨fun hnone row hrow => ?_, h.whole⟩
  have hkind := hdiff.kinds q
  rcases hbase : base.fs.get? q with _ | brow
  · rw [show b.fs.get? q = some row from hrow, hbase] at hkind
    cases hkind
  · exact h.hidden hnone brow (by rw [hb]; exact hbase)

/-- The invariant of the overlay holds over the other Base. -/
theorem Tidy.rebase {base b : Db K} (ht : Tidy U o) (hdiff : DiffersAt E q base b)
    (hb : o.base = base) : Tidy U (o.rebase b) := by
  refine ⟨fun p row hrow => ?_, ht.delta, ht.white, ht.top, ht.shown⟩
  have hkey : p ∈ base.fs.rows.map Prod.fst := by
    rw [← hdiff.paths]
    exact Table.mem_keys_iff.2 ⟨row, hrow⟩
  obtain ⟨brow, hbrow⟩ := Table.mem_keys_iff.1 hkey
  exact ht.base p brow (by rw [hb]; exact hbrow)

omit [DecidableEq K] in
/-- Only the Delta's row counts at a path that is gone. -/
theorem Gone.lookupFile (h : Gone q o) (ht : Tidy U o) (hU : Plain U) :
    o.lookupFile q = (o.main.fs.get? q).bind fun row => if row.kind = .file then some .main
    else none := by
  unfold Overlay.lookupFile kindIn
  rcases hm : o.main.fs.get? q with _ | row
  · rcases hbr : o.base.fs.get? q with _ | row
    · simp [Overlay.db, hm, hbr]
    · have hw := (ht.whitedOut_iff hU q).2 (h.hidden hm row hbr)
      simp [Overlay.db, hm, hbr, hw]
  · simp [Overlay.db, hm]

omit [DecidableEq K] in
/-- A path whose Base content is out of reach is looked up in the Delta. -/
theorem Gone.lookupFile_eq_main (h : Gone q o) (ht : Tidy U o) (hU : Plain U) {s : Schema}
    (hs : o.lookupFile q = some s) : s = .main := by
  rw [h.lookupFile ht hU] at hs
  obtain ⟨row, -, hif⟩ := Option.bind_eq_some_iff.1 hs
  split_ifs at hif
  exact (Option.some.inj hif).symm

omit [DecidableEq K] in
/-- Such a path is in the Delta or missing. -/
theorem Gone.locate (h : Gone q o) (ht : Tidy U o) (hU : Plain U) {v : Str}
    (hv : normalizeVmPath v = q) :
    o.locate v = if o.main.fs.has q = true then .delta else .missing := by
  unfold Overlay.locate
  rw [hv]
  dsimp only
  rcases hm : o.main.fs.get? q with _ | row
  · have hhas : o.main.fs.has q = false := by rw [Table.has, hm]; rfl
    rw [hhas]
    rcases hbr : o.base.fs.get? q with _ | row
    · have hbhas : o.base.fs.has q = false := by rw [Table.has, hbr]; rfl
      rw [hbhas]
      simp
    · rw [if_pos ((ht.whitedOut_iff hU q).2 (h.hidden hm row hbr))]
      simp
  · have hhas : o.main.fs.has q = true := Table.has_eq_true.2 ⟨row, hm⟩
    have hvis : o.whitedOut q = false := by
      rw [Bool.eq_false_iff, ne_eq, ht.whitedOut_iff hU]
      exact ht.shown q row hm
    rw [hhas, hvis]
    simp

/-- The bytes of a range are those of the single chunk reads. -/
theorem readWindows_congr {s : Schema} {p : Str} {start stop : ℕ} : ∀ {l : List ℕ},
    (∀ i ∈ l, o'.readChunkLayered E s p i = o.readChunkLayered E s p i) →
      readWindows E o' s p start stop l = readWindows E o s p start stop l
  | [], _ => rfl
  | idx :: rest, hl => by
    rw [readWindows, readWindows, hl idx (by simp),
      readWindows_congr fun i hi => hl i (by simp [hi])]

section Observe

variable {base b : Db K} (h : Gone q o) (ht : Tidy U o) (hU : Plain U)
  (hdiff : DiffersAt E q base b) (hb : o.base = base) {v : Str} (hv : normalizeVmPath v = q)

include h ht hU hdiff hb hv

omit hv in
/-- The lookup of such a path does not see which Base it is. -/
theorem Gone.lookupFile_over : (o.rebase b).lookupFile q = o.lookupFile q := by
  rw [h.lookupFile ht hU, (h.rebase hdiff hb).lookupFile (ht.rebase hdiff hb) hU]
  rfl

/-- `read` returns the same over the other Base. -/
theorem Gone.read_over : (o.rebase b).read E v = o.read E v := by
  unfold Overlay.read
  rw [hv]
  dsimp only
  rw [h.lookupFile_over ht hU hdiff hb]
  rcases hl : o.lookupFile q with _ | s
  · rfl
  · have hmain := h.lookupFile_eq_main ht hU hl
    subst hmain
    refine readFrom_congr rfl (fun _ => rfl) (fun _ _ _ => rfl) fun row hrow i hi => ?_
    exact hdiff.readChunkLayered hb fun _ => ⟨rfl, h.whole row hrow i hi⟩

/-- `read_range` returns the same over the other Base. -/
theorem Gone.readRange_over (off len : ℕ) :
    (o.rebase b).readRange E v off len = o.readRange E v off len := by
  unfold Overlay.readRange
  rw [hv]
  dsimp only
  rw [h.lookupFile_over ht hU hdiff hb]
  rcases hl : o.lookupFile q with _ | s
  · rfl
  · have hmain := h.lookupFile_eq_main ht hU hl
    subst hmain
    have hsize : (o.rebase b).sizeIn .main q = o.sizeIn .main q := rfl
    dsimp only
    rw [hsize]
    split_ifs with hempty
    · rfl
    · rw [readWindows_congr fun i hi => hdiff.readChunkLayered hb fun _ => ⟨rfl, ?_⟩]
      -- A chunk of the window is one of the file.
      have hlt : i * chunkSize < o.sizeIn .main q := by
        have hmem := List.mem_range'_1.1 hi
        have hlast : i ≤ (min (min off (o.sizeIn .main q) + len) (o.sizeIn .main q) - 1) /
          chunkSize := by
          omega
        rw [Nat.le_div_iff_mul_le chunkSize_pos] at hlast
        omega
      rcases hrow : o.main.fs.get? q with _ | row
      · rw [sizeIn, Overlay.db, hrow] at hlt
        exact absurd hlt (Nat.not_lt_zero _)
      · rw [sizeIn, Overlay.db, hrow, ← lt_numChunks_iff chunkSize_pos] at hlt
        exact h.whole row hrow i hlt

/-- `readlink` returns the same over the other Base. -/
theorem Gone.readlink_over (hn : Normal q) : (o.rebase b).readlink v = o.readlink v := by
  unfold Overlay.readlink
  rw [hv]
  dsimp only
  rw [h.locate ht hU hn, (h.rebase hdiff hb).locate (ht.rebase hdiff hb) hU hn]
  rcases hhas : o.main.fs.has q with _ | _
  · rw [show (o.rebase b).main.fs.has q = false from hhas]
    rfl
  · rw [show (o.rebase b).main.fs.has q = true from hhas]
    rfl

end Observe

/-- What holds of a removed path `q` after the operations `ops`: the Delta's row decides, and the
Base's old entry has no part in what is read. -/
structure NeverBack (U : Str → Prop) (E : Ext K) (base : Db K) (q : Str) (o : Overlay K)
    (ops : List OverlayOp) : Prop where
  /-- Without a row in the Delta the path is missing. -/
  missing : (runOps E o ops).main.fs.get? q = none → ∀ v, normalizeVmPath v = q →
    (runOps E o ops).locate v = .missing ∧ (runOps E o ops).read E v = .error (.notFound q)
  /-- Over a Base with another entry at the path, the operations that returned give the same Delta,
  and the same is read at the path. -/
  unseen : ∀ b, DiffersAt E q base b →
    runOps E (o.rebase b) (returned E o ops) = (runOps E o ops).rebase b ∧
      ∀ v, normalizeVmPath v = q →
        ((runOps E o ops).rebase b).read E v = (runOps E o ops).read E v ∧
        (∀ off len, ((runOps E o ops).rebase b).readRange E v off len =
          (runOps E o ops).readRange E v off len) ∧
        ((runOps E o ops).rebase b).readlink v = (runOps E o ops).readlink v
  /-- A range write makes a new file of it. -/
  anew : (runOps E o ops).main.fs.get? q = none → ∀ v off data mtime o', normalizeVmPath v = q →
    data ≠ [] → NoReturn U (runOps E o ops) (.writeRange v off data mtime) →
      writeRange E v off data mtime (runOps E o ops) = .ok () o' →
        ∃ row, o'.main.fs.get? q = some row ∧ row.kind = .file ∧ row.mode = 0o644 ∧
          row.size = off + data.length ∧ row.linkTarget = none
  /-- A truncation of it fails. -/
  absent : (runOps E o ops).main.fs.get? q = none → ∀ v n mtime, normalizeVmPath v = q →
    NoReturn U (runOps E o ops) (.truncateRange v n mtime) → ∀ o',
      truncateRange E v n mtime (runOps E o ops) ≠ .ok () o'

omit [DecidableEq K] in
/-- A range write finds nothing at a path that is gone and has no row. -/
theorem Gone.fileView_eq {op : OverlayOp} (h : Gone q o) (hc : NoReturn U o op)
    (hrange : isRange op = true) (hq : op.path = q) (hnone : o.main.fs.get? q = none) :
    (o.unhide q).fileView q = (0, 0o644, none) := by
  have hrow := (h.fromDelta hc hrange).row
  rw [hq] at hrow
  rcases fileView_of_gone (hrow rfl) with ⟨row, hm, -, -⟩ | hv
  · rw [unhide_main, hnone] at hm
    cases hm
  · exact hv

/-- From a state in which the content is out of reach no run brings it back. -/
theorem neverBack_of_gone (hU : Plain U) {base : Db K} {ops : List OverlayOp} (ht : Tidy U o)
    (hg : Gone q o) (hb : o.base = base) (hrun : Along (NoReturn U) E o ops) (hq : Normal q) :
    NeverBack U E base q o ops := by
  -- At the end of the run the path is still gone; each part is what a path that is gone shows.
  obtain ⟨ht', hg', hb', hover⟩ := gone_runOps hU ht hg hb hrun
  refine ⟨fun hnone v hv => ⟨?_, ?_⟩, fun b hdiff => ⟨hover b hdiff, fun v hv => ?_⟩,
    fun hnone v off data mtime o' hv hd hc hok => ?_, fun hnone v n mtime hv hc o' hok => ?_⟩
  · have hhas : (runOps E o ops).main.fs.has q = false := by
      rw [Table.has, hnone]
      rfl
    rw [hg'.locate ht' hU hv, hhas]
    rfl
  · unfold Overlay.read
    rw [hv]
    dsimp only
    rw [hg'.lookupFile ht' hU, hnone]
    rfl
  · exact ⟨hg'.read_over ht' hU hdiff hb' hv, hg'.readRange_over ht' hU hdiff hb' hv,
      hg'.readlink_over ht' hU hdiff hb' hv hq⟩
  · have hview := hg'.fileView_eq hc rfl hv hnone
    obtain ⟨row, hrow, hsize, -, hnew⟩ := (writeRange_ok hv hd hok hview).1.row.row
    obtain ⟨hkind, hmode, hlink⟩ := hnew hnone
    exact ⟨row, hrow, hkind, hmode, by rw [hsize, Nat.zero_max], hlink⟩
  · obtain ⟨s, hs⟩ := (truncateRange_ok hv hok (hg'.fileView_eq hc rfl hv hnone)).1
    cases hs

/-- Content of the Base that `remove` has taken does not come back. -/
theorem neverBack_of_remove {K : Type} [DecidableEq K] {U : Str → Prop} {E : Ext K}
    {o o' : Overlay K} (hU : Plain U) {base : Db K}
    (hbase : ∀ q row, base.fs.get? q = some row → U q)
    (h : Reachable (fun _ => PlainOp U) E base o) {vmPath : Str}
    (hop : PlainOp U (.remove vmPath)) (hrem : (OverlayOp.remove vmPath).run E o = .ok () o')
    {ops : List OverlayOp} (hrun : Along (NoReturn U) E o' ops) {q : Str} (hq : Normal q)
    (hpq : q = normalizeVmPath vmPath ∨ Below (normalizeVmPath vmPath) q) :
    NeverBack U E base q o' ops := by
  have ht := tidy_of_reachable hU hbase h
  have hr := remove_ok hrem
  have hroot := hop.2 vmPath rfl
  refine neverBack_of_gone hU (ht.removed hU hop.1 hroot hr)
    (gone_of_removed ht hU hop.1 hroot hr hpq) ?_ hrun hq
  rw [hr.base]
  exact base_of_reachable hU h

/-- A Base with one file `/f`. -/
def fileBase (data : Bytes) : Db Bytes :=
  endState (vmAddBytes plainExt "/f".toList data 0o644 0 0) (initDb 0)

/-- The file `/f` of the Base is removed and written again. -/
theorem neverBack_of_write : NeverBack (· ∈ [root, "/f".toList]) plainExt (fileBase [1, 2, 3])
    "/f".toList (endState ((OverlayOp.remove "/f".toList).run plainExt)
      ⟨fileBase [1, 2, 3], initDb 0, []⟩) [.write "/f".toList [9] 0o600 0 0] := by
  have hU : Plain (· ∈ [root, "/f".toList]) := plain_of_list (by decide) (by decide)
  have hbase : ∀ q row, (fileBase [1, 2, 3]).fs.get? q = some row → q ∈ [root, "/f".toList] := by
    intro q row hq
    have hmem := Table.mem_keys_iff.2 ⟨row, hq⟩
    revert hmem
    exact List.forall_mem_cons.2 ⟨by decide, by decide⟩ q
  have hrem : PlainOp (· ∈ [root, "/f".toList]) (.remove "/f".toList) :=
    ⟨by decide, fun _ _ => by decide⟩
  have hrun : (OverlayOp.remove "/f".toList).run plainExt ⟨fileBase [1, 2, 3], initDb 0, []⟩ =
      .ok () (endState ((OverlayOp.remove "/f".toList).run plainExt)
        ⟨fileBase [1, 2, 3], initDb 0, []⟩) := rfl
  refine neverBack_of_remove hU hbase (Reachable.init 0) hrem hrun
    (show Along _ plainExt _ [_] from ⟨?_, trivial⟩) (by decide) (Or.inl (by decide))
  refine ⟨⟨by decide, by rintro _ ⟨⟩⟩, by rintro ⟨⟩, by rintro ⟨⟩, fun _ hnot => ?_⟩
  exact absurd (show OverlayOp.path (.write "/f".toList [9] 0o600 0 0) ∈ ["/f".toList] by decide)
    hnot

/-- The file `/f` of the Base is removed, and a range write at it reads the removed bytes. -/
theorem writeRange_brings_back : ∃ o o' : Overlay Bytes,
    Reachable (fun _ _ => True) plainExt (fileBase [1, 2, 3]) o ∧
      (OverlayOp.remove "/f".toList).run plainExt o = .ok () o' ∧
      o'.locate "/f".toList = .missing ∧
      (runOps plainExt o' [.writeRange "/f".toList 1 [9] 0]).read plainExt "/f".toList =
        .ok [1, 9, 3] ∧
      (runOps plainExt (o'.rebase (fileBase [7, 2, 3])) [.writeRange "/f".toList 1 [9] 0]).read
        plainExt "/f".toList = .ok [7, 9, 3] := by
  refine ⟨⟨fileBase [1, 2, 3], initDb 0, []⟩, endState ((OverlayOp.remove "/f".toList).run plainExt)
    ⟨fileBase [1, 2, 3], initDb 0, []⟩, Reachable.init 0, rfl, by decide, ?_, ?_⟩
  · rfl
  · rfl

end Run

end Dbvm.Overlay
