import Dbvm.Effects
import Dbvm.Lib.Watch
import Dbvm.Overlay.Gone

/-!
# Reads beside a writer

`Overlay::read` and `read_range` as the statements they execute. None of them is in a transaction,
so each statement sees the latest commit of a writer on the same Delta. A statement of a read that
is not interrupted is the whole file (`read_dense`), and the Base does not change; a file that is
put together chunk by chunk out of the Delta, and the three probes of the lookup, may see more than
one version. Without commits there, a read returns what the path held in one committed state
(`oneVersion_of_steady`). A dictionary is read together with its block here: no operation of the
overlay writes a dictionary.
-/

namespace Dbvm

open Lib Lib.Chunks Lib.Prog Lib.Watch

variable {K : Type} [DecidableEq K]

namespace Overlay

/-! ## The statements of a reader -/

/-- `lookup_file`. -/
def lookupFileAt (τ : ℕ → Overlay K) (p : Str) : EStateM Err ℕ (Option Schema) := do
  let inMain ← ask τ fun o => .ok (o.kindIn .main p)
  match inMain with
  | some kind => pure (if kind = .file then some .main else none)
  | none => do
    let inBase ← ask τ fun o => .ok (o.kindIn .base p)
    match inBase with
    | none => pure none
    | some kind =>
      if kind ≠ .file then pure none
      else do
        let hidden ← ask τ fun o => .ok (o.whitedOut p)
        pure (if hidden then none else some .base)

/-- `read_chunk_layered`. -/
def readChunkLayeredAt (E : Ext K) (τ : ℕ → Overlay K) (s : Schema) (p : Str) (idx : ℕ) :
    EStateM Err ℕ Bytes :=
  if s = .main then do
    let inMain ← ask τ fun o => .ok (o.main.chunks.has (p, idx))
    if inMain then ask τ fun o => o.readChunk E .main p idx
    else do
      let inBase ← ask τ fun o => .ok (o.base.chunks.has (p, idx))
      if inBase then ask τ fun o => o.readChunk E .base p idx else pure []
  else ask τ fun o => o.readChunk E s p idx

/-- The loop of `read_range`. -/
def readWindowsAt (E : Ext K) (τ : ℕ → Overlay K) (s : Schema) (p : Str) (start stop : ℕ) :
    List ℕ → EStateM Err ℕ Bytes
  | [] => pure []
  | idx :: rest => do
    let piece ← readChunkLayeredAt E τ s p idx
    let tail ← readWindowsAt E τ s p start stop rest
    pure (pieceWindow piece (idx * chunkSize) start stop ++ tail)

/-- The rest of `read_range`, when the size is known. -/
def readSliceAt (E : Ext K) (τ : ℕ → Overlay K) (s : Schema) (p : Str) (off len size : ℕ) :
    EStateM Err ℕ Bytes :=
  let start := min off size
  let stop := min (start + len) size
  if start = stop then pure []
  else do
    let first := start / chunkSize
    let last := (stop - 1) / chunkSize
    let out ← readWindowsAt E τ s p start stop (List.range' first (last + 1 - first))
    if out.length ≠ stop - start then throw (.sizeMismatch p) else pure out

/-- `Overlay::read_range`. The statement for the size fails when the row is gone. -/
def readRangeAt (E : Ext K) (τ : ℕ → Overlay K) (vmPath : Str) (off len : ℕ) :
    EStateM Err ℕ Bytes := do
  let p := normalizeVmPath vmPath
  let layer ← lookupFileAt τ p
  match layer with
  | none => throw (.notFound p)
  | some s => do
    let size ← ask τ fun o => ((o.db s).fs.get? p).elim (.error (.notFound p)) fun row =>
      .ok row.size
    readSliceAt E τ s p off len size

/-- The loop of `read_file_layered`. -/
def layeredPiecesAt (E : Ext K) (τ : ℕ → Overlay K) (s : Schema) (p : Str) (size : ℕ) :
    List ℕ → EStateM Err ℕ Bytes
  | [] => pure []
  | idx :: rest => do
    let piece ← readChunkLayeredAt E τ s p idx
    let want := min (size - idx * chunkSize) chunkSize
    if (if idx + 1 = numChunks chunkSize size then piece.length < want else piece.length ≠
      want) then
      throw (.chunkLength p idx)
    else do
      let tail ← layeredPiecesAt E τ s p size rest
      pure (piece.take want ++ tail)

/-- `read_file_layered`. -/
def readFileLayeredAt (E : Ext K) (τ : ℕ → Overlay K) (s : Schema) (p : Str) :
    EStateM Err ℕ Bytes := do
  let row ← ask τ fun o => ((o.db s).fs.get? p).elim (.error (.notFound p)) .ok
  if row.kind ≠ .file then throw (.notFile p)
  else do
    let out ← layeredPiecesAt E τ s p row.size (List.range (numChunks chunkSize row.size))
    if out.length ≠ row.size then throw (.sizeMismatch p) else pure out

/-- `read_from`. -/
def readFromAt (E : Ext K) (τ : ℕ → Overlay K) (s : Schema) (p : Str) : EStateM Err ℕ Bytes := do
  let dense ← ask τ fun o => .ok (o.chunksAreDense s p)
  if dense then ask τ fun o => o.readDense E s p else readFileLayeredAt E τ s p

/-- `Overlay::read`. -/
def readAt (E : Ext K) (τ : ℕ → Overlay K) (vmPath : Str) : EStateM Err ℕ Bytes := do
  let p := normalizeVmPath vmPath
  let layer ← lookupFileAt τ p
  match layer with
  | some s => readFromAt E τ s p
  | none => throw (.notFound p)

/-! ## Interleavings -/

/-- The states a reader sees: between statement `t` and the next, the writer commits the operations
`gaps t`. -/
def trace (E : Ext K) (o : Overlay K) (gaps : ℕ → List OverlayOp) : ℕ → Overlay K
  | 0 => o
  | t + 1 => runOps E (trace E o gaps t) (gaps t)

/-- A read through the overlay. -/
inductive ReadCall where
  /-- `Overlay::read`. -/
  | whole
  /-- `Overlay::read_range`. -/
  | range (off len : ℕ)

/-- What a read returns in one state. -/
def ReadCall.serial (E : Ext K) (o : Overlay K) (vmPath : Str) : ReadCall → Except Err Bytes
  | .whole => o.read E vmPath
  | .range off len => o.readRange E vmPath off len

/-- A read beside a writer. -/
def ReadCall.exec (E : Ext K) (τ : ℕ → Overlay K) (vmPath : Str) : ReadCall → EStateM Err ℕ Bytes
  | .whole => readAt E τ vmPath
  | .range off len => readRangeAt E τ vmPath off len

/-- The bytes are what the path held in one of the states that `n` statements saw. -/
def OneVersion (E : Ext K) (o : Overlay K) (gaps : ℕ → List OverlayOp) (vmPath : Str)
    (call : ReadCall)
    (bytes : Bytes) (n : ℕ) : Prop :=
  ∃ t < n, call.serial E (trace E o gaps t) vmPath = .ok bytes

/-- No commit falls where a read of `n` statements would notice: between the probes for a path that
is removed, and between the statements that put a file of the Delta together. -/
def ReadCall.Steady (E : Ext K) (o : Overlay K) (gaps : ℕ → List OverlayOp) (vmPath : Str) (n : ℕ)
    (call : ReadCall) : Prop :=
  let p := normalizeVmPath vmPath
  (o.kindIn .main p = none → o.whitedOut p = true → gaps 0 = [] ∧ gaps 1 = []) ∧
    (o.kindIn .main p = some .file →
      match call with
      | .whole => (trace E o gaps 1).chunksAreDense .main p = false → ∀ t, 1 ≤ t → t + 1 < n →
          gaps t = []
      | .range _ _ => (∀ kind, (trace E o gaps 1).kindIn .main p = some kind → kind = .file) ∧
          ∀ t, 1 ≤ t → t + 1 < n → gaps t = [])

/-! ## Stretches without a commit -/

section Trace

variable {E : Ext K} {o : Overlay K} {gaps : ℕ → List OverlayOp}

/-- No operation changes the Base. -/
theorem runOps_base (E : Ext K) :
    ∀ (ops : List OverlayOp) (o : Overlay K), (runOps E o ops).base = o.base
  | [], _ => rfl
  | op :: ops, o => by
    rw [runOps, runOps_base E ops]
    exact (effects_op (T := fun _ => False) E op o ⟨.refl, rfl⟩).2

/-- The Base is never written. -/
theorem trace_base (t : ℕ) : (trace E o gaps t).base = o.base := by
  induction t with
  | zero => rfl
  | succ t ih => rw [trace, runOps_base, ih]

/-- The state stays while nothing is committed. -/
theorem trace_of_quiet {a n : ℕ} (h : ∀ t, a ≤ t → t + 1 < n → gaps t = []) :
    ∀ t, a ≤ t → t < n → trace E o gaps t = trace E o gaps a := by
  intro t hat
  induction t, hat using Nat.le_induction with
  | base => exact fun _ => rfl
  | succ t hat ih =>
    intro htn
    rw [trace, h t hat htn]
    exact ih (by omega)

end Trace

/-! ## Programs and functions of one state -/

section Agree

variable {E : Ext K} {τ : ℕ → Overlay K} {s : Schema} {p : Str} {S : Overlay K → Overlay K → Prop}

/-- A chunk is read from its own database. -/
theorem readChunk_congr {o o' : Overlay K} {idx : ℕ} (h : o.db s = o'.db s) :
    o.readChunk E s p idx = o'.readChunk E s p idx := by
  unfold readChunk
  rw [h]

/-- The statements of a chunk read agree while Delta and Base stay. -/
theorem agrees_readChunkLayered (hS : ∀ o o', S o o' → o.db s = o'.db s ∧ o.base = o'.base)
    (idx : ℕ) :
    Agrees S τ (readChunkLayeredAt E τ s p idx) fun o => o.readChunkLayered E s p idx := by
  unfold readChunkLayeredAt
  -- A read in the delta asks the delta and then the base; a read in the base asks one of them.
  by_cases hs : s = .main
  · subst hs
    rw [if_pos rfl]
    have hmain : ∀ o o' : Overlay K, S o o' → o.main = o'.main := fun o o' h => (hS o o' h).1
    have hbase : ∀ o o' : Overlay K, S o o' → o.base = o'.base := fun o o' h => (hS o o' h).2
    refine (Agrees.bind (Agrees.ask fun o o' h => by rw [hmain o o' h]) (g := fun inMain o =>
      if inMain then o.readChunk E .main p idx
      else if o.base.chunks.has (p, idx) then o.readChunk E .base p idx else .ok []) fun inMain =>
        ?_).congr ?_
    · rcases inMain with _ | _
      · refine (Agrees.bind (Agrees.ask fun o o' h => by rw [hbase o o' h]) (g := fun inBase o =>
          if inBase then o.readChunk E .base p idx else .ok []) fun inBase => ?_).congr fun o => rfl
        rcases inBase with _ | _
        · exact Agrees.pure _
        · simp only [if_true]
          exact Agrees.ask fun o o' h => readChunk_congr (s := .base) (hbase o o' h)
      · simp only [if_true]
        exact Agrees.ask fun o o' h => readChunk_congr (hS o o' h).1
    · intro o
      unfold readChunkLayered
      cases o.main.chunks.has (p, idx) with
      | false => simp [bind, Except.bind]
      | true => simp [bind, Except.bind]
  · rw [if_neg hs]
    refine (Agrees.ask fun o o' h => readChunk_congr (hS o o' h).1).congr fun o => ?_
    unfold readChunkLayered
    rw [if_neg fun h => hs h.1]

/-- So do those of the chunks of a range. -/
theorem agrees_readWindows (hS : ∀ o o', S o o' → o.db s = o'.db s ∧ o.base = o'.base)
    (start stop : ℕ) :
    ∀ idxs, Agrees S τ (readWindowsAt E τ s p start stop idxs) fun o =>
    o.readWindows E s p start stop idxs
  | [] => Agrees.pure _
  | idx :: rest => Agrees.bind (agrees_readChunkLayered hS idx) fun _ =>
      Agrees.bind (agrees_readWindows hS start stop rest) fun _ => Agrees.pure _

/-- So do those of the chunks of a file. -/
theorem agrees_layeredPieces (hS : ∀ o o', S o o' → o.db s = o'.db s ∧ o.base = o'.base)
    (size : ℕ) :
    ∀ idxs, Agrees S τ (layeredPiecesAt E τ s p size idxs) fun o => o.layeredPieces E s p size idxs
  | [] => Agrees.pure _
  | idx :: rest => by
    refine Agrees.bind (agrees_readChunkLayered hS idx) fun piece => ?_
    dsimp only
    split_ifs
    · exact Agrees.throw _ _
    · exact Agrees.bind (agrees_layeredPieces hS size rest) fun _ => Agrees.pure _
    · exact Agrees.throw _ _
    · exact Agrees.bind (agrees_layeredPieces hS size rest) fun _ => Agrees.pure _

/-- The rest of `read_range` in one state. -/
def readSlice (E : Ext K) (o : Overlay K) (s : Schema) (p : Str) (off len size : ℕ) :
    Except Err Bytes :=
  let start := min off size
  let stop := min (start + len) size
  if start = stop then .ok []
  else do
    let first := start / chunkSize
    let last := (stop - 1) / chunkSize
    let out ← readWindows E o s p start stop (List.range' first (last + 1 - first))
    if out.length ≠ stop - start then .error (.sizeMismatch p) else .ok out

/-- So do those of a slice of a file of known size. -/
theorem agrees_readSlice (hS : ∀ o o', S o o' → o.db s = o'.db s ∧ o.base = o'.base)
    (off len size : ℕ) :
    Agrees S τ (readSliceAt E τ s p off len size) fun o => o.readSlice E s p off len size := by
  unfold readSliceAt readSlice
  dsimp only
  split_ifs with h
  · exact Agrees.pure _
  · refine Agrees.bind (agrees_readWindows hS _ _ _) fun out => ?_
    split_ifs
    · exact Agrees.throw _ _
    · exact Agrees.pure _

/-- `read_range` in one state, when the layer is known. -/
def readSized (E : Ext K) (o : Overlay K) (s : Schema) (p : Str) (off len : ℕ) : Except Err Bytes :=
  ((o.db s).fs.get? p).elim (.error (.notFound p)) fun row => o.readSlice E s p off len row.size

/-- A range read is a slice after the size, in the database that has the file. -/
theorem readRange_of_readSized {o : Overlay K} {vmPath : Str} {off len : ℕ} {bytes : Bytes}
    (hs : o.lookupFile (normalizeVmPath vmPath) = some s)
    (h : o.readSized E s (normalizeVmPath vmPath) off len = .ok bytes) :
    o.readRange E vmPath off len = .ok bytes := by
  have hslice : o.readRange E vmPath off len =
      o.readSlice E s (normalizeVmPath vmPath) off len (o.sizeIn s (normalizeVmPath vmPath)) := by
    unfold readRange
    dsimp only
    rw [hs]
    rfl
  rw [hslice, sizeIn]
  unfold readSized at h
  rcases hrow : (o.db s).fs.get? (normalizeVmPath vmPath) with _ | row
  · rw [hrow] at h
    cases h
  · rw [hrow] at h
    exact h

/-- The size statement and the chunk statements agree while Delta and Base stay. -/
theorem agrees_readSized (hS : ∀ o o', S o o' → o.db s = o'.db s ∧ o.base = o'.base) (off len : ℕ) :
    Agrees S τ
      (ask τ (fun o => ((o.db s).fs.get? p).elim (.error (.notFound p)) fun row => .ok row.size) >>=
        fun size =>
        readSliceAt E τ s p off len size)
      fun o => o.readSized E s p off len := by
  refine (Agrees.bind (Agrees.ask fun o o' h => by rw [(hS o o' h).1]) fun size =>
    agrees_readSlice hS off len size).congr fun o => ?_
  unfold readSized
  rcases (o.db s).fs.get? p with _ | row
  · rfl
  · rfl

/-- So do the statements of a whole read through both layers. -/
theorem agrees_readFileLayered (hS : ∀ o o', S o o' → o.db s = o'.db s ∧ o.base = o'.base) :
    Agrees S τ (readFileLayeredAt E τ s p) fun o => o.readFileLayered E s p := by
  unfold readFileLayeredAt
  refine (Agrees.bind (Agrees.ask fun o o' h => by rw [(hS o o' h).1]) (g := fun row o =>
    if row.kind ≠ .file then .error (.notFile p)
    else do
      let out ← o.layeredPieces E s p row.size (List.range (numChunks chunkSize row.size))
      if out.length ≠ row.size then .error (.sizeMismatch p) else .ok out) fun row => ?_).congr
        fun o => ?_
  · split_ifs
    · exact Agrees.throw _ _
    · refine Agrees.bind (agrees_layeredPieces hS _ _) fun out => ?_
      split_ifs
      · exact Agrees.throw _ _
      · exact Agrees.pure _
  · unfold readFileLayered
    rcases (o.db s).fs.get? p with _ | row
    · rfl
    · rfl

/-- So do the statements of a read from one layer. -/
theorem agrees_readFrom (hS : ∀ o o', S o o' → o.db s = o'.db s ∧ o.base = o'.base) :
    Agrees S τ (readFromAt E τ s p) fun o => o.readFrom E s p := by
  unfold readFromAt
  refine (Agrees.bind (Agrees.ask fun o o' h => ?_) (g := fun dense o =>
    if dense then o.readDense E s p else o.readFileLayered E s p) fun dense => ?_).congr fun o =>
    rfl
  · unfold chunksAreDense
    rw [(hS o o' h).1]
  · rcases dense with _ | _
    · exact agrees_readFileLayered hS
    · simp only [if_true]
      refine Agrees.ask fun o o' h => ?_
      unfold readDense
      rw [(hS o o' h).1]

end Agree

/-! ## The probes and the dense reader -/

section Probes

variable {E : Ext K} {τ : ℕ → Overlay K} {o : Overlay K} {s : Schema} {p : Str}

omit [DecidableEq K] in
/-- A lookup that finds a file in the Delta takes one statement, one in the Base takes three. -/
theorem lookupFileAt_eq_ok {t m : ℕ} (h : lookupFileAt τ p t = .ok (some s) m) :
    (τ t).kindIn .main p = some .file ∧ s = .main ∧ m = t + 1 ∨
      (τ t).kindIn .main p = none ∧ (τ (t + 1)).kindIn .base p = some .file ∧
        (τ (t + 2)).whitedOut p = false ∧ s = .base ∧ m = t + 3 := by
  obtain ⟨inMain, m₁, hask, hrest⟩ := bind_eq_ok.1 h
  obtain ⟨hmain, rfl⟩ := ask_eq_ok.1 hask
  cases hmain
  -- The delta is asked first; only where it has no row do the base and the whiteouts get a
  -- statement of their own.
  rcases hkind : (τ t).kindIn .main p with _ | kind
  · rw [hkind] at hrest
    obtain ⟨inBase, m₂, hask, hrest⟩ := bind_eq_ok.1 hrest
    obtain ⟨hbase, rfl⟩ := ask_eq_ok.1 hask
    cases hbase
    rcases hkb : (τ (t + 1)).kindIn .base p with _ | kind
    · rw [hkb] at hrest
      cases hrest
    · rw [hkb] at hrest
      dsimp only at hrest
      split_ifs at hrest with hk
      · cases hrest
      · obtain ⟨hidden, m₃, hask, hrest⟩ := bind_eq_ok.1 hrest
        obtain ⟨hwhite, rfl⟩ := ask_eq_ok.1 hask
        cases hwhite
        rcases hw : (τ (t + 1 + 1)).whitedOut p with _ | _
        · rw [hw] at hrest
          cases hrest
          exact Or.inr ⟨rfl, by rw [not_not.1 hk], rfl, rfl, rfl⟩
        · rw [hw] at hrest
          cases hrest
  · rw [hkind] at hrest
    by_cases hk : kind = .file
    · subst hk
      cases hrest
      exact Or.inl ⟨rfl, rfl, rfl⟩
    · simp only [if_neg hk] at hrest
      cases hrest

omit [DecidableEq K] in
/-- A file in the Delta is served from there. -/
theorem lookupFile_of_main (h : o.kindIn .main p = some .file) : o.lookupFile p = some .main := by
  unfold lookupFile
  rw [h]
  rfl

omit [DecidableEq K] in
/-- A file of the Base is served when the Delta has no row and no whiteout hides it. -/
theorem lookupFile_of_base (hm : o.kindIn .main p = none) (hb : o.kindIn .base p = some .file)
    (hw : o.whitedOut p = false) : o.lookupFile p = some .base := by
  unfold lookupFile
  rw [hm, hb, hw]
  rfl

/-- The chunks of a file that can be read are numbered from the first on. -/
theorem map_fst_of_densePieces {db : Db K} {bytes : Bytes} : ∀ {l : List (ℕ × K)} {n : ℕ},
    densePieces E db p n l = .ok bytes → l.map Prod.fst = List.range' n l.length
  | [], n, _ => rfl
  | (idx, key) :: rest, n, h => by
    rw [densePieces] at h
    split_ifs at h with hidx
    obtain ⟨piece, -, h⟩ := ok_of_bind h
    obtain ⟨tail, htail, -⟩ := ok_of_bind h
    rw [List.map_cons, map_fst_of_densePieces htail, not_not.1 hidx]
    rfl

/-- The last number of a dense list is the largest. -/
theorem foldl_max_range (n : ℕ) : (List.range (n + 1)).foldl max 0 = n := by
  induction n with
  | zero => rfl
  | succ n ih => rw [List.range_succ, List.foldl_append, ih]; simp

/-- Chunks that `read_dense` accepts are dense. -/
theorem chunksAreDense_of_readDense {bytes : Bytes} (h : o.readDense E s p = .ok bytes) :
    o.chunksAreDense s p = true ∧ o.kindIn s p = some .file := by
  unfold readDense at h
  unfold kindIn
  rcases hrow : (o.db s).fs.get? p with _ | row
  · rw [hrow] at h
    cases h
  · rw [hrow] at h
    obtain ⟨out, hout, h⟩ := ok_of_bind h
    split_ifs at h with hkind
    refine ⟨?_, by rw [Option.map_some, not_not.1 hkind]⟩
    have hidxs := map_fst_of_densePieces hout
    rw [← List.range_eq_range'] at hidxs
    unfold chunksAreDense
    rw [hidxs]
    rcases ((o.db s).chunkList p).length with _ | n
    · rfl
    · simp [foldl_max_range]

/-- A file that `read_file_layered` accepts is one. -/
theorem kindIn_of_readFileLayered {bytes : Bytes} (h : o.readFileLayered E s p = .ok bytes) :
    o.kindIn s p = some .file := by
  unfold readFileLayered at h
  unfold kindIn
  rcases hrow : (o.db s).fs.get? p with _ | row
  · rw [hrow] at h
    cases h
  · rw [hrow] at h
    dsimp only at h
    split_ifs at h with hkind
    rw [Option.map_some, not_not.1 hkind]

end Probes

/-! ## One version -/

section OneVersion

variable {E : Ext K} {o : Overlay K} {gaps : ℕ → List OverlayOp} {vmPath : Str}
  {bytes : Bytes} {n : ℕ}

/-- A lookup that finds the Base's file while no rewrite runs past the probes finds what was there
at first. -/
theorem lookupFile_of_probes {p : Str}
    (hprobe : o.kindIn .main p = none → o.whitedOut p = true → gaps 0 = [] ∧ gaps 1 = [])
    (hm : o.kindIn .main p = none) (hb : (trace E o gaps 1).kindIn .base p = some .file)
    (hw : (trace E o gaps 2).whitedOut p = false) : o.lookupFile p = some .base := by
  refine lookupFile_of_base hm ?_ ?_
  · unfold kindIn at hb ⊢
    rw [show (trace E o gaps 1).db .base = o.db .base from trace_base 1] at hb
    exact hb
  · by_contra hwhite
    obtain ⟨h0, h1⟩ := hprobe hm (by simpa using hwhite)
    -- Without a commit the third probe sees the whiteout.
    have hsame : trace E o gaps 2 = o := by
      rw [trace, h1, trace, h0]
      rfl
    rw [hsame] at hw
    exact hwhite hw

/-- `read` of a file that the lookup found in the Delta. -/
theorem oneVersion_of_readFromAt
    (h : readFromAt E (trace E o gaps) .main (normalizeVmPath vmPath) 1 = .ok bytes n)
    (hsteady : (trace E o gaps 1).chunksAreDense .main (normalizeVmPath vmPath) = false →
      ∀ t, 1 ≤ t → t + 1 < n → gaps t = []) : OneVersion E o gaps vmPath .whole bytes n := by
  have hagrees := agrees_readFrom (E := E) (τ := trace E o gaps) (s := .main)
    (p := normalizeVmPath vmPath)
    (S := Eq) (fun o o' h => ⟨by rw [h], by rw [h]⟩) 1 bytes n h
  obtain ⟨dense, m, hask, hrest⟩ := bind_eq_ok.1 h
  obtain ⟨hdense, rfl⟩ := ask_eq_ok.1 hask
  cases hdense
  -- Either the chunks are dense and one statement reads them all, or each has a statement of its
  -- own.
  rcases hd : (trace E o gaps 1).chunksAreDense .main (normalizeVmPath vmPath) with _ | _
  · -- The file has gaps in the Delta: the state of the density statement is the one read.
    have hread : (trace E o gaps 1).readFrom E .main (normalizeVmPath vmPath) = .ok bytes :=
      hagrees.2 (trace E o gaps 1) fun u h1u hun => trace_of_quiet (hsteady hd) u h1u hun
    have hlt : 1 < n := by
      rw [hd] at hrest
      obtain ⟨row, m, hask, -⟩ := bind_eq_ok.1 hrest
      obtain ⟨-, rfl⟩ := ask_eq_ok.1 hask
      have := (agrees_readFileLayered (E := E) (τ := trace E o gaps) (s := .main)
        (p := normalizeVmPath vmPath) (S := Eq) (fun o o' h => ⟨by rw [h], by rw [h]⟩) 2 bytes
        n hrest).1
      omega
    refine ⟨1, hlt, ?_⟩
    have hkind : (trace E o gaps 1).kindIn .main (normalizeVmPath vmPath) = some .file := by
      unfold readFrom at hread
      rw [hd] at hread
      exact kindIn_of_readFileLayered hread
    unfold ReadCall.serial read
    dsimp only
    rw [lookupFile_of_main hkind]
    exact hread
  · -- One statement reads the file.
    rw [hd] at hrest
    simp only [if_true] at hrest
    obtain ⟨hread, rfl⟩ := ask_eq_ok.1 hrest
    obtain ⟨hdense, hkind⟩ := chunksAreDense_of_readDense hread
    refine ⟨2, by omega, ?_⟩
    unfold ReadCall.serial read
    dsimp only
    rw [lookupFile_of_main hkind]
    exact (if_pos hdense).trans hread

/-- A `read_range` of a file of the Delta returns one version when no commit comes between its
statements. -/
theorem oneVersion_of_readSizedAt {off len : ℕ} {p : Str} (hp : normalizeVmPath vmPath = p)
    (h : (ask (trace E o gaps)
      (fun o => ((o.db .main).fs.get? p).elim (.error (.notFound p)) fun row => .ok row.size) >>=
        fun size =>
        readSliceAt E (trace E o gaps) .main p off len size) 1 = .ok bytes n)
    (hkind : ∀ kind, (trace E o gaps 1).kindIn .main p = some kind → kind = .file)
    (hsteady : ∀ t, 1 ≤ t → t + 1 < n → gaps t = []) :
    OneVersion E o gaps vmPath (.range off len) bytes n := by
  obtain ⟨-, hagrees⟩ := agrees_readSized (E := E) (τ := trace E o gaps) (s := .main) (p := p)
    (S := Eq) (fun o o' h => ⟨by rw [h], by rw [h]⟩) off len 1 bytes n h
  have hread : (trace E o gaps 1).readSized E .main p off len = .ok bytes :=
    hagrees (trace E o gaps 1) fun u h1u hun => trace_of_quiet hsteady u h1u hun
  -- The size and the chunks have been read in statements from the second on, which saw one state.
  have hlt : 1 < n := by
    obtain ⟨size, m, hask, hrest⟩ := bind_eq_ok.1 h
    obtain ⟨-, rfl⟩ := ask_eq_ok.1 hask
    have := (agrees_readSlice (E := E) (τ := trace E o gaps) (s := .main) (p := p) (S := Eq)
      (fun o o' h => ⟨by rw [h], by rw [h]⟩) off len size 2 bytes n hrest).1
    omega
  have hfile : (trace E o gaps 1).kindIn .main p = some .file := by
    rcases hk : (trace E o gaps 1).kindIn .main p with _ | kind
    · -- Without a row the statement for the size fails.
      unfold readSized at hread
      rw [Option.map_eq_none_iff.1 hk] at hread
      cases hread
    · rw [hkind kind hk]
  subst hp
  exact ⟨1, hlt, readRange_of_readSized (lookupFile_of_main hfile) hread⟩

/-- A read that returns gives one version of the file, when no commit falls where it would notice.
-/
theorem oneVersion_of_steady {K : Type} [DecidableEq K] {E : Ext K} {o : Overlay K}
    {gaps : ℕ → List OverlayOp} {vmPath : Str} {bytes : Bytes} {n : ℕ} {call : ReadCall}
    (h : call.exec E (trace E o gaps) vmPath 0 = .ok bytes n)
    (hsteady : call.Steady E o gaps vmPath n) :
    OneVersion E o gaps vmPath call bytes n := by
  obtain ⟨hprobe, hmain⟩ := hsteady
  -- A read of the whole file and a range read differ in the statements after the lookup.
  -- Steadiness makes them one state each time.
  rcases call with _ | ⟨off, len⟩
  · obtain ⟨layer, m, hlook, hrest⟩ := bind_eq_ok.1 h
    rcases layer with _ | s
    · cases hrest
    · rcases lookupFileAt_eq_ok hlook with ⟨hk, rfl, rfl⟩ | ⟨hm, hb, hw, rfl, rfl⟩
      · exact oneVersion_of_readFromAt hrest (hmain hk)
      · -- The Base's file is the same in every state.
        obtain ⟨hle, hagrees⟩ := agrees_readFrom (E := E) (τ := trace E o gaps) (s := .base)
          (p := normalizeVmPath vmPath) (S := fun o o' => o.base = o'.base)
            (fun o o' h => ⟨h, h⟩) _ bytes n hrest
        refine ⟨0, by omega, ?_⟩
        unfold ReadCall.serial read
        dsimp only
        rw [show trace E o gaps 0 = o from rfl, lookupFile_of_probes hprobe hm hb hw]
        exact hagrees o fun u _ _ => trace_base u
  · obtain ⟨layer, m, hlook, hrest⟩ := bind_eq_ok.1 h
    rcases layer with _ | s
    · cases hrest
    · rcases lookupFileAt_eq_ok hlook with ⟨hk, rfl, rfl⟩ | ⟨hm, hb, hw, rfl, rfl⟩
      · exact oneVersion_of_readSizedAt rfl hrest (hmain hk).1 (hmain hk).2
      · obtain ⟨hle, hagrees⟩ := agrees_readSized (E := E) (τ := trace E o gaps) (s := .base)
          (p := normalizeVmPath vmPath) (S := fun o o' => o.base = o'.base)
            (fun o o' h => ⟨h, h⟩) off len _ bytes n
          hrest
        exact ⟨0, by omega, readRange_of_readSized (lookupFile_of_probes hprobe hm hb hw)
          (hagrees o fun u _ _ => trace_base u)⟩

end OneVersion

/-- An overlay whose Delta holds the file `/f`. -/
def fileOverlay (data : Bytes) : Overlay Bytes :=
  endState ((OverlayOp.write "/f".toList data 0o644 0 0).run plainExt) ⟨initDb 0, initDb 0, []⟩

/-- A commit of another version of `/f` in gap `t`. -/
def rewriteAt (t : ℕ) (data : Bytes) : ℕ → List OverlayOp := fun u =>
  if u = t then [.write "/f".toList data 0o644 1 1] else []

/-- A range read with a commit after the lookup. -/
theorem oneVersion_of_rewrite : OneVersion plainExt (fileOverlay [1, 2, 3])
    (rewriteAt 0 [4, 5, 6, 7, 8]) "/f".toList (.range 0 10) [4, 5, 6, 7, 8] 4 := by
  refine oneVersion_of_steady (E := plainExt) rfl ⟨fun h => ?_, fun _ => ⟨?_, ?_⟩⟩
  · exact absurd h (by decide +kernel)
  · intro kind hkind
    have : (trace plainExt (fileOverlay [1, 2, 3]) (rewriteAt 0 [4, 5, 6, 7, 8]) 1).kindIn .main
        (normalizeVmPath "/f".toList) = some .file := by decide +kernel
    rw [this] at hkind
    exact (Option.some.inj hkind).symm
  · intro t ht _
    exact if_neg (by omega)

/-- A range read takes the size of one version and the chunk of the next. The bytes it returns are
no version. -/
theorem range_mixes_versions :
    (ReadCall.range 0 10).exec plainExt (trace plainExt (fileOverlay [1, 2, 3])
        (rewriteAt 1 [4, 5, 6, 7, 8])) "/f".toList 0 = .ok [4, 5, 6] 4 ∧
      ¬ OneVersion plainExt (fileOverlay [1, 2, 3]) (rewriteAt 1 [4, 5, 6, 7, 8]) "/f".toList
        (.range 0 10)
        [4, 5, 6] 4 := by
  refine ⟨rfl, ?_⟩
  rintro ⟨t, ht, h⟩
  have hnone : ∀ t < 4, ReadCall.serial plainExt (trace plainExt (fileOverlay [1, 2, 3])
      (rewriteAt 1 [4, 5, 6, 7, 8]) t) "/f".toList (.range 0 10) ≠ .ok [4, 5, 6] := by
    decide +kernel
  exact hnone t ht h

end Overlay

end Dbvm
