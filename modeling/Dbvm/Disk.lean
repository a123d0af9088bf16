import Dbvm.Content
import Dbvm.Lib.Blocks

/-!
# The block device

The sparse disk of a database (`src/vm/disk.rs`): its size, and the blocks that are not zero. What
is imported gives one block for each read of the raw image, and the blocks behind the last one go,
up to the size that is given; an export writes the stored blocks into a file of the disk's size.
-/

namespace Dbvm

open Lib Lib.Chunks Lib.Prog

variable {K : Type} {E : Ext K}

/-- `DISK_BLOCK_SIZE`. -/
def diskBlockSize : ℕ := 4096

/-- A row of `vm_disk_blocks`. -/
structure DiskBlock where
  /-- The stored bytes. -/
  content : Bytes
  /-- 2 for zstd, 1 for gzip, 0 for the bytes themselves. -/
  compressed : ℕ
  /-- The length of the block. -/
  rawSize : ℕ
deriving DecidableEq

/-- The disk: the value of `disk_size` in `vm_meta`, and the stored blocks. -/
structure Disk where
  /-- The size in bytes. -/
  size : Option ℤ
  /-- The blocks that are not zero. -/
  blocks : Table ℕ DiskBlock

/-- Why an operation on the disk fails. -/
inductive DiskErr where
  /-- "size must be multiple of 4096". -/
  | unaligned
  /-- A read of the image failed. -/
  | read
  /-- "zstd decompress export", or the gzip stream cannot be read. -/
  | decode
  /-- "refusing to export huge disk". -/
  | huge
  /-- `set_len` of a size that is negative. -/
  | setLen
deriving DecidableEq

/-- A program on the disk. -/
abbrev Dsk (α : Type) := EStateM DiskErr Disk α

/-- `vm_disk_init`. -/
def vmDiskInit (size : ℤ) : Dsk Unit := fun d =>
  if size % diskBlockSize ≠ 0 then .error .unaligned d else .ok () { d with size := some size }

/-- `vm_disk_size`. -/
def vmDiskSize (d : Disk) : ℤ := d.size.getD 0

/-- `is_all_zero`. -/
def isAllZero (b : Bytes) : Bool := b.all (· = 0)

/-- `compress_bytes`. -/
def compressBytes (E : Ext K) (data : Bytes) : Option Bytes :=
  if data.length < 1024 then none
  else (E.zstdCompress (compressLevel data .archive) data).filter fun c =>
    c.length + 64 < data.length

/-- A block as it is stored. -/
def encodeBlockRow (E : Ext K) (data : Bytes) : DiskBlock :=
  match compressBytes E data with
  | some c => ⟨c, 2, diskBlockSize⟩
  | none => ⟨data, 0, diskBlockSize⟩

/-- `INSERT OR REPLACE`. -/
def Disk.put (d : Disk) (id : ℕ) (b : DiskBlock) : Disk :=
  { d with blocks := (d.blocks.deleteWhere fun k _ => k = id).insertIgnore id b }

/-- The deletion of a block. -/
def Disk.drop (d : Disk) (id : ℕ) : Disk :=
  { d with blocks := d.blocks.deleteWhere fun k _ => k = id }

/-- A block of the image is stored, or deleted when it is zero. -/
def Disk.store (E : Ext K) (d : Disk) (id : ℕ) (data : Bytes) : Disk :=
  if isAllZero data then d.drop id else d.put id (encodeBlockRow E data)

/-- What a read of the image gave, filled up to a block. -/
def padBlock (b : Bytes) : Bytes := extendTo 0 b diskBlockSize

/-- The loop of `vm_disk_import_raw`: the number of blocks that have been read, and how many of them
are not zero. Each read gives a block. -/
def importBlocks (E : Ext K) (diskSize : ℤ) : List (Option Bytes) → ℕ → ℕ → Dsk (ℕ × ℕ)
  | [], bid, nonzero => pure (bid, nonzero)
  | none :: _, _, _ => throw .read
  | some b :: reads, bid, nonzero =>
    if b = [] then pure (bid, nonzero)
    else do
      modify fun d => d.store E bid (padBlock b)
      let nonzero := if isAllZero (padBlock b) then nonzero else nonzero + 1
      if diskSize ≤ (bid + 1 : ℕ) * (diskBlockSize : ℤ) then pure (bid + 1, nonzero)
      else importBlocks E diskSize reads (bid + 1) nonzero

/-- `vm_disk_import_raw`: the reads of the image give bytes, or fail; no bytes are the end. -/
def vmDiskImportRaw (E : Ext K) (reads : List (Option Bytes)) (diskSize : ℤ) : Dsk (ℕ × ℕ) := do
  let existing ← Prog.reads vmDiskSize
  let target := if 0 < existing ∧ diskSize < existing then existing else diskSize
  vmDiskInit target
  let (total, nonzero) ← importBlocks E diskSize reads 0 0
  modify fun d => (List.range' total ((diskSize / diskBlockSize).toNat - total)).foldl Disk.drop d
  return (total, nonzero)

/-- The bytes of a stored block. -/
def decodeDiskBlock (E : Ext K) (b : DiskBlock) : Except DiskErr Bytes :=
  if b.compressed = 2 then ((E.zstdDecompress b.content diskBlockSize).map .ok).getD
  (.error .decode)
  else if b.compressed = 1 then ((E.gunzip b.content).map .ok).getD (.error .decode)
  else .ok b.content

/-- One stored block is written to the file, if it is not zero. -/
def exportBlock (E : Ext K) (st : Bytes × ℕ) (r : ℕ × DiskBlock) : Except DiskErr (Bytes × ℕ) := do
  let b := padBlock (← decodeDiskBlock E r.2)
  if isAllZero b then .ok st
  else .ok (writeAt 0 st.1 (r.1 * diskBlockSize) b, st.2 + 1)

/-- `vm_disk_export_raw`: the file it writes, the number of blocks of the disk and how many were
written. -/
def vmDiskExportRaw (E : Ext K) (d : Disk) : Except DiskErr (Bytes × ℤ × ℕ) := do
  let disk := vmDiskSize d
  if disk < 0 then throw .setLen
  let blocks := disk / diskBlockSize
  if 10000000 < blocks then throw .huge
  let (file, nonzero) ← (d.blocks.rows.insertionSort fun a b => a.1 ≤ b.1).foldlM (exportBlock E)
    (List.replicate disk.toNat 0, 0)
  return (file, blocks, nonzero)

/-! ## The disk as a function -/

/-- A block that is not stored. -/
def zeroBlock : Bytes := List.replicate diskBlockSize 0

/-- The blocks of the disk. -/
def Disk.view (E : Ext K) (d : Disk) (i : ℕ) : Bytes :=
  (d.blocks.get? i).elim zeroBlock fun b => ((decodeDiskBlock E b).toOption).getD []

/-- What the operations on the disk store. -/
structure Disk.Stored (E : Ext K) (d : Disk) : Prop where
  /-- A stored block can be decoded, has the length of a block, and is not zero. -/
  blocks : ∀ id b, d.blocks.get? id = some b →
    ∃ data, decodeDiskBlock E b = .ok data ∧ data.length = diskBlockSize ∧ isAllZero data = false
  /-- The size is a multiple of the block size. -/
  aligned : ∀ s, d.size = some s → s % diskBlockSize = 0

section View

variable {d : Disk} {data : Bytes} {id i : ℕ}

/-- A block is not empty. -/
theorem diskBlockSize_pos : 0 < diskBlockSize := by decide

/-- The test for zeros finds nothing but zeros. -/
theorem isAllZero_iff : isAllZero data = true ↔ data = List.replicate data.length 0 := by
  unfold isAllZero
  rw [List.all_eq_true, List.eq_replicate_iff]
  simp

/-- A short read is padded to a block. -/
theorem padBlock_length (h : data.length ≤ diskBlockSize) :
    (padBlock data).length = diskBlockSize := by
  rw [padBlock, length_extendTo]
  omega

/-- A full block is not padded. -/
theorem padBlock_of_length (h : data.length = diskBlockSize) :
    padBlock data = data := extendTo_of_le 0 h.ge

/-- What is stored for a block gives the block back. -/
theorem decode_encodeBlockRow (hE : E.Lawful) (h : data.length = diskBlockSize) :
    decodeDiskBlock E (encodeBlockRow E data) = .ok data := by
  unfold encodeBlockRow
  rcases hc : compressBytes E data with _ | c
  · rfl
  · have hzstd : E.zstdCompress (compressLevel data .archive) data = some c := by
      unfold compressBytes at hc
      split_ifs at hc
      exact (Option.filter_eq_some_iff.1 hc).1
    unfold decodeDiskBlock
    dsimp only
    rw [if_pos rfl, ← h, (hE.zstd hzstd).2]
    rfl

/-- Deleting a block leaves the others. -/
theorem Disk.get?_drop (d : Disk) (id i : ℕ) :
    (d.drop id).blocks.get? i = if i = id then none else d.blocks.get? i := by
  rw [Disk.drop, Table.get?_deleteWhere_key _ fun k => decide (k = id)]
  simp

/-- Writing a block leaves the others. -/
theorem Disk.get?_put (d : Disk) (id i : ℕ) (b : DiskBlock) :
    (d.put id b).blocks.get? i = if i = id then some b else d.blocks.get? i := by
  rw [Disk.put, Table.get?_insertIgnore, Table.get?_deleteWhere_key _ fun k => decide (k = id)]
  rw [Table.get?_deleteWhere_key _ fun k => decide (k = id)]
  split_ifs with hi hi' <;> simp_all

/-- A block that is stored and decodes shows its bytes. -/
theorem Disk.view_of_some {b : DiskBlock} (hb : d.blocks.get? i = some b)
    (hdata : decodeDiskBlock E b = .ok data) :
    d.view E i = data := by
  rw [Disk.view, hb, Option.elim_some, hdata]
  rfl

/-- A block that is not stored shows zeros. -/
theorem Disk.view_of_none (h : d.blocks.get? i = none) : d.view E i = zeroBlock := by
  rw [Disk.view, h]
  rfl

/-- What a block shows is as long as a block. -/
theorem Disk.Stored.length_view (h : d.Stored E) (i : ℕ) : (d.view E i).length = diskBlockSize := by
  rcases hb : d.blocks.get? i with _ | b
  · rw [Disk.view_of_none hb, zeroBlock, List.length_replicate]
  · obtain ⟨data, hdata, hlen, -⟩ := h.blocks i b hb
    rw [Disk.view_of_some hb hdata, hlen]

/-- A block is stored exactly when it is not zero. -/
theorem Disk.Stored.view_eq_zero_iff (h : d.Stored E) :
    d.view E i = zeroBlock ↔ d.blocks.get? i = none := by
  refine ⟨fun hz => ?_, Disk.view_of_none⟩
  rcases hb : d.blocks.get? i with _ | b
  · rfl
  · obtain ⟨data, hdata, hlen, hnz⟩ := h.blocks i b hb
    rw [Disk.view_of_some hb hdata] at hz
    have hall : isAllZero data = true := by rw [isAllZero_iff, hlen, hz, zeroBlock]
    rw [hnz] at hall
    cases hall

/-- Deleting a block keeps the others stored as they are. -/
theorem Disk.Stored.drop (h : d.Stored E) (id : ℕ) : (d.drop id).Stored E := by
  refine ⟨fun i b hb => ?_, h.aligned⟩
  rw [Disk.get?_drop] at hb
  split_ifs at hb
  exact h.blocks i b hb

/-- A deleted block shows zeros, the others show what they did. -/
theorem Disk.view_drop (E : Ext K) (d : Disk) (id i : ℕ) :
    (d.drop id).view E i = if i = id then zeroBlock else d.view E i := by
  unfold Disk.view
  rw [Disk.get?_drop]
  split_ifs with hi
  · rfl
  · rfl

/-- A block that is stored is the block of the disk, and no other block changes. -/
theorem Disk.Stored.store (h : d.Stored E) (hE : E.Lawful) (hdata : data.length = diskBlockSize)
    (id : ℕ) :
    (d.store E id data).Stored E ∧
    ∀ i, (d.store E id data).view E i = if i = id then data else d.view E i := by
  unfold Disk.store
  -- A block of zeros is dropped and read as zeros, any other one is encoded.
  by_cases hz : isAllZero data = true
  · rw [if_pos hz]
    refine ⟨h.drop id, fun i => ?_⟩
    have hzero : data = zeroBlock := by
      rw [isAllZero_iff.1 hz, hdata]
      rfl
    rw [Disk.view_drop, hzero]
  · rw [if_neg hz]
    have hdec := decode_encodeBlockRow hE hdata
    refine ⟨⟨fun i b hb => ?_, h.aligned⟩, fun i => ?_⟩
    · rw [Disk.get?_put] at hb
      split_ifs at hb
      · cases hb
        exact ⟨data, hdec, hdata, Bool.eq_false_iff.2 hz⟩
      · exact h.blocks i b hb
    · split_ifs with hi
      · refine Disk.view_of_some ?_ hdec
        rw [Disk.get?_put, if_pos hi]
      · unfold Disk.view
        rw [Disk.get?_put, if_neg hi]

/-- Deleting blocks one by one zeroes exactly these. -/
theorem Disk.Stored.dropAll (h : d.Stored E) : ∀ ids : List ℕ, (ids.foldl Disk.drop d).Stored E ∧
    (ids.foldl Disk.drop d).size = d.size ∧
    ∀ i, (ids.foldl Disk.drop d).view E i = if i ∈ ids then zeroBlock else d.view E i := by
  intro ids
  induction ids generalizing d with
  | nil => exact ⟨h, rfl, fun i => by simp⟩
  | cons id ids ih =>
    obtain ⟨hst, hsize, hview⟩ := ih (h.drop id)
    refine ⟨hst, hsize, fun i => ?_⟩
    rw [List.foldl_cons, hview, Disk.view_drop]
    by_cases hi : i ∈ ids
    · rw [if_pos hi, if_pos (List.mem_cons_of_mem id hi)]
    · by_cases hid : i = id
      · rw [if_neg hi, if_pos hid, if_pos (by simp [hid])]
      · rw [if_neg hi, if_neg hid, if_neg (by simp [hid, hi])]

end View

/-! ## Import -/

section Import

variable {d : Disk} {diskSize : ℤ}

/-- The reads of an image: some bytes each, as many as a block has at most. -/
def IsReads (reads : List Bytes) : Prop := ∀ b ∈ reads, b ≠ [] ∧ b.length ≤ diskBlockSize

/-- One round of the import: a read is padded and stored as a block, up to the size of the disk. -/
theorem importBlocks_cons {b : Bytes} (hb : b ≠ []) (reads : List (Option Bytes))
    (bid nonzero : ℕ) (d : Disk) :
    importBlocks E diskSize (some b :: reads) bid nonzero d =
      (if diskSize ≤ (bid + 1 : ℕ) * (diskBlockSize : ℤ) then
          pure (bid + 1, if isAllZero (padBlock b) then nonzero else nonzero + 1)
        else importBlocks E diskSize reads (bid + 1)
        (if isAllZero (padBlock b) then nonzero else nonzero + 1))
        (d.store E bid (padBlock b)) := by
  rw [importBlocks, if_neg hb]
  rfl

/-- What the loop of an import does: each read becomes a block, until the disk is full. -/
theorem importBlocks_ok (hE : E.Lawful) {n : ℕ} (hn : diskSize = (n : ℤ) * diskBlockSize) :
    ∀ (reads : List Bytes) (bid nonzero : ℕ) {d : Disk}, IsReads reads → (bid < n ∨ reads = []) →
      d.Stored E →
      ∃ nonzero' d', importBlocks E diskSize (reads.map some) bid nonzero d =
          .ok (bid + min reads.length (n - bid), nonzero') d' ∧
        d'.Stored E ∧ d'.size = d.size ∧ ∀ i, d'.view E i =
          if bid ≤ i ∧ i < bid + min reads.length (n - bid) then padBlock (reads[i - bid]?.getD [])
          else d.view E i := by
  intro reads
  -- By induction on the reads: one is stored as the block `bid`, and the others follow from the
  -- next one on.
  induction reads with
  | nil =>
    intro bid nonzero d _ _ hd
    refine ⟨nonzero, d, ?_, hd, rfl, fun i => ?_⟩
    · simp only [List.map_nil, importBlocks, List.length_nil, Nat.zero_min, Nat.add_zero]
      rfl
    · rw [if_neg (by simp only [List.length_nil, Nat.zero_min]; omega)]
  | cons b reads ih =>
    intro bid nonzero d hreads hroom hd
    obtain ⟨hne, hlen⟩ := hreads b List.mem_cons_self
    have hbid : bid < n := hroom.resolve_right (List.cons_ne_nil _ _)
    obtain ⟨hst, hview⟩ := hd.store hE (padBlock_length hlen) bid
    have hsize : (d.store E bid (padBlock b)).size = d.size := by
      unfold Disk.store
      split_ifs <;> rfl
    have hblock : 0 < (diskBlockSize : ℤ) := by decide
    have hfull : diskSize ≤ (bid + 1 : ℕ) * (diskBlockSize : ℤ) ↔ n ≤ bid + 1 := by
      rw [hn]
      exact ⟨fun h => by exact_mod_cast le_of_mul_le_mul_right h hblock,
        fun h => mul_le_mul_of_nonneg_right (by exact_mod_cast h) hblock.le⟩
    rw [List.map_cons, importBlocks_cons hne]
    by_cases hdone : n ≤ bid + 1
    · -- The disk is full: the other reads are not made.
      obtain rfl : n = bid + 1 := by omega
      have htotal : min (b :: reads).length (bid + 1 - bid) = 1 := by
        rw [List.length_cons]
        omega
      rw [htotal, if_pos (hfull.2 hdone)]
      refine ⟨_, d.store E bid (padBlock b), rfl, hst, hsize, fun i => ?_⟩
      rw [hview]
      by_cases hi : i = bid
      · rw [if_pos hi, if_pos (by omega), hi, Nat.sub_self]
        rfl
      · rw [if_neg hi, if_neg (by omega)]
    · obtain ⟨nonzero', d', hrun, hst', hsize', hview'⟩ := ih (bid + 1)
        (if isAllZero (padBlock b) then nonzero else nonzero + 1)
        (fun r hr => hreads r (List.mem_cons_of_mem b hr)) (Or.inl (by omega)) hst
      have htotal : bid + min (b :: reads).length (n - bid) = bid + 1 + min reads.length
        (n - (bid + 1)) := by
        rw [List.length_cons]
        omega
      rw [htotal, if_neg fun h => hdone (hfull.1 h)]
      refine ⟨nonzero', d', hrun, hst', hsize'.trans hsize, fun i => ?_⟩
      rw [hview', hview]
      by_cases hi : i = bid
      · rw [if_neg (by omega), if_pos hi, if_pos (by omega), hi, Nat.sub_self]
        rfl
      · by_cases hin : bid + 1 ≤ i ∧ i < bid + 1 + min reads.length (n - (bid + 1))
        · rw [if_pos hin, if_pos (by omega),
            show i - bid = i - (bid + 1) + 1 by omega, List.getElem?_cons_succ]
        · rw [if_neg hin, if_neg hi, if_neg (by omega)]

/-- The size that an import gives the disk. -/
def Disk.target (d : Disk) (diskSize : ℤ) : ℤ :=
  if 0 < vmDiskSize d ∧ diskSize < vmDiskSize d then vmDiskSize d else diskSize

/-- The size of the disk after an import is a number of blocks. -/
theorem Disk.Stored.target_aligned (h : d.Stored E) (hs : diskSize % diskBlockSize = 0) :
    d.target diskSize % diskBlockSize = 0 := by
  unfold Disk.target
  split_ifs with hlt
  · unfold vmDiskSize at hlt ⊢
    rcases hsize : d.size with _ | s
    · rw [hsize] at hlt
      exact absurd hlt.1 (by simp)
    · exact h.aligned s hsize
  · exact hs

/-- An import sets the size, writes the blocks that it reads and deletes the rest. -/
theorem vmDiskImportRaw_eq (reads : List (Option Bytes)) (diskSize : ℤ) (d : Disk) :
    vmDiskImportRaw E reads diskSize d = (vmDiskInit (d.target diskSize) >>= fun _ =>
      importBlocks E diskSize reads 0 0 >>= fun r => do
        modify fun d => (List.range' r.1 ((diskSize / diskBlockSize).toNat - r.1)).foldl Disk.drop d
        return r) d := by
  rw [vmDiskImportRaw, reads_bind]
  rfl

/-- An import that is given a size for all of the image: the blocks up to this size are those of the
reads and then zero, and the others are as they were. -/
theorem vmDiskImportRaw_ok (hE : E.Lawful) (hd : d.Stored E) {n : ℕ}
    (hn : diskSize = (n : ℤ) * diskBlockSize) {reads : List Bytes} (hreads : IsReads reads)
    (hroom : 0 < n ∨ reads = []) :
    ∃ r d', vmDiskImportRaw E (reads.map some) diskSize d = .ok r d' ∧ d'.Stored E ∧
      d'.size = some (d.target diskSize) ∧ ∀ i, d'.view E i =
        if i < n then ((reads[i]?).map padBlock).getD zeroBlock else d.view E i := by
  have hblock : (diskBlockSize : ℤ) ≠ 0 := by decide
  have hs : diskSize % diskBlockSize = 0 := by rw [hn, Int.mul_emod_left]
  have htarget := hd.target_aligned hs
  have hinit : vmDiskInit (d.target diskSize) d = .ok ()
    { d with size := some (d.target diskSize) } := by
    unfold vmDiskInit
    rw [if_neg (by simpa using htarget)]
  have hd₀ : ({ d with size := some (d.target diskSize) } : Disk).Stored E := by
    refine ⟨hd.blocks, ?_⟩
    rintro s ⟨⟩
    exact htarget
  -- The import stores the blocks that were read, and then drops those up to the size of the
  -- image.
  obtain ⟨nonzero, d₁, hrun, hst, hsize, hview⟩ := importBlocks_ok hE hn reads 0 0 hreads hroom hd₀
  rw [Nat.zero_add, Nat.sub_zero] at hrun
  simp only [Nat.zero_add, Nat.sub_zero, Nat.zero_le, true_and] at hview
  have hcount : (diskSize / diskBlockSize).toNat = n := by
    rw [hn, Int.mul_ediv_cancel _ hblock, Int.toNat_natCast]
  have hdrop := hst.dropAll (List.range' (min reads.length n) (n - min reads.length n))
  refine ⟨(min reads.length n, nonzero), _, ?_, hdrop.1, hdrop.2.1.trans hsize, fun i => ?_⟩
  · rw [vmDiskImportRaw_eq, bind_of_ok hinit, bind_of_ok hrun, hcount]
    rfl
  · simp only [hdrop.2.2, hview, List.mem_range'_1]
    rcases Nat.lt_or_ge i (min reads.length n) with hlt | hge
    · rw [if_neg (by omega), if_pos hlt, if_pos (by omega), List.getElem?_eq_getElem (by omega)]
      rfl
    · rw [if_neg (by omega : ¬ i < min reads.length n)]
      by_cases hi : i < n
      · rw [if_pos (by omega), if_pos hi, List.getElem?_eq_none (by omega)]
        rfl
      · rw [if_neg (by omega), if_neg hi]
        rfl

end Import

/-! ## Export -/

section Export

variable {d : Disk} {img : Bytes} {reads : List Bytes}

/-- A row of the disk as a block to write. -/
def blockOf (E : Ext K) (r : ℕ × DiskBlock) : ℕ × Bytes :=
  (r.1, ((decodeDiskBlock E r.2).toOption).getD [])

/-- The export writes each stored block at its place and counts them. -/
theorem foldlM_exportBlock : ∀ (rows : List (ℕ × DiskBlock)) (file : Bytes) (nonzero : ℕ),
    (∀ r ∈ rows, ∃ data, decodeDiskBlock E r.2 = .ok data ∧ data.length = diskBlockSize ∧
      isAllZero data = false) →
    rows.foldlM (exportBlock E) (file, nonzero) =
      .ok (writeBlocks 0 diskBlockSize file (rows.map (blockOf E)), nonzero + rows.length)
  | [], _, _, _ => rfl
  | r :: rows, file, nonzero, h => by
    obtain ⟨data, hdec, hlen, hnz⟩ := h r List.mem_cons_self
    have hstep : exportBlock E (file, nonzero) r =
        .ok (writeAt 0 file (r.1 * diskBlockSize) data, nonzero + 1) := by
      unfold exportBlock
      rw [hdec]
      show (if isAllZero (padBlock data) = true then _ else _) = _
      rw [padBlock_of_length hlen, hnz, if_neg (by simp)]
    have hblock : blockOf E r = (r.1, data) := by
      rw [blockOf, hdec]
      rfl
    have ih := foldlM_exportBlock rows (writeAt 0 file (r.1 * diskBlockSize) data) (nonzero + 1)
      fun r' hr' => h r' (List.mem_cons_of_mem r hr')
    rw [List.foldlM_cons, hstep]
    show rows.foldlM (exportBlock E) _ = _
    rw [ih, List.map_cons, hblock, List.length_cons, Nat.add_assoc, Nat.add_comm 1]
    rfl

/-- The rows in the order of an export. -/
def Disk.sorted (d : Disk) : List (ℕ × DiskBlock) :=
  d.blocks.rows.insertionSort fun a b => a.1 ≤ b.1

/-- The sorted rows are the stored blocks. -/
theorem Disk.mem_sorted {r : ℕ × DiskBlock} : r ∈ d.sorted ↔ d.blocks.get? r.1 = some r.2 := by
  rw [Table.get?_eq_some_iff, Disk.sorted]
  exact (List.perm_insertionSort _ _).mem_iff

/-- What an export writes. -/
theorem vmDiskExportRaw_eq (hd : d.Stored E) (hpos : 0 ≤ vmDiskSize d)
    (hhuge : vmDiskSize d ≤ 10000000 * diskBlockSize) : vmDiskExportRaw E d =
      .ok (writeBlocks 0 diskBlockSize (List.replicate (vmDiskSize d).toNat 0)
        (d.sorted.map (blockOf E)),
        vmDiskSize d / diskBlockSize, d.sorted.length) := by
  have hblocks : ¬ 10000000 < vmDiskSize d / diskBlockSize := by
    unfold diskBlockSize at hhuge ⊢
    omega
  have hfold := foldlM_exportBlock (E := E) d.sorted (List.replicate (vmDiskSize d).toNat 0) 0
    fun r hr => hd.blocks r.1 r.2 (Disk.mem_sorted.1 hr)
  unfold vmDiskExportRaw
  dsimp only
  rw [if_neg (by omega), if_neg hblocks]
  show (d.sorted.foldlM (exportBlock E) _ >>= _) = _
  rw [hfold, Nat.zero_add]
  rfl

/-- An export that returns has a file for which the limit is met. -/
theorem not_huge_of_export {r : Bytes × ℤ × ℕ} (h : vmDiskExportRaw E d = .ok r) :
    0 ≤ vmDiskSize d ∧ vmDiskSize d / diskBlockSize ≤ 10000000 := by
  unfold vmDiskExportRaw at h
  dsimp only at h
  by_cases hneg : vmDiskSize d < 0
  · rw [if_pos hneg] at h
    cases h
  · by_cases hhuge : 10000000 < vmDiskSize d / diskBlockSize
    · rw [if_neg hneg, if_pos hhuge] at h
      cases h
    · omega

/-- The blocks of a file that an export writes, if no stored block is outside it. -/
theorem export_image (hd : d.Stored E) {n : ℕ} (hsize : (vmDiskSize d).toNat = n * diskBlockSize)
    (hin : ∀ id, d.blocks.get? id ≠ none → id < n) :
    writeBlocks 0 diskBlockSize (List.replicate (vmDiskSize d).toNat 0) (d.sorted.map (blockOf E)) =
      image n (d.view E) := by
  have hnodup : ((d.sorted.map (blockOf E)).map Prod.fst).Nodup := by
    have hkeys : (d.sorted.map (blockOf E)).map Prod.fst = d.sorted.map Prod.fst := by
      rw [List.map_map]
      rfl
    rw [hkeys]
    exact ((List.perm_insertionSort _ _).map Prod.fst).nodup_iff.2 d.blocks.nodup
  have hrows : ∀ r ∈ d.sorted.map (blockOf E), r.2.length = diskBlockSize ∧
      (r.1 + 1) * diskBlockSize ≤ (List.replicate (vmDiskSize d).toNat (0 : UInt8)).length := by
    intro r hr
    obtain ⟨row, hrow, rfl⟩ := List.mem_map.1 hr
    have hget := Disk.mem_sorted.1 hrow
    obtain ⟨data, hdec, hlen, -⟩ := hd.blocks _ _ hget
    have hlt : row.1 < n := hin row.1 (by rw [hget]; simp)
    rw [List.length_replicate, hsize]
    refine ⟨?_, Nat.mul_le_mul_right _ hlt⟩
    rw [blockOf, hdec]
    exact hlen
  obtain ⟨hlen, hmem, hout⟩ := writeBlocks_spec (z := 0) diskBlockSize_pos hnodup hrows
  have hwhole := hlen.trans ((List.length_replicate ..).trans hsize)
  rw [← image_chunkAt hwhole]
  refine image_congr fun i hi => ?_
  -- A block that is stored was written at its place; at any other place the file has the zeros it
  -- began with.
  rcases hget : d.blocks.get? i with _ | b
  · have hfree : ∀ r ∈ d.sorted.map (blockOf E), r.1 ≠ i := by
      intro r hr he
      obtain ⟨row, hrow, rfl⟩ := List.mem_map.1 hr
      have hsome := Disk.mem_sorted.1 hrow
      have he' : row.1 = i := he
      rw [he', hget] at hsome
      cases hsome
    rw [hout i hfree, Disk.view_of_none hget, hsize, zeroBlock]
    have hroom := Nat.mul_le_mul_right diskBlockSize hi
    rw [Nat.succ_mul] at hroom
    rw [chunkAt, slice, List.drop_replicate, List.take_replicate]
    congr 1
    omega
  · obtain ⟨data, hdec, -, -⟩ := hd.blocks i b hget
    have hrow : (i, data) ∈ d.sorted.map (blockOf E) := by
      refine List.mem_map.2 ⟨(i, b), Disk.mem_sorted.2 hget, ?_⟩
      rw [blockOf, hdec]
      rfl
    rw [hmem _ hrow, Disk.view_of_some hget hdec]

/-- A stored block is in the file, whatever its place. -/
theorem length_export_ge (hd : d.Stored E) {id : ℕ} (hid : d.blocks.get? id ≠ none) :
    (id + 1) * diskBlockSize ≤
      (writeBlocks 0 diskBlockSize (List.replicate (vmDiskSize d).toNat (0 : UInt8))
      (d.sorted.map (blockOf E))).length := by
  obtain ⟨b, hget⟩ := Option.ne_none_iff_exists'.1 hid
  obtain ⟨data, hdec, hlen, -⟩ := hd.blocks id b hget
  have hne : ∀ r ∈ d.sorted.map (blockOf E), r.2 ≠ [] := by
    intro r hr
    obtain ⟨row, hrow, rfl⟩ := List.mem_map.1 hr
    obtain ⟨data', hdec', hlen', -⟩ := hd.blocks _ _ (Disk.mem_sorted.1 hrow)
    rw [blockOf, hdec']
    exact List.length_pos_iff.1 (hlen'.symm ▸ diskBlockSize_pos)
  have hrow : (id, data) ∈ d.sorted.map (blockOf E) := by
    refine List.mem_map.2 ⟨(id, b), Disk.mem_sorted.2 hget, ?_⟩
    rw [blockOf, hdec]
    rfl
  have hle : id * diskBlockSize + data.length ≤ (writeBlocks 0 diskBlockSize
      (List.replicate (vmDiskSize d).toNat (0 : UInt8)) (d.sorted.map (blockOf E))).length :=
    (length_le_writeBlocks hne).2 _ hrow
  rw [hlen] at hle
  rw [Nat.add_mul, Nat.one_mul]
  exact hle

/-- The blocks of the reads, and then zeros. -/
theorem image_reads (reads : List Bytes) (hreads : IsReads reads) (n : ℕ) :
    image n (fun i => ((reads[i]?).map padBlock).getD zeroBlock) =
      extendTo 0 ((reads.take n).flatMap padBlock) (n * diskBlockSize) := by
  have hpad : ∀ b ∈ reads, (padBlock b).length = diskBlockSize :=
    fun b hb => padBlock_length (hreads b hb).2
  have hlen : ∀ n, ((reads.take n).flatMap padBlock).length = min n reads.length *
    diskBlockSize := by
    intro n
    rw [List.length_flatMap, List.map_congr_left fun b hb => hpad b (List.mem_of_mem_take hb),
      List.map_const',
      List.sum_replicate_nat, List.length_take]
  -- By induction on the number of blocks: the next one is a padded read or zeros.
  induction n with
  | zero => simp [image, extendTo]
  | succ n ih =>
    rw [image_succ, ih]
    have hn := hlen n
    rcases Nat.lt_or_ge n reads.length with hlt | hge
    · rw [List.getElem?_eq_getElem hlt, List.take_succ_eq_append_getElem hlt, List.flatMap_append,
        List.flatMap_singleton, extendTo_of_le 0 (by rw [hn, min_eq_left hlt.le]), extendTo_of_le]
      · rfl
      · rw [List.length_append, hn, min_eq_left hlt.le, hpad _ (List.getElem_mem hlt), Nat.add_mul,
          Nat.one_mul]
    · rw [List.getElem?_eq_none hge, List.take_of_length_le hge, List.take_of_length_le (by omega)]
      rw [List.take_of_length_le hge, min_eq_right hge] at hn
      have hle := Nat.mul_le_mul_right diskBlockSize hge
      rw [extendTo, extendTo, hn, List.append_assoc, Option.map_none, Option.getD_none, zeroBlock,
        List.replicate_append_replicate]
      congr 2
      rw [Nat.add_mul, Nat.one_mul]
      omega

end Export

/-! ## Runs -/

/-- An operation that changes the disk. A read gives as many bytes as a block has at most. -/
inductive DiskOp where
  /-- `vm_disk_init`. -/
  | init (size : ℤ)
  /-- `vm_disk_import_raw`. -/
  | importRaw (reads : List (Option Bytes))
      (hreads : ∀ b, some b ∈ reads → b.length ≤ diskBlockSize) (diskSize : ℤ)

/-- Run an operation. -/
def DiskOp.run (E : Ext K) : DiskOp → Dsk Unit
  | .init size => vmDiskInit size
  | .importRaw reads _ diskSize => do
    let _ ← vmDiskImportRaw E reads diskSize

/-- The disks that runs of operations reach whose steps meet a condition. A step that fails leaves
what it has done. -/
inductive Disk.Runs (E : Ext K) (C : Disk → DiskOp → Prop) : Disk → Prop where
  /-- A database without a disk. -/
  | start : Disk.Runs E C ⟨none, Table.empty⟩
  /-- One more step. -/
  | step {d : Disk} (h : Disk.Runs E C d) (op : DiskOp) (hop : C d op) :
      Disk.Runs E C (endState (op.run E) d)

/-- No stored block is behind the size. -/
def Disk.Within (size : ℤ) (d : Disk) : Prop :=
  ∀ id, d.blocks.get? id ≠ none → ((id + 1 : ℕ) * diskBlockSize : ℤ) ≤ size

/-- A new size leaves out no stored block, and an image that is not empty is given room on a disk.
-/
def DiskOp.Steady (d : Disk) : DiskOp → Prop
  | .init size => d.Within size
  | .importRaw reads _ diskSize => 0 < diskSize ∨ 0 < vmDiskSize d ∨
      ∀ b, reads.head? = some (some b) → b = []

section Runs

variable {C : Disk → DiskOp → Prop} {d : Disk} {diskSize size : ℤ}

/-- The loop of an import keeps what storing a block keeps at every place it reaches. -/
theorem keeps_importBlocks {I : Disk → Prop} {R : ℕ → Prop}
    (hstore : ∀ d bid (b : Bytes), I d → R bid → b.length ≤ diskBlockSize →
      I (d.store E bid (padBlock b)))
    (hnext : ∀ bid, R bid → ¬ diskSize ≤ (bid + 1 : ℕ) * (diskBlockSize : ℤ) → R (bid + 1)) :
    ∀ {reads : List (Option Bytes)} {bid nonzero : ℕ},
      (∀ b, some b ∈ reads → b.length ≤ diskBlockSize) →
      (R bid ∨ ∀ b, reads.head? = some (some b) → b = []) →
      Keeps I (importBlocks E diskSize reads bid nonzero)
  | [], _, _, _, _ => Keeps.pure _
  | none :: _, _, _, _, _ => Keeps.throw _
  | some b :: reads, bid, nonzero, hreads, hroom => by
    by_cases hb : b = []
    · rw [importBlocks, if_pos hb]
      exact Keeps.pure _
    · have hR : R bid := hroom.resolve_right fun h => hb (h b rfl)
      intro d hd
      have hst := hstore d bid b hd hR (hreads b List.mem_cons_self)
      unfold endState
      rw [importBlocks_cons hb]
      split_ifs with hfull hfull
      all_goals first
        | exact hst
        | exact keeps_importBlocks hstore hnext
            (fun b' hb' => hreads b' (List.mem_cons_of_mem _ hb'))
            (Or.inl (hnext bid hR hfull)) _ hst

/-- The whole import, for what its deletions keep; `Q` holds before it and afterwards. -/
theorem keeps_vmDiskImportRaw {I Q : Disk → Prop} {R : ℕ → Prop} {reads : List (Option Bytes)}
    (hd : Q d) (hQ : ∀ d, I d → Q d)
    (hinit : d.target diskSize % diskBlockSize = 0 → I { d with size := some (d.target diskSize) })
    (hstore : ∀ d bid (b : Bytes), I d → R bid → b.length ≤ diskBlockSize →
      I (d.store E bid (padBlock b)))
    (hnext : ∀ bid, R bid → ¬ diskSize ≤ (bid + 1 : ℕ) * (diskBlockSize : ℤ) → R (bid + 1))
    (hdrop : ∀ d id, I d → I (d.drop id))
    (hreads : ∀ b, some b ∈ reads → b.length ≤ diskBlockSize)
    (hroom : R 0 ∨ ∀ b, reads.head? = some (some b) → b = []) :
    Q (endState (vmDiskImportRaw E reads diskSize) d) := by
  have hdrops : ∀ (ids : List ℕ) d, I d → I (ids.foldl Disk.drop d) := by
    intro ids
    induction ids with
    | nil => exact fun d hd => hd
    | cons id ids ih => exact fun d hd => ih _ (hdrop d id hd)
  unfold endState
  rw [vmDiskImportRaw_eq]
  -- Without an aligned size nothing happens. With one the blocks are stored and the others
  -- dropped, each keeping `I`.
  by_cases hal : d.target diskSize % diskBlockSize = 0
  · have hrun : vmDiskInit (d.target diskSize) d = .ok ()
      { d with size := some (d.target diskSize) } := by
      unfold vmDiskInit
      rw [if_neg (by simpa using hal)]
    rw [bind_of_ok hrun]
    refine hQ _ (Keeps.bind (I := I) (keeps_importBlocks hstore hnext hreads hroom)
      (fun r => ?_) _ (hinit hal))
    exact fun d' hd' => hdrops _ d' hd'
  · have hrun : vmDiskInit (d.target diskSize) d = .error .unaligned d := by
      unfold vmDiskInit
      rw [if_pos hal]
    rw [bind_of_error hrun]
    exact hd

/-- A new size leaves the blocks as they are. -/
theorem Disk.Stored.setSize (h : d.Stored E) (hs : size % diskBlockSize = 0) :
    ({ d with size := some size } : Disk).Stored E := by
  refine ⟨h.blocks, ?_⟩
  rintro s ⟨⟩
  exact hs

/-- `vm_disk_init` sets the size when it is a number of blocks, and else does nothing. -/
theorem DiskOp.endState_init (size : ℤ) (d : Disk) : endState ((DiskOp.init size).run E) d =
    if size % diskBlockSize ≠ 0 then d else { d with size := some size } := by
  show endState (vmDiskInit size) d = _
  unfold endState vmDiskInit
  split_ifs <;> rfl

/-- An import as an operation ends as the import itself. -/
theorem DiskOp.endState_importRaw {reads : List (Option Bytes)}
    (hreads : ∀ b, some b ∈ reads → b.length ≤ diskBlockSize) (diskSize : ℤ) (d : Disk) :
    endState ((DiskOp.importRaw reads hreads diskSize).run E) d =
      endState (vmDiskImportRaw E reads diskSize) d := by
  show endState (vmDiskImportRaw E reads diskSize >>= fun _ => pure ()) d = _
  unfold endState
  rcases h : vmDiskImportRaw E reads diskSize d with ⟨r, d'⟩ | ⟨e, d'⟩
  · rw [bind_of_ok h]
    rfl
  · rw [bind_of_error h]

/-- Along every run what is stored decodes to full blocks. -/
theorem stored_of_runs (hE : E.Lawful) (h : Disk.Runs E C d) : d.Stored E := by
  induction h with
  | start => exact ⟨by simp, by simp⟩
  | @step d _ op _ ih =>
    rcases op with size | ⟨reads, hreads, diskSize⟩
    · rw [DiskOp.endState_init]
      split_ifs with hs
      · exact ih
      · exact ih.setSize (not_not.1 hs)
    · rw [DiskOp.endState_importRaw]
      exact keeps_vmDiskImportRaw (R := fun _ => True) ih (fun _ hd => hd)
        (fun hal => ih.setSize hal)
        (fun d bid b hd _ hb => (hd.store hE (padBlock_length hb) bid).1) (fun _ _ _ => trivial)
        (fun d id hd => hd.drop id) hreads (Or.inl trivial)

/-- Deleting a block leaves none beyond the end. -/
theorem Disk.Within.drop (h : d.Within size) (id : ℕ) : (d.drop id).Within size := by
  intro i hi
  refine h i fun hnone => hi ?_
  rw [Disk.get?_drop, hnone, ite_self]

/-- A block that is stored where there is room. -/
theorem Disk.Within.store (h : d.Within size) (hs : size % diskBlockSize = 0) {bid : ℕ}
    {data : Bytes} (hroom : (bid * diskBlockSize : ℤ) < size) :
    (d.store E bid data).Within size := by
  unfold Disk.store
  split_ifs
  · exact h.drop bid
  · intro i hi
    rw [Disk.get?_put] at hi
    by_cases hib : i = bid
    · rw [hib]
      unfold diskBlockSize at hs hroom ⊢
      push_cast
      omega
    · rw [if_neg hib] at hi
      exact h i hi

/-- In a run whose steps leave out no stored block, none is behind the size. -/
theorem within_of_runs (h : Disk.Runs E DiskOp.Steady d) : d.Within (vmDiskSize d) := by
  -- By induction on the run: no steady operation stores a block beyond the size it sets.
  induction h with
  | start => exact fun id hid => absurd rfl hid
  | @step d _ op hop ih =>
    rcases op with size | ⟨reads, hreads, diskSize⟩
    · rw [DiskOp.endState_init]
      split_ifs with hs
      · exact ih
      · exact hop
    · rw [DiskOp.endState_importRaw]
      have hle : diskSize ≤ d.target diskSize ∧ vmDiskSize d ≤ max (d.target diskSize) 0 := by
        unfold Disk.target
        split_ifs <;> omega
      refine keeps_vmDiskImportRaw (I := fun d' => d.target diskSize % diskBlockSize = 0 ∧
          d'.Within (d.target diskSize) ∧ d'.size = some (d.target diskSize))
        (Q := fun d' => d'.Within (vmDiskSize d'))
          (R := fun bid => (bid * diskBlockSize : ℤ) < d.target diskSize)
        ih ?_ ?_ ?_ ?_ ?_ hreads ?_
      · rintro d' ⟨-, hin, hsize⟩
        rw [vmDiskSize, hsize]
        exact hin
      · refine fun hal => ⟨hal, fun id hid => ?_, rfl⟩
        have hroom := ih id hid
        have hpos : (0 : ℤ) < (id + 1 : ℕ) * diskBlockSize := by
          unfold diskBlockSize
          push_cast
          omega
        omega
      · rintro d' bid b ⟨hal, hin, hsize⟩ hroom -
        refine ⟨hal, hin.store hal hroom, ?_⟩
        unfold Disk.store
        split_ifs <;> exact hsize
      · rintro bid - hnext
        have := hle.1
        omega
      · rintro d' id ⟨hal, hin, hsize⟩
        exact ⟨hal, hin.drop id, hsize⟩
      · rcases hop with hpos | hpos | hnone
        · left
          have := hle.1
          show ((0 : ℕ) * diskBlockSize : ℤ) < _
          rw [Nat.cast_zero, zero_mul]
          omega
        · left
          have := hle.2
          show ((0 : ℕ) * diskBlockSize : ℤ) < _
          rw [Nat.cast_zero, zero_mul]
          omega
        · exact Or.inr hnone

end Runs

/-! ## An image that is imported and exported -/

/-- The export of the disk is the image and then zeros, of the size of the disk. -/
def Disk.Exports (E : Ext K) (d : Disk) (img : Bytes) : Prop :=
  ∃ file blocks nonzero, vmDiskExportRaw E d = .ok (file, blocks, nonzero) ∧
    (file.length : ℤ) = vmDiskSize d ∧ file = img ++ List.replicate (file.length - img.length) 0

/-- When an import is exact: an export takes a disk of this size, no stored block is behind the size
given for the image, and the reads, each filled up to a block, make the image. -/
structure Disk.Fits (d : Disk) (reads : List Bytes) (diskSize : ℤ) : Prop where
  /-- The limit of an export. -/
  limit : max diskSize (vmDiskSize d) ≤ 10000000 * diskBlockSize
  /-- What the import leaves. -/
  beyond : d.Within diskSize
  /-- Where the reads are put. -/
  inPlace : extendTo 0 ((reads.take (diskSize / diskBlockSize).toNat).flatMap padBlock)
    diskSize.toNat =
    extendTo 0 reads.flatten diskSize.toNat

section Exact

variable {d d' : Disk} {reads : List Bytes} {diskSize : ℤ}

/-- An export of a disk without blocks behind its size. -/
theorem export_of_within (hd : d.Stored E) (hpos : 0 ≤ vmDiskSize d)
    (hin : d.Within (vmDiskSize d)) :
    ∃ n, (vmDiskSize d).toNat = n * diskBlockSize ∧ (∀ id, d.blocks.get? id ≠ none → id < n) ∧
      ∀ file blocks nonzero, vmDiskExportRaw E d = .ok (file, blocks, nonzero) →
      file = image n (d.view E) := by
  have hal : vmDiskSize d % diskBlockSize = 0 := by
    rcases hsize : d.size with _ | s
    · rw [vmDiskSize, hsize]
      rfl
    · rw [vmDiskSize, hsize]
      exact hd.aligned s hsize
  -- Every block lies within the size, so the file that is written is the image of that many
  -- blocks.
  refine ⟨(vmDiskSize d / diskBlockSize).toNat, ?_, ?_, ?_⟩
  · unfold diskBlockSize at hal ⊢
    omega
  · intro id hid
    have := hin id hid
    unfold diskBlockSize at this ⊢
    push_cast at this
    omega
  · intro file blocks nonzero h
    have hlimit := (not_huge_of_export h).2
    have hmax : vmDiskSize d ≤ 10000000 * diskBlockSize := by
      unfold diskBlockSize at hlimit hal ⊢
      omega
    rw [vmDiskExportRaw_eq hd hpos hmax,
      export_image hd (n := (vmDiskSize d / diskBlockSize).toNat)] at h
    · exact (congrArg Prod.fst (Except.ok.inj h)).symm
    · unfold diskBlockSize at hal ⊢
      omega
    · intro id hid
      have := hin id hid
      unfold diskBlockSize at this ⊢
      push_cast at this
      omega

/-- An import never shrinks the disk. -/
theorem Disk.target_eq_max (h : 0 ≤ diskSize) :
    d.target diskSize = max diskSize (vmDiskSize d) := by
  unfold Disk.target
  split_ifs <;> omega

/-- An import is exact when it fits, and only then. -/
theorem exports_iff (hE : E.Lawful) (hd : d.Stored E) (hreads : IsReads reads)
    (hs : diskSize % diskBlockSize = 0) (hlen : (reads.flatten.length : ℤ) ≤ diskSize) {r : ℕ × ℕ}
    (hrun : vmDiskImportRaw E (reads.map some) diskSize d = .ok r d') :
    d'.Exports E reads.flatten ↔ d.Fits reads diskSize := by
  obtain ⟨n, hn⟩ : ∃ n : ℕ, diskSize = (n : ℤ) * diskBlockSize := by
    refine ⟨(diskSize / diskBlockSize).toNat, ?_⟩
    unfold diskBlockSize at hs ⊢
    omega
  have hcount : (diskSize / diskBlockSize).toNat = n := by
    rw [hn, Int.mul_ediv_cancel _ (by decide), Int.toNat_natCast]
  have hbytes : diskSize.toNat = n * diskBlockSize := by
    rw [hn]
    exact_mod_cast Int.toNat_natCast (n * diskBlockSize)
  have hroom : 0 < n ∨ reads = [] := by
    rcases reads with _ | ⟨b, reads⟩
    · exact Or.inr rfl
    · left
      have hb := List.length_pos_iff.2 (hreads b List.mem_cons_self).1
      rw [List.flatten_cons, List.length_append] at hlen
      by_contra hzero
      obtain rfl : n = 0 := by omega
      rw [hn] at hlen
      push_cast at hlen
      omega
  obtain ⟨r', d₁, hrun', hst, hsize, hview⟩ := vmDiskImportRaw_ok hE hd hn hreads hroom
  obtain rfl : d' = d₁ := by
    rw [hrun] at hrun'
    cases hrun'
    rfl
  have hpos : 0 ≤ diskSize := by omega
  have hT : vmDiskSize d' = max diskSize (vmDiskSize d) := by
    rw [vmDiskSize, hsize, Option.getD_some, Disk.target_eq_max hpos]
  have hTpos : 0 ≤ vmDiskSize d' := by omega
  -- The blocks behind the size that is given are those that were there.
  have hold : ∀ id, n ≤ id → (d'.blocks.get? id = none ↔ d.blocks.get? id = none) := by
    intro id hid
    rw [← hst.view_eq_zero_iff, ← hd.view_eq_zero_iff, hview, if_neg (by omega)]
  have hbeyond : d.Within diskSize ↔ ∀ id, n ≤ id → d'.blocks.get? id = none := by
    rw [hn]
    constructor
    · intro h id hid
      rw [hold id hid]
      by_contra hsome
      have := h id hsome
      unfold diskBlockSize at this
      push_cast at this
      omega
    · intro h id hid
      have hlt : id < n := by
        by_contra hge
        exact hid ((hold id (by omega)).1 (h id (by omega)))
      unfold diskBlockSize
      push_cast
      omega
  have hpadded := image_reads reads hreads n
  have himage :
    image n (d'.view E) = image n (fun i => ((reads[i]?).map padBlock).getD zeroBlock) :=
    image_congr fun i hi => by rw [hview, if_pos hi]
  -- For a disk without blocks behind its size, the two conditions that are left are one.
  have hkey : d'.Within (vmDiskSize d') → ∀ file blocks nonzero,
      vmDiskExportRaw E d' = .ok (file, blocks, nonzero) → (file.length : ℤ) = vmDiskSize d' ∧
        (file = reads.flatten ++ List.replicate (file.length - reads.flatten.length) 0 ↔
          d.Within diskSize ∧ extendTo 0 ((reads.take n).flatMap padBlock) (n * diskBlockSize) =
            extendTo 0 reads.flatten (n * diskBlockSize)) := by
    intro hin file blocks nonzero hex
    obtain ⟨m, hm, hids, hfile⟩ := export_of_within hst hTpos hin
    have hnm : n ≤ m := by
      unfold diskBlockSize at hm hn
      omega
    obtain rfl := hfile file blocks nonzero hex
    have hlenm : (image m (d'.view E)).length = m * diskBlockSize :=
      length_image fun i _ => hst.length_view i
    have htake : (image m (d'.view E)).take (n * diskBlockSize) = image n (d'.view E) := by
      rw [← flatMap_range_chunkAt]
      exact image_congr fun i hi => chunkAt_image (fun i _ => hst.length_view i) (by omega)
    refine ⟨by rw [hlenm]; omega, ?_⟩
    have hroom' : reads.flatten.length ≤ n * diskBlockSize := by omega
    have hsplit := eq_extendTo_iff (z := 0) diskBlockSize_pos hlenm hroom' hnm
    rw [htake, himage, hpadded] at hsplit
    refine Iff.trans hsplit (and_comm.trans (and_congr_left' ?_))
    rw [hbeyond]
    refine ⟨fun h id hid => ?_, fun h i hi him => ?_⟩
    · rcases Nat.lt_or_ge id m with hlt | hge
      · have hz := h id hid hlt
        rw [chunkAt_image (fun i _ => hst.length_view i) hlt] at hz
        exact hst.view_eq_zero_iff.1 hz
      · by_contra hsome
        exact absurd (hids id hsome) (by omega)
    · rw [chunkAt_image (fun i _ => hst.length_view i) him]
      exact hst.view_eq_zero_iff.2 (h i hi)
  constructor
  · rintro ⟨file, blocks, nonzero, hex, hflen, hfile⟩
    have hlimit := (not_huge_of_export hex).2
    have hmax : vmDiskSize d' ≤ 10000000 * diskBlockSize := by
      have hal : vmDiskSize d' % diskBlockSize = 0 := by
        rw [vmDiskSize, hsize]
        exact hst.aligned _ hsize
      unfold diskBlockSize at hlimit hal ⊢
      omega
    -- A block behind the size would make the file longer.
    have hin : d'.Within (vmDiskSize d') := by
      intro id hid
      have hge := length_export_ge hst hid
      rw [vmDiskExportRaw_eq hst hTpos hmax] at hex
      have hwritten : writeBlocks 0 diskBlockSize (List.replicate (vmDiskSize d').toNat 0)
          (d'.sorted.map (blockOf E)) = file := congrArg Prod.fst (Except.ok.inj hex)
      rw [hwritten] at hge
      rw [← hflen]
      exact_mod_cast hge
    obtain ⟨hbey, hplace⟩ := (hkey hin file blocks nonzero hex).2.1 hfile
    exact ⟨hT ▸ hmax, hbey, by rw [hcount, hbytes]; exact hplace⟩
  · rintro ⟨hlimit, hbey, hplace⟩
    rw [hcount, hbytes] at hplace
    have hin : d'.Within (vmDiskSize d') := by
      intro id hid
      have hlt : id < n := by
        by_contra hge
        exact hid (hbeyond.1 hbey id (by omega))
      have hle : diskSize ≤ vmDiskSize d' := by omega
      unfold diskBlockSize at hn ⊢
      push_cast
      omega
    have hex := vmDiskExportRaw_eq hst hTpos (by rw [hT]; exact hlimit)
    obtain ⟨hflen, hfile⟩ := hkey hin _ _ _ hex
    exact ⟨_, _, _, hex, hflen, hfile.2 ⟨hbey, hplace⟩⟩

/-- Reads that are full, all but the last, are put where they are in the image. -/
theorem flatMap_padBlock_of_full : ∀ (reads : List Bytes), IsReads reads →
    (∀ b ∈ reads.dropLast, b.length = diskBlockSize) → ∀ {n : ℕ}, reads.length ≤ n →
      extendTo 0 (reads.flatMap padBlock) (n * diskBlockSize) = extendTo 0 reads.flatten
      (n * diskBlockSize)
  | [], _, _, _, _ => rfl
  | [b], hreads, _, n, hn => by
    have hlen := (hreads b List.mem_cons_self).2
    have hroom := Nat.mul_le_mul_right diskBlockSize hn
    have hflat : [b].flatMap padBlock = padBlock b := List.flatMap_singleton ..
    have hjoin : [b].flatten = b := by simp
    rw [List.length_singleton, Nat.one_mul] at hroom
    rw [hflat, hjoin, padBlock, extendTo, extendTo, extendTo, List.length_append,
      List.length_replicate,
      List.append_assoc, List.replicate_append_replicate]
    congr 2
    omega
  | b :: b' :: reads, hreads, hfull, n, hn => by
    obtain ⟨m, rfl⟩ : ∃ m, n = m + 1 := ⟨n - 1, by rw [List.length_cons] at hn; omega⟩
    have hb : b.length = diskBlockSize := hfull b (by simp)
    have ih := flatMap_padBlock_of_full (b' :: reads)
      (fun r hr => hreads r (List.mem_cons_of_mem b hr))
      (fun r hr => hfull r (by rw [List.dropLast_cons_cons]; exact List.mem_cons_of_mem b hr))
      (show (b' :: reads).length ≤ m by rw [List.length_cons] at hn; omega)
    -- By induction on the reads: a block that is full is its own padding, so only the last may
    -- differ, where zeros follow anyway.
    have hcut : ∀ l : Bytes, (m + 1) * diskBlockSize - (b ++ l).length = m * diskBlockSize -
      l.length := by
      intro l
      rw [List.length_append, hb, Nat.add_mul, Nat.one_mul]
      omega
    rw [List.flatMap_cons, padBlock_of_length hb, List.flatten_cons, extendTo, extendTo, hcut, hcut,
      List.append_assoc, List.append_assoc]
    exact congrArg (b ++ ·) ih

end Exact

/-- A disk that an import has filled holds the image exactly when the import fits: an export then
writes the image and zeros, of the size of the disk. In every run whose steps leave out no stored
block, none is behind the size, and an export has this size. -/
theorem diskImage_exact_iff {K : Type} {E : Ext K} (hE : E.Lawful) :
    (∀ d, Disk.Runs E (fun _ _ => True) d → ∀ (reads : List Bytes) (diskSize : ℤ), IsReads reads →
      diskSize % diskBlockSize = 0 → (reads.flatten.length : ℤ) ≤ diskSize → ∀ r d',
        vmDiskImportRaw E (reads.map some) diskSize d = .ok r d' →
          (d'.Exports E reads.flatten ↔ d.Fits reads diskSize)) ∧
    ∀ d, Disk.Runs E DiskOp.Steady d → d.Within (vmDiskSize d) ∧
      ∀ file blocks nonzero, vmDiskExportRaw E d = .ok (file, blocks, nonzero) →
        (file.length : ℤ) = vmDiskSize d := by
  refine ⟨fun d hd reads diskSize hreads hs hlen r d' hrun => ?_, fun d hd => ?_⟩
  · exact exports_iff hE (stored_of_runs hE hd) hreads hs hlen hrun
  · have hin := within_of_runs hd
    refine ⟨hin, fun file blocks nonzero hex => ?_⟩
    have hst := stored_of_runs hE hd
    have hpos := (not_huge_of_export hex).1
    obtain ⟨n, hn, -, hfile⟩ := export_of_within hst hpos hin
    rw [hfile file blocks nonzero hex, length_image fun i _ => hst.length_view i]
    omega

/-- A database without a disk. -/
def noDisk : Disk := ⟨none, Table.empty⟩

/-- A database without a disk has no block. -/
theorem stored_noDisk :
    noDisk.Stored plainExt := stored_of_runs (C := fun _ _ => True) plainExt_lawful .start

/-- The reads of an image of two blocks. -/
def twoReads (x y : UInt8) : List Bytes := [x :: List.replicate 4095 0, [y]]

/-- The first one is full, the last one need not be. -/
theorem isReads_twoReads (x y : UInt8) : IsReads (twoReads x y) ∧
    ∀ b ∈ (twoReads x y).dropLast, b.length = diskBlockSize := by
  have hlen : (x :: List.replicate 4095 (0 : UInt8)).length = diskBlockSize := by
    rw [List.length_cons, List.length_replicate]
    rfl
  refine ⟨fun b hb => ?_, fun b hb => ?_⟩
  · rcases List.mem_cons.1 hb with rfl | hb
    · exact ⟨List.cons_ne_nil _ _, hlen.le⟩
    · rw [List.mem_singleton.1 hb]
      exact ⟨List.cons_ne_nil _ _, by rw [List.length_singleton]; decide⟩
  · rw [show (twoReads x y).dropLast = [x :: List.replicate 4095 0] from rfl] at hb
    rw [List.mem_singleton.1 hb, hlen]

/-- A disk of two blocks that are not zero. -/
theorem exists_twoBlocks :
    ∃ d, Disk.Runs plainExt (fun _ _ => True) d ∧ d.blocks.get? 1 ≠ none ∧ vmDiskSize d = 8192 ∧
    d.Within 8192 := by
  have hreads := (isReads_twoReads 1 2).1
  have hsize : (8192 : ℤ) = (2 : ℕ) * diskBlockSize := by decide
  -- An import of two blocks into a database without a disk.
  obtain ⟨r, d, hrun, hst, hkept, hview⟩ :=
    vmDiskImportRaw_ok plainExt_lawful stored_noDisk hsize hreads (Or.inl two_pos)
  refine ⟨d, ?_, fun hnone => ?_, ?_, fun id hid => ?_⟩
  · have hsome : ∀ b : Bytes, some b ∈ (twoReads 1 2).map some → b.length ≤ diskBlockSize := by
      intro b hb
      obtain ⟨b', hb', he⟩ := List.mem_map.1 hb
      exact Option.some.inj he ▸ (hreads _ hb').2
    have hstart : Disk.Runs plainExt (fun _ _ => True) noDisk := .start
    have hstep := hstart.step (.importRaw _ hsome 8192) trivial
    rw [DiskOp.endState_importRaw, endState_of_ok hrun] at hstep
    exact hstep
  · have hone := hview 1
    rw [Disk.view_of_none hnone, if_pos (by omega)] at hone
    have hhead := congrArg List.head? hone
    cases hhead
  · rw [vmDiskSize, hkept]
    decide
  · -- The blocks behind the image are those of no disk.
    by_contra hlt
    have hid' : ¬ id < 2 := by
      unfold diskBlockSize at hlt
      omega
    have hid'' := hview id
    rw [if_neg hid',
      Disk.view_of_none (show noDisk.blocks.get? id = none from Table.get?_empty id)] at hid''
    exact hid (hst.view_eq_zero_iff.1 hid'')

/-- An image of two blocks is exact on a disk that holds another one of its size. -/
theorem diskImage_exact_iff_twoBlocks : ∃ d d' : Disk, d.blocks.get? 1 ≠ none ∧
    (∃ r, vmDiskImportRaw plainExt ((twoReads 3 4).map some) 8192 d = .ok r d') ∧
      d'.Exports plainExt (twoReads 3 4).flatten := by
  obtain ⟨d, hruns, hone, hkept, hin⟩ := exists_twoBlocks
  obtain ⟨hreads, hfull⟩ := isReads_twoReads 3 4
  have hsize : (8192 : ℤ) = (2 : ℕ) * diskBlockSize := by decide
  have hlen : ((twoReads 3 4).flatten.length : ℤ) ≤ 8192 := by
    rw [show (twoReads 3 4).flatten = (3 :: List.replicate 4095 0) ++ ([4] ++ []) from rfl,
      List.length_append,
      List.length_cons, List.length_replicate]
    decide
  obtain ⟨r, d', hrun, -⟩ :=
    vmDiskImportRaw_ok plainExt_lawful (stored_of_runs plainExt_lawful hruns) hsize hreads
    (Or.inl two_pos)
  refine ⟨d, d', hone, ⟨r, hrun⟩,
    ((diskImage_exact_iff plainExt_lawful).1 d hruns (twoReads 3 4) 8192 hreads (by decide)
    hlen r d' hrun).2 ⟨?_, hin, ?_⟩⟩
  · rw [hkept]
    decide
  · have hblocks : ((8192 : ℤ) / diskBlockSize).toNat = 2 := by decide
    have hbytes : (8192 : ℤ).toNat = 2 * diskBlockSize := by decide
    rw [hblocks, hbytes]
    exact flatMap_padBlock_of_full (twoReads 3 4) hreads hfull (le_refl 2)

/-- A smaller image leaves a block of the one before it behind its own end, a read that is short
moves what follows it, and a disk that shrinks keeps its blocks. -/
theorem not_diskImage_exact :
    (∃ d reads diskSize r d', Disk.Runs plainExt (fun _ _ => True) d ∧ IsReads reads ∧
      diskSize % diskBlockSize = 0 ∧
      (reads.flatten.length : ℤ) ≤ diskSize ∧
        vmDiskImportRaw plainExt (reads.map some) diskSize d = .ok r d' ∧
        ¬ d'.Exports plainExt reads.flatten) ∧
    (∃ reads diskSize r d', IsReads reads ∧ diskSize % diskBlockSize = 0 ∧
      (reads.flatten.length : ℤ) ≤ diskSize ∧
      vmDiskImportRaw plainExt (reads.map some) diskSize noDisk = .ok r d' ∧
      ¬ d'.Exports plainExt reads.flatten) ∧
    ∃ d, Disk.Runs plainExt (fun _ _ => True) d ∧ ¬ d.Within (vmDiskSize d) := by
  obtain ⟨d, hruns, hone, -⟩ := exists_twoBlocks
  have hst : d.Stored plainExt := stored_of_runs plainExt_lawful hruns
  have hsize : (4096 : ℤ) = (1 : ℕ) * diskBlockSize := by decide
  have hbehind : ∀ size : ℤ, size ≤ 4096 → ¬ d.Within size := by
    intro size hle hin
    have hroom := hin 1 hone
    unfold diskBlockSize at hroom
    omega
  refine ⟨?_, ?_, endState ((DiskOp.init 0).run plainExt) d, hruns.step (.init 0) trivial, ?_⟩
  · have hreads : IsReads [[3]] := by
      unfold IsReads
      decide
    obtain ⟨r, d', hrun, -⟩ := vmDiskImportRaw_ok plainExt_lawful hst hsize hreads (Or.inl one_pos)
    refine ⟨d, [[3]], 4096, r, d', hruns, hreads, by decide, by decide, hrun, fun hex => ?_⟩
    have hfits := (exports_iff plainExt_lawful hst hreads (by decide) (by decide) hrun).1 hex
    exact hbehind 4096 le_rfl hfits.beyond
  · have hreads : IsReads [[1], [2]] := by
      unfold IsReads
      decide
    obtain ⟨r, d', hrun, -⟩ :=
      vmDiskImportRaw_ok plainExt_lawful stored_noDisk hsize hreads (Or.inl one_pos)
    refine ⟨[[1], [2]], 4096, r, d', hreads, by decide, by decide, hrun, fun hex => ?_⟩
    have hfits :=
      (exports_iff plainExt_lawful stored_noDisk hreads (by decide) (by decide) hrun).1 hex
    -- The second byte of the image is not the second byte of the first block.
    have hblocks : ((4096 : ℤ) / diskBlockSize).toNat = 1 := by decide
    have hpadded : ([[(1 : UInt8)], [2]].take 1).flatMap padBlock = [1] ++ List.replicate 4095 0 :=
      List.flatMap_singleton ..
    have hplace := hfits.inPlace
    rw [hblocks, hpadded,
      extendTo_of_le 0 (by rw [List.length_append, List.length_replicate]; decide)] at hplace
    have hsecond := congrArg (fun l : Bytes => l[1]?) hplace
    have hzero : ([1] ++ List.replicate 4095 0 : Bytes)[1]? = some 0 := by
      rw [List.getElem?_append_right (by decide)]
      exact List.getElem?_replicate_of_lt (by decide)
    have htwo : (extendTo 0 [[1], [2]].flatten (4096 : ℤ).toNat : Bytes)[1]? = some 2 :=
      List.getElem?_append_left (by decide)
    rw [hzero, htwo] at hsecond
    cases hsecond
  · rw [DiskOp.endState_init, if_neg (by decide)]
    exact hbehind 0 (by decide)

end Dbvm
