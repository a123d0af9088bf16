import Mathlib.Data.List.Basic
import Mathlib.Data.List.MinMax
import Mathlib.Tactic.Basic
import Dbvm.Lib.Table

/-!
# The block codec

The encoding of a block and its decoding (`src/vm/codec.rs`). The hash function and the zstd and
gzip libraries are not part of the repository: `Ext` holds them as functions, and `Ext.Lawful` is
what the code relies on, that decompression undoes compression and that a compressed frame records
the length of its content.

The encoder stores a block raw when no compression pays (`Incompressible`). The decoder does not
trust the flag of a raw block: it looks for the magic numbers of zstd and gzip and returns what the
libraries make of the bytes (`decompressBytesRaw_raw`).
-/

namespace Dbvm

open Lib

/-- A string of bytes. -/
abbrev Bytes := List UInt8

/-- The functions the program takes from libraries. `K` is the type of the content keys. -/
structure Ext (K : Type) where
  /-- SHA-256 (`blob_key`). -/
  blobKey : Bytes → K
  /-- `zstd::bulk::compress` at a level. -/
  zstdCompress : ℕ → Bytes → Option Bytes
  /-- `Compressor::with_dictionary` at a level, then `compress`. -/
  zstdCompressDict : ℕ → Bytes → Bytes → Option Bytes
  /-- `get_frame_content_size`: `none` is an error, `some none` a frame without the size. -/
  zstdFrameContentSize : Bytes → Option (Option ℕ)
  /-- `zstd::bulk::decompress` into a buffer of the given length. -/
  zstdDecompress : Bytes → ℕ → Option Bytes
  /-- `Decompressor::with_dictionary`, then `decompress` into a buffer of the given length. -/
  zstdDecompressDict : Bytes → Bytes → ℕ → Option Bytes
  /-- `GzDecoder::read_to_end`. -/
  gunzip : Bytes → Option Bytes

variable {K : Type}

/-- What the code relies on from the zstd library. -/
structure Ext.Lawful (E : Ext K) : Prop where
  /-- A compressed frame records the length of its content, and decompression undoes it. -/
  zstd : ∀ {level data c}, E.zstdCompress level data = some c →
    E.zstdFrameContentSize c = some (some data.length) ∧
      E.zstdDecompress c data.length = some data
  /-- The same with a dictionary. -/
  zstdDict : ∀ {level dict data c}, E.zstdCompressDict level dict data = some c →
    E.zstdFrameContentSize c = some (some data.length) ∧
      E.zstdDecompressDict dict c data.length = some data

/-- Why a block cannot be decoded. -/
inductive CodecErr where
  /-- "not a zstd frame". -/
  | notZstd
  /-- "zstd frame has no content size; refusing to guess". -/
  | noContentSize
  /-- The zstd library failed. -/
  | zstd
  /-- "zstd short read". -/
  | shortRead
  /-- The gzip library failed. -/
  | gzip
  /-- "dictionary-compressed block needs decode_block (dict_id)". -/
  | needsDict
  /-- "missing dictionary (block written with it cannot be read)". -/
  | missingDict (id : ℕ)
  deriving DecidableEq

/-! ## Encoding -/

/-- How hard a write tries to compress. -/
inductive Effort where
  /-- Imports and packs, written once. -/
  | archive
  /-- Writes through a mount. -/
  | interactive
  deriving DecidableEq

/-- A stored block: its bytes, the flag of its encoding (0 raw, 1 gzip, 2 zstd, 3 zstd with a
dictionary) and the dictionary it was written with. -/
structure Enc where
  /-- The stored bytes. -/
  body : Bytes
  /-- The column `compressed`. -/
  flag : ℕ
  /-- The column `dict_id`, not zero only for flag 3. -/
  dictId : ℕ
  deriving DecidableEq

/-- The dictionary with the highest id (`latest_dict`). -/
def latestDict (dicts : Table ℕ Bytes) : Option (ℕ × Bytes) := dicts.rows.argmax Prod.fst

/-- A dictionary shorter than 512 bytes is not used. -/
def usableDict (dict : Option (ℕ × Bytes)) : Option (ℕ × Bytes) :=
  dict.filter fun d => 512 ≤ d.2.length

/-- The level of the first compression. -/
def compressLevel (data : Bytes) : Effort → ℕ
  | .interactive => 3
  | .archive => if data.length > 100 * 1024 then 19 else if data.length > 16 * 1024 then 6 else 3

/-- Compression with the dictionary, kept when it saves more than 32 bytes. -/
def dictCandidate (E : Ext K) (data : Bytes) (dict : Option (ℕ × Bytes)) (level : ℕ) :
    Option Enc := do
  let (id, d) ← dict
  let c ← E.zstdCompressDict level d data
  if c.length + 32 < data.length then some ⟨c, 3, id⟩ else none

/-- Compression without a dictionary, kept when it saves more than 64 bytes. -/
def plainCandidate (data : Bytes) (c : Option Bytes) : Option Enc := do
  let c ← c
  if c.length + 64 < data.length then some ⟨c, 2, 0⟩ else none

/-- Compression with the dictionary, tried on blocks below 16 KiB. -/
def smallCandidate (E : Ext K) (data : Bytes) (dict : Option (ℕ × Bytes)) (level : ℕ) :
    Option Enc :=
  if data.length < 16384 then dictCandidate E data dict level else none

/-- The shorter of the best encoding so far and a new one; the one so far when they are equal. -/
def shorter (best new : Option Enc) : Option Enc :=
  match best, new with
  | none, n => n
  | some b, none => some b
  | some b, some n => if n.body.length < b.body.length then some n else some b

/-- The smallest encoding of a block, `none` for raw (`compress_with_effort`). -/
def compressWithEffort (E : Ext K) (data : Bytes) (dict : Option (ℕ × Bytes)) (effort : Effort) :
    Option Enc :=
  let dict := usableDict dict
  -- Below 512 bytes only a dictionary can help: the source tests for 1024 inside this branch.
  if data.length < 512 then dictCandidate E data dict 3
  else
    let level := compressLevel data effort
    let best := smallCandidate E data dict level
    let plain := (E.zstdCompress level data).or (E.zstdCompress 3 data)
    let best := shorter best (plainCandidate data plain)
    if data.length > 16384 ∧ effort = .archive then
      shorter best (plainCandidate data (E.zstdCompress 19 data))
    else best

/-- The block that is stored for `data`: the smallest encoding, or the bytes as they are. -/
def encodeBlock (E : Ext K) (dicts : Table ℕ Bytes) (data : Bytes) (effort : Effort) : Enc :=
  (compressWithEffort E data (latestDict dicts) effort).getD ⟨data, 0, 0⟩

/-! ## Decoding -/

/-- The length of the content from the frame header. -/
def zstdFrameSize (E : Ext K) (data : Bytes) : Except CodecErr ℕ :=
  match E.zstdFrameContentSize data with
  | some (some n) => .ok n
  | some none => .error .noContentSize
  | none => .error .notZstd

/-- The output of a decompression into a buffer of `n` bytes, which must fill it. -/
def checkLength (n : ℕ) : Option Bytes → Except CodecErr Bytes
  | some out => if out.length = n then .ok out else .error .shortRead
  | none => .error .zstd

/-- Decode a zstd frame. -/
def decompressBytesZstd (E : Ext K) (data : Bytes) : Except CodecErr Bytes := do
  let n ← zstdFrameSize E data
  checkLength n (E.zstdDecompress data n)

/-- Decode a zstd frame written with a dictionary. -/
def decompressBytesZstdWithDict (E : Ext K) (data dict : Bytes) : Except CodecErr Bytes := do
  let n ← zstdFrameSize E data
  checkLength n (E.zstdDecompressDict dict data n)

/-- Whether the bytes begin with zstd's magic number. -/
def hasZstdMagic (data : Bytes) : Bool := [0x28, 0xb5, 0x2f, 0xfd].isPrefixOf data

/-- Whether the bytes begin with gzip's magic number. -/
def hasGzipMagic (data : Bytes) : Bool := [0x1f, 0x8b].isPrefixOf data

/-- What a raw block is taken for: a zstd frame or a gzip stream, if it begins like one and
decodes. -/
def autoDetect (E : Ext K) (data : Bytes) : Option Bytes :=
  (if hasZstdMagic data then (decompressBytesZstd E data).toOption else none).or
    (if hasGzipMagic data then E.gunzip data else none)

/-- Decode without a database (`decompress_bytes_raw`). -/
def decompressBytesRaw (E : Ext K) (data : Bytes) (compressed : ℕ) : Except CodecErr Bytes :=
  if compressed = 3 then .error .needsDict
  else if compressed = 2 then decompressBytesZstd E data
  else if compressed = 1 then
    match E.gunzip data with
    | some out => .ok out
    | none => .error .gzip
  else .ok ((autoDetect E data).getD data)

/-- Decode a stored block with the dictionaries of the schema that holds it (`decode_block_in`; with
the dictionaries of the main schema, `decode_block`). -/
def decodeBlock (E : Ext K) (dicts : Table ℕ Bytes) (b : Enc) : Except CodecErr Bytes :=
  if b.flag = 3 then
    match dicts.get? b.dictId with
    | some d => decompressBytesZstdWithDict E b.body d
    | none => .error (.missingDict b.dictId)
  else decompressBytesRaw E b.body b.flag

/-! ## What the encoder stores -/

/-- No dictionary compression of `data` at a level saves more than 32 bytes. -/
def NoDictGain (E : Ext K) (data : Bytes) (dict : Option (ℕ × Bytes)) (level : ℕ) : Prop :=
  ∀ id d c, usableDict dict = some (id, d) → E.zstdCompressDict level d data = some c →
    data.length ≤ c.length + 32

/-- No compression `c` of `data` saves more than 64 bytes. -/
def NoPlainGain (data : Bytes) (c : Option Bytes) : Prop :=
  ∀ b, c = some b → data.length ≤ b.length + 64

/-- No compression the encoder tries makes `data` short enough to be kept. -/
def Incompressible (E : Ext K) (data : Bytes) (dict : Option (ℕ × Bytes)) (effort : Effort) :
    Prop :=
  if data.length < 512 then NoDictGain E data dict 3
  else
    (data.length < 16384 → NoDictGain E data dict (compressLevel data effort)) ∧
    NoPlainGain data ((E.zstdCompress (compressLevel data effort) data).or
      (E.zstdCompress 3 data)) ∧
    (data.length > 16384 → effort = .archive → NoPlainGain data (E.zstdCompress 19 data))

/-- The dictionary's encoding is a candidate when it gains more than 32 bytes. -/
theorem dictCandidate_eq_some {E : Ext K} {data : Bytes} {dict : Option (ℕ × Bytes)} {level : ℕ}
    {e : Enc} : dictCandidate E data dict level = some e ↔
      ∃ id d, dict = some (id, d) ∧ E.zstdCompressDict level d data = some e.body ∧
        e.body.length + 32 < data.length ∧ e.flag = 3 ∧ e.dictId = id := by
  unfold dictCandidate
  rcases dict with _ | ⟨id, d⟩
  · simp
  rcases hc : E.zstdCompressDict level d data with _ | c
  · simp [hc]
  · obtain ⟨body, flag, dictId⟩ := e
    simp only [Option.bind_eq_bind, Option.bind_some, hc, Option.some.injEq, Prod.mk.injEq]
    split_ifs with h
    · simp only [Option.some.injEq, Enc.mk.injEq]
      constructor
      · rintro ⟨rfl, rfl, rfl⟩
        exact ⟨id, d, ⟨rfl, rfl⟩, hc, h, rfl, rfl⟩
      · rintro ⟨_, _, ⟨rfl, rfl⟩, hb, -, rfl, rfl⟩
        rw [hc] at hb
        exact ⟨Option.some.inj hb, rfl, rfl⟩
    · simp only [false_iff]
      rintro ⟨_, _, ⟨rfl, rfl⟩, hb, hlt, -⟩
      rw [hc] at hb
      cases hb
      exact h hlt

/-- The encoding without a dictionary is a candidate when it gains more than 64 bytes. -/
theorem plainCandidate_eq_some {data : Bytes} {c : Option Bytes} {e : Enc} :
    plainCandidate data c = some e ↔
      c = some e.body ∧ e.body.length + 64 < data.length ∧ e.flag = 2 ∧ e.dictId = 0 := by
  unfold plainCandidate
  rcases c with _ | c
  · simp
  · obtain ⟨body, flag, dictId⟩ := e
    simp only [Option.bind_eq_bind, Option.bind_some, Option.some.injEq]
    split_ifs with h
    · simp only [Option.some.injEq, Enc.mk.injEq]
      constructor
      · rintro ⟨rfl, rfl, rfl⟩
        exact ⟨rfl, h, rfl, rfl⟩
      · rintro ⟨rfl, -, rfl, rfl⟩
        exact ⟨rfl, rfl, rfl⟩
    · simp only [false_iff]
      rintro ⟨rfl, hlt, -⟩
      exact h hlt

/-- There is no candidate iff the dictionary gains too little. -/
theorem dictCandidate_eq_none {E : Ext K} {data : Bytes} {dict : Option (ℕ × Bytes)} {level : ℕ} :
    dictCandidate E data (usableDict dict) level = none ↔ NoDictGain E data dict level := by
  rw [Option.eq_none_iff_forall_ne_some]
  constructor
  · intro h id d c hd hc
    by_contra hlt
    exact h ⟨c, 3, id⟩ (dictCandidate_eq_some.2 ⟨id, d, hd, hc, by simpa using hlt, rfl, rfl⟩)
  · intro h e he
    obtain ⟨id, d, hd, hc, hlt, -⟩ := dictCandidate_eq_some.1 he
    have := h id d e.body hd hc
    omega

/-- The second level is tried below 16 KiB only. -/
theorem smallCandidate_eq_none {E : Ext K} {data : Bytes} {dict : Option (ℕ × Bytes)} {level : ℕ} :
    smallCandidate E data (usableDict dict) level = none ↔
      (data.length < 16384 → NoDictGain E data dict level) := by
  unfold smallCandidate
  split_ifs with h
  · simp [h, dictCandidate_eq_none]
  · simp [h]

/-- There is no candidate iff the encoding gains too little. -/
theorem plainCandidate_eq_none {data : Bytes} {c : Option Bytes} :
    plainCandidate data c = none ↔ NoPlainGain data c := by
  rw [Option.eq_none_iff_forall_ne_some]
  constructor
  · intro h b hb
    by_contra hlt
    exact h ⟨b, 2, 0⟩ (plainCandidate_eq_some.2 ⟨hb, by simpa using hlt, rfl, rfl⟩)
  · intro h e he
    obtain ⟨hc, hlt, -⟩ := plainCandidate_eq_some.1 he
    have := h e.body hc
    omega

/-- There is no shorter one iff there is none. -/
theorem shorter_eq_none {a b : Option Enc} : shorter a b = none ↔ a = none ∧ b = none := by
  rcases a with _ | a <;> rcases b with _ | b
  · simp [shorter]
  · simp [shorter]
  · simp [shorter]
  · simp only [shorter, reduceCtorEq, and_self, iff_false]
    split_ifs <;> simp

/-- The kept encoding is one of the two compared. -/
theorem shorter_eq_some {a b : Option Enc} {e : Enc} (h : shorter a b = some e) :
    a = some e ∨ b = some e := by
  rcases a with _ | a
  · exact Or.inr h
  rcases b with _ | b
  · exact Or.inl h
  · simp only [shorter] at h
    split_ifs at h
    · exact Or.inr h
    · exact Or.inl h

/-- The encoder stores raw exactly the incompressible data. -/
theorem compressWithEffort_eq_none {E : Ext K} {data : Bytes} {dict : Option (ℕ × Bytes)}
    {effort : Effort} :
    compressWithEffort E data dict effort = none ↔ Incompressible E data dict effort := by
  unfold compressWithEffort Incompressible
  dsimp only
  split_ifs with h1 h2
  · exact dictCandidate_eq_none
  · simp only [shorter_eq_none, smallCandidate_eq_none, plainCandidate_eq_none]
    tauto
  · simp only [shorter_eq_none, smallCandidate_eq_none, plainCandidate_eq_none]
    tauto

/-- A kept encoding is a zstd frame of the data, with the dictionary it was given or without. -/
theorem compressWithEffort_eq_some {E : Ext K} {data : Bytes} {dict : Option (ℕ × Bytes)}
    {effort : Effort} {e : Enc} (h : compressWithEffort E data dict effort = some e) :
    (∃ level d, dict = some (e.dictId, d) ∧ E.zstdCompressDict level d data = some e.body ∧
        e.flag = 3) ∨
      (∃ level, E.zstdCompress level data = some e.body ∧ e.flag = 2) := by
  -- Whatever level wins, the winner is a candidate with the dictionary or one without it.
  have hdict : ∀ level, dictCandidate E data (usableDict dict) level = some e →
      ∃ level d, dict = some (e.dictId, d) ∧ E.zstdCompressDict level d data = some e.body ∧
        e.flag = 3 := by
    intro level hc
    obtain ⟨id, d, hd, hc, -, hf, hid⟩ := dictCandidate_eq_some.1 hc
    refine ⟨level, d, ?_, hc, hf⟩
    rw [hid]
    exact (Option.filter_eq_some_iff.1 hd).1
  have hplain : ∀ level, plainCandidate data ((E.zstdCompress level data).or
      (E.zstdCompress 3 data)) = some e → ∃ level, E.zstdCompress level data = some e.body ∧
        e.flag = 2 := by
    intro level hc
    obtain ⟨hc, -, hf, -⟩ := plainCandidate_eq_some.1 hc
    rcases hl : E.zstdCompress level data with _ | c
    · rw [hl, Option.none_or] at hc
      exact ⟨3, hc, hf⟩
    · rw [hl, Option.some_or] at hc
      exact ⟨level, by rw [hl, hc], hf⟩
  have hplain19 : plainCandidate data (E.zstdCompress 19 data) = some e →
      ∃ level, E.zstdCompress level data = some e.body ∧ e.flag = 2 := by
    intro hc
    obtain ⟨hc, -, hf, -⟩ := plainCandidate_eq_some.1 hc
    exact ⟨19, hc, hf⟩
  have hbest : shorter (smallCandidate E data (usableDict dict) (compressLevel data effort))
      (plainCandidate data ((E.zstdCompress (compressLevel data effort) data).or
        (E.zstdCompress 3 data))) = some e →
      (∃ level d, dict = some (e.dictId, d) ∧ E.zstdCompressDict level d data = some e.body ∧
        e.flag = 3) ∨ (∃ level, E.zstdCompress level data = some e.body ∧ e.flag = 2) := by
    intro hs
    rcases shorter_eq_some hs with hs | hs
    · unfold smallCandidate at hs
      split_ifs at hs
      exact Or.inl (hdict _ hs)
    · exact Or.inr (hplain _ hs)
  unfold compressWithEffort at h
  dsimp only at h
  split_ifs at h with h1 h2
  · exact Or.inl (hdict 3 h)
  · rcases shorter_eq_some h with h | h
    · exact hbest h
    · exact Or.inr (hplain19 h)
  · exact hbest h

/-! ## Decoding what the encoder stores -/

/-- The latest dictionary is one of the table. -/
theorem latestDict_get? {dicts : Table ℕ Bytes} {id : ℕ} {d : Bytes}
    (h : latestDict dicts = some (id, d)) : dicts.get? id = some d :=
  Table.get?_eq_some_iff.2 (List.argmax_mem h)

/-- A zstd frame of the data decodes to the data. -/
theorem decompressBytesZstd_of_compress {E : Ext K} (hE : E.Lawful) {level : ℕ} {data c : Bytes}
    (h : E.zstdCompress level data = some c) : decompressBytesZstd E c = .ok data := by
  obtain ⟨hn, hd⟩ := hE.zstd h
  simp [decompressBytesZstd, zstdFrameSize, hn, hd, checkLength, bind, Except.bind]

/-- What a dictionary compresses it decompresses. -/
theorem decompressBytesZstdWithDict_of_compress {E : Ext K} (hE : E.Lawful) {level : ℕ}
    {dict data c : Bytes} (h : E.zstdCompressDict level dict data = some c) :
    decompressBytesZstdWithDict E c dict = .ok data := by
  obtain ⟨hn, hd⟩ := hE.zstdDict h
  simp [decompressBytesZstdWithDict, zstdFrameSize, hn, hd, checkLength, bind, Except.bind]

/-- Data whose first bytes make the decoder take it for a compressed stream of other data. -/
def Misread (E : Ext K) (data : Bytes) : Prop := ∃ out, autoDetect E data = some out ∧ out ≠ data

/-- A raw block decodes to itself unless it is taken for a compressed stream of other data. -/
theorem decompressBytesRaw_raw {E : Ext K} {data : Bytes} :
    decompressBytesRaw E data 0 = .ok data ↔ ¬ Misread E data := by
  rw [decompressBytesRaw, if_neg (by decide), if_neg (by decide), if_neg (by decide), Misread]
  rcases autoDetect E data with _ | out
  · simp
  · simp

/-- The block stored for `data` decodes to `data` exactly when `data` is compressed or is not taken
for a compressed stream of other data. -/
theorem decodeBlock_encodeBlock {E : Ext K} (hE : E.Lawful) (dicts : Table ℕ Bytes) (data : Bytes)
    (effort : Effort) :
    decodeBlock E dicts (encodeBlock E dicts data effort) = .ok data ↔
      (Incompressible E data (latestDict dicts) effort → ¬ Misread E data) := by
  rw [← compressWithEffort_eq_none, encodeBlock]
  rcases h : compressWithEffort E data (latestDict dicts) effort with _ | e
  · have hraw : decodeBlock E dicts ⟨data, 0, 0⟩ = decompressBytesRaw E data 0 := rfl
    rw [Option.getD_none, hraw, decompressBytesRaw_raw]
    exact ⟨fun hm _ => hm, fun hm => hm rfl⟩
  · rw [Option.getD_some]
    refine iff_of_true ?_ fun h0 => by cases h0
    rcases compressWithEffort_eq_some h with ⟨level, d, hd, hc, hf⟩ | ⟨level, hc, hf⟩
    · rw [decodeBlock, if_pos hf, latestDict_get? hd]
      exact decompressBytesZstdWithDict_of_compress hE hc
    · rw [decodeBlock, if_neg (by omega), decompressBytesRaw, if_neg (by omega), if_pos hf]
      exact decompressBytesZstd_of_compress hE hc

end Dbvm
