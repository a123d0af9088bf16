import Mathlib.Algebra.Order.Floor.Div
import Mathlib.Data.Nat.Basic
import Mathlib.Data.List.Basic
import Mathlib.Tactic.Linarith

/-!
# Arrays kept in chunks

A file is a list of bytes; a chunked store keeps it as slices of `cs` bytes, the last of them
possibly shorter. This module has the plain operations on the list (`writeAt`, `resize`, `slice`),
the chunks of a list (`chunkAt`, `numChunks`), and how the two meet: what a write or a resize does
to chunk `i` (`chunkAt_writeAt`, `chunkAt_resize`), and that the chunks of a list, and of a window
of it, give the list back (`flatMap_chunkAt`, `flatMap_window`).
The proofs compare lists entry by entry.
-/

namespace Lib.Chunks

variable {α : Type}

/-! ## Plain arrays -/

/-- The `len` entries from `off` on, as far as they exist. -/
def slice (b : List α) (off len : ℕ) : List α := (b.drop off).take len

/-- `b`, filled up with `z` to length `n`. -/
def extendTo (z : α) (b : List α) (n : ℕ) : List α := b ++ List.replicate (n - b.length) z

/-- `b` with the entries from `i` on replaced by `src`. -/
def patch (b : List α) (i : ℕ) (src : List α) : List α := b.take i ++ src ++ b.drop (i + src.length)

/-- `data` written at `off`, a gap filled with `z`. Writing nothing changes nothing. -/
def writeAt (z : α) (b : List α) (off : ℕ) (data : List α) : List α :=
  if data = [] then b else patch (extendTo z b (off + data.length)) off data

/-- `b` cut or filled up with `z` to length `n`. -/
def resize (z : α) (b : List α) (n : ℕ) : List α := (extendTo z b n).take n

/-- The bytes of a slice are those of the list, from the offset on. -/
theorem getElem?_slice (b : List α) (off len j : ℕ) :
    (slice b off len)[j]? = if j < len then b[off + j]? else none := by
  rw [slice, List.getElem?_take]
  split_ifs with h
  · rw [List.getElem?_drop]
  · rfl

/-- A slice is cut off at the end of the list. -/
theorem length_slice (b : List α) (off len : ℕ) :
    (slice b off len).length = min len (b.length - off) := by simp [slice]

/-- A window and the window behind it are one window. -/
theorem slice_append_slice (b : List α) (off n n' : ℕ) :
    slice b off n ++ slice b (off + n) n' = slice b off (n + n') := by
  rw [slice, slice, slice, List.take_add, List.drop_drop]

/-- A window of a window is a window. -/
theorem slice_slice (b : List α) (off len i n : ℕ) :
    slice (slice b off len) i n = slice b (off + i) (min n (len - i)) := by
  rw [slice, slice, slice, List.drop_take, List.drop_drop, List.take_take]

/-- An extension never cuts. -/
theorem length_extendTo (z : α) (b : List α) (n : ℕ) :
    (extendTo z b n).length = max b.length n := by
  simp only [extendTo, List.length_append, List.length_replicate]
  omega

/-- What an extension adds is the filler. -/
theorem getElem?_extendTo (z : α) (b : List α) (n j : ℕ) :
    (extendTo z b n)[j]? = if j < b.length then b[j]? else if j < n then some z else none := by
  rw [extendTo, List.getElem?_append]
  split_ifs with h1 h2
  · rfl
  · rw [List.getElem?_replicate, if_pos (by omega)]
  · rw [List.getElem?_replicate, if_neg (by omega)]

/-- A list that is long enough is not extended. -/
theorem extendTo_of_le (z : α) {b : List α} {n : ℕ} (h : n ≤ b.length) : extendTo z b n = b := by
  simp [extendTo, Nat.sub_eq_zero_of_le h]

/-- A patch replaces the bytes it covers and no others. -/
theorem getElem?_patch {b src : List α} {i : ℕ} (hi : i ≤ b.length) (j : ℕ) :
    (patch b i src)[j]? =
      if j < i then b[j]? else if j < i + src.length then src[j - i]? else b[j]? := by
  have hlen : (b.take i).length = i := by simp [hi]
  rw [patch, List.append_assoc, List.getElem?_append, hlen]
  split_ifs with h1 h2
  · rw [List.getElem?_take, if_pos h1]
  · rw [List.getElem?_append, if_pos (by omega)]
  · rw [List.getElem?_append, if_neg (by omega), List.getElem?_drop]
    congr 1
    omega

/-- A patch within the list keeps its length. -/
theorem length_patch {b src : List α} {i : ℕ} (hi : i + src.length ≤ b.length) :
    (patch b i src).length = b.length := by
  simp only [patch, List.length_append, List.length_take, List.length_drop]
  omega

/-- A write reaches at least to its end; an empty one would change nothing. -/
theorem length_writeAt (z : α) (b data : List α) (off : ℕ) (hd : data ≠ []) :
    (writeAt z b off data).length = max b.length (off + data.length) := by
  rw [writeAt, if_neg hd, length_patch (by rw [length_extendTo]; omega), length_extendTo]

/-- A write shows its data where it covers, the old bytes elsewhere, the filler in the gap before
it. -/
theorem getElem?_writeAt (z : α) (b data : List α) (off : ℕ) (hd : data ≠ []) (j : ℕ) :
    (writeAt z b off data)[j]? =
      if off ≤ j ∧ j < off + data.length then data[j - off]?
      else if j < b.length then b[j]? else if j < off then some z else none := by
  rw [writeAt, if_neg hd, getElem?_patch (by rw [length_extendTo]; omega)]
  simp only [getElem?_extendTo]
  split_ifs <;> first | rfl | omega

/-- A resized list has the length asked for. -/
theorem length_resize (z : α) (b : List α) (n : ℕ) : (resize z b n).length = n := by
  rw [resize, List.length_take, length_extendTo]
  omega

/-- A resized list keeps its bytes and is filled behind them. -/
theorem getElem?_resize (z : α) (b : List α) (n j : ℕ) :
    (resize z b n)[j]? =
      if j < n then (if j < b.length then b[j]? else some z) else none := by
  rw [resize, List.getElem?_take]
  split_ifs with h1 h2
  · rw [getElem?_extendTo, if_pos h2]
  · rw [getElem?_extendTo, if_neg h2, if_pos h1]
  · rfl

/-- Filling up is a write of `z` at the end. -/
theorem resize_eq_writeAt (z : α) {b : List α} {n : ℕ} (h : b.length < n) :
    resize z b n = writeAt z b b.length (List.replicate (n - b.length) z) := by
  have hne : List.replicate (n - b.length) z ≠ [] := by
    intro h0
    have := congrArg List.length h0
    simp only [List.length_replicate, List.length_nil] at this
    omega
  apply List.ext_getElem?
  intro j
  rw [getElem?_resize, getElem?_writeAt z _ _ _ hne, List.length_replicate, List.getElem?_replicate]
  split_ifs <;> first | rfl | omega

/-! ## Chunks -/

/-- Chunk `i` of `b`, for chunks of `cs` entries. -/
def chunkAt (cs : ℕ) (b : List α) (i : ℕ) : List α := slice b (i * cs) cs

/-- The number of chunks of an array of `n` entries. -/
def numChunks (cs n : ℕ) : ℕ := (n + cs - 1) / cs

/-- The chunks of `b`, in order. -/
def chunksOf (cs : ℕ) (b : List α) : List (List α) :=
  (List.range (numChunks cs b.length)).map (chunkAt cs b)

variable {cs : ℕ}

/-- Chunk `i` exists exactly when the array reaches past its first entry. -/
theorem lt_numChunks_iff (hcs : 0 < cs) {n i : ℕ} : i < numChunks cs n ↔ i * cs < n := by
  rw [numChunks, Nat.lt_div_iff_mul_lt hcs]
  omega

/-- An empty file has no chunk. -/
theorem numChunks_zero (hcs : 0 < cs) : numChunks cs 0 = 0 := by
  rw [numChunks, Nat.div_eq_of_lt (by omega)]

/-- Every chunk but the last is full. -/
theorem length_chunkAt (b : List α) (i : ℕ) :
    (chunkAt cs b i).length = min cs (b.length - i * cs) := length_slice b _ _

/-- The bytes of a chunk are those of the file, from its start on. -/
theorem getElem?_chunkAt (b : List α) (i j : ℕ) :
    (chunkAt cs b i)[j]? = if j < cs then b[i * cs + j]? else none := getElem?_slice b _ _ _

/-- The chunks past the end are empty. -/
theorem chunkAt_eq_nil {b : List α} {i : ℕ} (h : b.length ≤ i * cs) : chunkAt cs b i = [] := by
  rw [← List.length_eq_zero_iff, length_chunkAt]
  omega

/-- The chunks of an array are its first one and those of the rest. -/
theorem chunksOf_eq_cons (hcs : 0 < cs) {b : List α} (h : b ≠ []) :
    chunksOf cs b = b.take cs :: chunksOf cs (b.drop cs) := by
  have hlen := List.length_pos_iff.2 h
  have hnum : numChunks cs b.length = numChunks cs (b.drop cs).length + 1 := by
    rw [List.length_drop]
    unfold numChunks
    rcases Nat.lt_or_ge b.length cs with hlt | hge
    · have hnone : b.length - cs = 0 := by omega
      have hone : b.length + cs - 1 = b.length - 1 + cs := by omega
      rw [hnone, hone, Nat.add_div_right _ hcs, Nat.div_eq_of_lt (by omega),
        Nat.div_eq_of_lt (by omega)]
    · have hsame : b.length + cs - 1 = b.length - cs + cs - 1 + cs := by omega
      rw [hsame, Nat.add_div_right _ hcs]
  have hat : ∀ i, chunkAt cs b (i + 1) = chunkAt cs (b.drop cs) i := by
    intro i
    unfold chunkAt slice
    rw [List.drop_drop, Nat.add_mul, Nat.one_mul, Nat.add_comm]
  have hfirst : chunkAt cs b 0 = b.take cs := by
    unfold chunkAt slice
    rw [Nat.zero_mul, List.drop_zero]
  unfold chunksOf
  rw [hnum, List.range_succ_eq_map, List.map_cons, List.map_map, hfirst]
  exact congrArg _ (List.map_congr_left fun i _ => hat i)

/-- A chunk that is followed by another one is full. -/
theorem length_chunkAt_full (hcs : 0 < cs) {b : List α} {i : ℕ}
    (h : i + 1 < numChunks cs b.length) : (chunkAt cs b i).length = cs := by
  rw [lt_numChunks_iff hcs, Nat.add_mul, Nat.one_mul] at h
  rw [length_chunkAt]
  omega

/-- The first `n` chunks are the first `n * cs` entries. -/
theorem flatMap_range_chunkAt (b : List α) (n : ℕ) :
    (List.range n).flatMap (chunkAt cs b) = b.take (n * cs) := by
  induction n with
  | zero => simp
  | succ n ih =>
    rw [List.range_succ, List.flatMap_append, ih, List.flatMap_singleton, chunkAt, slice,
      Nat.add_mul, Nat.one_mul, List.take_add]

/-- The chunks of an array give it back. -/
theorem flatMap_chunkAt (hcs : 0 < cs) (b : List α) :
    (List.range (numChunks cs b.length)).flatMap (chunkAt cs b) = b := by
  rw [flatMap_range_chunkAt]
  apply List.take_of_length_le
  have h := (lt_numChunks_iff hcs (n := b.length) (i := numChunks cs b.length)).not.1 (by omega)
  omega

/-- The part of chunk `i` that lies in the window from `start` to `stop`. -/
def window (cs : ℕ) (b : List α) (start stop i : ℕ) : List α :=
  slice (chunkAt cs b i) (start - i * cs) (stop - max start (i * cs))

/-- The windows of the chunks from the one that holds `start` on, as far as chunk `first + n`, are
the entries of the window up to there. -/
theorem flatMap_range'_window (b : List α) {start stop first : ℕ}
    (hfirst : first * cs ≤ start) (n : ℕ) :
    (List.range' first n).flatMap (window cs b start stop) =
      slice b start (min stop ((first + n) * cs) - start) := by
  -- By induction on the number of chunks: the next window continues the slice, or both have
  -- reached `stop`.
  induction n with
  | zero =>
    have hnone : min stop (first * cs) - start = 0 :=
    Nat.sub_eq_zero_of_le ((Nat.min_le_right _ _).trans hfirst)
    simp [slice, hnone]
  | succ n ih =>
    rw [List.range'_concat, List.flatMap_append, ih, List.flatMap_singleton, Nat.one_mul]
    generalize hm : (first + n) * cs = m
    have hm' : (first + (n + 1)) * cs = m + cs := by
      rw [← Nat.add_assoc, Nat.add_mul (first + n), Nat.one_mul, hm]
    rw [window, chunkAt, hm, hm', slice_slice]
    clear hm hm' ih
    rcases Nat.le_total stop m with hstop | hstop
    · -- The window ends before the chunk.
      have hnone : stop - max start m = 0 :=
        Nat.sub_eq_zero_of_le (hstop.trans (Nat.le_max_right _ _))
      rw [hnone, Nat.zero_min, Nat.min_eq_left hstop,
        Nat.min_eq_left (hstop.trans (Nat.le_add_right m cs)),
        slice, slice, List.take_zero, List.append_nil]
    · rw [Nat.min_eq_right hstop]
      rcases Nat.le_total start m with hstart | hstart
      · -- It goes on over the chunk.
        have hbegin : m + (start - m) = start + (m - start) := by omega
        have hend : m - start + min (stop - m) (cs - (start - m)) = min stop (m + cs) -
          start := by omega
        rw [Nat.max_eq_right hstart, hbegin, slice_append_slice, hend]
      · -- It begins in the chunk or behind it.
        have hnone : m - start = 0 := Nat.sub_eq_zero_of_le hstart
        have hbegin : m + (start - m) = start := Nat.add_sub_cancel' hstart
        have hend : min (stop - start) (cs - (start - m)) = min stop (m + cs) - start := by omega
        rw [Nat.max_eq_left hstart, hnone, hbegin, hend, slice, List.take_zero, List.nil_append]

/-- The windows of the chunks a window touches give the window back. -/
theorem flatMap_window (hcs : 0 < cs) (b : List α) {start stop : ℕ} (hlt : start < stop) :
    (List.range' (start / cs) ((stop - 1) / cs - start / cs + 1)).flatMap (window cs b start stop) =
      slice b start (stop - start) := by
  have hle : start / cs ≤ (stop - 1) / cs := Nat.div_le_div_right (by omega)
  have hend : stop ≤ ((stop - 1) / cs + 1) * cs := by
    have := Nat.lt_div_mul_add hcs (a := stop - 1)
    rw [Nat.add_mul, Nat.one_mul]
    omega
  rw [flatMap_range'_window b (Nat.div_mul_le_self start cs)]
  rw [show start / cs + ((stop - 1) / cs - start / cs + 1) = (stop - 1) / cs + 1 by omega,
    Nat.min_eq_left hend]

/-! ## Chunks of a written or resized array -/

/-- Chunk `i` of a resized array is the resized chunk. -/
theorem chunkAt_resize (z : α) (b : List α) (n i : ℕ) :
    chunkAt cs (resize z b n) i = resize z (chunkAt cs b i) (min cs (n - i * cs)) := by
  apply List.ext_getElem?
  intro j
  rw [getElem?_chunkAt, getElem?_resize, getElem?_resize, getElem?_chunkAt, length_chunkAt]
  split_ifs <;> first | rfl | omega

/-- A resize leaves a chunk that has its length already. -/
theorem resize_of_length (z : α) {b : List α} {n : ℕ} (h : b.length = n) : resize z b n = b := by
  rw [resize, extendTo_of_le z (by omega), List.take_of_length_le (by omega)]

/-- Chunk `i` of an array after a write, for a chunk the new array reaches: the old chunk, filled
up to its new length, with the part of `data` that falls into it on top. -/
theorem chunkAt_writeAt (z : α) (b data : List α) {off i : ℕ} (hd : data ≠ [])
    (hi : i * cs < max b.length (off + data.length)) :
    chunkAt cs (writeAt z b off data) i =
      patch (extendTo z (chunkAt cs b i)
          (min (i * cs + cs) (max b.length (off + data.length)) - i * cs))
        (max off (i * cs) - i * cs)
        (slice data (max off (i * cs) - off)
          (min (off + data.length) (min (i * cs + cs) (max b.length (off + data.length))) -
            max off (i * cs))) := by
  generalize hm : i * cs = m at hi
  have hclen : (chunkAt cs b i).length = min cs (b.length - m) := by rw [length_chunkAt, hm]
  have hlen : 0 < data.length := List.length_pos_iff.2 hd
  -- The chunk begins at `m` and has `w` entries; what falls into it of `data` begins at its entry
  -- `v`.
  obtain ⟨w, hw, hwcs, hwb, hwd, hwend⟩ : ∃ w, min (m + cs) (max b.length (off + data.length)) = m +
      w ∧ w ≤ cs ∧
      (w < cs → b.length ≤ m + w) ∧ (w < cs → off + data.length ≤ m + w) ∧
        (m + w ≤ b.length ∨ m + w ≤ off + data.length) := by
    rcases Nat.le_total (m + cs) (max b.length (off + data.length)) with h | h
    · exact ⟨cs, Nat.min_eq_left h, le_refl _, fun h' => absurd h' (lt_irrefl _),
        fun h' => absurd h' (lt_irrefl _), le_max_iff.1 h⟩
    · refine ⟨max b.length (off + data.length) - m, ?_, by omega, fun _ => ?_, fun _ => ?_, ?_⟩
      · rw [Nat.min_eq_right h, Nat.add_sub_cancel' hi.le]
      · rw [Nat.add_sub_cancel' hi.le]
        exact le_max_left _ _
      · rw [Nat.add_sub_cancel' hi.le]
        exact le_max_right _ _
      · rw [Nat.add_sub_cancel' hi.le]
        exact le_max_iff.1 (le_refl _)
  obtain ⟨v, hv, hvoff, hvor⟩ : ∃ v, max off m = m + v ∧ off ≤ m + v ∧ (v = 0 ∨ m + v = off) := by
    rcases Nat.le_total off m with h | h
    · exact ⟨0, Nat.max_eq_right h, h, Or.inl rfl⟩
    · exact ⟨off - m, by rw [Nat.max_eq_left h, Nat.add_sub_cancel' h], by
        omega, Or.inr (Nat.add_sub_cancel' h)⟩
  rw [hw, hv, Nat.add_sub_cancel_left, Nat.add_sub_cancel_left]
  clear hi hw hv
  apply List.ext_getElem?
  intro j
  rw [getElem?_chunkAt, getElem?_writeAt z b data off hd, hm]
  -- Outside the part of `data`, both are the old chunk, filled up.
  have hrest : ¬ (j < cs ∧ off ≤ m + j ∧ m + j < off + data.length) →
      (if j < cs then if off ≤ m + j ∧ m + j < off + data.length then data[m + j - off]?
        else if m + j < b.length then b[m + j]? else if m + j < off then some z else none
        else none) =
      if j < min cs (b.length - m) then if j < cs then b[m + j]? else none else if j < w then some z
      else none := by
    intro hout
    by_cases hcs : j < cs
    · rw [if_pos hcs, if_neg fun h => hout ⟨hcs, h⟩]
      by_cases hb : m + j < b.length
      · rw [if_pos hb, if_pos (lt_min_iff.2 ⟨hcs, by omega⟩), if_pos hcs]
      · have hmin : ¬ j < min cs (b.length - m) :=
          fun h => hb (by have := (lt_min_iff.1 h).2; omega)
        have hiff : m + j < off ↔ j < w := by omega
        rw [if_neg hb, if_neg hmin]
        simp only [hiff]
    · rw [if_neg hcs, if_neg fun h => hcs (lt_min_iff.1 h).1, if_neg (by omega)]
  rcases Nat.lt_or_ge (m + v) (min (off + data.length) (m + w)) with hlt | hge
  · -- The part of `data` has `x` entries.
    obtain ⟨x, hx, hxd, hxw, hxor⟩ : ∃ x, min (off + data.length) (m + w) = m + v + x ∧
        m + v + x ≤ off + data.length ∧
        v + x ≤ w ∧ (m + v + x = off + data.length ∨ v + x = w) := by
      obtain ⟨h₁, h₂⟩ := lt_min_iff.1 hlt
      rcases Nat.le_total (off + data.length) (m + w) with h | h
      · exact ⟨off + data.length - (m + v), by rw [Nat.min_eq_left h]; omega, by omega, by
          omega, Or.inl (by omega)⟩
      · exact ⟨w - v, by rw [Nat.min_eq_right h]; omega, by omega, by omega, Or.inr (by omega)⟩
    rw [hx, Nat.add_sub_cancel_left]
    clear hx hlt
    have hpart : (slice data (m + v - off) x).length = x := by
      rw [length_slice]
      exact Nat.min_eq_left (by omega)
    rw [getElem?_patch (by rw [length_extendTo]; exact le_max_of_le_right (by omega)),
      getElem?_extendTo, hpart,
      getElem?_slice, getElem?_chunkAt, hclen, hm]
    by_cases hin : v ≤ j ∧ j < v + x
    · have hdata : m + v - off + (j - v) = m + j - off := by omega
      rw [if_pos (by omega), if_pos (by omega), if_neg (by omega), if_pos hin.2,
        if_pos (by omega), hdata]
    · rw [hrest (by omega)]
      split_ifs <;> first | rfl | omega
  · -- `data` ends before the chunk or begins after it.
    have hge' : off + data.length ≤ m + v ∨ w ≤ v := by
      rcases min_le_iff.1 hge with h | h
      · exact Or.inl h
      · exact Or.inr (by omega)
    have hnil : slice data (m + v - off) (min (off + data.length) (m + w) - (m + v)) = [] := by
      rw [Nat.sub_eq_zero_of_le hge, slice, List.take_zero]
    rw [hnil, patch, List.length_nil, Nat.add_zero, List.append_nil, List.take_append_drop,
      getElem?_extendTo, getElem?_chunkAt, hclen, hm]
    exact hrest (by omega)

/-- A write leaves the chunks before the one that holds its offset or the old end. -/
theorem chunkAt_writeAt_before (z : α) (b data : List α) {off i : ℕ}
    (hi : i < min off b.length / cs) : chunkAt cs (writeAt z b off data) i = chunkAt cs b i := by
  rcases eq_or_ne data [] with rfl | hd
  · rfl
  have hle : (i + 1) * cs ≤ min off b.length :=
    le_trans (Nat.mul_le_mul_right cs hi) (Nat.div_mul_le_self _ _)
  rw [Nat.add_mul, Nat.one_mul] at hle
  apply List.ext_getElem?
  intro j
  rw [getElem?_chunkAt, getElem?_chunkAt, getElem?_writeAt z b data off hd]
  split_ifs <;> first | rfl | omega

/-- A write leaves the chunks after the one that holds its last entry. -/
theorem chunkAt_writeAt_after (hcs : 0 < cs) (z : α) (b data : List α) {off i : ℕ}
    (hi : (off + data.length - 1) / cs < i) :
    chunkAt cs (writeAt z b off data) i = chunkAt cs b i := by
  rcases eq_or_ne data [] with rfl | hd
  · rfl
  have hlen : 0 < data.length := List.length_pos_iff.2 hd
  have hle : off + data.length ≤ i * cs := by
    have h1 := Nat.lt_div_mul_add hcs (a := off + data.length - 1)
    have h2 : ((off + data.length - 1) / cs + 1) * cs ≤ i * cs := Nat.mul_le_mul_right cs hi
    rw [Nat.add_mul, Nat.one_mul] at h2
    omega
  apply List.ext_getElem?
  intro j
  rw [getElem?_chunkAt, getElem?_chunkAt, getElem?_writeAt z b data off hd]
  split_ifs <;> first | rfl | omega | rw [List.getElem?_eq_none (by omega)]

/-- Joining two arrays at a chunk's boundary joins their chunks. -/
theorem chunkAt_join {b b' : List α} {n : ℕ} (hb' : n * cs ≤ b'.length) (i : ℕ) :
    chunkAt cs (b'.take (n * cs) ++ b.drop (n * cs)) i =
      if i < n then chunkAt cs b' i else chunkAt cs b i := by
  have hlen : (b'.take (n * cs)).length = n * cs := by simp [hb']
  apply List.ext_getElem?
  intro j
  rw [getElem?_chunkAt]
  split_ifs with hj hi hi
  · have hlt : i * cs + j < n * cs := by
      have := Nat.mul_le_mul_right cs (Nat.succ_le_of_lt hi)
      rw [Nat.succ_mul] at this
      omega
    rw [List.getElem?_append_left (by omega), List.getElem?_take, if_pos hlt, getElem?_chunkAt,
      if_pos hj]
  · have hle := Nat.mul_le_mul_right cs (not_lt.1 hi)
    rw [List.getElem?_append_right (by omega), hlen, List.getElem?_drop, getElem?_chunkAt,
      if_pos hj]
    congr 1
    omega
  · rw [getElem?_chunkAt, if_neg hj]
  · rw [getElem?_chunkAt, if_neg hj]

end Lib.Chunks
