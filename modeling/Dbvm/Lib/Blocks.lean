import Dbvm.Lib.Chunks

/-!
# Images made of blocks

An image of `n` blocks of `cs` entries each is a function from block numbers (`image`). Writing
blocks at their places (`writeBlocks`) changes these blocks and no others, in any order as long as
no block is written twice, and an image is determined by its blocks (`image_chunkAt`).
-/

namespace Lib.Chunks

variable {α : Type} {cs n i : ℕ} {z : α}

/-- The blocks `f 0`, …, `f (n - 1)`. -/
def image (n : ℕ) (f : ℕ → List α) : List α := (List.range n).flatMap f

/-- One more block comes at the end. -/
theorem image_succ (n : ℕ) (f : ℕ → List α) : image (n + 1) f = image n f ++ f n := by
  rw [image, image, List.range_succ, List.flatMap_append, List.flatMap_singleton]

/-- Blocks of one length make an image of as many bytes. -/
theorem length_image {f : ℕ → List α} (hf : ∀ i < n, (f i).length = cs) :
    (image n f).length = n * cs := by
  induction n with
  | zero => simp [image]
  | succ n ih =>
    rw [image_succ, List.length_append, ih fun i hi => hf i (by omega), hf n (by omega),
      Nat.add_mul, Nat.one_mul]

/-- An image is made of its own blocks. -/
theorem image_chunkAt {b : List α} (hb : b.length = n * cs) : image n (chunkAt cs b) = b := by
  rw [image, flatMap_range_chunkAt]
  exact List.take_of_length_le (by omega)

/-- An image is its blocks. -/
theorem image_congr {f g : ℕ → List α} (h : ∀ i < n, f i = g i) : image n f = image n g :=
  List.flatMap_congr fun i hi => h i (List.mem_range.1 hi)

/-- Each chunk of an image is its block. -/
theorem chunkAt_image {f : ℕ → List α} (hf : ∀ i < n, (f i).length = cs) (hi : i < n) :
    chunkAt cs (image n f) i = f i := by
  induction n with
  | zero => omega
  | succ n ih =>
    have hn : (image n f).length = n * cs := length_image fun i hi => hf i (by omega)
    rw [image_succ, chunkAt, slice]
    rcases Nat.lt_or_ge i n with hlt | hge
    · have hfull : (i + 1) * cs ≤ n * cs := Nat.mul_le_mul_right cs hlt
      rw [Nat.add_mul, Nat.one_mul] at hfull
      rw [List.drop_append_of_le_length (by omega),
        List.take_append_of_le_length (by rw [List.length_drop]; omega)]
      exact ih (fun i hi => hf i (by omega)) hlt
    · obtain rfl : i = n := by omega
      rw [List.drop_append, hn, Nat.sub_self, List.drop_zero, List.drop_of_length_le (by omega),
        List.nil_append]
      exact List.take_of_length_le (hf i hi).le

/-- An image is an array that is filled up with `z`, checked in two parts. -/
theorem eq_extendTo_iff (hcs : 0 < cs) {m : ℕ} {b img : List α} (hb : b.length = n * cs)
    (himg : img.length ≤ m * cs) (hm : m ≤ n) : b = extendTo z img b.length ↔
      b.take (m * cs) = extendTo z img (m * cs) ∧ ∀ i, m ≤ i → i < n →
      chunkAt cs b i = List.replicate cs z := by
  have hmn := Nat.mul_le_mul_right cs hm
  -- Up to block `m` the image decides, behind it there are zeros.
  constructor
  · intro h
    have hget : ∀ j, b[j]? = if j < img.length then img[j]? else if j < n * cs then some z
      else none := by
      intro j
      rw [h, getElem?_extendTo, hb]
    refine ⟨?_, fun i hi hin => ?_⟩
    · apply List.ext_getElem?
      intro j
      rw [List.getElem?_take, hget, getElem?_extendTo]
      split_ifs <;> first | rfl | omega
    · have hlo := Nat.mul_le_mul_right cs hi
      have hhi := Nat.mul_le_mul_right cs (show i + 1 ≤ n by omega)
      rw [Nat.add_mul, Nat.one_mul] at hhi
      apply List.ext_getElem?
      intro j
      rw [getElem?_chunkAt, hget, List.getElem?_replicate]
      split_ifs <;> first | rfl | omega
  · rintro ⟨htake, hrest⟩
    apply List.ext_getElem?
    intro j
    rw [getElem?_extendTo, hb]
    rcases Nat.lt_or_ge j (m * cs) with hj | hj
    · have hone := congrArg (fun l => l[j]?) htake
      rw [List.getElem?_take, if_pos hj, getElem?_extendTo] at hone
      rw [hone]
      split_ifs <;> first | rfl | omega
    · rw [if_neg (by omega)]
      by_cases hjn : j < n * cs
      · -- The entry is in one of the blocks behind the first `m`.
        have hdiv : j / cs * cs + j % cs = j := by
          rw [Nat.mul_comm]
          exact Nat.div_add_mod j cs
        have hblock :=
          congrArg (fun l => l[j % cs]?) (hrest (j / cs) ((Nat.le_div_iff_mul_le hcs).2 hj)
          ((Nat.div_lt_iff_lt_mul hcs).2 hjn))
        rw [getElem?_chunkAt, if_pos (Nat.mod_lt j hcs), hdiv, List.getElem?_replicate,
          if_pos (Nat.mod_lt j hcs)] at hblock
        rw [hblock, if_pos hjn]
      · rw [if_neg hjn, List.getElem?_eq_none (by omega)]

/-- A block that is written at its place. -/
theorem chunkAt_writeAt_block {b data : List α} {m : ℕ} (hcs : 0 < cs) (hd : data.length = cs)
    (hm : (m + 1) * cs ≤ b.length) (i : ℕ) :
    chunkAt cs (writeAt z b (m * cs) data) i = if i = m then data else chunkAt cs b i := by
  have hne : data ≠ [] := List.length_pos_iff.1 (by omega)
  rw [Nat.add_mul, Nat.one_mul] at hm
  apply List.ext_getElem?
  intro j
  rw [getElem?_chunkAt, getElem?_writeAt z _ _ _ hne, hd]
  -- The block itself has the data, any other one lies outside what is written.
  rcases eq_or_ne i m with rfl | hi
  · rw [if_pos rfl]
    by_cases hj : j < cs
    · rw [if_pos hj, if_pos (by omega), Nat.add_sub_cancel_left]
    · rw [if_neg hj, List.getElem?_eq_none (by omega)]
  · -- The entries of another block are before or after.
    have hout : j < cs → ¬ (m * cs ≤ i * cs + j ∧ i * cs + j < m * cs + cs) := by
      intro hj
      rcases Nat.lt_or_ge i m with hlt | hge
      · have := Nat.mul_le_mul_right cs (show i + 1 ≤ m by omega)
        rw [Nat.add_mul, Nat.one_mul] at this
        omega
      · have := Nat.mul_le_mul_right cs (show m + 1 ≤ i by omega)
        rw [Nat.add_mul, Nat.one_mul] at this
        omega
    rw [if_neg hi, getElem?_chunkAt]
    split_ifs with hj h1 h2 h3
    · exact absurd h1 (hout hj)
    · rfl
    · omega
    · rw [List.getElem?_eq_none (by omega)]
    · rfl

/-- Blocks that are written one after another, each at its place. -/
def writeBlocks (z : α) (cs : ℕ) (b : List α) (rows : List (ℕ × List α)) : List α :=
  rows.foldl (fun b r => writeAt z b (r.1 * cs) r.2) b

/-- Writing blocks never cuts the image and reaches the end of every block. -/
theorem length_le_writeBlocks : ∀ {rows : List (ℕ × List α)} {b : List α}, (∀ r ∈ rows, r.2 ≠ []) →
    b.length ≤ (writeBlocks z cs b rows).length ∧
      ∀ r ∈ rows, r.1 * cs + r.2.length ≤ (writeBlocks z cs b rows).length
  | [], b, _ => ⟨le_refl _, by simp⟩
  | r :: rows, b, hne => by
    obtain ⟨hlen, hrows⟩ := length_le_writeBlocks (b := writeAt z b (r.1 * cs) r.2)
      fun r' hr' => hne r' (List.mem_cons_of_mem r hr')
    have hone := length_writeAt z b r.2 (r.1 * cs) (hne r List.mem_cons_self)
    rw [show writeBlocks z cs b (r :: rows) = writeBlocks z cs (writeAt z b (r.1 * cs) r.2)
      rows from rfl]
    refine ⟨by omega, fun r' hr' => ?_⟩
    rcases List.mem_cons.1 hr' with rfl | hr'
    · omega
    · exact hrows r' hr'

/-- Blocks that fit the image leave its length, are there afterwards, and leave the other blocks. -/
theorem writeBlocks_spec (hcs : 0 < cs) :
    ∀ {rows : List (ℕ × List α)} {b : List α}, (rows.map Prod.fst).Nodup →
    (∀ r ∈ rows, r.2.length = cs ∧ (r.1 + 1) * cs ≤ b.length) →
    (writeBlocks z cs b rows).length = b.length ∧
      (∀ r ∈ rows, chunkAt cs (writeBlocks z cs b rows) r.1 = r.2) ∧
      ∀ i, (∀ r ∈ rows, r.1 ≠ i) → chunkAt cs (writeBlocks z cs b rows) i = chunkAt cs b i
  | [], b, _, _ => ⟨rfl, by simp, fun _ _ => rfl⟩
  | r :: rows, b, hnd, hfit => by
    obtain ⟨hd, hm⟩ := hfit r List.mem_cons_self
    rw [List.map_cons, List.nodup_cons] at hnd
    -- The first row is written, and as the numbers differ no later one writes over it.
    have hlen : (writeAt z b (r.1 * cs) r.2).length = b.length := by
      rw [length_writeAt z b r.2 _ (List.length_pos_iff.1 (by omega)), hd]
      rw [Nat.add_mul, Nat.one_mul] at hm
      omega
    obtain ⟨hlen', hin, hout⟩ := writeBlocks_spec hcs (b := writeAt z b (r.1 * cs) r.2) hnd.2
      fun r' hr' => by
        rw [hlen]
        exact hfit r' (List.mem_cons_of_mem r hr')
    have hstep : writeBlocks z cs b (r :: rows) = writeBlocks z cs (writeAt z b (r.1 * cs) r.2)
      rows := rfl
    rw [hstep]
    refine ⟨hlen'.trans hlen, fun r' hr' => ?_, fun i hi => ?_⟩
    · rcases List.mem_cons.1 hr' with rfl | hr'
      · have hfree : ∀ r'' ∈ rows, r''.1 ≠ r'.1 := fun r'' hr'' he =>
          hnd.1 (List.mem_map.2 ⟨r'', hr'', he⟩)
        rw [hout _ hfree, chunkAt_writeAt_block hcs hd hm, if_pos rfl]
      · exact hin r' hr'
    · have hne : i ≠ r.1 := fun he => hi r List.mem_cons_self he.symm
      rw [hout i fun r' hr' => hi r' (List.mem_cons_of_mem r hr'), chunkAt_writeAt_block hcs hd hm,
        if_neg hne]

end Lib.Chunks
