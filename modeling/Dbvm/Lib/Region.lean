import Mathlib.Data.List.Basic
import Mathlib.Tactic.Common

/-!
# Blocks of memory

A block of memory as C sees it: cells that were never written have no value, and an access outside
the block, or the read of such a cell, is a fault. A block is used from its beginning, so what it
holds is a list its first cells spell (`Filled`). Text and vectors in it end at a terminator
(`until`).
-/

namespace Lib

/-- Why a run has no result. -/
inductive Stop where
  /-- It waits for more input. -/
  | pending
  /-- It touched memory it must not touch. -/
  | fault
deriving DecidableEq

/-- A block of memory. -/
abbrev Region (α : Type) := List (Option α)

namespace Region

variable {α : Type} {r r' : Region α} {xs ys : List α} {x z : α} {i size : ℕ}

/-- Read a cell. -/
def load (r : Region α) (i : ℕ) : Except Stop α :=
  match r[i]? with
  | some (some x) => .ok x
  | _ => .error .fault

/-- Write cells from `i` on. -/
def write (r : Region α) (i : ℕ) (xs : List α) : Except Stop (Region α) :=
  if i + xs.length ≤ r.length then .ok (r.take i ++ xs.map some ++ r.drop (i + xs.length))
  else .error .fault

/-- `realloc` to a larger size. -/
def grow (r : Region α) (size : ℕ) : Region α := r ++ List.replicate (size - r.length) none

/-- The cells up to the terminator `z`. -/
def untilCell [DecidableEq α] (z : α) : Region α → Except Stop (List α)
  | [] => .error .fault
  | none :: _ => .error .fault
  | some x :: r => if x = z then .ok [] else (untilCell z r).map (x :: ·)

/-- The first cells of the block spell a list. -/
def Filled (r : Region α) (xs : List α) : Prop := xs.map some <+: r

/-- Nothing fills any region. -/
theorem filled_nil (r : Region α) : Filled r [] := List.nil_prefix

/-- What fills a region fits into it. -/
theorem Filled.length_le (h : Filled r xs) : xs.length ≤ r.length := by
  simpa using List.IsPrefix.length_le h

/-- A cell that was written is read back. -/
theorem Filled.load (h : Filled r (xs ++ x :: ys)) : load r xs.length = .ok x := by
  obtain ⟨rest, rfl⟩ := h
  simp [Region.load]

/-- Writing behind what a block holds extends it, when the block is large enough. -/
theorem Filled.write (h : Filled r xs) (ys : List α) (hfit : xs.length + ys.length ≤ r.length) :
    ∃ r', write r xs.length ys = .ok r' ∧ Filled r' (xs ++ ys) ∧ r'.length = r.length := by
  refine ⟨r.take xs.length ++ ys.map some ++ r.drop (xs.length + ys.length), ?_, ?_, ?_⟩
  · rw [Region.write, if_pos hfit]
  · have htake : r.take xs.length = xs.map some := by
      obtain ⟨rest, rfl⟩ := h
      rw [List.take_left' (by simp)]
    rw [htake, Filled, List.map_append]
    exact List.prefix_append _ _
  · simp
    omega

/-- A region that grows keeps what it holds. -/
theorem Filled.grow (h : Filled r xs) (size : ℕ) : Filled (grow r size) xs :=
  List.IsPrefix.trans h (List.prefix_append _ _)

/-- A region grows to the size asked for. -/
theorem length_grow (h : r.length ≤ size) : (grow r size).length = size := by
  simp [grow]
  omega

/-- One cell of a block that is written all over is replaced. -/
theorem write_map (xs ys : List α) (x y : α) :
    write ((xs ++ x :: ys).map some) xs.length [y] = .ok ((xs ++ y :: ys).map some) := by
  rw [write, if_pos (by simp)]
  simp [List.drop_append]

/-- A text is read up to its terminator. -/
theorem untilCell_map [DecidableEq α] (hz : z ∉ xs) (rest : Region α) :
    untilCell z (xs.map some ++ some z :: rest) = .ok xs := by
  induction xs with
  | nil => simp [untilCell]
  | cons x xs ih =>
    rw [List.mem_cons, not_or] at hz
    rw [List.map_cons, List.cons_append, untilCell, if_neg (Ne.symm hz.1), ih hz.2]
    rfl

/-- A text inside what a block holds is read from where it begins. -/
theorem Filled.untilCell [DecidableEq α] {pre : List α} (h : Filled r (pre ++ xs ++ z :: ys))
    (hz : z ∉ xs) :
    untilCell z (r.drop pre.length) = .ok xs := by
  obtain ⟨rest, rfl⟩ := h
  rw [List.append_assoc, List.map_append, List.append_assoc, List.drop_left' (by simp),
    List.map_append,
    List.append_assoc]
  exact untilCell_map hz _

end Region

end Lib
