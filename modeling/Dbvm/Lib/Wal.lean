import Mathlib.Data.List.Infix
import Mathlib.Tactic.Common

/-!
# Write-ahead logs

A file of pages and a log beside it. A commit appends the pages it changes to the log, and the size
of the file after it; whoever opens the file reads each page from the last commit that has it, or
from the file. A checkpoint copies the first commits of the log into the file, which changes nothing
for a reader.
-/

namespace Lib.Wal

variable {P : Type}

/-- A file of pages. -/
structure Image (P : Type) where
  /-- The number of pages. -/
  size : ℕ
  page : ℕ → P

/-- The frames of one transaction in the log. -/
structure Commit (P : Type) where
  /-- Pages by number. -/
  frames : List (ℕ × P)
  /-- The number of pages of the file after the transaction. -/
  size : ℕ

namespace Image

/-- One page written. -/
def write (i : Image P) (f : ℕ × P) : Image P :=
  { i with page := fun n => if n = f.1 then f.2 else i.page n }

/-- The frames of a commit written over the file. -/
def apply (i : Image P) (c : Commit P) : Image P := { c.frames.foldl write i with size := c.size }

/-- What a reader of the file and its log sees. -/
def replay (i : Image P) (w : List (Commit P)) : Image P := w.foldl apply i

variable {i j : Image P} {w w' : List (Commit P)} {n : ℕ}

/-- An empty log changes nothing. -/
@[simp] theorem replay_nil (i : Image P) : i.replay [] = i := rfl

/-- Two logs are replayed one after the other. -/
theorem replay_append (i : Image P) (w w' : List (Commit P)) :
    i.replay (w ++ w') = (i.replay w).replay w' := List.foldl_append

/-- The frames of a list of commits. -/
def Has (w : List (Commit P)) (n : ℕ) : Prop := ∃ c ∈ w, n ∈ c.frames.map Prod.fst

/-- A page that the frames hold, or on which the images agree, reads the same after them. -/
theorem page_foldl_write_congr {fs : List (ℕ × P)} (h : n ∈ fs.map Prod.fst ∨ i.page n = j.page n) :
    (fs.foldl write i).page n = (fs.foldl write j).page n := by
  induction fs generalizing i j with
  | nil => simpa using h
  | cons f fs ih =>
    refine ih ?_
    by_cases hn : n = f.1
    · right
      simp [write, hn]
    · simpa [write, hn] using h

/-- A page of the file counts only if the log does not have it. -/
theorem page_replay_congr (h : Has w n ∨ i.page n = j.page n) :
    (i.replay w).page n = (j.replay w).page n := by
  induction w generalizing i j with
  | nil => simpa [Has] using h
  | cons c w ih =>
    refine ih ?_
    rcases h with ⟨d, hd, hn⟩ | h
    · rcases List.mem_cons.1 hd with rfl | hd
      · exact Or.inr (page_foldl_write_congr (Or.inl hn))
      · exact Or.inl ⟨d, hd, hn⟩
    · exact Or.inr (page_foldl_write_congr (Or.inr h))

/-- A page that no frame holds stays as it is. -/
theorem page_foldl_write_of_not_mem {fs : List (ℕ × P)} (h : n ∉ fs.map Prod.fst) :
    (fs.foldl write i).page n = i.page n := by
  induction fs generalizing i with
  | nil => rfl
  | cons f fs ih =>
    rw [List.map_cons, List.mem_cons, not_or] at h
    rw [List.foldl_cons, ih h.2]
    exact if_neg h.1

/-- A page that the log does not hold stays as it is. -/
theorem page_replay_of_not_has (h : ¬ Has w n) : (i.replay w).page n = i.page n := by
  induction w generalizing i with
  | nil => rfl
  | cons c w ih =>
    have hc : n ∉ c.frames.map Prod.fst := fun hn => h ⟨c, by simp, hn⟩
    have hw : ¬ Has w n := fun ⟨d, hd, hn⟩ => h ⟨d, by simp [hd], hn⟩
    calc ((i.apply c).replay w).page n = (i.apply c).page n := ih hw
      _ = i.page n := page_foldl_write_of_not_mem hc

/-- The last commit of a log gives the size. -/
theorem size_replay (h : w ≠ []) : (i.replay w).size = (w.getLast h).size := by
  induction w using List.reverseRecOn with
  | nil => exact absurd rfl h
  | append_singleton w c _ =>
    rw [replay_append, List.getLast_append_singleton]
    rfl

/-- Commits that are copied into the file are read from it as they are from the log. -/
theorem replay_replay_prefix (i : Image P) (w w' : List (Commit P)) :
    (i.replay w).replay (w ++ w') = i.replay (w ++ w') := by
  have hpage : ∀ n, ((i.replay w).replay (w ++ w')).page n = (i.replay (w ++ w')).page n := by
    intro n
    refine page_replay_congr ?_
    by_cases hn : Has w n
    · obtain ⟨c, hc, hn⟩ := hn
      exact Or.inl ⟨c, by simp [hc], hn⟩
    · exact Or.inr (page_replay_of_not_has hn)
  have hsize : ((i.replay w).replay (w ++ w')).size = (i.replay (w ++ w')).size := by
    by_cases hnil : w ++ w' = []
    · obtain ⟨rfl, rfl⟩ := List.append_eq_nil_iff.1 hnil
      rfl
    · rw [size_replay hnil, size_replay hnil]
  calc (i.replay w).replay (w ++ w')
      = ⟨((i.replay w).replay (w ++ w')).size, ((i.replay w).replay (w ++ w')).page⟩ := rfl
    _ = ⟨(i.replay (w ++ w')).size, (i.replay (w ++ w')).page⟩ := by rw [hsize, funext hpage]
    _ = i.replay (w ++ w') := rfl

end Image

/-- A file with its log. -/
structure File (P : Type) where
  main : Image P
  log : List (Commit P)

namespace File

/-- What a reader sees. -/
def view (f : File P) : Image P := f.main.replay f.log

/-- A checkpoint that gets as far as the first `k` commits: these are copied into the file, and the
log is emptied if there are no others. -/
def checkpoint (f : File P) (k : ℕ) : File P where
  main := f.main.replay (f.log.take k)
  log := if f.log.length ≤ k then [] else f.log

/-- A checkpoint changes nothing for a reader. -/
@[simp] theorem view_checkpoint (f : File P) (k : ℕ) : (f.checkpoint k).view = f.view := by
  unfold view checkpoint
  dsimp only
  split_ifs with hk
  · rw [List.take_of_length_le hk, Image.replay_nil]
  · have hsplit := Image.replay_replay_prefix f.main (f.log.take k) (f.log.drop k)
    rwa [List.take_append_drop] at hsplit

/-- After a checkpoint that gets to the end of the log the file alone is what a reader sees. -/
theorem main_checkpoint {f : File P} {k : ℕ} (h : f.log.length ≤ k) :
    (f.checkpoint k).main = f.view := by
  unfold checkpoint view
  rw [List.take_of_length_le h]

end File

end Lib.Wal
