import Mathlib.Data.List.Nodup
import Mathlib.Tactic.Common

/-!
# Moves of keys

A table as a function of its keys, and moves that take what is at one key to another, one after the
other. When no key is left or taken twice and none that is taken is left, the order does not matter:
everything that moves comes from where it was at first (`moveAll_spec`).
-/

namespace Lib.Moves

variable {κ α : Type} [DecidableEq κ] {e : α} {f : κ → α} {ms : List (κ × κ)}

/-- What is at the first key moves to the second. -/
def move (e : α) (f : κ → α) (m : κ × κ) : κ → α :=
  fun q => if q = m.2 then f m.1 else if q = m.1 then e else f q

/-- All moves. -/
def moveAll (e : α) (f : κ → α) (ms : List (κ × κ)) : κ → α := ms.foldl (move e) f

/-- No key is left or taken twice, and none is left and taken. -/
structure Apart (ms : List (κ × κ)) : Prop where
  /-- The keys that are left. -/
  olds : (ms.map Prod.fst).Nodup
  /-- The keys that are taken. -/
  news : (ms.map Prod.snd).Nodup
  /-- They are different. -/
  apart : ∀ m ∈ ms, ∀ m' ∈ ms, m.1 ≠ m'.2

omit [DecidableEq κ] in
/-- The rest of moves that keep apart keep apart. -/
theorem Apart.tail {m : κ × κ} (h : Apart (m :: ms)) : Apart ms := by
  have holds := h.olds
  have hnews := h.news
  rw [List.map_cons, List.nodup_cons] at holds hnews
  exact ⟨holds.2, hnews.2, fun a ha b hb => h.apart a (List.mem_cons_of_mem _ ha) b
    (List.mem_cons_of_mem _ hb)⟩

omit [DecidableEq κ] in
/-- The keys of the first move are not those of another. -/
theorem Apart.head {m : κ × κ} (h : Apart (m :: ms)) :
    ∀ m' ∈ ms, m'.1 ≠ m.1 ∧ m'.1 ≠ m.2 ∧ m'.2 ≠ m.1 ∧ m'.2 ≠ m.2 := by
  have holds := h.olds
  have hnews := h.news
  rw [List.map_cons, List.nodup_cons] at holds hnews
  intro m' hm'
  refine ⟨fun heq => ?_, h.apart m' (List.mem_cons_of_mem _ hm') m List.mem_cons_self,
    fun heq => ?_, fun heq => ?_⟩
  · exact holds.1 (heq ▸ List.mem_map_of_mem hm')
  · exact h.apart m List.mem_cons_self m' (List.mem_cons_of_mem _ hm') heq.symm
  · exact hnews.1 (heq ▸ List.mem_map_of_mem hm')

/-- One move, seen from a key that it does not touch. -/
theorem move_of_ne {m : κ × κ} {q : κ} (hold : q ≠ m.1) (hnew : q ≠ m.2) : move e f m q = f q := by
  rw [move, if_neg hnew, if_neg hold]

/-- Everything that moves comes from where it was at first, leaves its key, and nothing else moves.
-/
theorem moveAll_spec (h : Apart ms) :
    (∀ m ∈ ms, moveAll e f ms m.2 = f m.1) ∧ (∀ m ∈ ms, moveAll e f ms m.1 = e) ∧
    ∀ q, (∀ m ∈ ms, q ≠ m.1 ∧ q ≠ m.2) → moveAll e f ms q = f q := by
  induction ms generalizing f with
  | nil => exact ⟨by simp, by simp, fun _ _ => rfl⟩
  | cons m ms ih =>
    -- By induction on the moves: the first one touches two keys that no later one touches.
    obtain ⟨hcome, hgo, hstay⟩ := ih (f := move e f m) h.tail
    have hhead := h.head
    have hne : m.1 ≠ m.2 := h.apart m List.mem_cons_self m List.mem_cons_self
    show (∀ m' ∈ m :: ms, moveAll e (move e f m) ms m'.2 = f m'.1) ∧
      (∀ m' ∈ m :: ms, moveAll e (move e f m) ms m'.1 = e) ∧ _
    refine ⟨?_, ?_, ?_⟩
    · intro m' hm'
      rcases List.mem_cons.1 hm' with rfl | hm'
      · rw [hstay _ fun a ha => ⟨(hhead a ha).2.1.symm, (hhead a ha).2.2.2.symm⟩, move, if_pos rfl]
      · rw [hcome m' hm', move_of_ne (hhead m' hm').1 (hhead m' hm').2.1]
    · intro m' hm'
      rcases List.mem_cons.1 hm' with rfl | hm'
      · rw [hstay _ fun a ha => ⟨(hhead a ha).1.symm, (hhead a ha).2.2.1.symm⟩, move, if_neg hne,
          if_pos rfl]
      · exact hgo m' hm'
    · intro q hq
      have hqm := hq m List.mem_cons_self
      show moveAll e (move e f m) ms q = f q
      rw [hstay q fun m' hm' => hq m' (List.mem_cons_of_mem _ hm'), move_of_ne hqm.1 hqm.2]

end Lib.Moves
