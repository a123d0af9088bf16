import Mathlib.Logic.Basic
import Mathlib.Data.List.Basic
import Mathlib.Tactic.Basic

/-!
# Undo logs

A state gives a value to every address. A record holds the old value of some addresses, and undoing
it puts these back. A record is exact for a step when undoing it after the step gives the state
before the step. Records are undone newest first. What a log gives at an address is the value in the
last record of the list that names it, so undoing a list twice is undoing it once; that is why a
step that has itself been undone leaves the records before it as good as they were.
-/

namespace Lib.Journal

variable {α β : Type}

/-- The old values of some addresses. -/
abbrev Rec (α β : Type) := α → Option β

/-- Put the old values back. -/
def undo (r : Rec α β) (s : α → β) : α → β := fun a => (r a).getD (s a)

/-- Undo records one after the other. -/
def undoAll (rs : List (Rec α β)) (s : α → β) : α → β := rs.foldl (fun s r => undo r s) s

/-- An empty record undoes nothing. -/
@[simp] theorem undoAll_nil (s : α → β) : undoAll [] s = s := rfl

/-- The first entry of a record is undone first. -/
theorem undoAll_cons (r : Rec α β) (rs : List (Rec α β)) (s : α → β) :
    undoAll (r :: rs) s = undoAll rs (undo r s) := rfl

/-- Two records are undone one after the other. -/
theorem undoAll_append (rs rs' : List (Rec α β)) (s : α → β) :
    undoAll (rs ++ rs') s = undoAll rs' (undoAll rs s) := List.foldl_append

/-- A record that names an address decides its value. -/
theorem undo_of_some {r : Rec α β} {a : α} {b : β} (h : r a = some b) (s : α → β) :
    undo r s a = b := by
  unfold undo
  rw [h]
  rfl

/-- An address that a record does not name keeps its value. -/
theorem undo_of_none {r : Rec α β} {a : α} (h : r a = none) (s : α → β) : undo r s a = s a := by
  unfold undo
  rw [h]
  rfl

/-- An address that no record names keeps its value. -/
theorem undoAll_of_none {rs : List (Rec α β)} {a : α} (h : ∀ r ∈ rs, r a = none) (s : α → β) :
    undoAll rs s a = s a := by
  induction rs generalizing s with
  | nil => rfl
  | cons r rs ih =>
    have hr : r a = none := h r (by simp)
    rw [undoAll_cons, ih fun r' hr' => h r' (by simp [hr']), undo_of_none hr]

/-- What the records give at an address they name does not depend on the state. -/
theorem undoAll_of_some {rs : List (Rec α β)} {a : α} (h : ∃ r ∈ rs, r a ≠ none) (s s' : α → β) :
    undoAll rs s a = undoAll rs s' a := by
  induction rs generalizing s s' with
  | nil => simp at h
  | cons r rs ih =>
    rw [undoAll_cons, undoAll_cons]
    by_cases hrs : ∃ r' ∈ rs, r' a ≠ none
    · exact ih hrs _ _
    · -- The head is the only record that names the address.
      have hnone : ∀ r' ∈ rs, r' a = none := by
        intro r' hr'
        by_contra hne
        exact hrs ⟨r', hr', hne⟩
      obtain ⟨r', hr', hne⟩ := h
      rcases List.mem_cons.1 hr' with rfl | hr'
      · obtain ⟨b, hb⟩ := Option.ne_none_iff_exists'.1 hne
        rw [undoAll_of_none hnone, undoAll_of_none hnone, undo_of_some hb, undo_of_some hb]
      · exact absurd (hnone r' hr') hne

/-- What the records give at an address stands in one of them, or none of them names it. -/
theorem undoAll_cases (rs : List (Rec α β)) (s : α → β) (a : α) :
    (∃ r ∈ rs, r a = some (undoAll rs s a)) ∨ ((∀ r ∈ rs, r a = none) ∧ undoAll rs s a = s a) := by
  induction rs generalizing s with
  | nil => exact Or.inr ⟨by simp, rfl⟩
  | cons r rs ih =>
    rw [undoAll_cons]
    rcases ih (undo r s) with ⟨r', hr', hval⟩ | ⟨hnone, hval⟩
    · exact Or.inl ⟨r', by simp [hr'], hval⟩
    · rcases hr : r a with _ | b
      · refine Or.inr ⟨fun r' hr' => ?_, by rw [hval, undo_of_none hr]⟩
        rcases List.mem_cons.1 hr' with rfl | hr'
        · exact hr
        · exact hnone r' hr'
      · exact Or.inl ⟨r, by simp, by rw [hval, undo_of_some hr, hr]⟩

/-- The records give the same from two states that agree at every address none of them names. -/
theorem undoAll_congr {rs : List (Rec α β)} {s s' : α → β}
    (h : ∀ a, (∀ r ∈ rs, r a = none) → s a = s' a) : undoAll rs s = undoAll rs s' := by
  funext a
  by_cases ha : ∃ r ∈ rs, r a ≠ none
  · exact undoAll_of_some ha s s'
  · have hnone : ∀ r ∈ rs, r a = none := by
      intro r hr
      by_contra hne
      exact ha ⟨r, hr, hne⟩
    rw [undoAll_of_none hnone, undoAll_of_none hnone, h a hnone]

/-- Undoing twice is undoing once. -/
theorem undoAll_undoAll (rs : List (Rec α β)) (s : α → β) :
    undoAll rs (undoAll rs s) = undoAll rs s :=
  undoAll_congr fun _ ha => undoAll_of_none ha s

/-! ## Logs -/

/-- The records of a log from a number on, newest first. -/
def since (u : ℕ) (log : List (ℕ × Rec α β)) : List (Rec α β) :=
  (log.filter fun e => u ≤ e.1).map Prod.snd

/-- An entry belongs to what came since its own time. -/
theorem since_cons (u : ℕ) (e : ℕ × Rec α β) (log : List (ℕ × Rec α β)) :
    since u (e :: log) = if u ≤ e.1 then e.2 :: since u log else since u log := by
  unfold since
  rw [List.filter_cons]
  split_ifs <;> simp_all

/-- A log whose records are all older has none from the number on. -/
theorem since_eq_nil {u : ℕ} {log : List (ℕ × Rec α β)} (h : ∀ e ∈ log, e.1 < u) :
    since u log = [] := by
  unfold since
  rw [List.map_eq_nil_iff, List.filter_eq_nil_iff]
  intro e he
  have := h e he
  simp only [decide_eq_true_eq]
  omega

/-- A log, newest first, splits at a smaller number. -/
theorem since_split {u v : ℕ} (h : v ≤ u) : ∀ {log : List (ℕ × Rec α β)},
    log.Pairwise (fun e e' => e'.1 < e.1) → ∃ rest, since v log = since u log ++ rest
  | [], _ => ⟨[], rfl⟩
  | e :: log, hlog => by
    rw [List.pairwise_cons] at hlog
    rw [since_cons, since_cons]
    by_cases hu : u ≤ e.1
    · obtain ⟨rest, hrest⟩ := since_split h hlog.2
      rw [if_pos hu, if_pos (Nat.le_trans h hu), hrest]
      exact ⟨rest, rfl⟩
    · -- The newest record is older than `u`, and so are all the others.
      have hnil : since u log = [] :=
        since_eq_nil fun e' he' => Nat.lt_trans (hlog.1 e' he') (Nat.lt_of_not_le hu)
      rw [if_neg hu, hnil]
      exact ⟨_, rfl⟩

/-- From the state `s`, the log leads back to the state `t` in which the step `u` began. -/
def LeadsTo (u : ℕ) (log : List (ℕ × Rec α β)) (s t : α → β) : Prop := undoAll (since u log) s = t

variable {u v : ℕ} {log : List (ℕ × Rec α β)} {s s' t : α → β}

/-- A step begins with a log that has no record of it. -/
theorem LeadsTo.start (h : ∀ e ∈ log, e.1 < u) : LeadsTo u log s s := by
  unfold LeadsTo
  rw [since_eq_nil h, undoAll_nil]

/-- A step with an exact record can be undone with the others. -/
theorem LeadsTo.step (h : LeadsTo u log s t) {r : Rec α β} {n : ℕ} (hn : u ≤ n)
    (hr : undo r s' = s) : LeadsTo u ((n, r) :: log) s' t := by
  unfold LeadsTo
  rw [since_cons, if_pos hn, undoAll_cons, hr]
  exact h

/-- A rewind to `v` does no harm to `u`: it does not come from before `u`, or it leaves alone what
no record from `u` on names. -/
def Harmless (u v : ℕ) (log : List (ℕ × Rec α β)) (s : α → β) : Prop :=
  v < u → ∀ a, (∀ r ∈ since u log, r a = none) → undoAll (since v log) s a = s a

/-- A rewind that does no harm leaves the rest undoable. -/
theorem LeadsTo.rewind (h : LeadsTo u log s t) (hlog : log.Pairwise fun e e' => e'.1 < e.1)
    (hv : Harmless u v log s) : LeadsTo u log (undoAll (since v log) s) t := by
  unfold LeadsTo at *
  rcases Nat.lt_or_ge v u with hlt | hge
  · rw [← h]
    exact undoAll_congr (hv hlt)
  · -- The records from `v` on are undone twice.
    obtain ⟨rest, hrest⟩ := since_split hge hlog
    rw [hrest, undoAll_append, undoAll_undoAll, ← undoAll_append, ← hrest]
    exact h

end Lib.Journal
