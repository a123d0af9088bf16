import Mathlib.Algebra.BigOperators.Group.List.Basic
import Mathlib.Algebra.Order.Group.Int
import Dbvm.Lib.RefCount

/-!
# Totals over the rows of a table

`total t w` is the sum of the weights of the rows of `t`. Each operation of a table changes it by
the weights of the rows it adds, changes or takes away, so a counter that adds up the same
differences stays equal to the total. A reference count is no part of a weight: `acquire` leaves
every total as it is, and `release` takes away the weight of what it drops.
-/

namespace Lib

namespace Table

variable {κ ρ : Type} [DecidableEq κ]

/-- The sum of the weights of the rows. -/
def total (t : Table κ ρ) (w : ρ → ℤ) : ℤ := (t.rows.map fun r => w r.2).sum

omit [DecidableEq κ] in
/-- The empty table weighs nothing. -/
@[simp] theorem total_empty (w : ρ → ℤ) : (empty : Table κ ρ).total w = 0 := rfl

/-- A row inserted under a free key adds its weight. -/
theorem total_insertIgnore {t : Table κ ρ} {k : κ} (h : t.get? k = none) (r : ρ) (w : ρ → ℤ) :
    (t.insertIgnore k r).total w = t.total w + w r := by
  rw [total, total, rows_insertIgnore h, List.map_append, List.sum_append]
  simp

omit [DecidableEq κ] in
/-- The weights of a table are those of the rows a delete leaves and of those it takes. -/
theorem total_deleteWhere (t : Table κ ρ) (f : κ → ρ → Bool) (w : ρ → ℤ) :
    (t.deleteWhere f).total w + ((t.select f).map fun r => w r.2).sum = t.total w := by
  simp only [total, deleteWhere, select]
  induction t.rows with
  | nil => rfl
  | cons a rows ih =>
    by_cases h : f a.1 a.2
    · simp only [h, Bool.not_true, Bool.false_eq_true, not_false_eq_true, List.filter_cons_of_neg,
        List.filter_cons_of_pos, List.map_cons, List.sum_cons]
      omega
    · simp only [h, Bool.not_false, Bool.false_eq_true, not_false_eq_true, List.filter_cons_of_neg,
        List.filter_cons_of_pos, List.map_cons, List.sum_cons]
      omega

/-- The weights of the rows a change of one row does not touch. -/
theorem total_update_of_not_mem (k : κ) (f : ρ → ρ) (w : ρ → ℤ) : ∀ {rows : List (κ × ρ)},
    k ∉ rows.map Prod.fst →
      ((rows.map fun r => if r.1 = k then (r.1, f r.2) else r).map fun r => w r.2).sum =
      (rows.map fun r => w r.2).sum
  | [], _ => rfl
  | a :: rows, h => by
    rw [List.map_cons, List.mem_cons, not_or] at h
    rw [List.map_cons, List.map_cons, List.sum_cons, if_neg (Ne.symm h.1),
      total_update_of_not_mem k f w h.2, List.map_cons, List.sum_cons]

/-- A row that changes has its new weight for its old one. -/
theorem total_update {t : Table κ ρ} {k : κ} {r : ρ} (h : t.get? k = some r) (f : ρ → ρ)
    (w : ρ → ℤ) :
    (t.update k f).total w = t.total w - w r + w (f r) := by
  obtain ⟨before, after, hrows⟩ := List.append_of_mem (get?_eq_some_iff.1 h)
  have hnodup := t.nodup
  rw [hrows, List.map_append, List.map_cons, List.nodup_append, List.nodup_cons] at hnodup
  obtain ⟨-, ⟨hafter, -⟩, hbefore⟩ := hnodup
  have hb : k ∉ before.map Prod.fst := fun hk => hbefore k hk k (by simp) rfl
  have hupd : (t.update k f).total w =
      ((t.rows.map fun r => if r.1 = k then (r.1, f r.2) else r).map fun r => w r.2).sum := rfl
  rw [hupd, total, hrows, List.map_append, List.map_append, List.sum_append,
    total_update_of_not_mem k f w hb, List.map_append, List.sum_append, List.map_cons,
    List.map_cons,
    List.sum_cons, List.map_cons, List.sum_cons, total_update_of_not_mem k f w hafter, if_pos rfl]
  dsimp only
  omega

/-- A change of a row that is not there. -/
theorem total_update_of_none {t : Table κ ρ} {k : κ} (h : t.get? k = none) (f : ρ → ρ) (w : ρ → ℤ) :
    (t.update k f).total w = t.total w :=
  total_update_of_not_mem k f w (get?_eq_none_iff.1 h)

/-- A change of a row that leaves its weight. -/
theorem total_update_of_eq {t : Table κ ρ} {k : κ} {f : ρ → ρ} {w : ρ → ℤ}
    (hw : ∀ r, w (f r) = w r) :
    (t.update k f).total w = t.total w := by
  rcases hk : t.get? k with _ | r
  · exact total_update_of_none hk f w
  · rw [total_update hk, hw]
    omega

omit [DecidableEq κ] in
/-- A change of every row that leaves the weights. -/
theorem total_mapRows {ρ' : Type} {t : Table κ ρ} {f : κ → ρ → ρ'} {w : ρ → ℤ} {w' : ρ' → ℤ}
    (hw : ∀ k r, w' (f k r) = w r) : (t.mapRows f).total w' = t.total w := by
  simp only [total, mapRows, List.map_map]
  congr 1
  exact List.map_congr_left fun r _ => hw r.1 r.2

/-- A change of keys leaves every weight. -/
theorem total_rekey {t t' : Table κ ρ} {g : κ → κ} (h : t.rekey g = some t') (w : ρ → ℤ) :
    t'.total w = t.total w := by
  unfold rekey at h
  split_ifs at h
  cases h
  simp only [total, List.map_map]
  rfl

omit [DecidableEq κ] in
/-- The number of rows with a property is a total. -/
theorem length_filter_eq_total (t : Table κ ρ) (f : ρ → Bool) :
    ((t.rows.filter fun r => f r.2).length : ℤ) = t.total fun r => if f r then 1 else 0 := by
  unfold total
  induction t.rows with
  | nil => rfl
  | cons a rows ih =>
    by_cases h : f a.2
    · simp only [List.filter_cons, h, if_true, List.length_cons,
        List.map_cons, List.sum_cons] at ih ⊢
      omega
    · simp only [List.filter_cons, h, Bool.false_eq_true, if_false, List.map_cons,
        List.sum_cons] at ih ⊢
      omega

omit [DecidableEq κ] in
/-- The sum over the rows with a property is a total. -/
theorem sum_filter_eq_total (t : Table κ ρ) (f : ρ → Bool) (w : ρ → ℤ) :
    ((t.rows.filter fun r => f r.2).map fun r => w r.2).sum = t.total fun r =>
    if f r then w r else 0 := by
  unfold total
  induction t.rows with
  | nil => rfl
  | cons a rows ih =>
    by_cases h : f a.2
    · simp only [List.filter_cons, h, if_true, List.map_cons, List.sum_cons] at ih ⊢
      omega
    · simp only [List.filter_cons, h, Bool.false_eq_true, if_false, List.map_cons,
        List.sum_cons] at ih ⊢
      omega

end Table

namespace Store

variable {κ β : Type} [DecidableEq κ]

/-- The sum of the weights of the values. -/
def total (s : Store κ β) (w : β → ℤ) : ℤ := Table.total s fun c => w c.val

/-- A reference more weighs nothing. -/
theorem total_acquire (s : Store κ β) (k : κ) (w : β → ℤ) : (s.acquire k).total w = s.total w :=
  Table.total_update_of_eq fun _ => rfl

/-- What a release drops. -/
def dropped (s : Store κ β) (k : κ) (w : β → ℤ) : ℤ :=
  (s.get? k).elim 0 fun c => if c.refcnt ≤ 1 then w c.val else 0

/-- A release takes away the weight of what it drops. -/
theorem total_release (s : Store κ β) (k : κ) (w : β → ℤ) :
    (s.release k).total w = s.total w - s.dropped k w := by
  -- The count falls by one first, and the entry goes when nothing is left of it.
  have hsum := Table.total_deleteWhere (s.update k fun c => { c with refcnt := c.refcnt - 1 })
    (fun k' c => k' = k && c.refcnt ≤ 0) fun c => w c.val
  have hupd : Table.total (s.update k fun c => { c with refcnt := c.refcnt - 1 })
      (fun c => w c.val) =
      s.total w := Table.total_update_of_eq fun _ => rfl
  have hsel : (((s.update k fun c => { c with refcnt := c.refcnt - 1 }).select
      fun k' c => k' = k && c.refcnt ≤ 0).map fun r => w r.2.val).sum = s.dropped k w := by
    have hfilter : (s.update k fun c => { c with refcnt := c.refcnt - 1 }).select
        (fun k' c => k' = k && c.refcnt ≤ 0) =
          ((s.update k fun c => { c with refcnt := c.refcnt - 1 }).select fun k' _ => k' = k).filter
            fun r => r.2.refcnt ≤ 0 := by
      simp only [Table.select, List.filter_filter]
      congr 1
      funext r
      exact Bool.and_comm _ _
    rw [hfilter, Table.select_key, Table.get?_update, if_pos rfl, dropped]
    rcases s.get? k with _ | c
    · rfl
    · by_cases hc : c.refcnt ≤ 1
      · have hz : c.refcnt - 1 ≤ 0 := by omega
        simp [hc, hz]
      · have hz : ¬ c.refcnt - 1 ≤ 0 := by omega
        simp [hc, hz]
  rw [hsel, hupd] at hsum
  change Table.total _ _ = _
  rw [release]
  omega

end Store

end Lib
