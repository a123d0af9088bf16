import Mathlib.Data.List.Nodup
import Mathlib.Data.List.Basic
import Mathlib.Tactic.Basic

/-!
# Keyed tables

A `Table κ ρ` is a list of rows under a primary key: the structure carries the proof that no key
occurs twice. The operations are the ones SQL has on such a table, and each has a lemma that says
what it does to `get?` and, for tables whose value is a reference, to the number of rows that hold
a given value (`count`).
-/

namespace Lib

/-- Rows under a primary key. -/
structure Table (κ ρ : Type) where
  /-- The rows, in the order they were inserted. -/
  rows : List (κ × ρ)
  /-- No key occurs twice. -/
  nodup : (rows.map Prod.fst).Nodup

namespace Table

variable {κ ρ : Type} [DecidableEq κ]

/-- The table without rows. -/
def empty : Table κ ρ := ⟨[], List.nodup_nil⟩

/-- The row with key `k`. -/
def get? (t : Table κ ρ) (k : κ) : Option ρ := (t.rows.find? fun r => r.1 = k).map Prod.snd

/-- Whether there is a row with key `k`. -/
def has (t : Table κ ρ) (k : κ) : Bool := (t.get? k).isSome

/-- Add a row; a row that has the key already stays as it is (`INSERT OR IGNORE`). -/
def insertIgnore (t : Table κ ρ) (k : κ) (r : ρ) : Table κ ρ :=
  if h : k ∈ t.rows.map Prod.fst then t
  else ⟨t.rows ++ [(k, r)], by
    rw [List.map_append]
    exact t.nodup.append (List.nodup_singleton _) (by simpa using h)⟩

/-- Set the row with key `k`, whether there is one or not (`INSERT OR REPLACE`). -/
def put (t : Table κ ρ) (k : κ) (r : ρ) : Table κ ρ :=
  ⟨(t.rows.filter fun r' => r'.1 ≠ k) ++ [(k, r)], by
    rw [List.map_append]
    exact (t.nodup.sublist (List.filter_sublist.map Prod.fst)).append (List.nodup_singleton _)
      (by simp)⟩

/-- Remove the rows `f` selects. -/
def deleteWhere (t : Table κ ρ) (f : κ → ρ → Bool) : Table κ ρ :=
  ⟨t.rows.filter fun r => !f r.1 r.2, t.nodup.sublist (List.filter_sublist.map Prod.fst)⟩

/-- The rows `f` selects. -/
def select (t : Table κ ρ) (f : κ → ρ → Bool) : List (κ × ρ) := t.rows.filter fun r => f r.1 r.2

/-- Change the row with key `k`, if there is one. -/
def update (t : Table κ ρ) (k : κ) (f : ρ → ρ) : Table κ ρ :=
  ⟨t.rows.map fun r => if r.1 = k then (r.1, f r.2) else r, by
    have : (t.rows.map fun r => if r.1 = k then (r.1, f r.2) else r).map Prod.fst =
        t.rows.map Prod.fst := by
      rw [List.map_map]
      apply List.map_congr_left
      intro r _
      by_cases h : r.1 = k <;> simp [h]
    rw [this]
    exact t.nodup⟩

/-- Change every row. -/
def mapRows {ρ' : Type} (t : Table κ ρ) (f : κ → ρ → ρ') : Table κ ρ' :=
  ⟨t.rows.map fun r => (r.1, f r.1 r.2), by
    rw [List.map_map]
    exact t.nodup⟩

/-- Change the keys; `none` when two rows would get the same one. -/
def rekey (t : Table κ ρ) (g : κ → κ) : Option (Table κ ρ) :=
  if h : ((t.rows.map fun r => (g r.1, r.2)).map Prod.fst).Nodup then
    some ⟨t.rows.map fun r => (g r.1, r.2), h⟩
  else none

/-! ## Lookups -/

/-- A lookup finds exactly the rows of the table. -/
theorem get?_eq_some_iff {t : Table κ ρ} {k : κ} {r : ρ} :
    t.get? k = some r ↔ (k, r) ∈ t.rows := by
  obtain ⟨rows, hnd⟩ := t
  simp only [get?]
  induction rows with
  | nil => simp
  | cons a rows ih =>
    obtain ⟨hne, hnd'⟩ := List.nodup_cons.1 (by simpa using hnd : (a.1 :: rows.map Prod.fst).Nodup)
    by_cases h : a.1 = k
    · rw [List.find?_cons_of_pos (by simpa using h)]
      simp only [Option.map_some, Option.some.injEq, List.mem_cons]
      constructor
      · intro hr
        exact Or.inl (by rw [← h, ← hr])
      · rintro (hr | hmem)
        · rw [← hr]
        · exact absurd (List.mem_map_of_mem (f := Prod.fst) hmem) (by rw [← h]; exact hne)
    · rw [List.find?_cons_of_neg (by simpa using h), ih hnd']
      simp only [List.mem_cons]
      constructor
      · exact Or.inr
      · rintro (hr | hmem)
        · exact absurd (by rw [← hr]) h
        · exact hmem

/-- The keys of the rows are those a lookup finds. -/
theorem mem_keys_iff {t : Table κ ρ} {k : κ} :
    k ∈ t.rows.map Prod.fst ↔ ∃ r, t.get? k = some r := by
  rw [List.mem_map]
  constructor
  · rintro ⟨⟨k, r⟩, hmem, rfl⟩
    exact ⟨r, get?_eq_some_iff.2 hmem⟩
  · rintro ⟨r, hr⟩
    exact ⟨(k, r), get?_eq_some_iff.1 hr, rfl⟩

/-- A key has no row exactly when it is not among the keys. -/
theorem get?_eq_none_iff {t : Table κ ρ} {k : κ} :
    t.get? k = none ↔ k ∉ t.rows.map Prod.fst := by
  constructor
  · intro h hk
    obtain ⟨⟨_, r⟩, hmem, rfl⟩ := List.mem_map.1 hk
    rw [get?_eq_some_iff.2 hmem] at h
    cases h
  · intro h
    cases hk : t.get? k with
    | none => rfl
    | some r => exact absurd (List.mem_map_of_mem (f := Prod.fst) (get?_eq_some_iff.1 hk)) h

/-- A table has a key iff it has a record there. -/
@[simp] theorem has_eq_true {t : Table κ ρ} {k : κ} : t.has k = true ↔ ∃ r, t.get? k = some r := by
  rw [has, Option.isSome_iff_exists]

/-- A table lacks a key iff it has no record there. -/
@[simp] theorem has_eq_false {t : Table κ ρ} {k : κ} : t.has k = false ↔ t.get? k = none := by
  simp [has]

/-- A key that is lacking has no record. -/
theorem get?_of_not_has {t : Table κ ρ} {k : κ} (h : ¬ t.has k = true) : t.get? k = none :=
  has_eq_false.1 (Bool.eq_false_iff.2 h)

/-- The empty table has no record. -/
@[simp] theorem get?_empty (k : κ) : (empty : Table κ ρ).get? k = none := rfl

/-- The rows selected by their key are the one that has it. -/
theorem select_key (t : Table κ ρ) (k : κ) :
    (t.select fun k' _ => k' = k) = (t.get? k).toList.map (Prod.mk k) := by
  obtain ⟨rows, hnd⟩ := t
  simp only [select, get?]
  induction rows with
  | nil => rfl
  | cons a rows ih =>
    obtain ⟨hne, hnd'⟩ := List.nodup_cons.1 (by simpa using hnd : (a.1 :: rows.map Prod.fst).Nodup)
    by_cases h : a.1 = k
    · rw [List.find?_cons_of_pos (by simpa using h), List.filter_cons_of_pos (by simpa using h)]
      have hrest : (rows.filter fun r => r.1 = k) = [] := by
        rw [List.filter_eq_nil_iff]
        intro r hr hrk
        rw [decide_eq_true_eq] at hrk
        exact hne (List.mem_map.2 ⟨r, hr, hrk.trans h.symm⟩)
      rw [hrest, ← h]
      rfl
    · rw [List.find?_cons_of_neg (by simpa using h), List.filter_cons_of_neg (by simpa using h)]
      exact ih hnd'

/-- An insert under a key in use changes nothing. -/
theorem insertIgnore_of_get? {t : Table κ ρ} {k : κ} {r r' : ρ} (h : t.get? k = some r') :
    t.insertIgnore k r = t := by
  have hk : k ∈ t.rows.map Prod.fst := List.mem_map_of_mem (f := Prod.fst) (get?_eq_some_iff.1 h)
  simp only [insertIgnore, hk, dite_true]

/-- An insert under a free key appends its row. -/
theorem rows_insertIgnore {t : Table κ ρ} {k : κ} {r : ρ} (h : t.get? k = none) :
    (t.insertIgnore k r).rows = t.rows ++ [(k, r)] := by
  simp only [insertIgnore, get?_eq_none_iff.1 h, dite_false]

/-- An insert gives its record to a key that had none and leaves the others. -/
theorem get?_insertIgnore (t : Table κ ρ) (k k' : κ) (r : ρ) :
    (t.insertIgnore k r).get? k' = if k' = k then some ((t.get? k).getD r) else t.get? k' := by
  cases hk : t.get? k with
  | some r' =>
    rw [insertIgnore_of_get? hk]
    split_ifs with h
    · rw [h, hk, Option.getD_some]
    · rfl
  | none =>
    rw [get?, get?, rows_insertIgnore hk, List.find?_append, Option.map_or]
    split_ifs with h
    · subst h
      rw [← get?, hk]
      simp
    · simp [Ne.symm h]

/-- A delete takes out the records it selects and leaves the others. -/
theorem get?_deleteWhere (t : Table κ ρ) (f : κ → ρ → Bool) (k : κ) :
    (t.deleteWhere f).get? k = (t.get? k).filter fun r => !f k r := by
  ext r
  simp only [get?_eq_some_iff, deleteWhere, List.mem_filter, Option.filter_eq_some_iff]

/-- A lookup after a row was set. -/
theorem get?_put (t : Table κ ρ) (k k' : κ) (r : ρ) :
    (t.put k r).get? k' = if k' = k then some r else t.get? k' := by
  ext r'
  rw [get?_eq_some_iff, put, List.mem_append, List.mem_filter, List.mem_singleton]
  by_cases hk : k' = k
  · subst hk
    simp [eq_comm]
  · simp [hk, get?_eq_some_iff]

/-- A lookup after rows were deleted by their key. -/
theorem get?_deleteWhere_key (t : Table κ ρ) (f : κ → Bool) (k : κ) :
    (t.deleteWhere fun k _ => f k).get? k = if f k = true then none else t.get? k := by
  rw [get?_deleteWhere]
  rcases t.get? k with _ | r
  · simp
  · cases hf : f k with
    | true => simp [Option.filter]
    | false => simp [Option.filter]

/-- An update changes the record of its key and leaves the others. -/
theorem get?_update (t : Table κ ρ) (k k' : κ) (f : ρ → ρ) :
    (t.update k f).get? k' = if k' = k then (t.get? k).map f else t.get? k' := by
  ext r
  rw [get?_eq_some_iff]
  simp only [update, List.mem_map]
  -- At the key the row is the old one with `f` applied, elsewhere it is the old one.
  split_ifs with h
  · subst h
    rw [Option.map_eq_some_iff]
    constructor
    · rintro ⟨⟨a, b⟩, hmem, he⟩
      by_cases ha : a = k'
      · subst ha
        rw [if_pos rfl] at he
        cases he
        exact ⟨b, get?_eq_some_iff.2 hmem, rfl⟩
      · rw [if_neg ha] at he
        cases he
        exact absurd rfl ha
    · rintro ⟨b, hb, rfl⟩
      exact ⟨(k', b), get?_eq_some_iff.1 hb, by rw [if_pos rfl]⟩
  · rw [get?_eq_some_iff]
    constructor
    · rintro ⟨⟨a, b⟩, hmem, he⟩
      by_cases ha : a = k
      · rw [if_pos ha] at he
        cases he
        exact absurd ha h
      · rw [if_neg ha] at he
        rw [← he]
        exact hmem
    · intro hmem
      exact ⟨(k', r), hmem, by rw [if_neg h]⟩

/-- After an update a lookup is the lookup before, changed at the key. -/
theorem get?_update_eq_map (t : Table κ ρ) (k k' : κ) (f : ρ → ρ) :
    (t.update k f).get? k' = (t.get? k').map fun r => if k' = k then f r else r := by
  rw [get?_update]
  split_ifs with h
  · rw [h]
  · exact Option.map_id'.symm

/-- A lookup after a change of keys: the rows are the old ones, under their new keys. -/
theorem get?_rekey {t t' : Table κ ρ} {g : κ → κ} (h : t.rekey g = some t') {k' : κ} {r : ρ} :
    t'.get? k' = some r ↔ ∃ k, g k = k' ∧ t.get? k = some r := by
  unfold rekey at h
  split_ifs at h
  cases h
  simp only [get?_eq_some_iff, List.mem_map, Prod.mk.injEq, Prod.exists]
  constructor
  · rintro ⟨k, r', hmem, hk, rfl⟩
    exact ⟨k, hk, hmem⟩
  · rintro ⟨k, hk, hmem⟩
    exact ⟨k, r, hmem, hk, rfl⟩

/-- Renaming keys succeeds only when the new keys are different. -/
theorem rekey_inj {t t' : Table κ ρ} {g : κ → κ} (h : t.rekey g = some t') {k k' : κ} {r r' : ρ}
    (hk : t.get? k = some r) (hk' : t.get? k' = some r') (he : g k = g k') : k = k' := by
  unfold rekey at h
  split_ifs at h with hnodup
  rw [List.map_map] at hnodup
  have heq := List.inj_on_of_nodup_map hnodup (get?_eq_some_iff.1 hk) (get?_eq_some_iff.1 hk') he
  exact congrArg Prod.fst heq

/-- A row can get a key that is free. -/
theorem exists_rekey {t : Table κ ρ} {old new : κ} (h : old = new ∨ t.get? new = none) :
    ∃ t', t.rekey (fun k => if k = old then new else k) = some t' := by
  have hkeys : (t.rows.map fun r => ((if r.1 = old then new else r.1), r.2)).map Prod.fst =
      (t.rows.map Prod.fst).map fun k => if k = old then new else k := by
    rw [List.map_map, List.map_map]
    rfl
  have hnodup :
    ((t.rows.map fun r => ((if r.1 = old then new else r.1), r.2)).map Prod.fst).Nodup := by
    rw [hkeys]
    refine t.nodup.map_on fun a ha b hb hab => ?_
    rcases h with rfl | hfree
    · split_ifs at hab with h1 h2 h2 <;> simp_all
    · have hnew : new ∉ t.rows.map Prod.fst := get?_eq_none_iff.1 hfree
      split_ifs at hab with h1 h2 h2
      · rw [h1, h2]
      · exact absurd (hab ▸ hb) hnew
      · exact absurd (hab ▸ ha) hnew
      · exact hab
  exact ⟨_, dif_pos hnodup⟩

/-! ## Changed rows -/

/-- A map over the rows changes the record of each key. -/
theorem get?_mapRows {ρ' : Type} (t : Table κ ρ) (f : κ → ρ → ρ') (k : κ) :
    (t.mapRows f).get? k = (t.get? k).map (f k) := by
  ext r
  rw [get?_eq_some_iff, Option.map_eq_some_iff, mapRows, List.mem_map]
  constructor
  · rintro ⟨⟨k', r'⟩, hr, he⟩
    cases he
    exact ⟨r', get?_eq_some_iff.2 hr, rfl⟩
  · rintro ⟨r', hr, rfl⟩
    exact ⟨(k, r'), get?_eq_some_iff.1 hr, rfl⟩

omit [DecidableEq κ] in
/-- What is selected from changed rows is selected before the change. -/
theorem select_mapRows {ρ' : Type} (t : Table κ ρ) (f : κ → ρ → ρ') (p : κ → ρ' → Bool) :
    (t.mapRows f).select p = (t.select fun k r => p k (f k r)).map fun r => (r.1, f r.1 r.2) := by
  rw [select, select, mapRows, List.filter_map]
  rfl

omit [DecidableEq κ] in
/-- A table is its rows. -/
theorem eq_of_rows {t t' : Table κ ρ} (h : t.rows = t'.rows) : t = t' := by
  obtain ⟨rows, hnd⟩ := t
  obtain ⟨rows', hnd'⟩ := t'
  simp only at h
  subst h
  rfl

/-- Two maps that agree on the records of a table agree on the table. -/
theorem mapRows_congr {ρ' : Type} {t : Table κ ρ} {f g : κ → ρ → ρ'}
    (h : ∀ k r, t.get? k = some r → f k r = g k r) : t.mapRows f = t.mapRows g := by
  refine eq_of_rows (List.map_congr_left fun r hr => ?_)
  rw [h r.1 r.2 (get?_eq_some_iff.2 hr)]

omit [DecidableEq κ] in
/-- Two maps over the rows are one. -/
theorem mapRows_mapRows {ρ' ρ'' : Type} (t : Table κ ρ) (f : κ → ρ → ρ') (g : κ → ρ' → ρ'') :
    (t.mapRows f).mapRows g = t.mapRows fun k r => g k (f k r) := by
  refine eq_of_rows ?_
  simp only [mapRows, List.map_map]
  rfl

omit [DecidableEq κ] in
/-- Mapping every record to itself changes nothing. -/
theorem mapRows_self (t : Table κ ρ) :
    (t.mapRows fun _ r => r) = t := eq_of_rows (List.map_id t.rows)

/-- To change the row of a key is to change every row, the others by nothing. -/
theorem update_eq_mapRows (t : Table κ ρ) (k : κ) (f : ρ → ρ) :
    t.update k f = t.mapRows fun k' r => if k' = k then f r else r := by
  refine eq_of_rows (List.map_congr_left fun r _ => ?_)
  show _ = (r.1, if r.1 = k then f r.2 else r.2)
  by_cases h : r.1 = k
  · rw [if_pos h, if_pos h]
  · rw [if_neg h, if_neg h]

/-- Two changes of a row are one change. -/
theorem update_update (t : Table κ ρ) (k : κ) (f g : ρ → ρ) :
    (t.update k f).update k g = t.update k (g ∘ f) := by
  rw [update_eq_mapRows, update_eq_mapRows, update_eq_mapRows, mapRows_mapRows]
  refine mapRows_congr fun k' r _ => ?_
  by_cases h : k' = k
  · rw [if_pos h, if_pos h, if_pos h]
    rfl
  · rw [if_neg h, if_neg h, if_neg h]

/-- A row that is added and changed is added as it is after the change. -/
theorem update_insertIgnore {t : Table κ ρ} {k : κ} (h : t.get? k = none) (r : ρ) (f : ρ → ρ) :
    (t.insertIgnore k r).update k f = t.insertIgnore k (f r) := by
  have hkeys : ∀ x ∈ t.rows, x.1 ≠ k := by
    rintro x hx rfl
    exact get?_eq_none_iff.1 h (List.mem_map_of_mem hx)
  have hrest : (t.rows.map fun x => if x.1 = k then (x.1, f x.2) else x) = t.rows := by
    rw [List.map_congr_left fun x hx => if_neg (hkeys x hx), List.map_id']
  refine eq_of_rows ?_
  unfold update
  dsimp only
  rw [rows_insertIgnore h, rows_insertIgnore h, List.map_append, hrest, List.map_singleton,
    if_pos rfl]

/-! ## Counting the rows that hold a value -/

variable [DecidableEq ρ]

/-- The number of rows whose value is `v`. -/
def count (t : Table κ ρ) (v : ρ) : ℕ := (t.rows.map Prod.snd).count v

omit [DecidableEq κ] in
/-- The empty table has no record of any value. -/
@[simp] theorem count_empty (v : ρ) : (empty : Table κ ρ).count v = 0 := rfl

/-- A value is held by some row exactly when its count is positive. -/
theorem count_pos_iff {t : Table κ ρ} {v : ρ} : 0 < t.count v ↔ ∃ k, t.get? k = some v := by
  rw [count, List.count_pos_iff, List.mem_map]
  constructor
  · rintro ⟨⟨k, _⟩, hmem, rfl⟩
    exact ⟨k, get?_eq_some_iff.2 hmem⟩
  · rintro ⟨k, hk⟩
    exact ⟨(k, v), get?_eq_some_iff.1 hk, rfl⟩

/-- A row inserted under a free key is counted once more. -/
theorem count_insertIgnore {t : Table κ ρ} {k : κ} {r : ρ} (h : t.get? k = none) (v : ρ) :
    (t.insertIgnore k r).count v = t.count v + if r = v then 1 else 0 := by
  rw [count, count, rows_insertIgnore h, List.map_append, List.count_append]
  simp [List.count_singleton]

omit [DecidableEq κ] in
/-- The rows of a table are those a delete leaves and those it takes. -/
theorem count_deleteWhere (t : Table κ ρ) (f : κ → ρ → Bool) (v : ρ) :
    (t.deleteWhere f).count v + ((t.select f).map Prod.snd).count v = t.count v := by
  simp only [count, deleteWhere, select]
  induction t.rows with
  | nil => rfl
  | cons a rows ih =>
    by_cases h : f a.1 a.2
    · simp only [h, Bool.not_true, Bool.false_eq_true, not_false_eq_true, List.filter_cons_of_neg,
        List.filter_cons_of_pos, List.map_cons, List.count_cons]
      omega
    · simp only [h, Bool.not_false, Bool.false_eq_true, not_false_eq_true, List.filter_cons_of_neg,
        List.filter_cons_of_pos, List.map_cons, List.count_cons]
      omega

/-- Two rows with one value count twice. -/
theorem two_le_count {t : Table κ ρ} {k k' : κ} {v : ρ} (hne : k' ≠ k) (h : t.get? k = some v)
    (h' : t.get? k' = some v) : 2 ≤ t.count v := by
  have hsum := count_deleteWhere t (fun a _ => a = k) v
  have hrest : 0 < (t.deleteWhere fun a _ => a = k).count v := by
    refine count_pos_iff.2 ⟨k', ?_⟩
    rw [get?_deleteWhere, h']
    simp [hne]
  rw [select_key, h] at hsum
  simp only [Option.toList_some, List.map_cons, List.map_nil, List.count_cons_self,
    List.count_nil] at hsum
  omega

/-- A value that only one key holds. -/
theorem count_le_one {t : Table κ ρ} {k : κ} {v : ρ} (h : ∀ k', t.get? k' = some v → k' = k) :
    t.count v ≤ 1 := by
  have hsum := count_deleteWhere t (fun a _ => a = k) v
  have hrest : (t.deleteWhere fun a _ => a = k).count v = 0 := by
    by_contra hpos
    obtain ⟨k', hk'⟩ := count_pos_iff.1 (Nat.pos_of_ne_zero hpos)
    rw [get?_deleteWhere, Option.filter_eq_some_iff] at hk'
    simp [h k' hk'.1] at hk'
  have hone : (((t.select fun a _ => a = k).map Prod.snd).count v) ≤ 1 := by
    rw [select_key]
    rcases t.get? k with _ | w
    · simp
    · exact Nat.le_trans List.count_le_length (by simp)
  omega

/-- A change of keys leaves every value's count. -/
theorem count_rekey {t t' : Table κ ρ} {g : κ → κ} (h : t.rekey g = some t') (v : ρ) :
    t'.count v = t.count v := by
  unfold rekey at h
  split_ifs at h
  cases h
  simp only [count, List.map_map]
  rfl

end Table

end Lib
