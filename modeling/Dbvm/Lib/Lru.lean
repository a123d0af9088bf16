import Mathlib.Data.List.Basic
import Mathlib.Logic.Basic
import Mathlib.Tactic.Basic

/-!
# A cache of the values used last

A list of keys and values, the one used last in front. A value that is found moves to the front, and
a new value takes the place of the one used longest ago when the cache is full. What holds of every
entry of a cache holds of every entry afterwards (`Lru.All`): that is all a program that reads
through a cache needs to know.
-/

namespace Lib

variable {κ ν : Type} [DecidableEq κ]

/-- The entries, the one used last in front. -/
structure Lru (κ ν : Type) where
  /-- Keys and values. -/
  items : List (κ × ν)

namespace Lru

/-- A cache without entries. -/
def empty : Lru κ ν := ⟨[]⟩

/-- The value of a key. -/
def find? (c : Lru κ ν) (k : κ) : Option ν := (c.items.find? fun r => r.1 = k).map Prod.snd

/-- The entries of other keys. -/
def others (c : Lru κ ν) (k : κ) : List (κ × ν) := c.items.filter fun r => r.1 ≠ k

/-- The entry of a key moves to the front. -/
def promote (c : Lru κ ν) (k : κ) : Lru κ ν :=
  match c.find? k with
  | some v => ⟨(k, v) :: c.others k⟩
  | none => c

/-- A new entry, in a cache with room for `room` of them. -/
def put (room : ℕ) (c : Lru κ ν) (k : κ) (v : ν) : Lru κ ν := ⟨((k, v) :: c.others k).take room⟩

/-- What holds of every entry. -/
def All (c : Lru κ ν) (P : κ → ν → Prop) : Prop := ∀ r ∈ c.items, P r.1 r.2

variable {c : Lru κ ν} {P : κ → ν → Prop} {k : κ} {v : ν} {room : ℕ}

/-- What is found is an item. -/
theorem mem_of_find? (h : c.find? k = some v) : (k, v) ∈ c.items := by
  unfold find? at h
  obtain ⟨r, hr, rfl⟩ := Option.map_eq_some_iff.1 h
  have hkey : r.1 = k :=
    of_decide_eq_true (List.find?_some (p := fun r : κ × ν => decide (r.1 = k)) hr)
  rw [← hkey]
  exact List.mem_of_find?_eq_some hr

/-- The value that is found. -/
theorem All.find? (h : c.All P) (hv : c.find? k = some v) : P k v := h _ (mem_of_find? hv)

omit [DecidableEq κ] in
/-- The empty cache has no item. -/
theorem All.empty : (Lru.empty : Lru κ ν).All P := fun _ hr => absurd hr List.not_mem_nil

omit [DecidableEq κ] in
/-- What holds of every item may be weakened. -/
theorem All.mono {Q : κ → ν → Prop} (h : c.All P) (hPQ : ∀ k v, P k v → Q k v) : c.All Q :=
  fun r hr => hPQ _ _ (h r hr)

/-- What holds of every item holds of those of other keys. -/
theorem All.others (h : c.All P) (k : κ) : ∀ r ∈ c.others k, P r.1 r.2 :=
  fun r hr => h r (List.mem_filter.1 hr).1

/-- A hit moves an item and changes none. -/
theorem All.promote (h : c.All P) (k : κ) : (c.promote k).All P := by
  unfold Lru.promote
  rcases hv : c.find? k with _ | v
  · exact h
  · intro r hr
    rcases List.mem_cons.1 hr with rfl | hr
    · exact h.find? hv
    · exact h.others k r hr

/-- A put adds its own item and may drop others. -/
theorem All.put (h : c.All P) (hv : P k v) : (Lru.put room c k v).All P := by
  intro r hr
  rcases List.mem_cons.1 (List.mem_of_mem_take hr) with rfl | hr
  · exact hv
  · exact h.others k r hr

end Lru

end Lib
