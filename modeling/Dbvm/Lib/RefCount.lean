import Mathlib.Tactic.Linarith
import Dbvm.Lib.Table

/-!
# Reference counts that free on zero

A `Store` keeps each value with the number of references to it. `acquire` counts one more reference
and `release` one fewer, and a value is dropped the moment its count falls to zero. `Exact refs`
says that the stored counts are the true ones, `refs k` being the number of references to `k` that
exist elsewhere; `Tight Z` says that no value outside `Z` is kept at count zero. A value that still
has a reference keeps its bytes through any number of releases (`releaseAll_keeps`).
-/

namespace Lib

/-- A stored value and the number of references to it. -/
structure Cell (β : Type) where
  /-- The value. -/
  val : β
  /-- The stored count. -/
  refcnt : ℤ

/-- Values under their keys, each with its count. -/
abbrev Store (κ β : Type) := Table κ (Cell β)

namespace Store

variable {κ β : Type} [DecidableEq κ]

/-- One more reference to `k`. Nothing happens when `k` is not stored. -/
def acquire (s : Store κ β) (k : κ) : Store κ β :=
  s.update k fun c => { c with refcnt := c.refcnt + 1 }

/-- One reference to `k` fewer; the value is dropped when none is left. -/
def release (s : Store κ β) (k : κ) : Store κ β :=
  (s.update k fun c => { c with refcnt := c.refcnt - 1 }).deleteWhere
    fun k' c => k' = k && c.refcnt ≤ 0

/-- One reference fewer for each key of a list. -/
def releaseAll (s : Store κ β) (ks : List κ) : Store κ β := ks.foldl release s

/-! ## Lookups -/

/-- An acquire counts one more reference at its key. -/
theorem get?_acquire (s : Store κ β) (k k' : κ) :
    (s.acquire k).get? k' =
      if k' = k then (s.get? k).map fun c => { c with refcnt := c.refcnt + 1 } else s.get? k' :=
  Table.get?_update s k k' _

/-- A release leaves the other keys alone. -/
theorem get?_release_of_ne (s : Store κ β) {k k' : κ} (h : k' ≠ k) :
    (s.release k).get? k' = s.get? k' := by
  rw [release, Table.get?_deleteWhere, Table.get?_update, if_neg h]
  cases s.get? k' with
  | none => rfl
  | some c => simp [h]

/-- A release counts one reference less, and the last one removes the cell. -/
theorem get?_release_self (s : Store κ β) (k : κ) :
    (s.release k).get? k = (s.get? k).bind fun c =>
      if c.refcnt ≤ 1 then none else some { c with refcnt := c.refcnt - 1 } := by
  rw [release, Table.get?_deleteWhere, Table.get?_update, if_pos rfl]
  cases s.get? k with
  | none => rfl
  | some c =>
    by_cases h : c.refcnt ≤ 1
    · simp [h]
    · simp [h]

/-- A value that is there after a release was there before, with one reference more when it is the
released one. -/
theorem get?_of_release {s : Store κ β} {k k' : κ} {c' : Cell β}
    (h : (s.release k).get? k' = some c') :
    ∃ c, s.get? k' = some c ∧ c'.val = c.val ∧ c'.refcnt = c.refcnt - (if k' = k then 1 else 0) ∧
      (k' = k → 0 < c'.refcnt) := by
  by_cases hk : k' = k
  · subst hk
    rw [get?_release_self] at h
    obtain ⟨c, hc, hif⟩ := Option.bind_eq_some_iff.1 h
    split_ifs at hif with hle
    cases hif
    refine ⟨c, hc, rfl, by simp, fun _ => ?_⟩
    show 0 < c.refcnt - 1
    omega
  · rw [get?_release_of_ne s hk] at h
    exact ⟨c', h, rfl, by simp [hk], fun h' => absurd h' hk⟩

/-- A value with more references than are released stays, with its bytes. -/
theorem releaseAll_keeps (ks : List κ) : ∀ {s : Store κ β} {k : κ} {c : Cell β},
    s.get? k = some c → (ks.count k : ℤ) < c.refcnt →
      ∃ c', (s.releaseAll ks).get? k = some c' ∧ c'.val = c.val := by
  induction ks with
  | nil => exact fun h _ => ⟨_, h, rfl⟩
  | cons a ks ih =>
    intro s k c hc hlt
    by_cases ha : k = a
    · subst ha
      rw [List.count_cons_self] at hlt
      push_cast at hlt
      have hc' : (s.release k).get? k = some { c with refcnt := c.refcnt - 1 } := by
        rw [get?_release_self, hc, Option.bind_some, if_neg (by omega)]
      obtain ⟨c'', h1, h2⟩ := ih hc' (by show (ks.count k : ℤ) < c.refcnt - 1; omega)
      exact ⟨c'', h1, h2⟩
    · rw [List.count_cons_of_ne (Ne.symm ha)] at hlt
      have hc' : (s.release a).get? k = some c := by rw [get?_release_of_ne s ha, hc]
      exact ih hc' hlt

/-- A value that is not released stays as it is. -/
theorem get?_releaseAll_of_not_mem (ks : List κ) : ∀ {s : Store κ β} {k : κ}, k ∉ ks →
    (s.releaseAll ks).get? k = s.get? k := by
  induction ks with
  | nil => exact fun _ => rfl
  | cons a ks ih =>
    intro s k hk
    rw [List.mem_cons, not_or] at hk
    exact (ih hk.2).trans (get?_release_of_ne s hk.1)

/-- A value that is there after releases was there before, with the same bytes. -/
theorem get?_of_releaseAll (ks : List κ) : ∀ {s : Store κ β} {k : κ} {c' : Cell β},
    (s.releaseAll ks).get? k = some c' → ∃ c, s.get? k = some c ∧ c'.val = c.val := by
  induction ks with
  | nil => exact fun h => ⟨_, h, rfl⟩
  | cons a ks ih =>
    intro s k c' h
    obtain ⟨c₁, h₁, hv₁⟩ := ih (s := s.release a) h
    obtain ⟨c, hc, hv, -⟩ := get?_of_release h₁
    exact ⟨c, hc, hv₁.trans hv⟩

/-- A value that is not stored is not stored after releases. -/
theorem get?_releaseAll_of_none (ks : List κ) {s : Store κ β} {k : κ} (h : s.get? k = none) :
    (s.releaseAll ks).get? k = none := by
  rcases hc : (s.releaseAll ks).get? k with _ | c
  · rfl
  · obtain ⟨c', hc', -⟩ := get?_of_releaseAll ks hc
    rw [h] at hc'
    cases hc'

/-! ## Exact counts -/

/-- The stored counts are the numbers of references `refs`, and what is not stored has none. -/
structure Exact (refs : κ → ℕ) (s : Store κ β) : Prop where
  /-- A key that is not stored has no reference. -/
  absent : ∀ k, s.get? k = none → refs k = 0
  /-- A stored count is the number of references. -/
  count : ∀ k c, s.get? k = some c → c.refcnt = refs k

/-- No value outside `Z` is stored without a reference. -/
def Tight (Z : κ → Prop) (s : Store κ β) : Prop :=
  ∀ k c, s.get? k = some c → ¬ Z k → 0 < c.refcnt

variable {refs refs' : κ → ℕ} {s : Store κ β} {Z : κ → Prop}

/-- What is referenced is stored. -/
theorem Exact.get?_of_pos (h : Exact refs s) {k : κ} (hk : 0 < refs k) :
    ∃ c, s.get? k = some c := by
  cases hc : s.get? k with
  | some c => exact ⟨c, rfl⟩
  | none => exact absurd (h.absent k hc) (by omega)

/-- A reference to a stored value keeps the counts exact. -/
theorem Exact.acquire (h : Exact refs s) {k : κ} {c : Cell β} (hk : s.get? k = some c)
    (hr : ∀ k', refs' k' = refs k' + if k' = k then 1 else 0) : Exact refs' (s.acquire k) := by
  constructor
  · intro k' hn
    rw [get?_acquire] at hn
    split_ifs at hn with hkk
    · rw [hk] at hn
      cases hn
    · rw [hr, if_neg hkk, h.absent k' hn]
  · intro k' c' hc'
    rw [get?_acquire] at hc'
    split_ifs at hc' with hkk
    · rw [hk] at hc'
      cases hc'
      rw [hr, if_pos hkk, hkk]
      push_cast
      rw [h.count k c hk]
    · rw [hr, if_neg hkk, h.count k' c' hc']
      simp

/-- The release of a reference that existed keeps the counts exact. -/
theorem Exact.release (h : Exact refs s) {k : κ}
    (hr : ∀ k', refs k' = refs' k' + if k' = k then 1 else 0) : Exact refs' (s.release k) := by
  have hk := hr k
  rw [if_pos rfl] at hk
  obtain ⟨c, hc⟩ := h.get?_of_pos (k := k) (by omega)
  have hcnt := h.count k c hc
  constructor
  · intro k' hn
    by_cases hkk : k' = k
    · subst hkk
      rw [get?_release_self, hc, Option.bind_some] at hn
      split_ifs at hn with hle
      omega
    · rw [get?_release_of_ne s hkk] at hn
      have := hr k'
      rw [if_neg hkk, h.absent k' hn] at this
      omega
  · intro k' c' hc'
    obtain ⟨c₁, h₁, -, hcnt', -⟩ := get?_of_release hc'
    rw [hcnt', h.count k' c₁ h₁, hr k']
    push_cast
    split_ifs <;> omega

/-- The release of a list of references that existed keeps the counts exact. -/
theorem Exact.releaseAll (ks : List κ) : ∀ {refs : κ → ℕ} {s : Store κ β}, Exact refs s →
    (∀ k', refs k' = refs' k' + ks.count k') → Exact refs' (s.releaseAll ks) := by
  induction ks with
  | nil =>
    intro refs s h hr
    have : refs = refs' := funext fun k' => by simpa using hr k'
    rw [← this]
    exact h
  | cons a ks ih =>
    intro refs s h hr
    have hrel : Exact (fun k' => refs' k' + ks.count k') (s.release a) := by
      refine h.release fun k' => ?_
      rw [hr k', List.count_cons]
      rcases eq_or_ne k' a with hka | hka
      · simp [hka, Nat.add_assoc]
      · simp [hka, Ne.symm hka]
    exact ih hrel fun _ => rfl

/-! ## No value without a reference -/

/-- A release leaves no value at count zero that was not allowed to be. -/
theorem Tight.release (h : Tight Z s) (k : κ) : Tight Z (s.release k) := by
  intro k' c' hc' hZ
  obtain ⟨c, hc, -, hcnt, hpos⟩ := get?_of_release hc'
  by_cases hk : k' = k
  · exact hpos hk
  · rw [hcnt, if_neg hk]
    have := h k' c hc hZ
    omega

/-- Releases leave no cell without a reference but those that may be. -/
theorem Tight.releaseAll (ks : List κ) :
    ∀ {s : Store κ β}, Tight Z s → Tight Z (s.releaseAll ks) := by
  induction ks with
  | nil => exact fun h => h
  | cons a ks ih => exact fun h => ih (h.release a)

/-- A new reference makes its value one that may not be at zero. -/
theorem Tight.acquire (h : Tight Z s) {k : κ} (hk : ∀ c, s.get? k = some c → 0 ≤ c.refcnt) :
    Tight (fun k' => Z k' ∧ k' ≠ k) (s.acquire k) := by
  intro k' c' hc' hZ
  rw [get?_acquire] at hc'
  split_ifs at hc' with hkk
  · obtain ⟨c, hc, rfl⟩ := Option.map_eq_some_iff.1 hc'
    have := hk c hc
    show 0 < c.refcnt + 1
    omega
  · exact h k' c' hc' fun hz => hZ ⟨hz, hkk⟩

/-- A value stored without a reference is allowed to be at zero, and no other. -/
theorem Tight.insert (h : Tight Z s) (k : κ) (v : β) :
    Tight (fun k' => Z k' ∨ k' = k) (s.insertIgnore k ⟨v, 0⟩) := by
  intro k' c' hc' hZ
  rw [not_or] at hZ
  rw [Table.get?_insertIgnore, if_neg hZ.2] at hc'
  exact h k' c' hc' hZ.1

/-- More cells may be without a reference. -/
theorem Tight.mono {Z' : κ → Prop} (h : Tight Z s) (hZ : ∀ k, Z k → Z' k) : Tight Z' s :=
  fun k c hc hn => h k c hc fun hz => hn (hZ k hz)

/-- No stored count is negative. -/
def Nonneg (s : Store κ β) : Prop := ∀ k c, s.get? k = some c → 0 ≤ c.refcnt

/-- An acquire makes no count negative. -/
theorem Nonneg.acquire (h : Nonneg s) (k : κ) : Nonneg (s.acquire k) := by
  intro k' c' hc'
  rw [get?_acquire] at hc'
  split_ifs at hc'
  · obtain ⟨c, hc, rfl⟩ := Option.map_eq_some_iff.1 hc'
    exact Int.add_nonneg (h k c hc) Int.one_nonneg
  · exact h k' c' hc'

/-- Releases make no count negative: the last one removes the cell. -/
theorem Nonneg.releaseAll (ks : List κ) :
    ∀ {s : Store κ β}, Nonneg s → Nonneg (s.releaseAll ks) := by
  induction ks with
  | nil => exact fun h => h
  | cons a ks ih =>
    refine fun {s} h => ih fun k' c' hc' => ?_
    obtain ⟨c, hc, -, hcnt, hpos⟩ := get?_of_release hc'
    by_cases hk : k' = a
    · exact le_of_lt (hpos hk)
    · rw [hcnt, if_neg hk, sub_zero]
      exact h k' c hc

/-- A new cell starts at zero. -/
theorem Nonneg.insert (h : Nonneg s) (k : κ) (v : β) : Nonneg (s.insertIgnore k ⟨v, 0⟩) := by
  intro k' c' hc'
  rw [Table.get?_insertIgnore] at hc'
  split_ifs at hc'
  · rcases hk : s.get? k with _ | c
    · rw [hk] at hc'
      cases hc'
      exact le_refl _
    · rw [hk] at hc'
      cases hc'
      exact h k c hk
  · exact h k' c' hc'

/-- A value stored without a reference keeps the counts exact, when there was none. -/
theorem Exact.insert (h : Exact refs s) {k : κ} (hk : s.get? k = none) (v : β) :
    Exact refs (s.insertIgnore k ⟨v, 0⟩) := by
  constructor
  · intro k' hn
    rw [Table.get?_insertIgnore] at hn
    split_ifs at hn with hkk
    exact h.absent k' hn
  · intro k' c' hc'
    rw [Table.get?_insertIgnore] at hc'
    split_ifs at hc' with hkk
    · rw [hk] at hc'
      cases hc'
      rw [hkk, h.absent k hk]
      rfl
    · exact h.count k' c' hc'

/-! ## Stores with related values -/

/-- Two stores with the same keys and counts, whose values are related. -/
def Alike (V : κ → β → β → Prop) (s t : Store κ β) : Prop := ∀ k,
  s.get? k = none ∧ t.get? k = none ∨
    ∃ c v, s.get? k = some c ∧ t.get? k = some ⟨v, c.refcnt⟩ ∧ V k c.val v

variable {V : κ → β → β → Prop} {t : Store κ β}

/-- Stores that are alike one after the other are alike when the relation of their values is
transitive. -/
theorem Alike.trans {u : Store κ β} (hV : ∀ k v v' v'', V k v v' → V k v' v'' → V k v v'')
    (h : Alike V s t) (h' : Alike V t u) : Alike V s u := by
  intro k
  rcases h k with ⟨hs, ht⟩ | ⟨c, v, hs, ht, hv⟩
  · rcases h' k with ⟨-, hu⟩ | ⟨c', -, ht', -⟩
    · exact Or.inl ⟨hs, hu⟩
    · rw [ht] at ht'
      cases ht'
  · rcases h' k with ⟨ht', -⟩ | ⟨c', v', ht', hu, hv'⟩
    · rw [ht] at ht'
      cases ht'
    · rw [ht] at ht'
      obtain rfl := Option.some.inj ht'
      exact Or.inr ⟨c, v', hs, hu, hV _ _ _ _ hv hv'⟩

/-- Stores that are alike stay so under an acquire. -/
theorem Alike.acquire (h : Alike V s t) (k : κ) : Alike V (s.acquire k) (t.acquire k) := by
  intro k'
  rw [get?_acquire, get?_acquire]
  by_cases hk : k' = k
  · rw [if_pos hk, if_pos hk]
    rcases h k with ⟨hs, ht⟩ | ⟨c, v, hs, ht, hv⟩
    · exact Or.inl ⟨by rw [hs]; rfl, by rw [ht]; rfl⟩
    · exact Or.inr ⟨{ c with refcnt := c.refcnt + 1 }, v, by rw [hs]; rfl, by rw [ht]; rfl, hk ▸ hv⟩
  · rw [if_neg hk, if_neg hk]
    exact h k'

/-- Stores that are alike stay so under a release: they agree on the counts. -/
theorem Alike.release (h : Alike V s t) (k : κ) : Alike V (s.release k) (t.release k) := by
  intro k'
  by_cases hk : k' = k
  · subst hk
    rw [get?_release_self, get?_release_self]
    rcases h k' with ⟨hs, ht⟩ | ⟨c, v, hs, ht, hv⟩
    · exact Or.inl ⟨by rw [hs]; rfl, by rw [ht]; rfl⟩
    · rw [hs, ht, Option.bind_some, Option.bind_some]
      -- Both values are dropped or none is: the counts are the same.
      by_cases hle : c.refcnt ≤ 1
      · exact Or.inl ⟨if_pos hle, if_pos hle⟩
      · exact Or.inr ⟨_, v, if_neg hle, if_neg hle, hv⟩
  · rw [get?_release_of_ne s hk, get?_release_of_ne t hk]
    exact h k'

/-- Stores that are alike stay so under releases. -/
theorem Alike.releaseAll (ks : List κ) : ∀ {s t : Store κ β}, Alike V s t →
    Alike V (s.releaseAll ks) (t.releaseAll ks) := by
  induction ks with
  | nil => exact fun h => h
  | cons k ks ih => exact fun h => ih (h.release k)

end Store

end Lib
