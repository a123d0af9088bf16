import Mathlib.Logic.Basic
import Mathlib.Tactic.Basic
import Mathlib.Tactic.ByContra

/-!
# Tables with a tree shape

A table from names to kinds in which every name has a name above it. Some kinds are leaves: nothing
may be below them. `Shaped` says that what is above an entry is an entry and no leaf. A change that
is known on a set of names keeps the shape when the new entries have something to stand on and the
names that become leaves, or vanish, carry nothing (`Shaped.change`). Two tables, one in front of
the other, have a shape when the entries of the front one stand on what is seen of both and no
visible entry of the back one is below a leaf of the front one (`Layered`).
-/

namespace Lib

variable {P κ : Type} {up : P → P} {top : P} {leaf : κ → Prop} {t t' : P → Option κ}

/-- An entry that others can be below. -/
def Carries (leaf : κ → Prop) (t : P → Option κ) (p : P) : Prop := ∃ k, t p = some k ∧ ¬ leaf k

/-- Nothing is below the name. -/
def Bare (up : P → P) (top : P) (t : P → Option κ) (p : P) : Prop :=
  ∀ q, q ≠ top → up q = p → t q = none

/-- Every entry but the top is below an entry that is no leaf. -/
def Shaped (up : P → P) (top : P) (leaf : κ → Prop) (t : P → Option κ) : Prop :=
  ∀ p k, t p = some k → p ≠ top → Carries leaf t (up p)

/-- An entry that is not changed carries what it carried. -/
theorem Carries.congr {p : P} (h : Carries leaf t p) (hp : t' p = t p) : Carries leaf t' p := by
  obtain ⟨k, hk, hleaf⟩ := h
  exact ⟨k, hp.trans hk, hleaf⟩

/-- A table without entries has the shape. -/
theorem Shaped.of_empty (h : ∀ p, t p = none) : Shaped up top leaf t := by
  intro p k hp
  rw [h p] at hp
  cases hp

/-- Changing the entries of a set keeps the shape when each of them has its parent and nothing is
left below one that holds no entries. -/
theorem Shaped.change (S : P → Prop) (h : Shaped up top leaf t) (hsame : ∀ p, ¬ S p → t' p = t p)
    (hin : ∀ p k, S p → t' p = some k → p ≠ top → Carries leaf t' (up p))
    (hout : ∀ p, S p → ¬ Carries leaf t' p → Bare up top t' p) : Shaped up top leaf t' := by
  intro p k hk hp
  by_cases hS : S p
  · exact hin p k hS hk hp
  have hold : Carries leaf t (up p) := by
    rw [hsame p hS] at hk
    exact h p k hk hp
  by_cases hup : S (up p)
  · by_contra hnot
    have hnone : t' p = none := hout (up p) hup hnot p hp rfl
    rw [hnone] at hk
    cases hk
  · exact hold.congr (hsame _ hup)

/-- Writing one entry keeps the shape when its parent holds entries and nothing is below a file. -/
theorem Shaped.put {p : P} {k : κ} (h : Shaped up top leaf t) (hp : t' p = some k)
    (hsame : ∀ q, q ≠ p → t' q = t q) (hup : p ≠ top → Carries leaf t' (up p))
    (hbare : leaf k → Bare up top t' p) : Shaped up top leaf t' := by
  refine h.change (· = p) hsame ?_ ?_
  · rintro q k' rfl - hq
    exact hup hq
  · rintro q rfl hnot
    refine hbare ?_
    by_contra hleaf
    exact hnot ⟨k, hp, hleaf⟩

/-! ## A chain of entries -/

/-- Every entry of the chain is below the one before it, the first below `p`. -/
def Chain (up : P → P) : P → List P → Prop
  | _, [] => True
  | p, q :: qs => up q = p ∧ Chain up q qs

/-! ## One table in front of another -/

variable {m b m' : P → Option κ} {w w' : P → Prop}

/-- What is seen at a name: the front table's entry, else the back one's. -/
def front (m b : P → Option κ) (p : P) : Option κ := (m p).or (b p)

/-- What the upper layer has is in front. -/
theorem front_of_some {p : P} {k : κ} (h : m p = some k) : front m b p = some k := by
  rw [front, h]
  rfl

/-- Where the upper layer has nothing the lower one shows. -/
theorem front_of_none {p : P} (h : m p = none) : front m b p = b p := by
  rw [front, h]
  rfl

/-- The front table `m` stands on both, the back table `b` has the shape, and what is below a leaf
of the front table is marked in `w`. -/
structure Layered (up : P → P) (top : P) (leaf : κ → Prop) (m b : P → Option κ) (w : P → Prop) :
    Prop where
  /-- The back table. -/
  back : Shaped up top leaf b
  /-- The front table. -/
  stands : ∀ p k, m p = some k → p ≠ top → Carries leaf (front m b) (up p)
  /-- Below a leaf of the front table. -/
  marked : ∀ p k, b p = some k → p ≠ top → (∃ k', m (up p) = some k' ∧ leaf k') → w p

/-- What is seen where nothing is hidden has the shape, when everything marked is hidden and what is
below something hidden is hidden too. -/
theorem Layered.shaped {v : P → Option κ} {hidden : P → Prop} (h : Layered up top leaf m b w)
    (hseen : ∀ p, ¬ hidden p → v p = front m b p) (hnot : ∀ p, hidden p → v p = none)
    (hmark : ∀ p, w p → hidden p) (hdown : ∀ p, p ≠ top → hidden (up p) → hidden p) :
    Shaped up top leaf v := by
  intro p k hk hp
  have hvis : ¬ hidden p := by
    intro hh
    rw [hnot p hh] at hk
    cases hk
  have hup : ¬ hidden (up p) := fun hh => hvis (hdown p hp hh)
  refine Carries.congr (t := front m b) ?_ (hseen _ hup)
  rw [hseen p hvis] at hk
  rcases hm : m p with _ | k'
  · -- An entry of the back table: the front one has no leaf above it, for then it would be marked.
    rw [front_of_none hm] at hk
    obtain ⟨kb, hkb, hleaf⟩ := h.back p k hk hp
    rcases hmu : m (up p) with _ | ku
    · exact ⟨kb, (front_of_none hmu).trans hkb, hleaf⟩
    · refine ⟨ku, front_of_some hmu, fun hku => hvis ?_⟩
      exact hmark p (h.marked p k hk hp ⟨ku, hmu, hku⟩)
  · exact h.stands p k' hm hp

/-- The front table changes inside `S` and the marks change. -/
theorem Layered.change (S : P → Prop) (h : Layered up top leaf m b w)
    (hsame : ∀ p, ¬ S p → m' p = m p)
    (hin : ∀ p k, S p → m' p = some k → p ≠ top → Carries leaf (front m' b) (up p))
    (hout : ∀ p, S p → ¬ Carries leaf (front m' b) p → Bare up top m' p)
    (hmark : ∀ p k, S (up p) → b p = some k → p ≠ top → (∃ k', m' (up p) = some k' ∧ leaf k') →
      w' p)
    (hkeep : ∀ p, p ≠ top → (∃ k, m (up p) = some k ∧ leaf k) → w p → w' p) :
    Layered up top leaf m' b w' where
  back := h.back
  stands p k hk hp := by
    -- At a changed path the hypothesis says what is there; elsewhere the layers are as they were,
    -- and so is the parent unless it has changed.
    by_cases hS : S p
    · exact hin p k hS hk hp
    have hold : Carries leaf (front m b) (up p) := by
      rw [hsame p hS] at hk
      exact h.stands p k hk hp
    by_cases hup : S (up p)
    · by_contra hnot
      have hnone : m' p = none := hout (up p) hup hnot p hp rfl
      rw [hnone] at hk
      cases hk
    · refine hold.congr ?_
      rw [front, front, hsame _ hup]
  marked p k hb hp hleaf := by
    by_cases hup : S (up p)
    · exact hmark p k hup hb hp hleaf
    · rw [hsame _ hup] at hleaf
      exact hkeep p hp hleaf (h.marked p k hb hp hleaf)

end Lib
