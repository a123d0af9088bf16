import Dbvm.Canonical
import Dbvm.Host.Tree
import Dbvm.TreeWatch.Basic

/-!
# Paths as the watcher writes them

The watcher goes from the names of an entry to a VM path and back, and normalises the text of a name
in a directory. A name that ends in white space loses it on the way, and reserved paths are passed
over. For the other entries (`Plain`, `Synced`) the texts are what they should be.
-/

namespace Dbvm.Watcher

open Lib Lib.NameTree

variable {p q : List Str} {x : Str}

/-- No name ends in white space. -/
def Plain (p : List Str) : Prop := ∀ x ∈ p, IsName x ∧ ¬ EndsBlank x

/-- An entry that a sync takes: nothing on the way to it is reserved. -/
structure Synced (p : List Str) : Prop where
  /-- The names. -/
  plain : Plain p
  /-- The paths. -/
  free : ∀ q, q <+: p → q ≠ [] → isReservedVmPath (pathOf q) = false

/-- A plain path consists of names. -/
theorem Plain.names (h : Plain p) : ∀ x ∈ p, IsName x := fun x hx => (h x hx).1

/-- What leads to a plain path is plain. -/
theorem Plain.upTo (h : Plain p) (hq : q <+: p) : Plain q := fun x hx => h x (hq.subset hx)

/-- A plain path is normal. -/
theorem Plain.normal (h : Plain p) : normalizeVmPath (pathOf p) = pathOf p := by
  refine (normal_pathOf_iff h.names).2 ((not_endsBlank_pathOf h.names).2 fun c hc => ?_)
  exact (h c (List.mem_of_mem_getLast? hc)).2

/-- The path of a name in a directory. -/
theorem Plain.child (h : Plain (p ++ [x])) :
    normalizeVmPath (pathOf p ++ '/' :: x) = pathOf (p ++ [x]) := by
  have hp : Plain p := h.upTo (List.prefix_append _ _)
  obtain ⟨hname, hblank⟩ := h x (by simp)
  have hends : ¬ EndsBlank (pathOf p ++ '/' :: x) := by rwa [endsBlank_append _ hname.ne_nil]
  rw [(normalizeVmPath_child_iff ⟨p, hp.names, rfl⟩ hname).2 hends, childPath_pathOf hp.names]

/-- The path of an entry that is found on the way. -/
theorem Plain.vmPathOf (h : Plain p) : vmPathOf p = pathOf p := by
  by_cases hp : p = []
  · subst hp
    decide
  · have htext : pathOf p = '/' :: List.intercalate ['/'] p :=
      by rw [pathOf, if_neg hp, ofNames_eq_intercalate hp]
    rw [Watcher.vmPathOf, ← htext, h.normal]

/-- The names of a path of names. -/
theorem hostNames_pathOf (h : ∀ x ∈ p, IsName x) : hostNames (pathOf p) = p := by
  by_cases hp : p = []
  · subst hp
    decide
  · rw [hostNames, pathOf, if_neg hp, filter_splitOn_ofNames h]

/-- What leads to a path that is synced is synced. -/
theorem Synced.upTo (h : Synced p) (hq : q <+: p) : Synced q :=
  ⟨h.plain.upTo hq, fun r hr hne => h.free r (hr.trans hq) hne⟩

/-- Nothing is reserved above what is not reserved. -/
theorem synced_of_free (h : Plain p) (hfree : p = [] ∨ isReservedVmPath (pathOf p) = false) :
    Synced p := by
  refine ⟨h, fun q hq hne => ?_⟩
  obtain ⟨s, rfl⟩ := hq
  have hqp : q ++ s ≠ [] := by simp [hne]
  have hfree := hfree.resolve_left hqp
  rcases s with _ | ⟨c, s⟩
  · rwa [List.append_nil] at hfree
  · -- a reserved directory reserves what is below it
    have hbelow : Below (pathOf q) (pathOf (q ++ c :: s)) := by
      refine ⟨c ++ ofNames s, ?_⟩
      rw [pathOf, pathOf, if_neg hne, if_neg hqp, ofNames_append, ofNames_cons]
      simp
    have hroot : pathOf q ≠ root := by
      rw [pathOf, if_neg hne]
      exact ofNames_ne_root (h.upTo (List.prefix_append _ _)).names
    by_contra hres
    rw [Bool.not_eq_false] at hres
    rw [reserved_below hbelow hroot hres] at hfree
    cases hfree

/-- What a sync takes is not passed over. -/
theorem Synced.skips (h : Synced p) : skips p = false := by
  rw [Watcher.skips, h.plain.vmPathOf]
  by_cases hp : p = []
  · subst hp
    rfl
  · rw [h.free p (List.prefix_refl p) hp, Bool.and_false]

end Dbvm.Watcher
