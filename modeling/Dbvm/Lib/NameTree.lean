import Mathlib.Data.List.Infix
import Mathlib.Data.Nat.Notation
import Mathlib.Logic.Function.Basic
import Mathlib.Tactic.Common

/-!
# Trees of names that change

A tree of directories and files, by the lists of names that lead to them from the top. Directories
have numbers that do not change when they move and are never used again. The clock counts the
changes; every entry knows since when it has its name, and for every path there is the time of its
last change. A change makes, alters, removes or moves an entry (`Change`), as a kernel allows it
(`Change.May`).

What one change does is said once, for a change of one entry (`Touches`) and for a move (`Moves`);
that a tree stays one (`Grown`), that what has not been touched is what it was
(`Touches.same_of_untouched`, `Moves.apart_of_untouched`) and that what has its names since before a
change has not moved in it (`Touches.same_of_held`, `Moves.apart_of_held`) follow.
-/

namespace Lib.NameTree

variable {ν : Type} [DecidableEq ν]

/-- What has a name. -/
inductive Node where
  /-- Anything but a directory. -/
  | file
  /-- A directory and its number. -/
  | dir (id : ℕ)
  deriving DecidableEq

/-- An entry. -/
structure Entry where
  /-- What it is. -/
  node : Node
  /-- When it has got its name. -/
  since : ℕ
  deriving DecidableEq

/-- A tree. -/
structure DirTree (ν : Type) where
  /-- The entries. -/
  entry : List ν → Option Entry
  /-- The time of the last change at a path. -/
  touched : List ν → ℕ
  /-- The number of changes. -/
  clock : ℕ
  /-- The next directory's number. -/
  next : ℕ

namespace DirTree

/-- There is the directory. -/
def IsDir (t : DirTree ν) (p : List ν) (i : ℕ) : Prop := ∃ since, t.entry p = some ⟨.dir i, since⟩

/-- It is a tree. -/
structure Grown (t : DirTree ν) : Prop where
  /-- The top. -/
  top : ∃ i, t.IsDir [] i
  /-- An entry lies in a directory. -/
  parent : ∀ p x, t.entry (p ++ [x]) ≠ none → ∃ i, t.IsDir p i
  /-- A directory has one path. -/
  inj : ∀ p q i, t.IsDir p i → t.IsDir q i → p = q
  /-- The numbers that come are free. -/
  fresh : ∀ p i, t.IsDir p i → i < t.next
  /-- No name is from the future. -/
  since : ∀ p e, t.entry p = some e → e.since ≤ t.clock
  /-- No change is. -/
  past : ∀ p, t.touched p ≤ t.clock

/-- All names on the way are from before a time. -/
def Held (t : DirTree ν) (time : ℕ) (p : List ν) : Prop := ∀ q, q <+: p → ∃ e, t.entry q = some e ∧
  e.since ≤ time

end DirTree

/-! ## Changes -/

/-- A change of the tree. -/
inductive Change (ν : Type) where
  /-- A new entry. -/
  | make (dir : List ν) (name : ν) (isDir : Bool)
  /-- Something else than a name changes at an entry. -/
  | alter (dir : List ν) (name : ν)
  /-- An entry goes. -/
  | remove (dir : List ν) (name : ν)
  /-- An entry gets another name. -/
  | move (dir : List ν) (name : ν) (dir' : List ν) (name' : ν)

/-- What moves, and how it is after it. -/
def movedEntry (t : DirTree ν) (src dst q : List ν) : Option Entry :=
  if q = dst then (t.entry src).map fun e => { e with since := t.clock + 1 }
  else if dst <+: q then t.entry (src ++ q.drop dst.length)
  else if src <+: q then none
  else t.entry q

namespace Change

/-- What a kernel allows. A directory is removed or replaced when it is empty, a file is replaced by
a file and a directory by a directory, and no directory comes below itself. -/
def May (t : DirTree ν) : Change ν → Prop
  | make p x _ => (∃ i, t.IsDir p i) ∧ t.entry (p ++ [x]) = none
  | alter p x => t.entry (p ++ [x]) ≠ none
  | remove p x => t.entry (p ++ [x]) ≠ none ∧ ∀ y, t.entry (p ++ [x] ++ [y]) = none
  | move p x q y => t.entry (p ++ [x]) ≠ none ∧ (∃ i, t.IsDir q i) ∧ ¬ p ++ [x] <+: q ∧
      p ++ [x] ≠ q ++ [y] ∧
      ∀ e e', t.entry (p ++ [x]) = some e → t.entry (q ++ [y]) = some e' →
        (e.node = .file ↔ e'.node = .file) ∧ ∀ z, t.entry (q ++ [y] ++ [z]) = none

/-- The tree after it. -/
def after (t : DirTree ν) : Change ν → DirTree ν
  | make p x isDir =>
    { entry := Function.update t.entry (p ++ [x]) (some ⟨if isDir then .dir t.next else .file,
      t.clock + 1⟩)
      touched := Function.update t.touched (p ++ [x]) (t.clock + 1)
      clock := t.clock + 1
      next := t.next + 1 }
  | alter p x =>
      { t with touched := Function.update t.touched (p ++ [x]) (t.clock + 1), clock := t.clock + 1 }
  | remove p x =>
    { t with
      entry := Function.update t.entry (p ++ [x]) none
      touched := Function.update t.touched (p ++ [x]) (t.clock + 1)
      clock := t.clock + 1 }
  | move p x q y =>
    { t with
      entry := movedEntry t (p ++ [x]) (q ++ [y])
      touched := fun r => if p ++ [x] <+: r ∨ q ++ [y] <+: r then t.clock + 1 else t.touched r
      clock := t.clock + 1 }

end Change

/-- One entry has changed. -/
structure Touches (t t' : DirTree ν) (q : List ν) : Prop where
  /-- Time passes. -/
  clock : t'.clock = t.clock + 1
  /-- Numbers are used up. -/
  next : t.next ≤ t'.next
  /-- The other entries. -/
  other : ∀ r, r ≠ q → t'.entry r = t.entry r
  /-- The times. -/
  touched : ∀ r, t'.touched r = if r = q then t.clock + 1 else t.touched r
  /-- The entry is as it was, or has gone and nothing was below it, or is new and so is its number.
  -/
  change : t'.entry q = t.entry q ∨ (t'.entry q = none ∧ ∀ y, t.entry (q ++ [y]) = none) ∨
    (t.entry q = none ∧ ∃ e, t'.entry q = some e ∧ e.since = t.clock + 1 ∧ ∀ i, e.node = .dir i →
      i = t.next ∧ i < t'.next)

/-- An entry has moved. -/
structure Moves (t t' : DirTree ν) (src dst : List ν) : Prop where
  /-- Time passes. -/
  clock : t'.clock = t.clock + 1
  /-- No numbers are used up. -/
  next : t'.next = t.next
  /-- The entries. -/
  entry : t'.entry = movedEntry t src dst
  /-- The times. -/
  touched : ∀ r, t'.touched r = if src <+: r ∨ dst <+: r then t.clock + 1 else t.touched r
  /-- It was there. -/
  there : t.entry src ≠ none
  /-- It does not come below itself. -/
  apart : ¬ src <+: dst
  /-- Nothing was below what is replaced. -/
  bare : t.entry dst ≠ none → ∀ z, t.entry (dst ++ [z]) = none
  /-- A directory is replaced by a directory. -/
  alike : ∀ e e', t.entry src = some e → t.entry dst = some e' → (e.node = .file ↔ e'.node = .file)

variable {t t' : DirTree ν} {p q r src dst : List ν} {x y : ν} {i : ℕ}

/-! ## What a change does -/

/-- A make touches the new name only. -/
theorem touches_make {b : Bool} (h : (Change.make p x b).May t) :
    Touches t ((Change.make p x b).after t) (p ++ [x]) where
  clock := rfl
  next := Nat.le_succ _
  other _ hr := Function.update_of_ne hr _ _
  touched _ := Function.update_apply _ _ _ _
  change := by
    refine Or.inr (Or.inr ⟨h.2, _, Function.update_self _ _ _, rfl, fun i hi => ?_⟩)
    cases b with
    | true => exact ⟨(Node.dir.inj hi).symm, (Node.dir.inj hi) ▸ Nat.lt_succ_self _⟩
    | false => cases hi

/-- A change of a file's content touches that file only. -/
theorem touches_alter : Touches t ((Change.alter p x).after t) (p ++ [x]) where
  clock := rfl
  next := le_refl _
  other _ _ := rfl
  touched _ := Function.update_apply _ _ _ _
  change := Or.inl rfl

/-- A remove touches the removed name only. -/
theorem touches_remove (h : (Change.remove p x).May t) :
    Touches t ((Change.remove p x).after t) (p ++ [x]) where
  clock := rfl
  next := le_refl _
  other _ hr := Function.update_of_ne hr _ _
  touched _ := Function.update_apply _ _ _ _
  change := Or.inr (Or.inl ⟨Function.update_self _ _ _, h.2⟩)

/-- A rename moves the subtree of its source to its target. -/
theorem moves_move {y : ν} (h : (Change.move p x q y).May t) :
    Moves t ((Change.move p x q y).after t) (p ++ [x]) (q ++ [y]) := by
  obtain ⟨hthere, -, hbelow, hne, hreplaced⟩ := h
  obtain ⟨e, he⟩ := Option.ne_none_iff_exists'.1 hthere
  refine ⟨rfl, rfl, rfl, fun _ => rfl, hthere,
    fun hpre => ?_, fun hdst => ?_, fun e₁ e₂ h₁ h₂ => (hreplaced e₁ e₂ h₁ h₂).1⟩
  · rcases List.prefix_concat_iff.1 hpre with heq | hpre
    · exact hne heq
    · exact hbelow hpre
  · obtain ⟨e', he'⟩ := Option.ne_none_iff_exists'.1 hdst
    exact (hreplaced e e' he he').2

/-! ## Trees stay trees -/

namespace DirTree

omit [DecidableEq ν] in
/-- A directory is there. -/
theorem IsDir.ne_none (h : t.IsDir p i) : t.entry p ≠ none := by
  obtain ⟨since, hp⟩ := h
  rw [hp]
  exact Option.some_ne_none _

omit [DecidableEq ν] in
/-- A path has one directory at a time. -/
theorem IsDir.unique {j : ℕ} (hi : t.IsDir p i) (hj : t.IsDir p j) : i = j := by
  obtain ⟨since, hi⟩ := hi
  obtain ⟨since', hj⟩ := hj
  rw [hi] at hj
  cases hj
  rfl

omit [DecidableEq ν] in
/-- What leads to an entry is there, and is a directory. -/
theorem Grown.isDir_above (h : t.Grown) (hp : t.entry p ≠ none) (hq : q <+: p) (hne : q ≠ p) :
    ∃ i, t.IsDir q i := by
  obtain ⟨s, rfl⟩ := hq
  induction s using List.reverseRecOn with
  | nil => simp at hne
  | append_singleton s x ih =>
    rw [← List.append_assoc] at hp
    obtain ⟨i, hi⟩ := h.parent _ _ hp
    by_cases hs : s = []
    · subst hs
      rw [List.append_nil] at hi
      exact ⟨i, hi⟩
    · obtain ⟨since, hsome⟩ := hi
      exact ih (by rw [hsome]; exact Option.some_ne_none _) (by simpa using hs)

/-- Whatever leads to an entry is there. -/
theorem Grown.exists_above (h : t.Grown) (hp : t.entry p ≠ none) (hq : q <+: p) :
    t.entry q ≠ none := by
  by_cases hne : q = p
  · rwa [hne]
  · obtain ⟨i, since, hi⟩ := h.isDir_above hp hq hne
    rw [hi]
    exact Option.some_ne_none _

end DirTree

namespace Moves

variable (h : Moves t t' src dst)

include h

/-- What is replaced is not above what moves. -/
theorem not_above (hg : t.Grown) : ¬ dst <+: src := by
  rintro ⟨s, hs⟩
  rcases s with _ | ⟨z, s⟩
  · rw [List.append_nil] at hs
    exact h.apart (by rw [hs])
  · have hpre : dst ++ [z] <+: src := ⟨s, by rw [← hs]; simp⟩
    have hsome := hg.exists_above h.there hpre
    exact hsome (h.bare (hg.exists_above h.there ⟨z :: s, hs⟩) z)

/-- After a move the target is the entry of the source, from now on. -/
theorem entry_dst : t'.entry dst = (t.entry src).map fun e => { e with since := t.clock + 1 } := by
  rw [h.entry, movedEntry, if_pos rfl]

/-- What stood below the source stands below the target. -/
theorem entry_below {s : List ν} (hs : s ≠ []) : t'.entry (dst ++ s) = t.entry (src ++ s) := by
  rw [h.entry, movedEntry, if_neg (by simpa using hs), if_pos (List.prefix_append _ _),
    List.drop_left]

/-- Nothing is left at the source or below it. -/
theorem entry_src (hg : t.Grown) (s : List ν) : t'.entry (src ++ s) = none := by
  have hnot : ¬ dst <+: src ++ s := by
    intro hpre
    rcases List.prefix_or_prefix_of_prefix hpre (List.prefix_append src s) with hd | hs
    · exact h.not_above hg hd
    · exact h.apart hs
  rw [h.entry, movedEntry, if_neg (fun heq => hnot (by rw [heq])), if_neg hnot,
    if_pos (List.prefix_append _ _)]

/-- A path below neither of the two keeps its entry. -/
theorem entry_other (hd : ¬ dst <+: r) (hs : ¬ src <+: r) : t'.entry r = t.entry r := by
  rw [h.entry, movedEntry, if_neg (fun heq => hd (by rw [heq])), if_neg hd, if_neg hs]

/-- After a move the directories below the source are below the target, the others stay. -/
theorem isDir_iff (hg : t.Grown) :
    t'.IsDir r i ↔ (∃ s, r = dst ++ s ∧ t.IsDir (src ++ s) i) ∨
    (¬ dst <+: r ∧ ¬ src <+: r ∧ t.IsDir r i) := by
  -- Below the target, below the source, elsewhere.
  by_cases hd : dst <+: r
  · obtain ⟨s, rfl⟩ := hd
    have hiff : t'.IsDir (dst ++ s) i ↔ t.IsDir (src ++ s) i := by
      unfold DirTree.IsDir
      by_cases hs : s = []
      · subst hs
        rw [List.append_nil, List.append_nil, h.entry_dst]
        constructor
        · rintro ⟨since, hsome⟩
          obtain ⟨e, he, heq⟩ := Option.map_eq_some_iff.1 hsome
          have hnode : e.node = .dir i := congrArg Entry.node heq
          exact ⟨e.since, by rw [he, ← hnode]⟩
        · rintro ⟨since, hsome⟩
          exact ⟨t.clock + 1, by rw [hsome]; rfl⟩
      · rw [h.entry_below hs]
    rw [hiff]
    constructor
    · exact fun hi => Or.inl ⟨s, rfl, hi⟩
    · rintro (⟨s', heq, hi⟩ | ⟨hnot, -⟩)
      · rwa [List.append_cancel_left heq]
      · exact absurd (List.prefix_append _ _) hnot
  by_cases hs : src <+: r
  · obtain ⟨s, rfl⟩ := hs
    constructor
    · rintro ⟨since, hsome⟩
      rw [h.entry_src hg] at hsome
      cases hsome
    · rintro (⟨s', heq, -⟩ | ⟨-, hnot, -⟩)
      · exact absurd ⟨s', heq.symm⟩ hd
      · exact absurd (List.prefix_append _ _) hnot
  · unfold DirTree.IsDir
    rw [h.entry_other hd hs]
    constructor
    · exact fun hi => Or.inr ⟨hd, hs, hi⟩
    · rintro (⟨s', heq, -⟩ | ⟨-, -, hi⟩)
      · exact absurd ⟨s', heq.symm⟩ hd
      · exact hi

end Moves

/-- A directory was where it is, or is new. -/
theorem Touches.isDir_back (h : Touches t t' q) (hr : t'.IsDir r i) :
    t.IsDir r i ∨ (r = q ∧ i = t.next ∧ i < t'.next) := by
  obtain ⟨since, hr⟩ := hr
  by_cases hq : r = q
  · subst hq
    rcases h.change with hsame | ⟨hgone, -⟩ | ⟨-, e, he, -, hid⟩
    · exact Or.inl ⟨since, by rw [← hsame, hr]⟩
    · rw [hr] at hgone
      cases hgone
    · rw [hr] at he
      exact Or.inr ⟨rfl, hid i (by rw [← Option.some.inj he])⟩
  · exact Or.inl ⟨since, by rw [← h.other r hq, hr]⟩

/-- A tree stays one when an entry of a directory changes. -/
theorem DirTree.Grown.touches (hg : t.Grown) (h : Touches t t' (p ++ [x])) (hp : ∃ i, t.IsDir p i) :
    t'.Grown := by
  have hstays : ∀ r i, t.IsDir r i → (∃ z, t'.entry (r ++ [z]) ≠ none) ∨ r ≠ p ++ [x] →
    t'.IsDir r i := by
    rintro r i ⟨since, hr⟩ hkept
    by_cases hq : r = p ++ [x]
    · subst hq
      rcases h.change with hsame | ⟨-, hbare⟩ | ⟨hnone, -⟩
      · exact ⟨since, by rw [hsame, hr]⟩
      · rcases hkept with ⟨z, hz⟩ | hne
        · rw [h.other _ (by simp), hbare z] at hz
          exact absurd rfl hz
        · exact absurd rfl hne
      · rw [hr] at hnone
        cases hnone
    · exact ⟨since, by rw [h.other r hq, hr]⟩
  -- Only the entry of `p ++ [x]` changes, and nothing is below it before or after.
  refine ⟨?_, ?_, ?_, ?_, ?_, ?_⟩
  · obtain ⟨i, hi⟩ := hg.top
    exact ⟨i, hstays [] i hi (Or.inr (by simp))⟩
  · intro r z hz
    by_cases hq : r ++ [z] = p ++ [x]
    · obtain ⟨rfl, -⟩ := List.append_inj' hq rfl
      obtain ⟨i, hi⟩ := hp
      exact ⟨i, hstays r i hi (Or.inr (by simp))⟩
    · have hz' := hz
      rw [h.other _ hq] at hz'
      obtain ⟨i, hi⟩ := hg.parent r z hz'
      exact ⟨i, hstays r i hi (Or.inl ⟨z, hz⟩)⟩
  · intro r r' i hr hr'
    rcases h.isDir_back hr with hr | ⟨rfl, hi, -⟩
    · rcases h.isDir_back hr' with hr' | ⟨-, hi, -⟩
      · exact hg.inj r r' i hr hr'
      · exact absurd hi (hg.fresh r i hr).ne
    · rcases h.isDir_back hr' with hr' | ⟨rfl, -⟩
      · exact absurd hi (hg.fresh r' i hr').ne
      · rfl
  · intro r i hr
    rcases h.isDir_back hr with hr | ⟨-, -, hi⟩
    · exact (hg.fresh r i hr).trans_le h.next
    · exact hi
  · intro r e hr
    rw [h.clock]
    by_cases hq : r = p ++ [x]
    · subst hq
      rcases h.change with hsame | ⟨hgone, -⟩ | ⟨-, e', he, hsince, -⟩
      · exact (hg.since _ e (by rw [← hsame, hr])).trans (Nat.le_succ _)
      · rw [hr] at hgone
        cases hgone
      · rw [hr] at he
        rw [Option.some.inj he, hsince]
    · exact (hg.since r e (by rw [← h.other r hq, hr])).trans (Nat.le_succ _)
  · intro r
    have hpast := hg.past r
    rw [h.touched, h.clock]
    split_ifs <;> omega

/-- A tree stays one when an entry moves. -/
theorem DirTree.Grown.moves (hg : t.Grown) (h : Moves t t' src (q ++ [y])) (hsrc : src ≠ [])
    (hq : ∃ i, t.IsDir q i) (hbelow : ¬ src <+: q) : t'.Grown := by
  -- The new tree is the old one with the subtree at another place, so each part is asked below
  -- the target and elsewhere.
  refine ⟨?_, ?_, ?_, ?_, ?_, ?_⟩
  · obtain ⟨i, hi⟩ := hg.top
    refine ⟨i, (h.isDir_iff hg).2 (Or.inr ⟨?_, ?_, hi⟩)⟩
    · rw [List.prefix_nil]
      simp
    · rwa [List.prefix_nil]
  · intro r z hz
    by_cases hd : q ++ [y] <+: r ++ [z]
    · rcases List.prefix_concat_iff.1 hd with heq | ⟨s, rfl⟩
      · obtain ⟨rfl, -⟩ := List.append_inj' heq rfl
        obtain ⟨i, hi⟩ := hq
        refine ⟨i, (h.isDir_iff hg).2 (Or.inr ⟨?_, hbelow, hi⟩)⟩
        intro hpre
        have hlen := hpre.length_le
        rw [List.length_append, List.length_singleton] at hlen
        omega
      · rw [List.append_assoc, h.entry_below (by simp), ← List.append_assoc] at hz
        obtain ⟨i, hi⟩ := hg.parent _ _ hz
        exact ⟨i, (h.isDir_iff hg).2 (Or.inl ⟨s, rfl, hi⟩)⟩
    · by_cases hs : src <+: r ++ [z]
      · obtain ⟨s, hs⟩ := hs
        rw [← hs, h.entry_src hg] at hz
        exact absurd rfl hz
      · rw [h.entry_other hd hs] at hz
        obtain ⟨i, hi⟩ := hg.parent r z hz
        refine ⟨i, (h.isDir_iff hg).2 (Or.inr ⟨?_, ?_, hi⟩)⟩
        · exact fun hpre => hd (hpre.trans (List.prefix_append _ _))
        · exact fun hpre => hs (hpre.trans (List.prefix_append _ _))
  · intro r r' i hr hr'
    rcases (h.isDir_iff hg).1 hr with ⟨s, rfl, hi⟩ | ⟨-, hs, hi⟩
    · rcases (h.isDir_iff hg).1 hr' with ⟨s', rfl, hi'⟩ | ⟨-, hs', hi'⟩
      · rw [List.append_cancel_left (hg.inj _ _ i hi hi')]
      · exact absurd ⟨s, hg.inj _ _ i hi hi'⟩ hs'
    · rcases (h.isDir_iff hg).1 hr' with ⟨s', rfl, hi'⟩ | ⟨-, hs', hi'⟩
      · exact absurd ⟨s', hg.inj _ _ i hi' hi⟩ hs
      · exact hg.inj r r' i hi hi'
  · intro r i hr
    rw [h.next]
    rcases (h.isDir_iff hg).1 hr with ⟨s, -, hi⟩ | ⟨-, -, hi⟩
    · exact hg.fresh _ i hi
    · exact hg.fresh _ i hi
  · intro r e hr
    rw [h.clock]
    by_cases hd : q ++ [y] <+: r
    · obtain ⟨s, rfl⟩ := hd
      by_cases hs : s = []
      · subst hs
        rw [List.append_nil, h.entry_dst] at hr
        obtain ⟨e', -, rfl⟩ := Option.map_eq_some_iff.1 hr
        exact le_refl _
      · rw [h.entry_below hs] at hr
        exact (hg.since _ e hr).trans (Nat.le_succ _)
    · by_cases hs : src <+: r
      · obtain ⟨s, rfl⟩ := hs
        rw [h.entry_src hg] at hr
        cases hr
      · rw [h.entry_other hd hs] at hr
        exact (hg.since _ e hr).trans (Nat.le_succ _)
  · intro r
    have hpast := hg.past r
    rw [h.touched, h.clock]
    split_ifs <;> omega

/-! ## Directories and their numbers -/

/-- A directory that was there, and what it contains: an entry of it has a new name or had its name
in it before. -/
theorem Touches.entry_back (h : Touches t t' q) (hi : i < t.next) (hr : t'.IsDir r i) :
    t.IsDir r i ∧ ∀ z e, t'.entry (r ++ [z]) = some e → e.since = t.clock + 1 ∨
    t.entry (r ++ [z]) = some e := by
  have hdir : t.IsDir r i := by
    rcases h.isDir_back hr with hdir | ⟨-, heq, -⟩
    · exact hdir
    · omega
  refine ⟨hdir, fun z e he => ?_⟩
  by_cases hq : r ++ [z] = q
  · rcases h.change with hsame | ⟨hgone, -⟩ | ⟨-, e', he', hnew, -⟩
    · exact Or.inr (by rw [hq, ← hsame, ← hq, he])
    · rw [hq, hgone] at he
      cases he
    · rw [hq, he'] at he
      exact Or.inl (by rw [← Option.some.inj he, hnew])
  · exact Or.inr (by rw [← h.other _ hq, he])

/-- So for a move, where the directory may have moved. -/
theorem Moves.entry_back (h : Moves t t' src dst) (hg : t.Grown) (hr : t'.IsDir r i) :
    ∃ r', t.IsDir r' i ∧ ∀ z e, t'.entry (r ++ [z]) = some e → e.since = t.clock + 1 ∨
    t.entry (r' ++ [z]) = some e := by
  rcases (h.isDir_iff hg).1 hr with ⟨s, rfl, hdir⟩ | ⟨hd, hs, hdir⟩
  · refine ⟨src ++ s, hdir, fun z e he => Or.inr ?_⟩
    rw [List.append_assoc, h.entry_below (by simp), ← List.append_assoc] at he
    exact he
  · refine ⟨r, hdir, fun z e he => ?_⟩
    by_cases hz : dst = r ++ [z]
    · rw [← hz, h.entry_dst] at he
      obtain ⟨e', -, rfl⟩ := Option.map_eq_some_iff.1 he
      exact Or.inl rfl
    · by_cases hz' : src = r ++ [z]
      · have hgone := h.entry_src hg []
        rw [List.append_nil, hz', he] at hgone
        cases hgone
      · right
        rw [← h.entry_other (r := r ++ [z]) ?_ ?_, he]
        · exact fun hpre => (List.prefix_concat_iff.1 hpre).elim hz hd
        · exact fun hpre => (List.prefix_concat_iff.1 hpre).elim hz' hs

/-! ## Any change -/

section Changed

variable {c : Change ν}

/-- A change touches an entry of a directory or moves one. -/
theorem Change.May.cases (h : c.May t) (hg : t.Grown) :
    (∃ p x i, t.IsDir p i ∧ Touches t (c.after t) (p ++ [x])) ∨
      ∃ p x q y i j, t.IsDir p i ∧ t.IsDir q j ∧ ¬ p ++ [x] <+: q ∧ Moves t (c.after t) (p ++ [x])
      (q ++ [y]) := by
  cases c with
  | make p x b =>
    obtain ⟨i, hi⟩ := h.1
    exact Or.inl ⟨p, x, i, hi, touches_make h⟩
  | alter p x =>
    obtain ⟨i, hi⟩ := hg.parent p x h
    exact Or.inl ⟨p, x, i, hi, touches_alter⟩
  | remove p x =>
    obtain ⟨i, hi⟩ := hg.parent p x h.1
    exact Or.inl ⟨p, x, i, hi, touches_remove h⟩
  | move p x q y =>
    obtain ⟨i, hi⟩ := hg.parent p x h.1
    obtain ⟨j, hj⟩ := h.2.1
    exact Or.inr ⟨p, x, q, y, i, j, hi, hj, h.2.2.1, moves_move h⟩

/-- A change that may happen keeps the tree grown from its root. -/
theorem DirTree.Grown.after (hg : t.Grown) (h : c.May t) : (c.after t).Grown := by
  rcases h.cases hg with ⟨p, x, i, hi, htouches⟩ | ⟨p, x, q, y, i, j, -, hj, hbelow, hmoves⟩
  · exact hg.touches htouches ⟨i, hi⟩
  · exact hg.moves hmoves (by simp) ⟨j, hj⟩ hbelow

/-- Every change takes one tick of the clock. -/
theorem Change.clock_after (c : Change ν) (t : DirTree ν) : (c.after t).clock = t.clock + 1 := by
  cases c with
  | make => rfl
  | alter => rfl
  | remove => rfl
  | move => rfl

/-- Inodes are never given out twice: the next one does not fall. -/
theorem Change.May.next_le (h : c.May t) (hg : t.Grown) : t.next ≤ (c.after t).next := by
  rcases h.cases hg with ⟨p, x, i, -, htouches⟩ | ⟨p, x, q, y, i, j, -, -, -, hmoves⟩
  · exact htouches.next
  · exact hmoves.next.ge

/-- A directory was there before unless it is new, and an entry of it has a new name or had its name
in it before. -/
theorem Change.May.entry_back (h : c.May t) (hg : t.Grown) (hi : i < t.next)
    (hr : (c.after t).IsDir r i) :
    ∃ r', t.IsDir r' i ∧ ∀ z e, (c.after t).entry (r ++ [z]) = some e → e.since = t.clock + 1 ∨
    t.entry (r' ++ [z]) = some e := by
  rcases h.cases hg with ⟨p, x, j, -, htouches⟩ | ⟨p, x, q, y, j, k, -, -, -, hmoves⟩
  · exact ⟨r, htouches.entry_back hi hr⟩
  · exact hmoves.entry_back hg hr

end Changed

/-! ## What has not changed -/

namespace DirTree

variable {time : ℕ}

omit [DecidableEq ν] in
/-- A path that was held since a time held all that leads to it. -/
theorem Held.upTo (h : t.Held time p) (hq : q <+: p) :
    t.Held time q := fun r hr => h r (hr.trans hq)

omit [DecidableEq ν] in
/-- What is held depends on the entries on the way only. -/
theorem Held.congr (h : t.Held time p) (hsame : ∀ r, r <+: p → t'.entry r = t.entry r) :
    t'.Held time p := by
  intro r hr
  obtain ⟨e, he, hsince⟩ := h r hr
  exact ⟨e, by rw [hsame r hr, he], hsince⟩

omit [DecidableEq ν] in
/-- A path that is held is there. -/
theorem Held.there (h : t.Held time p) : t.entry p ≠ none := by
  obtain ⟨e, he, -⟩ := h p (List.prefix_refl p)
  rw [he]
  exact Option.some_ne_none _

end DirTree

section Unchanged

variable {time : ℕ}

/-- Names from before a change of one entry lead to what they led to. -/
theorem Touches.same_of_held (h : Touches t t' q) (htime : time ≤ t.clock) (hp : t'.Held time p) :
    ∀ r, r <+: p → t'.entry r = t.entry r := by
  intro r hr
  by_cases hq : r = q
  · subst hq
    obtain ⟨e, he, hsince⟩ := hp r hr
    rcases h.change with hsame | ⟨hgone, -⟩ | ⟨-, e', he', hnew, -⟩
    · exact hsame
    · rw [he] at hgone
      cases hgone
    · rw [he] at he'
      rw [Option.some.inj he', hnew] at hsince
      omega
  · exact h.other r hq

/-- Names from before a move are not those of what has moved. -/
theorem Moves.apart_of_held (h : Moves t t' src dst) (hg : t.Grown) (htime : time ≤ t.clock)
    (hp : t'.Held time p) :
    ¬ dst <+: p ∧ ¬ src <+: p := by
  constructor
  · intro hd
    obtain ⟨e, he, hsince⟩ := hp dst hd
    rw [h.entry_dst] at he
    obtain ⟨e', -, rfl⟩ := Option.map_eq_some_iff.1 he
    dsimp only at hsince
    omega
  · rintro ⟨s, rfl⟩
    exact hp.there (h.entry_src hg s)

/-- What leads to an entry that a change of one entry leaves is what it was. -/
theorem Touches.same_of_ne (h : Touches t t' q) (hg : t.Grown) (hp : t.entry p ≠ none)
    (hne : p ≠ q) :
    ∀ r, r <+: p → t'.entry r = t.entry r := by
  intro r hr
  by_cases hrq : r = q
  · subst hrq
    rcases h.change with hsame | ⟨-, hbare⟩ | ⟨hnone, -⟩
    · exact hsame
    · -- something is below it
      obtain ⟨s, rfl⟩ := hr
      rcases s with _ | ⟨z, s⟩
      · simp at hne
      · exact absurd (hbare z) (hg.exists_above hp ⟨s, by simp⟩)
    · exact absurd hnone (hg.exists_above hp hr)
  · exact h.other r hrq

/-- What is below nothing that has moved is what it was. -/
theorem Moves.same_of_apart (h : Moves t t' src dst) (hd : ¬ dst <+: p) (hs : ¬ src <+: p) :
    ∀ r, r <+: p → t'.entry r = t.entry r :=
  fun _ hr => h.entry_other (fun hpre => hd (hpre.trans hr)) fun hpre => hs (hpre.trans hr)

/-- An entry that a change of one entry has not touched was there before with the same names, when
it was there before. -/
theorem Touches.same_of_untouched (h : Touches t t' q) (hg : t.Grown) (htime : time ≤ t.clock)
    (hp : t.entry p ≠ none) (huntouched : t'.touched p ≤ time) :
    t.touched p ≤ time ∧ ∀ r, r <+: p → t'.entry r = t.entry r := by
  rw [h.touched] at huntouched
  split_ifs at huntouched with hq
  · omega
  exact ⟨huntouched, h.same_of_ne hg hp hq⟩

/-- So was one that a move has not touched. -/
theorem Moves.apart_of_untouched (h : Moves t t' src dst) (htime : time ≤ t.clock)
    (huntouched : t'.touched p ≤ time) :
    t.touched p ≤ time ∧ ¬ dst <+: p ∧ ¬ src <+: p := by
  rw [h.touched] at huntouched
  split_ifs at huntouched with hmoved
  · omega
  push Not at hmoved
  exact ⟨huntouched, hmoved.2, hmoved.1⟩

end Unchanged

end Lib.NameTree
