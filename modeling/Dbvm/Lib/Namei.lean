import Mathlib.Data.List.Infix
import Mathlib.Tactic.Common

/-!
# Following links

Resolution of a path component by component in a tree whose directories may be links: a component
that is a link is replaced by the components of its target, taken from the root or from the
directory the link is in, and these are resolved in turn. A directory is the list of names that
leads to it from the root. A walk need not end, since a link may lead back to itself, so it has a
fuel.
-/

namespace Lib.Namei

variable {N : Type}

/-- A component of a path. -/
inductive Hop (N : Type) where
  /-- The directory above. -/
  | up
  /-- An entry of the directory. -/
  | into (n : N)
deriving DecidableEq

/-- The target of a link. -/
structure Target (N : Type) where
  /-- It is taken from the root. -/
  absolute : Bool
  hops : List (Hop N)

/-- The directory from which a target is taken, for a link in `dir`. -/
def Target.base (t : Target N) (dir : List N) : List N := if t.absolute then [] else dir

/-- Follow the components from the directory `dir`. The root is above itself. -/
def walk (links : List N → Option (Target N)) : ℕ → List N → List (Hop N) → Option (List N)
  | _, dir, [] => some dir
  | 0, _, _ :: _ => none
  | fuel + 1, dir, .up :: hops => walk links fuel dir.dropLast hops
  | fuel + 1, dir, .into n :: hops =>
    match links (dir ++ [n]) with
    | none => walk links fuel (dir ++ [n]) hops
    | some t => walk links fuel (t.base dir) (t.hops ++ hops)

/-- The walk ends at `r`. -/
def Reaches (links : List N → Option (Target N)) (dir : List N) (hops : List (Hop N)) (r : List N) :
    Prop :=
  ∃ fuel, walk links fuel dir hops = some r

variable {links : List N → Option (Target N)} {dir e r r' : List N} {n : N} {t : Target N}
  {hops hops' : List (Hop N)} {fuel fuel' : ℕ}

/-- A walk with more fuel ends at the same place. -/
theorem walk_mono (h : fuel ≤ fuel') (hw : walk links fuel dir hops = some r) :
    walk links fuel' dir hops = some r := by
  induction fuel generalizing fuel' dir hops with
  | zero =>
    cases hops with
    | nil => simpa [walk] using hw
    | cons _ _ => simp [walk] at hw
  | succ fuel ih =>
    obtain ⟨fuel', rfl⟩ : ∃ k, fuel' = k + 1 := ⟨fuel' - 1, by omega⟩
    match hops with
    | [] => simpa [walk] using hw
    | .up :: hops =>
      simp only [walk] at hw ⊢
      exact ih (by omega) hw
    | .into n :: hops =>
      simp only [walk] at hw ⊢
      cases hl : links (dir ++ [n]) <;> simp only [hl] at hw ⊢ <;>
        exact ih (by omega) hw

/-- A walk ends at one place. -/
theorem Reaches.unique (h : Reaches links dir hops r) (h' : Reaches links dir hops r') :
    r = r' := by
  obtain ⟨fuel, h⟩ := h
  obtain ⟨fuel', h'⟩ := h'
  have h₁ := walk_mono (Nat.le_max_left fuel fuel') h
  have h₂ := walk_mono (Nat.le_max_right fuel fuel') h'
  exact Option.some.inj (h₁.symm.trans h₂)

/-- Without a component left the directory itself is reached. -/
@[simp] theorem reaches_nil : Reaches links dir [] r ↔ r = dir := by
  constructor
  · rintro ⟨fuel, h⟩
    cases fuel <;> simpa [walk, eq_comm] using h
  · rintro rfl
    exact ⟨0, rfl⟩

/-- A walk reaches what it reaches after its first step. -/
theorem reaches_cons {hop : Hop N} {d : List N} {hs : List (Hop N)}
    (hstep : ∀ fuel, walk links (fuel + 1) dir (hop :: hops) = walk links fuel d hs) :
    Reaches links dir (hop :: hops) r ↔ Reaches links d hs r := by
  constructor
  · rintro ⟨_ | fuel, h⟩
    · simp [walk] at h
    · exact ⟨fuel, by rwa [hstep] at h⟩
  · rintro ⟨fuel, h⟩
    exact ⟨fuel + 1, by rwa [hstep]⟩

/-- A step up goes to the parent. -/
@[simp] theorem reaches_up : Reaches links dir (.up :: hops) r ↔
    Reaches links dir.dropLast hops r :=
  reaches_cons fun _ => rfl

/-- A name that is no link is entered. -/
theorem reaches_into (h : links (dir ++ [n]) = none) :
    Reaches links dir (.into n :: hops) r ↔ Reaches links (dir ++ [n]) hops r :=
  reaches_cons fun _ => by simp [walk, h]

/-- A name that is a link is replaced by the components of its target. -/
theorem reaches_link (h : links (dir ++ [n]) = some t) :
    Reaches links dir (.into n :: hops) r ↔ Reaches links (t.base dir) (t.hops ++ hops) r :=
  reaches_cons fun _ => by simp [walk, h]

/-- Induction along a walk: one case for its end, one for each kind of step. -/
@[elab_as_elim]
theorem Reaches.walk_induction {P : ∀ dir hops, Reaches links dir hops r → Prop}
    (nil : P r [] (reaches_nil.2 rfl))
    (up : ∀ dir hops h, P dir.dropLast hops h → P dir (.up :: hops) (reaches_up.2 h))
    (into : ∀ dir n hops hl h, P (dir ++ [n]) hops h → P dir (.into n :: hops)
      ((reaches_into hl).2 h))
    (link : ∀ dir n t hops hl h, P (Target.base t dir) (t.hops ++ hops) h →
      P dir (.into n :: hops) ((reaches_link hl).2 h))
    (h : Reaches links dir hops r) : P dir hops h := by
  obtain ⟨fuel, h⟩ := h
  induction fuel generalizing dir hops with
  | zero =>
    cases hops with
    | nil =>
      obtain rfl := reaches_nil.1 ⟨0, h⟩
      exact nil
    | cons _ _ => simp [walk] at h
  | succ fuel ih =>
    match hops, h with
    | [], h =>
      obtain rfl := reaches_nil.1 ⟨_, h⟩
      exact nil
    | .up :: hops, h => exact up _ _ _ (ih h)
    | .into n :: hops, h =>
      cases hl : links (dir ++ [n]) with
      | none => exact into _ _ _ hl _ (ih (by simpa [walk, hl] using h))
      | some t => exact link _ _ _ _ hl _ (ih (by simpa [walk, hl] using h))

/-- The components of a path can be followed in two parts. -/
theorem Reaches.append (h : Reaches links dir hops e) (h' : Reaches links e hops' r) :
    Reaches links dir (hops ++ hops') r := by
  induction h using Reaches.walk_induction with
  | nil => exact h'
  | up dir hops _ ih => exact reaches_up.2 ih
  | into dir n hops hl _ ih => exact (reaches_into hl).2 ih
  | link dir n t hops hl _ ih =>
    rw [List.append_assoc] at ih
    exact (reaches_link hl).2 ih

/-- The rest of a path is followed from where its first part leads. -/
theorem Reaches.of_append (h : Reaches links dir (hops ++ hops') r)
    (h' : Reaches links dir hops e) :
    Reaches links e hops' r := by
  induction h' using Reaches.walk_induction with
  | nil => exact h
  | up dir hops _ ih => exact ih (reaches_up.1 h)
  | into dir n hops hl _ ih => exact ih ((reaches_into hl).1 h)
  | link dir n t hops hl _ ih =>
    rw [List.append_assoc] at ih
    exact ih ((reaches_link hl).1 h)

/-- The names on the way are those of the directory, of the path and of the targets. -/
theorem Reaches.all {P : N → Prop} (hlinks : ∀ d t, links d = some t → ∀ n, .into n ∈ t.hops → P n)
    (h : Reaches links dir hops r) :
    (∀ n ∈ dir, P n) → (∀ n, .into n ∈ hops → P n) → ∀ n ∈ r, P n := by
  induction h using Reaches.walk_induction with
  | nil => exact fun hd _ => hd
  | up dir hops _ ih =>
    intro hd hh
    exact ih (fun n hn => hd n (List.dropLast_subset _ hn)) fun n hn => hh n (by simp [hn])
  | into dir n hops hl _ ih =>
    intro hd hh
    refine ih (fun m hm => ?_) fun m hm => hh m (by simp [hm])
    rcases List.mem_append.1 hm with hm | hm
    · exact hd m hm
    · exact hh m (by simp_all)
  | link dir n t hops hl _ ih =>
    intro hd hh
    refine ih (fun m hm => ?_) fun m hm => ?_
    · unfold Target.base at hm
      split at hm
      · simp at hm
      · exact hd m hm
    · rcases List.mem_append.1 hm with hm | hm
      · exact hlinks _ t hl m hm
      · exact hh m (by simp [hm])

/-- If the target of every link leads somewhere, every path does. -/
theorem exists_reaches
    (h : ∀ dir n t, links (dir ++ [n]) = some t → ∃ r, Reaches links (t.base dir) t.hops r)
    (dir : List N) (hops : List (Hop N)) : ∃ r, Reaches links dir hops r := by
  induction hops generalizing dir with
  | nil => exact ⟨dir, reaches_nil.2 rfl⟩
  | cons hop hops ih =>
    match hop with
    | .up =>
      obtain ⟨r, hr⟩ := ih dir.dropLast
      exact ⟨r, reaches_up.2 hr⟩
    | .into n =>
      cases hl : links (dir ++ [n]) with
      | none =>
        obtain ⟨r, hr⟩ := ih (dir ++ [n])
        exact ⟨r, (reaches_into hl).2 hr⟩
      | some t =>
        obtain ⟨e, he⟩ := h dir n t hl
        obtain ⟨r, hr⟩ := ih e
        exact ⟨r, (reaches_link hl).2 (he.append hr)⟩

/-! ## Directories without links -/

/-- Neither the directory nor one above it is a link. -/
def Real (links : List N → Option (Target N)) (dir : List N) : Prop :=
  ∀ e, e ≠ [] → e <+: dir → links e = none

/-- The root is no link. -/
theorem real_nil : Real links [] := by
  intro e hne he
  exact absurd (List.prefix_nil.1 he) hne

/-- The parent of a real directory is real. -/
theorem Real.dropLast (h : Real links dir) : Real links dir.dropLast := by
  intro e hne he
  exact h e hne (he.trans (List.dropLast_prefix dir))

/-- A path is real iff its parent is and its last name is no link. -/
theorem real_concat : Real links (dir ++ [n]) ↔ Real links dir ∧ links (dir ++ [n]) = none := by
  constructor
  · intro h
    refine ⟨fun e hne he => h e hne (he.trans (List.prefix_append _ _)), ?_⟩
    exact h _ (by simp) List.prefix_rfl
  · rintro ⟨h, hn⟩ e hne he
    rcases List.prefix_concat_iff.1 he with rfl | he
    · exact hn
    · exact h e hne he

/-- A link's target starts at a real directory: the link's own or the root. -/
theorem Real.base (h : Real links dir) : Real links (t.base dir) := by
  unfold Target.base
  split
  · exact real_nil
  · exact h

/-- A walk that starts in a directory without links ends in one. -/
theorem Reaches.real (h : Reaches links dir hops r) : Real links dir → Real links r := by
  induction h using Reaches.walk_induction with
  | nil => exact id
  | up dir hops _ ih => exact fun hd => ih hd.dropLast
  | into dir n hops hl _ ih => exact fun hd => ih (real_concat.2 ⟨hd, hl⟩)
  | link dir n t hops hl _ ih => exact fun hd => ih hd.base

/-- The names of a directory without links lead to it. -/
theorem Real.reaches (h : Real links dir) : Reaches links [] (dir.map .into) dir := by
  induction dir using List.reverseRecOn with
  | nil => exact reaches_nil.2 rfl
  | append_singleton dir n ih =>
    have hd := real_concat.1 h
    rw [List.map_append]
    refine (ih hd.1).append ?_
    exact (reaches_into hd.2).2 (reaches_nil.2 rfl)

end Lib.Namei
