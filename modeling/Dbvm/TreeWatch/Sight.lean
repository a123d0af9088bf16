import Dbvm.TreeWatch.Changes

/-!
# Nothing gets out of sight

Step by step: directories stay covered, and changes stay told. A change of the tree is told through
the directory it is in, which is covered; an event that is read is recorded or begins a walk; a walk
covers and records what it comes to. What has been known and has gone is told as long as nothing
that it was in has moved, and such a move is told by the directory that moves.
-/

namespace Dbvm.Watcher

open Lib Lib.NameTree

variable {s s' : Sys} {t : DirTree Str} {c : Change Str} {p q d : List Str} {x y : Str} {i j wd : ℕ}
  {e : Event} {es b : List Event}

/-! ## Steps that leave a path in sight -/

/-- What is in sight on the way to a path stays so. -/
structure Stays (s s' : Sys) (p : List Str) : Prop where
  /-- The watches. -/
  watched : ∀ d wd, d <+: p → Watched s d wd → Watched s' d wd
  /-- The events. -/
  events : s.kernel.queue ⊆ s'.kernel.queue
  /-- The walk. -/
  walk : ∀ q wk, q <+: p → s.walk = some wk → ComesTo s.tree wk q → ∃ wk', s'.walk = some wk' ∧
    ComesTo s'.tree wk' q
  /-- The paths. -/
  paths : s.w.paths ⊆ s'.w.paths

namespace Stays

variable (h : Stays s s' p)

include h

/-- What is found on the way stays found. -/
theorem found (hq : q <+: p) (hf : Found s q) : Found s' q := by
  cases hf with
  | @event d x wd what hw he hwhat =>
    exact .event (h.watched d wd ((List.prefix_append _ _).trans hq) hw) (h.events he) hwhat
  | @walk wk q hwk hcomes =>
    obtain ⟨wk', hwk', hcomes'⟩ := h.walk q wk hq hwk hcomes
    exact .walk hwk' hcomes'

/-- What is due stays due. -/
theorem due (hd : Due s p) : Due s' p := by
  obtain ⟨q, hq, hf⟩ := hd
  exact ⟨q, hq, h.found hq hf⟩

/-- What is covered stays covered. -/
theorem covered (hc : Covered s p) : Covered s' p :=
  hc.imp (fun ⟨wd, hw⟩ => ⟨wd, h.watched p wd (List.prefix_refl p) hw⟩) h.due

/-- What is told stays told. -/
theorem told (ht : Told s p) : Told s' p := by
  rcases ht with hpath | ⟨d, x, wd, what, isDir, rfl, hw, he⟩ | hd
  · exact Or.inl (h.paths hpath)
  · exact Or.inr (Or.inl ⟨d, x, wd, what, isDir, rfl, h.watched d wd (List.prefix_append _ _) hw,
      h.events he⟩)
  · exact Or.inr (Or.inr (h.due hd))

end Stays

/-- What is due above a path is due for it. -/
theorem Due.below (h : Due s q) (hq : q <+: p) : Due s p := by
  obtain ⟨r, hr, hf⟩ := h
  exact ⟨r, hr.trans hq, hf⟩

/-- What leads to a path is what it was. -/
def SameWay (s s' : Sys) (p : List Str) : Prop := ∀ r, r <+: p → s'.tree.entry r = s.tree.entry r

/-- The directories on the way are the same. -/
theorem SameWay.isDir (h : SameWay s s' p) (hd : d <+: p) :
    s'.tree.IsDir d i ↔ s.tree.IsDir d i := by
  rw [DirTree.IsDir, DirTree.IsDir, h d hd]

/-- A change elsewhere takes nothing out of sight. -/
theorem Stays.of_sameWay (hsame : SameWay s s' p) (hactive : s'.kernel.active = s.kernel.active)
    (hdirs : s'.w = s.w) (hwalk : s'.walk = s.walk) (hevents : s.kernel.queue ⊆ s'.kernel.queue) :
    Stays s s' p := by
  refine ⟨?_, hevents, ?_, by rw [hdirs]; exact List.Subset.refl _⟩
  · rintro d wd hd ⟨i, hi, hwd, hpath⟩
    exact ⟨i, (hsame.isDir hd).2 hi, by rw [hactive, hwd], by rw [hdirs, hpath]⟩
  · intro q wk hq hwk hcomes
    refine ⟨wk, by rw [hwalk, hwk], ?_⟩
    cases hcomes with
    | start => exact .start
    | opening => exact .opening
    | visit hdir => exact .visit ((hsame.isDir hq).2 hdir)
    | entry hf hhandle hdir he hsince hnot =>
      have hdir' := (hsame.isDir ((List.prefix_append _ _).trans hq)).2 hdir
      exact .entry hf hhandle hdir' (by rw [hsame _ hq, he]) hsince hnot

/-! ## Changes of the tree -/

/-- Every directory that a sync takes is covered. -/
def Covers (s : Sys) : Prop := ∀ p i, Synced p → s.tree.IsDir p i → Covered s p

/-- Every entry that has changed is told. -/
def TellsAll (s : Sys) : Prop :=
  ∀ p, Synced p → p ≠ [] → s.tree.entry p ≠ none → s.known.upto < s.tree.touched p → Told s p

/-- A step that only changes the tree and queues events. -/
structure Alters (s s' : Sys) : Prop where
  /-- The watches. -/
  active : s'.kernel.active = s.kernel.active
  /-- The watcher. -/
  w : s'.w = s.w
  /-- The walk. -/
  walk : s'.walk = s.walk
  /-- The events. -/
  events : s.kernel.queue <+: s'.kernel.queue
  /-- What is known. -/
  known : s'.known = s.known

/-- A change off the way leaves the path in sight. -/
theorem SameWay.stays (h : SameWay s s' p) (ha : Alters s s') : Stays s s' p :=
  .of_sameWay h ha.active ha.w ha.walk ha.events.subset

/-- The way to the directory of an entry that is touched. -/
theorem sameWay_parent (hg : s.tree.Grown) (h : NameTree.Touches s.tree s'.tree (d ++ [x]))
    (hd : s.tree.IsDir d i) : SameWay s s' d :=
  h.same_of_ne hg hd.ne_none (by simp)

/-- The way to the directory an entry moves to. -/
theorem sameWay_target (h : Moves s.tree s'.tree p (q ++ [y])) (hbelow : ¬ p <+: q) :
    SameWay s s' q := by
  refine h.same_of_apart (fun hpre => ?_) hbelow
  simpa using hpre.length_le

/-- The way to the directory an entry moves from. -/
theorem sameWay_source (hg : s.tree.Grown) (h : Moves s.tree s'.tree (d ++ [x]) q) :
    SameWay s s' d := by
  refine h.same_of_apart (fun hpre => h.not_above hg (hpre.trans (List.prefix_append _ _)))
    fun hpre => ?_
  simpa using hpre.length_le

/-- What has moved below another path is seen there: the directory that it has come to is covered.
-/
theorem due_of_moved (ha : Alters s s') (hmoves : Moves s.tree s'.tree p (q ++ [y]))
    (hbelow : ¬ p <+: q) (hq : s.tree.IsDir q j) (hcov : Covered s q)
    (hdir : ∃ k, s.tree.IsDir p k)
    (hto : ∀ wd, s.kernel.active.get? wd = some j → ∃ isDir,
      .entry wd .movedTo isDir y ∈ s'.kernel.queue ∧
      ∀ k, s.tree.IsDir p k → isDir = true) : Due s' (q ++ [y]) := by
  have hstays := (sameWay_target hmoves hbelow).stays ha
  rcases hcov with ⟨wd, hw⟩ | hdue
  · obtain ⟨i, hi, hwd, -⟩ := id hw
    obtain ⟨k, hk⟩ := hdir
    obtain rfl := hi.unique hq
    obtain ⟨isDir, he, htrue⟩ := hto wd hwd
    rw [htrue k hk] at he
    exact ⟨q ++ [y], List.prefix_refl _, .event (hstays.watched q wd (List.prefix_refl q) hw) he
      (Or.inr rfl)⟩
  · exact (hstays.due hdue).below (List.prefix_append _ _)

section Change

variable (ho : Orderly s) (ha : Alters s s') (hh : Happens s s')

include ho ha hh

/-- A change of the tree keeps every directory covered: a new one is announced to the watch of its
parent. -/
theorem Covers.change (hcov : Covers s) : Covers s' := by
  intro p k hp hk
  -- A directory is covered as before unless it is what changes, and then its event is queued.
  cases hh with
  | @touch d x i what isDir hd htouches hqueued hnew =>
    have hstays := (sameWay_parent ho.grown htouches hd).stays ha
    by_cases hpq : p = d ++ [x]
    · subst hpq
      have hds : Synced d := hp.upTo (List.prefix_append _ _)
      rcases htouches.change with hsame | ⟨hgone, -⟩ | ⟨hnone, -⟩
      · -- it is what it was
        have hsameWay : SameWay s s' (d ++ [x]) := by
          intro r hr
          rcases List.prefix_concat_iff.1 hr with rfl | hr
          · exact hsame
          · exact sameWay_parent ho.grown htouches hd r hr
        exact (hsameWay.stays ha).covered (hcov _ k hp ((hsameWay.isDir (List.prefix_refl _)).1 hk))
      · exact absurd hgone hk.ne_none
      · -- it is new
        obtain ⟨rfl, rfl⟩ := hnew hnone k hk
        right
        rcases hcov d i hds hd with ⟨wd, hw⟩ | hdue
        · obtain ⟨i', hi', hwd, -⟩ := id hw
          obtain rfl := hi'.unique hd
          exact ⟨d ++ [x], List.prefix_refl _, .event (hstays.watched d wd (List.prefix_refl d) hw)
            (hqueued wd hwd) (Or.inl rfl)⟩
        · exact (hstays.due hdue).below (List.prefix_append _ _)
    · have hk' : s.tree.IsDir p k := by
        obtain ⟨since, hsome⟩ := hk
        exact ⟨since, by rw [← htouches.other p hpq, hsome]⟩
      have hsameWay : SameWay s s' p := htouches.same_of_ne ho.grown hk'.ne_none hpq
      exact (hsameWay.stays ha).covered (hcov p k hp hk')
  | @move d q x y i j hd hq hbelow hmoves hsrc hdst hself =>
    rcases (hmoves.isDir_iff ho.grown).1 hk with ⟨r, rfl, hr⟩ | ⟨hnd, hns, hk'⟩
    · have hqs : Synced q := (hp.upTo (List.prefix_append _ _)).upTo (List.prefix_append q [y])
      have hdir : ∃ m, s.tree.IsDir (d ++ [x]) m := by
        by_cases hnil : r = []
        · subst hnil
          exact ⟨k, by rwa [List.append_nil] at hr⟩
        · exact ho.grown.isDir_above hr.ne_none (List.prefix_append _ _) (by simpa using hnil)
      exact Or.inr ((due_of_moved ha hmoves hbelow hq (hcov q j hqs hq) hdir hdst).below
        (List.prefix_append _ _))
    · have hsameWay : SameWay s s' p := hmoves.same_of_apart hnd hns
      exact (hsameWay.stays ha).covered (hcov p k hp hk')

/-- A change of the tree keeps what is due to be told: the change itself is announced. -/
theorem TellsAll.change (hcov : Covers s) (ht : TellsAll s) : TellsAll s' := by
  intro p hp hne hthere htouched
  -- One entry changes, or a directory moves with all that is below it.
  cases hh with
  | @touch d x i what isDir hd htouches hqueued _ =>
    have hstays := (sameWay_parent ho.grown htouches hd).stays ha
    by_cases hpq : p = d ++ [x]
    · subst hpq
      rcases hcov d i (hp.upTo (List.prefix_append _ _)) hd with ⟨wd, hw⟩ | hdue
      · obtain ⟨i', hi', hwd, -⟩ := id hw
        obtain rfl := hi'.unique hd
        exact Or.inr
          (Or.inl ⟨d, x, wd, what, isDir, rfl, hstays.watched d wd (List.prefix_refl d) hw,
            hqueued wd hwd⟩)
      · exact Or.inr (Or.inr ((hstays.due hdue).below (List.prefix_append _ _)))
    · rw [htouches.other p hpq] at hthere
      rw [htouches.touched, if_neg hpq, ha.known] at htouched
      have hsameWay : SameWay s s' p := htouches.same_of_ne ho.grown hthere hpq
      exact (hsameWay.stays ha).told (ht p hp hne hthere htouched)
  | @move d q x y i j hd hq hbelow hmoves hsrc hdst hself =>
    by_cases hto : q ++ [y] <+: p
    · obtain ⟨r, rfl⟩ := hto
      have hqs : Synced q := (hp.upTo (List.prefix_append _ _)).upTo (List.prefix_append q [y])
      have hstays := (sameWay_target hmoves hbelow).stays ha
      by_cases hnil : r = []
      · subst hnil
        rw [List.append_nil]
        rcases hcov q j hqs hq with ⟨wd, hw⟩ | hdue
        · obtain ⟨j', hj', hwd, -⟩ := id hw
          obtain rfl := hj'.unique hq
          obtain ⟨isDir, he, -⟩ := hdst wd hwd
          exact Or.inr
            (Or.inl ⟨q, y, wd, .movedTo, isDir, rfl, hstays.watched q wd (List.prefix_refl q) hw,
              he⟩)
        · exact Or.inr (Or.inr ((hstays.due hdue).below (List.prefix_append _ _)))
      · -- it has come with a directory
        rw [hmoves.entry_below hnil] at hthere
        have hdir := ho.grown.isDir_above hthere (List.prefix_append _ _) (by simpa using hnil)
        exact Or.inr
          (Or.inr ((due_of_moved ha hmoves hbelow hq (hcov q j hqs hq) hdir hdst).below
            (List.prefix_append _ _)))
    · by_cases hsrc' : d ++ [x] <+: p
      · obtain ⟨r, rfl⟩ := hsrc'
        exact absurd (hmoves.entry_src ho.grown r) hthere
      · rw [hmoves.entry_other hto hsrc'] at hthere
        rw [hmoves.touched, if_neg (by push Not; exact ⟨hsrc', hto⟩), ha.known] at htouched
        have hsameWay : SameWay s s' p := hmoves.same_of_apart hto hsrc'
        exact (hsameWay.stays ha).told (ht p hp hne hthere htouched)

end Change

/-! ## What has been known -/

/-- What has been known and not changed is still there with its names, and what has changed is told;
directories that have kept their names are watched. -/
structure Remembers (s : Sys) : Prop where
  /-- What has not changed. -/
  kept : ∀ p, Synced p → s.known.Has p → s.tree.touched p ≤ s.known.upto →
    s.tree.Held s.known.since p
  /-- What has changed. -/
  told : ∀ p, Synced p → s.known.Has p → s.known.upto < s.tree.touched p → p ≠ [] → ToldOld s p
  /-- Directories. -/
  held : ∀ p i, Synced p → s.tree.IsDir p i → s.tree.Held s.known.since p → ∃ wd, Watched s p wd

section Change

variable (ho : Orderly s) (ho' : Orderly s') (ha : Alters s s') (hh : Happens s s')
  (hr : Remembers s) (hnot : ¬ Doomed s')

include ho ho' ha hr

omit ho in
/-- A change in a directory that has kept its names is told. -/
theorem toldOld_of_held (what : What) (isDir : Bool) (hd : Synced d) (hdir : s.tree.IsDir d i)
    (hheld : s.tree.Held s.known.since d) (hsame : SameWay s s' d)
    (hqueued : ∀ wd, s.kernel.active.get? wd = some i → .entry wd what isDir x ∈ s'.kernel.queue) :
    ToldOld s' (d ++ [x]) := by
  obtain ⟨wd, i', hi', hwd, hpath⟩ := hr.held d i hd hdir hheld
  obtain rfl := hi'.unique hdir
  have hwd' : s'.kernel.active.get? wd = some i' := by rw [ha.active, hwd]
  refine Or.inr ⟨d, x, wd, what, isDir, rfl, .of_mem (hqueued wd hwd)
    (ho'.goes wd i' hwd'), by rw [ha.w, hpath], fun j hj => ?_⟩
  rw [hwd'] at hj
  obtain rfl := Option.some.inj hj
  exact Or.inl
    ⟨(hsame.isDir (List.prefix_refl d)).2 hdir, by rw [ha.known]; exact hheld.congr hsame⟩

include hnot

omit ho in
/-- A directory that has kept its names does not move. -/
theorem not_moved_of_held {k : ℕ} (hp : Synced p) (hdir : s.tree.IsDir p k)
    (hheld : s.tree.Held s.known.since p)
    (hself : ∀ wd, s.kernel.active.get? wd = some k → .moveSelf wd ∈ s'.kernel.queue) : False := by
  obtain ⟨wd, i, hi, hwd, hpath⟩ := hr.held p k hp hdir hheld
  obtain rfl := hi.unique hdir
  have hwd' : s'.kernel.active.get? wd = some i := by rw [ha.active, hwd]
  exact hnot
    (Or.inr
      (Or.inr (Or.inl ⟨wd, _, by rw [ha.w, hpath], .of_mem (hself wd hwd) (ho'.goes wd i hwd')⟩)))

include hh

/-- A directory that has not moved does not, or is no more. -/
theorem Fast.change (hd : Synced d)
    (hids : ∀ i, s.kernel.active.get? wd = some i → i < s.tree.next) (hf : Fast s d wd) :
    Fast s' d wd := by
  intro i hwd
  rw [ha.active] at hwd
  have hdead : (∀ q, ¬ s.tree.IsDir q i) → ∀ q, ¬ s'.tree.IsDir q i := by
    intro hnone q hq
    cases hh with
    | touch _ htouches _ _ =>
      rcases htouches.isDir_back hq with hq | ⟨-, heq, -⟩
      · exact hnone q hq
      · have hlt := hids i hwd
        omega
    | move _ _ _ hmoves _ _ _ =>
      rcases (hmoves.isDir_iff ho.grown).1 hq with ⟨_, _, hq⟩ | ⟨-, -, hq⟩
      · exact hnone _ hq
      · exact hnone _ hq
  -- Either the watched directory is still where the watch knows it, or it is gone for good.
  rcases hf i hwd with ⟨hdir, hheld⟩ | hnone
  · have hstill : SameWay s s' d → (s'.tree.IsDir d i ∧ s'.tree.Held s'.known.since d) :=
      fun hsame =>
      ⟨(hsame.isDir (List.prefix_refl d)).2 hdir, by rw [ha.known]; exact hheld.congr hsame⟩
    cases hh with
    | @touch r x j what isDir hj htouches _ _ =>
      by_cases hdr : d = r ++ [x]
      · subst hdr
        rcases htouches.change with hsame | ⟨hgone, -⟩ | ⟨hnone, -⟩
        · refine Or.inl (hstill fun q hq => ?_)
          rcases List.prefix_concat_iff.1 hq with rfl | hq
          · exact hsame
          · exact sameWay_parent ho.grown htouches hj q hq
        · -- it has gone, and was nowhere else
          refine Or.inr fun q hq => ?_
          rcases htouches.isDir_back hq with hq' | ⟨-, heq, -⟩
          · obtain rfl := ho.grown.inj _ _ i hq' hdir
            exact hq.ne_none hgone
          · have hlt := hids i hwd
            omega
        · exact absurd hnone hdir.ne_none
      · exact Or.inl (hstill (htouches.same_of_ne ho.grown hdir.ne_none hdr))
    | @move r q x y j k hj hk hbelow hmoves hsrc hdst hself =>
      by_cases hto : q ++ [y] <+: d
      · -- it has been replaced
        have hthere := ho.grown.exists_above hdir.ne_none hto
        obtain ⟨l, rfl⟩ := hto
        cases l with
        | cons z l =>
          exact absurd (hmoves.bare hthere z) (ho.grown.exists_above hdir.ne_none ⟨l, by simp⟩)
        | nil =>
          rw [List.append_nil] at hdir
          refine Or.inr fun m hm => ?_
          rcases (hmoves.isDir_iff ho.grown).1 hm with ⟨l, rfl, hl⟩ | ⟨hnot, -, hm⟩
          · have heq := ho.grown.inj _ _ i hl hdir
            exact hmoves.apart ⟨l, heq⟩
          · exact hnot (by rw [ho.grown.inj _ _ i hm hdir])
      · by_cases hfrom : r ++ [x] <+: d
        · exfalso
          have hsome : ∃ m, s.tree.IsDir (r ++ [x]) m := by
            by_cases heq : r ++ [x] = d
            · exact ⟨i, by rw [heq]; exact hdir⟩
            · exact ho.grown.isDir_above hdir.ne_none hfrom heq
          obtain ⟨m, hm⟩ := hsome
          exact not_moved_of_held ho' ha hr hnot (hd.upTo hfrom) hm (hheld.upTo hfrom)
            fun wd => hself m wd hm
        · exact Or.inl (hstill (hmoves.same_of_apart hto hfrom))
  · exact Or.inr (hdead hnone)

/-- A change of the tree keeps what is remembered. -/
theorem Remembers.change : Remembers s' := by
  have hsince := ho.since
  have hupto := ho.upto
  -- An entry that is remembered either stays as it is or is what changes, and then it is told.
  refine ⟨fun p hp hhas htouched => ?_, fun p hp hhas htouched hne => ?_,
    fun p i hp hdir hheld => ?_⟩
  · -- what has not changed is there, and is not what changes
    rw [ha.known] at hhas htouched ⊢
    cases hh with
    | touch _ htouches _ _ =>
      have hbefore : s.tree.touched p ≤ s.known.upto := by
        rw [htouches.touched] at htouched
        split_ifs at htouched
        · omega
        · exact htouched
      have hheld := hr.kept p hp hhas hbefore
      exact hheld.congr (htouches.same_of_untouched ho.grown hupto hheld.there htouched).2
    | move _ _ _ hmoves _ _ _ =>
      obtain ⟨hbefore, hto, hfrom⟩ := hmoves.apart_of_untouched hupto htouched
      exact (hr.kept p hp hhas hbefore).congr (hmoves.same_of_apart hto hfrom)
  · rw [ha.known] at hhas htouched
    by_cases hbefore : s.tree.touched p ≤ s.known.upto
    · -- it changes now, and was there
      have hheld := hr.kept p hp hhas hbefore
      cases hh with
      | @touch d x i what isDir hd htouches hqueued _ =>
        by_cases hpq : p = d ++ [x]
        · subst hpq
          exact toldOld_of_held ho' ha hr what isDir (hp.upTo (List.prefix_append _ _)) hd
            (hheld.upTo (List.prefix_append _ _)) (sameWay_parent ho.grown htouches hd) hqueued
        · rw [htouches.touched, if_neg hpq] at htouched
          omega
      | @move d q x y i j hd hq hbelow hmoves hsrc hdst hself =>
        by_cases hto : q ++ [y] <+: p
        · have hthere := ho.grown.exists_above hheld.there hto
          obtain ⟨l, rfl⟩ := hto
          cases l with
          | cons z l => exact absurd (hmoves.bare hthere z) (ho.grown.exists_above hheld.there
              ⟨l, by simp⟩)
          | nil =>
            rw [List.append_nil] at hp hheld ⊢
            have hpre : q <+: q ++ [y] := List.prefix_append _ _
            obtain ⟨wd, hw⟩ := hr.held q j (hp.upTo hpre) hq (hheld.upTo hpre)
            obtain ⟨j', hj', hwd, -⟩ := id hw
            obtain rfl := hj'.unique hq
            obtain ⟨isDir, he, -⟩ := hdst wd hwd
            refine toldOld_of_held ho' ha hr .movedTo isDir (hp.upTo hpre) hq (hheld.upTo hpre)
              (sameWay_target hmoves hbelow) fun wd' hwd' => ?_
            rwa [ho.one wd' wd j' hwd' hwd]
        · by_cases hfrom : d ++ [x] <+: p
          · by_cases heq : d ++ [x] = p
            · subst heq
              have hpre : d <+: d ++ [x] := List.prefix_append _ _
              obtain ⟨wd, hw⟩ := hr.held d i (hp.upTo hpre) hd (hheld.upTo hpre)
              obtain ⟨i', hi', hwd, -⟩ := id hw
              obtain rfl := hi'.unique hd
              obtain ⟨isDir, he⟩ := hsrc wd hwd
              refine toldOld_of_held ho' ha hr .movedFrom isDir (hp.upTo hpre) hd
                (hheld.upTo hpre)
                (sameWay_source ho.grown hmoves) fun wd' hwd' => ?_
              rwa [ho.one wd' wd i' hwd' hwd]
            · -- something above it moves
              exfalso
              obtain ⟨m, hm⟩ := ho.grown.isDir_above hheld.there hfrom heq
              exact not_moved_of_held ho' ha hr hnot (hp.upTo hfrom) hm (hheld.upTo hfrom)
                fun wd => hself m wd hm
          · rw [hmoves.touched, if_neg (by push Not; exact ⟨hfrom, hto⟩)] at htouched
            omega
    · -- it has been told
      rcases hr.told p hp hhas (by omega) hne with hpath | ⟨d, x, wd, what, isDir, rfl, hlive,
        hpath, hfast⟩
      · exact Or.inl (by rwa [ha.w])
      · have hd : Synced d := hp.upTo (List.prefix_append _ _)
        exact Or.inr ⟨d, x, wd, what, isDir, rfl, hlive.extend ha.events, by rw [ha.w, hpath],
          hfast.change ho ho' ha hh hr hnot hd fun i hi => ho.ids wd i hi⟩
  · rw [ha.known] at hheld
    have hsame : SameWay s s' p := by
      cases hh with
      | touch _ htouches _ _ => exact htouches.same_of_held hsince hheld
      | move _ _ _ hmoves _ _ _ =>
        obtain ⟨hto, hfrom⟩ := hmoves.apart_of_held ho.grown hsince hheld
        exact hmoves.same_of_apart hto hfrom
    have hheld' : s.tree.Held s.known.since p := hheld.congr fun r hr => (hsame r hr).symm
    obtain ⟨wd, hw⟩ := hr.held p i hp ((hsame.isDir (List.prefix_refl p)).1 hdir) hheld'
    exact ⟨wd, (hsame.stays ha).watched p wd (List.prefix_refl p) hw⟩

end Change

end Dbvm.Watcher
