import Dbvm.Overlay.Rows

/-!
# Whiteouts

A whiteout hides its path and everything below it. `clear_whiteouts_for` makes a path visible: it
deletes the whiteouts on the path and on its ancestors, and gives the paths of the Base they hid
besides whiteouts of their own. The subtrees are selected by `LIKE` patterns without an escape, so
the facts here are about sets of paths whose patterns match only what lies below (`Plain`). On
those, no row of the Delta is ever under a whiteout (`Tidy`).
-/

namespace Dbvm.Overlay

open Lib Lib.Prog

variable {K : Type} [DecidableEq K]

/-! ## Plain paths -/

/-- A set of paths in normal form, with their ancestors, on which the pattern of a path matches only
what lies below the path. -/
structure Plain (U : Str → Prop) : Prop where
  /-- The paths are in normal form. -/
  normal : ∀ {p}, U p → Normal p
  /-- The root is one of them. -/
  top : U root
  /-- So are their ancestors. -/
  up : ∀ {p a}, U p → a ∈ ancestors p → U a
  /-- A pattern matches nothing else. -/
  like : ∀ {p q}, U p → U q → Lib.like (p ++ ['/', '%']) q = true → Below p q

variable {U : Str → Prop}

/-- On plain paths the pattern `p/%` matches what lies below `p`. -/
theorem Plain.like_iff (hU : Plain U) {p q : Str} (hp : U p) (hq : U q) :
    Lib.like (p ++ ['/', '%']) q = true ↔ Below p q := by
  refine ⟨hU.like hp hq, fun h => ?_⟩
  have := like_of_prefix h
  rwa [List.append_assoc] at this

/-- A list of paths that can be checked. -/
theorem plain_of_list {l : List Str} (htop : root ∈ l) (h : ∀ p ∈ l, Normal p ∧
    (∀ a ∈ ancestors p, a ∈ l) ∧ ∀ q ∈ l, Lib.like (p ++ ['/', '%']) q = true → Below p q) :
    Plain (· ∈ l) where
  normal := fun hp => (h _ hp).1
  top := htop
  up := fun hp ha => (h _ hp).2.1 _ ha
  like := fun hp hq => (h _ hp).2.2 _ hq

/-- The subtree a removal takes. -/
theorem Plain.inSubtree_iff (hU : Plain U) {p q : Str} (hp : U p) (hroot : p ≠ root) (hq : U q) :
    inSubtree p q = true ↔ q = p ∨ Below p q := by
  rw [inSubtree, if_neg hroot, Bool.or_eq_true, decide_eq_true_eq, hU.like_iff hp hq]

/-! ## What a list of whiteouts hides -/

/-- A whiteout on the path or above it. -/
def Hides (w : List Str) (q : Str) : Prop := ∃ a ∈ w, a = q ∨ Below a q

/-- What hides a path hides what lies below it. -/
theorem Hides.below {w : List Str} {p q : Str} (h : Hides w p) (hb : Below p q) : Hides w q := by
  obtain ⟨a, ha, rfl | hap⟩ := h
  · exact ⟨a, ha, Or.inr hb⟩
  · exact ⟨a, ha, Or.inr (hap.trans hb)⟩

omit [DecidableEq K] in
/-- The walk over the ancestors finds a whiteout exactly when there is one on the path or above it.
The root is never one. -/
theorem whitedOut_iff {o : Overlay K} (hw : ∀ a ∈ o.whiteouts, Normal a)
    (hroot : root ∉ o.whiteouts) (q : Str) : o.whitedOut q = true ↔ Hides o.whiteouts q := by
  unfold whitedOut selfAndAncestors Hides
  rw [List.any_eq_true]
  constructor
  · rintro ⟨a, ha, hin⟩
    have hin := of_decide_eq_true hin
    refine ⟨a, hin, ?_⟩
    rw [List.mem_cons, List.mem_append] at ha
    rcases ha with rfl | ha | ha
    · exact Or.inl rfl
    · exact Or.inr (mem_ancestors.1 ha).2
    · split_ifs at ha with hs
      · rw [List.mem_singleton.1 ha] at hin
        exact absurd hin hroot
      · simp at ha
  · rintro ⟨a, hin, rfl | hb⟩
    · exact ⟨a, by simp, by simpa using hin⟩
    · exact ⟨a, by simp [mem_ancestors.2 ⟨(hw a hin).ne_nil, hb⟩], by simpa using hin⟩

/-- A whiteout is one more. -/
theorem mem_addWhiteout {w : List Str} {p a : Str} : a ∈ addWhiteout w p ↔ a ∈ w ∨ a = p := by
  unfold addWhiteout
  split_ifs with h
  · exact ⟨Or.inl, fun h' => h'.elim id fun ha => ha ▸ h⟩
  · simp

/-- Whiteouts are added one by one. -/
theorem mem_foldl_addWhiteout {a : Str} :
    ∀ {ps w : List Str}, a ∈ ps.foldl addWhiteout w ↔ a ∈ w ∨ a ∈ ps
  | [], w => by simp
  | p :: ps, w => by
    rw [List.foldl_cons, mem_foldl_addWhiteout, mem_addWhiteout, List.mem_cons, or_assoc]

omit [DecidableEq K] in
/-- The Base paths that the pattern finds below an ancestor. -/
theorem mem_basePathsUnder {base : Db K} {anc q : Str} : q ∈ basePathsUnder base anc ↔
    (∃ row, base.fs.get? q = some row) ∧ Lib.like (anc ++ ['/', '%']) q = true := by
  rw [basePathsUnder, List.mem_filter, Table.mem_keys_iff]

/-! ## Clearing whiteouts -/

omit [DecidableEq K] in
/-- The whiteouts after a path has been made visible. -/
theorem mem_clearedWhiteouts {base : Db K} {w : List Str} {p a : Str} :
    a ∈ clearedWhiteouts base w p ↔ a ≠ p ∧ a ∉ ancestors p ∧ (a ∈ w ∨
      (∃ anc ∈ ancestors p, anc ∈ w ∧ a ∈ basePathsUnder base anc ∧ ¬ Below p a) ∨
      p ∈ w ∧ a ∈ basePathsUnder base p) := by
  have hlocked : ∀ b, b ∈ ((ancestors p).filter fun a => a ∈ w).flatMap (fun anc =>
      (basePathsUnder base anc).filter fun bp =>
        !(bp = p || (p ++ ['/']).isPrefixOf bp || bp ∈ ancestors p)) ↔
      b ≠ p ∧ b ∉ ancestors p ∧ ¬ Below p b ∧
        ∃ anc ∈ ancestors p, anc ∈ w ∧ b ∈ basePathsUnder base anc := by
    intro b
    simp only [List.mem_flatMap, List.mem_filter, decide_eq_true_eq, Bool.not_eq_true',
      Bool.or_eq_false_iff, decide_eq_false_iff_not, Below, ← List.isPrefixOf_iff_prefix,
      Bool.not_eq_true]
    constructor
    · rintro ⟨anc, ⟨hanc, hw⟩, hb, ⟨hne, hbelow⟩, hnot⟩
      exact ⟨hne, hnot, hbelow, anc, hanc, hw, hb⟩
    · rintro ⟨hne, hnot, hbelow, anc, hanc, hw, hb⟩
      exact ⟨anc, ⟨hanc, hw⟩, hb, ⟨hne, hbelow⟩, hnot⟩
  unfold clearedWhiteouts
  dsimp only
  generalize ((ancestors p).filter fun a => a ∈ w).flatMap (fun anc =>
    (basePathsUnder base anc).filter fun bp =>
      !(bp = p || (p ++ ['/']).isPrefixOf bp || bp ∈ ancestors p)) = locked at hlocked ⊢
  -- The path itself is never locked, so its own whiteout is an old one.
  have hself : p ∈ locked.foldl addWhiteout w ↔ p ∈ w := by
    rw [mem_foldl_addWhiteout]
    exact or_iff_left fun h => ((hlocked p).1 h).1 rfl
  have hin : a ∈ (if p ∈ locked.foldl addWhiteout w then
        (basePathsUnder base p).foldl addWhiteout (locked.foldl addWhiteout w)
      else locked.foldl addWhiteout w) ↔
      a ∈ w ∨ a ∈ locked ∨ p ∈ w ∧ a ∈ basePathsUnder base p := by
    by_cases hp : p ∈ w
    · rw [if_pos (hself.2 hp), mem_foldl_addWhiteout, mem_foldl_addWhiteout, or_assoc]
      simp [hp]
    · rw [if_neg fun h => hp (hself.1 h), mem_foldl_addWhiteout]
      simp [hp]
  rw [List.mem_filter, hin, hlocked]
  simp only [Bool.and_eq_true, decide_eq_true_eq, ne_eq]
  constructor
  · rintro ⟨ha | ⟨-, -, hbelow, anc, hanc, hw, hb⟩ | ha, hne, hnot⟩
    · exact ⟨hne, hnot, Or.inl ha⟩
    · exact ⟨hne, hnot, Or.inr (Or.inl ⟨anc, hanc, hw, hb, hbelow⟩)⟩
    · exact ⟨hne, hnot, Or.inr (Or.inr ha)⟩
  · rintro ⟨hne, hnot, ha | ⟨anc, hanc, hw, hb, hbelow⟩ | ha⟩
    · exact ⟨Or.inl ha, hne, hnot⟩
    · exact ⟨Or.inr (Or.inl ⟨hne, hnot, hbelow, anc, hanc, hw, hb⟩), hne, hnot⟩
    · exact ⟨Or.inr (Or.inr ha), hne, hnot⟩

section Cleared

variable {base : Db K} {w : List Str} {p q : Str}

omit [DecidableEq K] in
/-- Making a path visible hides nothing that was visible. -/
theorem hides_of_cleared (hU : Plain U) (hbase : ∀ q row, base.fs.get? q = some row → U q)
    (hp : U p) (h : Hides (clearedWhiteouts base w p) q) : Hides w q := by
  obtain ⟨a, ha, haq⟩ := h
  have hold : Hides w a := by
    rcases (mem_clearedWhiteouts.1 ha).2.2 with hw | ⟨anc, hanc, hw, hb, -⟩ | ⟨hw, hb⟩
    · exact ⟨a, hw, Or.inl rfl⟩
    · obtain ⟨⟨row, hrow⟩, hlike⟩ := mem_basePathsUnder.1 hb
      exact ⟨anc, hw, Or.inr (hU.like (hU.up hp hanc) (hbase a row hrow) hlike)⟩
    · obtain ⟨⟨row, hrow⟩, hlike⟩ := mem_basePathsUnder.1 hb
      exact ⟨p, hw, Or.inr (hU.like hp (hbase a row hrow) hlike)⟩
  rcases haq with rfl | hb
  · exact hold
  · exact hold.below hb

omit [DecidableEq K] in
/-- The path and its ancestors are visible. -/
theorem not_hides_cleared (hne : ∀ a ∈ clearedWhiteouts base w p, a ≠ [])
    (hq : q = p ∨ q ∈ ancestors p) : ¬ Hides (clearedWhiteouts base w p) q := by
  rintro ⟨a, ha, haq⟩
  obtain ⟨hap, hanc, -⟩ := mem_clearedWhiteouts.1 ha
  rcases hq with rfl | hq
  · rcases haq with rfl | hb
    · exact hap rfl
    · exact hanc (mem_ancestors.2 ⟨hne a ha, hb⟩)
  · have hqp := (mem_ancestors.1 hq).2
    rcases haq with rfl | hb
    · exact hanc hq
    · exact hanc (mem_ancestors.2 ⟨hne a ha, hb.trans hqp⟩)

omit [DecidableEq K] in
/-- A path of the Base stays hidden unless it is the path made visible, one of its ancestors, or
below it and hidden from above only. -/
theorem hides_cleared (hU : Plain U) (hbase : ∀ q row, base.fs.get? q = some row → U q)
    (hw : ∀ a ∈ w, U a) (hp : U p) {row : FsRow K} (hrow : base.fs.get? q = some row)
    (h : Hides w q) (hne : q ≠ p) (hanc : q ∉ ancestors p)
    (hbelow : Below p q → p ∈ w ∨ ∃ a ∈ w, Below p a ∧ (a = q ∨ Below a q)) :
    Hides (clearedWhiteouts base w p) q := by
  have hqU := hbase q row hrow
  -- What is hidden by a whiteout below the path stays hidden by it.
  have hlow : (∃ a ∈ w, Below p a ∧ (a = q ∨ Below a q)) →
      Hides (clearedWhiteouts base w p) q := by
    rintro ⟨a, ha, hpa, haq⟩
    refine ⟨a, mem_clearedWhiteouts.2 ⟨hpa.ne.symm, fun hmem => ?_, Or.inl ha⟩, haq⟩
    exact not_below_self p (hpa.trans (mem_ancestors.1 hmem).2)
  -- What is below the path gets a whiteout of its own when the path has one.
  have hself : p ∈ w → Below p q → Hides (clearedWhiteouts base w p) q := by
    intro hpw hpq
    exact ⟨q, mem_clearedWhiteouts.2 ⟨hne, hanc, Or.inr (Or.inr ⟨hpw, mem_basePathsUnder.2
      ⟨⟨row, hrow⟩, (hU.like_iff hp hqU).2 hpq⟩⟩)⟩, Or.inl rfl⟩
  obtain ⟨a, ha, haq⟩ := h
  by_cases hap : a = p
  · subst hap
    rcases haq with rfl | hb
    · exact absurd rfl hne
    · exact hself ha hb
  by_cases haanc : a ∈ ancestors p
  · have hb : Below a q := by
      rcases haq with rfl | hb
      · exact absurd haanc hanc
      · exact hb
    by_cases hpq : Below p q
    · rcases hbelow hpq with hpw | hex
      · exact hself hpw hpq
      · exact hlow hex
    · exact ⟨q, mem_clearedWhiteouts.2 ⟨hne, hanc, Or.inr (Or.inl ⟨a, haanc, ha,
        mem_basePathsUnder.2 ⟨⟨row, hrow⟩, (hU.like_iff (hw a ha) hqU).2 hb⟩, hpq⟩)⟩, Or.inl rfl⟩
  · exact ⟨a, mem_clearedWhiteouts.2 ⟨hap, haanc, Or.inl ha⟩, haq⟩

end Cleared

/-! ## The invariant of a run -/

/-- All paths are plain, and no row of the Delta is under a whiteout. -/
structure Tidy (U : Str → Prop) (o : Overlay K) : Prop where
  /-- The paths of the Base. -/
  base : ∀ q row, o.base.fs.get? q = some row → U q
  /-- The paths of the Delta. -/
  delta : ∀ q row, o.main.fs.get? q = some row → U q
  /-- The paths of the whiteouts. -/
  white : ∀ a ∈ o.whiteouts, U a
  /-- The root has no whiteout. -/
  top : root ∉ o.whiteouts
  /-- The rows of the Delta are visible. -/
  shown : ∀ q row, o.main.fs.get? q = some row → ¬ Hides o.whiteouts q

variable {o o' : Overlay K} {p : Str}

omit [DecidableEq K] in
/-- In a tidy overlay the test finds what a whiteout hides. -/
theorem Tidy.whitedOut_iff (h : Tidy U o) (hU : Plain U) (q : Str) :
    o.whitedOut q = true ↔ Hides o.whiteouts q :=
  Overlay.whitedOut_iff (fun a ha => hU.normal (h.white a ha)) h.top q

omit [DecidableEq K] in
/-- A write of an entry keeps the overlay tidy. -/
theorem Tidy.wrote (h : Tidy U o) (hU : Plain U) (hp : U p) {dirs : List Str}
    (hdirs : ∀ d ∈ dirs, d ∈ ancestors p) {now : ℤ} (hw : Wrote p dirs now o o') : Tidy U o' := by
  have hwhite : ∀ a ∈ o'.whiteouts, U a := by
    intro a ha
    rw [hw.whiteouts] at ha
    rcases (mem_clearedWhiteouts.1 ha).2.2 with ha | ⟨_, _, _, hb, _⟩ | ⟨_, hb⟩
    · exact h.white a ha
    · obtain ⟨⟨row, hrow⟩, -⟩ := mem_basePathsUnder.1 hb
      exact h.base a row hrow
    · obtain ⟨⟨row, hrow⟩, -⟩ := mem_basePathsUnder.1 hb
      exact h.base a row hrow
  -- A row at another path is an old one or that of a parent.
  have hrows : ∀ q row, o'.main.fs.get? q = some row →
      (q = p ∨ q ∈ ancestors p) ∨ o.main.fs.get? q = some row := by
    intro q row hq
    rcases eq_or_ne q p with rfl | hne
    · exact Or.inl (Or.inl rfl)
    · rw [hw.fs q hne] at hq
      split_ifs at hq with hd
      · exact Or.inl (Or.inr (hdirs q hd.1))
      · exact Or.inr hq
  refine ⟨fun q row hq => h.base q row (hw.base ▸ hq), fun q row hq => ?_, hwhite, fun hroot => ?_,
    fun q row hq => ?_⟩
  · rcases hrows q row hq with (rfl | hanc) | hold
    · exact hp
    · exact hU.up hp hanc
    · exact h.delta q row hold
  · rw [hw.whiteouts] at hroot
    rcases (mem_clearedWhiteouts.1 hroot).2.2 with hr | ⟨anc, hanc, -, hb, -⟩ | ⟨-, hb⟩
    · exact h.top hr
    · exact not_below_root (hU.normal (hU.up hp hanc)).ne_nil
        (hU.like (hU.up hp hanc) hU.top (mem_basePathsUnder.1 hb).2)
    · exact not_below_root (hU.normal hp).ne_nil
        (hU.like hp hU.top (mem_basePathsUnder.1 hb).2)
  · rw [hw.whiteouts]
    rcases hrows q row hq with hself | hold
    · refine not_hides_cleared (fun a ha => ?_) hself
      rw [← hw.whiteouts] at ha
      exact (hU.normal (hwhite a ha)).ne_nil
    · intro hh
      exact h.shown q row hold (hides_of_cleared hU h.base hp hh)

omit [DecidableEq K] in
/-- A removal keeps the overlay tidy. -/
theorem Tidy.removed (h : Tidy U o) (hU : Plain U) (hp : U p) (hroot : p ≠ root)
    (hr : Removed p o o') : Tidy U o' := by
  have hrows : ∀ q row, o'.main.fs.get? q = some row →
      inSubtree p q = false ∧ o.main.fs.get? q = some row := by
    intro q row hq
    rw [hr.fs] at hq
    split_ifs at hq with hs
    exact ⟨by simpa using hs, hq⟩
  -- The removal adds one whiteout at most, at `p`, and takes rows only.
  have hwhite : ∀ a ∈ o'.whiteouts, a ∈ o.whiteouts ∨ a = p := by
    intro a ha
    rw [hr.whiteouts] at ha
    split_ifs at ha
    · exact mem_addWhiteout.1 ha
    · exact Or.inl ha
  refine ⟨fun q row hq => h.base q row (hr.base ▸ hq), fun q row hq => ?_, fun a ha => ?_,
    fun hmem => ?_, fun q row hq => ?_⟩
  · exact h.delta q row (hrows q row hq).2
  · rcases hwhite a ha with ha | rfl
    · exact h.white a ha
    · exact hp
  · rcases hwhite _ hmem with ha | ha
    · exact h.top ha
    · exact hroot ha.symm
  · obtain ⟨hsub, hold⟩ := hrows q row hq
    rintro ⟨a, ha, haq⟩
    rcases hwhite a ha with ha | rfl
    · exact h.shown q row hold ⟨a, ha, haq⟩
    · have : inSubtree a q = true := (hU.inSubtree_iff hp hroot (h.delta q row hold)).2
        (haq.imp Eq.symm id)
      rw [this] at hsub
      cases hsub

/-- The overlays reached from an empty Delta over a given Base by operations that meet a condition.
An operation that fails leaves the state as it was. -/
inductive Reachable (C : Overlay K → OverlayOp → Prop) (E : Ext K) (base : Db K) :
    Overlay K → Prop where
  /-- A Delta fresh from `init_vm_db`. -/
  | init (now : ℤ) : Reachable C E base ⟨base, initDb now, []⟩
  /-- One more operation. -/
  | step {o : Overlay K} (h : Reachable C E base o) (op : OverlayOp) (hop : C o op) :
    Reachable C E base (endState (op.run E) o)

/-- What is reached under a condition is reached under a weaker one. -/
theorem Reachable.mono {C D : Overlay K → OverlayOp → Prop} {E : Ext K} {base : Db K}
    (hCD : ∀ o op, C o op → D o op) (h : Reachable C E base o) : Reachable D E base o := by
  induction h with
  | init now => exact .init now
  | step _ op hop ih => exact ih.step op (hCD _ op hop)

/-- The Base is never written. -/
theorem endState_base {E : Ext K} {op : OverlayOp} (hn : Normal op.path) (o : Overlay K) :
    (endState (op.run E) o).base = o.base := by
  rcases endState_run (E := E) op o with he | hok
  · rw [he]
  · rcases run_ok hn hok with he | ⟨_, _, hr⟩ | ⟨_, _, hw⟩
    · rw [he]
    · exact hr.base
    · exact hw.base

/-- An operation at a plain path that does not remove the root. -/
def PlainOp (U : Str → Prop) (op : OverlayOp) : Prop :=
  U op.path ∧ ∀ vmPath, op = .remove vmPath → op.path ≠ root

/-- No run changes the Base. -/
theorem base_of_reachable {E : Ext K} {base : Db K} (hU : Plain U)
    (h : Reachable (fun _ => PlainOp U) E base o) : o.base = base := by
  induction h with
  | init now => rfl
  | step _ op hop ih => exact (endState_base (hU.normal hop.1) _).trans ih

/-- Every operation keeps the overlay tidy, whether it succeeds or fails. -/
theorem Tidy.endState {E : Ext K} {op : OverlayOp} (h : Tidy U o) (hU : Plain U)
    (hop : PlainOp U op) : Tidy U (endState (op.run E) o) := by
  rcases endState_run (E := E) op o with he | hok
  · rw [he]
    exact h
  · rcases run_ok (hU.normal hop.1) hok with he | ⟨vmPath, hrem, hr⟩ | ⟨-, now, hw⟩
    · rw [he]
      exact h
    · exact h.removed hU hop.1 (hop.2 vmPath hrem) hr
    · exact h.wrote hU hop.1 (dirsOf_subset op) hw

omit [DecidableEq K] in
/-- A new overlay over a plain Base is tidy. -/
theorem tidy_init (hU : Plain U) {base : Db K} (hbase : ∀ q row, base.fs.get? q = some row → U q)
    (now : ℤ) : Tidy U (⟨base, initDb now, []⟩ : Overlay K) := by
  refine ⟨hbase, fun q row hq => ?_, by simp, by simp, fun _ _ _ => by simp [Hides]⟩
  rw [initDb, Db.get?_addFs _ rfl] at hq
  split_ifs at hq with hr
  · rw [hr]
    exact hU.top
  · cases hq

/-- The invariant holds along a run at plain paths. -/
theorem tidy_of_reachable (hU : Plain U) {E : Ext K} {base : Db K}
    (hbase : ∀ q row, base.fs.get? q = some row → U q)
    (h : Reachable (fun _ => PlainOp U) E base o) : Tidy U o := by
  induction h with
  | init now => exact tidy_init hU hbase now
  | step _ op hop ih => exact ih.endState hU hop

end Dbvm.Overlay
