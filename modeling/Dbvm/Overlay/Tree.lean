import Dbvm.Overlay.Whiteouts
import Dbvm.Host.Tree

/-!
# The shape of the merged view

The rows of the Delta stand on what is seen of both layers, and what the Base has below a regular
file of the Delta has a whiteout (`Overlay.Stands`). An operation keeps this when no ancestor of its
path is a file of the Delta and, if the path becomes a file, nothing below it stays in sight. The
merged view then has the shape of a tree.
-/

namespace Dbvm

open Lib Lib.Prog

variable {K : Type} [DecidableEq K] {E : Ext K} {p q a : Str}

namespace Overlay

variable {o o' : Overlay K} {op : OverlayOp} {u : Unit}

/-- The kind of a path in the Delta, else in the Base. -/
abbrev rowKind (o : Overlay K) : Str → Option Kind := front o.main.kindAt o.base.kindAt

/-- The kind of a row of the merged view. -/
def seenKind (o : Overlay K) (p : Str) : Option Kind := if o.whitedOut p then none else o.rowKind p

/-- A tree of both layers: the rows of the Delta stand on what is seen of both, and what the Base
has below a file of the Delta has a whiteout. -/
structure Stands (o : Overlay K) : Prop where
  /-- The layers. -/
  layers : Layered parentOf root FileKind o.main.kindAt o.base.kindAt (· ∈ o.whiteouts)
  /-- The paths of the Delta begin with a slash. -/
  absolute : ∀ q row, o.main.fs.get? q = some row → q.head? = some '/'

omit [DecidableEq K] in
/-- What is whited out is so with all that is below. -/
theorem whitedOut_down (hp : p.head? = some '/') (hne : p ≠ root)
    (h : o.whitedOut (parentOf p) = true) :
    o.whitedOut p = true := by
  -- The path above and all above it are among those above the path.
  have hsub : ∀ a ∈ selfAndAncestors (parentOf p), a ∈ selfAndAncestors p := by
    intro a ha
    unfold selfAndAncestors at ha ⊢
    rw [if_pos hp]
    rw [List.mem_cons, List.mem_append] at ha ⊢
    by_cases hup : parentOf p = root
    · rw [hup] at ha
      have haroot : a = root := by
        rcases ha with rfl | ha | ha
        · rfl
        · rw [show ancestors root = [] from rfl] at ha
          cases ha
        · rw [if_pos (show root.head? = some '/' from rfl)] at ha
          exact List.mem_singleton.1 ha
      exact Or.inr (Or.inr (List.mem_singleton.2 haroot))
    · have hbelow := below_parentOf hne hup
      rcases ha with rfl | ha | ha
      · exact Or.inr (Or.inl (mem_ancestors.2 ⟨parentOf_ne_nil p, hbelow⟩))
      · have hmem := mem_ancestors.1 ha
        exact Or.inr (Or.inl (mem_ancestors.2 ⟨hmem.1, hmem.2.trans hbelow⟩))
      · split_ifs at ha
        · exact Or.inr (Or.inr ha)
        · cases ha
  unfold whitedOut at h ⊢
  obtain ⟨a, ha, hmem⟩ := List.any_eq_true.1 h
  exact List.any_eq_true.2 ⟨a, hsub a ha, hmem⟩

/-- A row that the merged view does not have. -/
def Unseen (o : Overlay K) (q : Str) : Prop := q.head? ≠ some '/' ∨ o.whitedOut q = true

omit [DecidableEq K] in
/-- Every row of the merged view but the root is below a row that is no file. -/
theorem Stands.shaped (h : o.Stands) (hp : p.head? = some '/') (hne : p ≠ root) {kind : Kind}
    (hk : o.seenKind p = some kind) : Carries FileKind o.seenKind (parentOf p) := by
  have hseen : ∀ q, ¬ o.Unseen q →
    (if q.head? = some '/' then o.seenKind q else none) = o.rowKind q := by
    intro q hq
    rw [Unseen, not_or, not_not] at hq
    rw [if_pos hq.1, seenKind, if_neg hq.2]
  have hnot : ∀ q, o.Unseen q → (if q.head? = some '/' then o.seenKind q else none) = none := by
    intro q hq
    rcases hq with hq | hq
    · rw [if_neg hq]
    · rw [seenKind, if_pos hq]
      split_ifs <;> rfl
  have hmark : ∀ q, q ∈ o.whiteouts → o.Unseen q := fun q hq =>
    Or.inr (List.any_eq_true.2 ⟨q, List.mem_cons_self, decide_eq_true hq⟩)
  have hdown : ∀ q, q ≠ root → o.Unseen (parentOf q) → o.Unseen q := by
    intro q hq hup
    by_cases habs : q.head? = some '/'
    · have hparent : ¬ (parentOf q).head? ≠ some '/' := not_not.2 (head?_parentOf hq habs)
      exact Or.inr (whitedOut_down habs hq (hup.resolve_left hparent))
    · exact Or.inl habs
  have hshape : Shaped parentOf root FileKind fun q => if q.head? = some '/' then o.seenKind q
    else none :=
    h.layers.shaped hseen hnot hmark hdown
  refine Carries.congr (hshape p kind ((if_pos hp).trans hk) hne) ?_
  exact (if_pos (head?_parentOf hne hp)).symm

/-! ## When an operation keeps the shape -/

/-- The operation makes a file of a path that is none in the Delta. -/
def makesFile (o : Overlay K) : OverlayOp → Prop
  | .write .. => True
  | .writeRange vmPath .. => o.main.kindAt (normalizeVmPath vmPath) = none
  | .truncateRange vmPath .. => o.main.kindAt (normalizeVmPath vmPath) = none
  | _ => False

/-- No ancestor of the path is a file of the Delta, the path has a place, and what is below a new
file is hidden. -/
structure ShapeFits (o : Overlay K) (op : OverlayOp) : Prop where
  /-- The path is the same when it is normalised again. -/
  normal : Normal op.path
  /-- The ancestors. -/
  above : isRemove op = false → ∀ a, a = root ∨ a ∈ ancestors op.path → a ≠ op.path →
    o.main.kindAt a ≠ some .file
  /-- The root. -/
  top : isRemove op = false → op.path ≠ root → Carries FileKind o.rowKind root
  /-- A range write does not create the parents. -/
  parent : dirsOf op = [] → makesFile o op → op.path ≠ root →
    Carries FileKind o.rowKind (parentOf op.path)
  /-- Below a new file in the Delta. -/
  bare : makesFile o op → o.main.NothingBelow op.path
  /-- Below a new file in the Base. -/
  hides : makesFile o op → ∀ q, q ≠ root → parentOf q = op.path → o.base.kindAt q ≠ none →
    q ∈ clearedWhiteouts o.base o.whiteouts op.path
  /-- No row of the Delta that stays is below one that a removal takes. A pattern takes what is
  below its matches, unless the path has a NUL, where the pattern ends. -/
  taken : isRemove op = true → '\x00' ∈ op.path → ∀ q, o.main.fs.get? q ≠ none → q ≠ root →
    inSubtree op.path (parentOf q) = true → inSubtree op.path q = true

/-- No ancestor of a path is below it. -/
theorem parentOf_ancestor_ne (ha : a ∈ ancestors p) (hne : a ≠ root) : parentOf a ≠ p := by
  rintro rfl
  have hlen := (mem_ancestors.1 ha).2.length_le
  rw [List.length_append, List.length_singleton] at hlen
  by_cases hroot : parentOf a = root
  · rw [hroot] at ha
    cases ha
  · have hlt := length_parentOf_lt hne hroot
    omega

omit [DecidableEq K] in
/-- A write: rows at the path and at ancestors that were not there, and the whiteouts on the way are
gone. -/
theorem Stands.wrote (h : o.Stands) {dirs : List Str} {now : ℤ} (hw : Wrote p dirs now o o')
    (hp : Normal p)
    (hdirs : ∀ d ∈ dirs, d ∈ ancestors p ∧ (parentOf d = root ∨ parentOf d ∈ dirs))
    (habove : ∀ a, a = root ∨ a ∈ ancestors p → a ≠ p → o.main.kindAt a ≠ some .file)
    (htop : p ≠ root → Carries FileKind o.rowKind root)
    (hkind : o'.main.kindAt p = o.main.kindAt p ∨
      (p ≠ root → parentOf p ∈ dirs ∨ Carries FileKind o.rowKind (parentOf p)) ∧
      ∃ kind, o'.main.kindAt p = some kind ∧ (kind = .file → o.main.NothingBelow p ∧
        ∀ q, q ≠ root → parentOf q = p → o.base.kindAt q ≠ none →
        q ∈ clearedWhiteouts o.base o.whiteouts p)) :
    o'.Stands := by
  have hselfNot : p ∉ ancestors p := fun hmem => not_below_self p (mem_ancestors.1 hmem).2
  have hnew : ∀ q, q ≠ p → o'.main.kindAt q =
      if q ∈ dirs ∧ o.main.kindAt q = none then some .dir else o.main.kindAt q := by
    intro q hq
    have hnone : o.main.kindAt q = none ↔ o.main.fs.get? q = none := Option.map_eq_none_iff
    by_cases hqd : q ∈ dirs ∧ o.main.fs.get? q = none
    · rw [if_pos ⟨hqd.1, hnone.2 hqd.2⟩, Db.kindAt, hw.fs q hq, if_pos hqd]
      rfl
    · rw [if_neg fun hh => hqd ⟨hh.1, hnone.1 hh.2⟩]
      exact Db.kindAt_congr (by rw [hw.fs q hq, if_neg hqd])
  have hdirNe : ∀ d ∈ dirs, d ≠ p := by
    rintro d hd rfl
    exact hselfNot (hdirs d hd).1
  have hdirKind : ∀ d ∈ dirs, ∃ k, o'.main.kindAt d = some k ∧ ¬ FileKind k := by
    intro d hd
    rw [hnew d (hdirNe d hd)]
    rcases hk : o.main.kindAt d with _ | k
    · exact ⟨.dir, by rw [if_pos ⟨hd, rfl⟩], fun hdir => by cases hdir⟩
    · refine ⟨k, by rw [if_neg (by simp)], fun hfile => ?_⟩
      exact habove d (Or.inr (hdirs d hd).1) (hdirNe d hd) (by rw [hk]; exact congrArg some hfile)
  have hcarDir : ∀ d ∈ dirs, Carries FileKind (front o'.main.kindAt o.base.kindAt) d := by
    intro d hd
    obtain ⟨k, hk, hleaf⟩ := hdirKind d hd
    exact ⟨k, front_of_some hk, hleaf⟩
  have hcar : ∀ q, q ≠ p → Carries FileKind o.rowKind q →
      Carries FileKind (front o'.main.kindAt o.base.kindAt) q := by
    intro q hq hold
    by_cases hqd : q ∈ dirs
    · exact hcarDir q hqd
    · have hsame : o'.main.kindAt q = o.main.kindAt q := by
        rw [hnew q hq, if_neg fun hh => hqd hh.1]
      exact hold.congr (congrArg (fun k => k.or (o.base.kindAt q)) hsame)
  -- Rows that are new, or have another kind.
  have hlayers : Layered parentOf root FileKind o'.main.kindAt o.base.kindAt
      (· ∈ clearedWhiteouts o.base o.whiteouts p) := by
    refine h.layers.change (fun q => (q = p ∧ o'.main.kindAt p ≠ o.main.kindAt p) ∨
      (q ∈ dirs ∧ o.main.kindAt q = none)) (fun q hq => ?_) ?_ ?_ ?_ ?_
    · rw [not_or, not_and, not_not] at hq
      by_cases hqp : q = p
      · rw [hqp]
        exact hq.1 hqp
      · rw [hnew q hqp, if_neg hq.2]
    · -- What is new is below something.
      rintro q k (⟨rfl, hne⟩ | ⟨hqd, hnone⟩) hk hqroot
      · obtain ⟨hup, -⟩ := hkind.resolve_left hne
        rcases hup hqroot with hdir | hcarries
        · exact hcarDir _ hdir
        · exact hcar _ (parentOf_ne hqroot) hcarries
      · have hroot : p ≠ root := by
          rintro rfl
          cases (hdirs q hqd).1
        rcases (hdirs q hqd).2 with hup | hup
        · rw [hup]
          exact hcar root (fun he => hroot he.symm) (htop hroot)
        · exact hcarDir _ hup
    · -- Only the path itself can become a file.
      rintro q (⟨rfl, hne⟩ | ⟨hqd, hnone⟩) hnot
      · obtain ⟨-, kind, hat, hfile⟩ := hkind.resolve_left hne
        have hleaf : kind = .file := by
          by_contra hleaf
          exact hnot ⟨kind, front_of_some hat, hleaf⟩
        intro r hr hrq
        have hrne : r ≠ q := fun he => parentOf_ne hr (hrq.trans he.symm)
        rw [hnew r hrne, if_neg]
        · exact (hfile hleaf).1 r hr hrq
        · rintro ⟨hrd, -⟩
          exact parentOf_ancestor_ne (hdirs r hrd).1 hr hrq
      · exact absurd (hcarDir q hqd) hnot
    · rintro q k (⟨hup, hne⟩ | ⟨hqd, hnone⟩) hb hq ⟨k', hk', hleaf⟩
      · obtain ⟨-, kind, hat, hfile⟩ := hkind.resolve_left hne
        rw [hup, hat] at hk'
        obtain rfl := Option.some.inj hk'
        exact (hfile hleaf).2 q hq hup (by rw [hb]; exact Option.some_ne_none k)
      · obtain ⟨k, hk, hnotLeaf⟩ := hdirKind _ hqd
        rw [hk] at hk'
        obtain rfl := Option.some.inj hk'
        exact absurd hleaf hnotLeaf
    · -- A whiteout below a file of the Delta is not one of those that are cleared.
      rintro q hq ⟨k, hk, hleaf⟩ hmem
      have hfile : o.main.kindAt (parentOf q) = some .file := by
        rw [hk]
        exact congrArg some hleaf
      refine mem_clearedWhiteouts.2 ⟨?_, fun hanc => ?_, Or.inl hmem⟩
      · rintro rfl
        exact habove _ (parentOf_mem_ancestors q) (parentOf_ne hq) hfile
      · exact habove _ (parentOf_ancestor hanc) (parentOf_ancestor_ne hanc hq) hfile
  refine ⟨?_, fun q row hrow => ?_⟩
  · rw [hw.base, hw.whiteouts]
    exact hlayers
  · by_cases hqp : q = p
    · obtain ⟨s, hs⟩ := hp.eq_cons
      rw [hqp, hs]
      rfl
    · rw [hw.fs q hqp] at hrow
      split_ifs at hrow with hnewRow
      · have hanc := mem_ancestors.1 (hdirs q hnewRow.1).1
        obtain ⟨c, cs, hc⟩ := hp.cons_of_below hanc.2 hanc.1
        rw [hc]
        rfl
      · exact h.absolute q row hrow

/-! ## Removals -/

/-- The pattern of what is below a path does not match the root. -/
theorem like_root (hp : Normal p) (hnul : '\x00' ∉ p) (hne : p ≠ root) :
    like (p ++ ['/', '%']) root = false := by
  rw [← Bool.not_eq_true]
  intro h
  obtain ⟨s, rfl⟩ := hp.eq_cons
  rw [List.cons_append] at h
  obtain ⟨d, t, hd, -, hrest⟩ := exists_cons_of_like (by decide) (by decide) (by decide) h
  have ht : t = [] := (List.cons.inj hd).2.symm
  have hs : '\x00' ∉ s := fun hmem => hnul (List.mem_cons_of_mem _ hmem)
  rw [ht, like, Sql.cText_append hs, Tok.ofPattern_none, List.map_append] at hrest
  have hany := Tok.eq_any_of_matches_nil hrest (Tok.ofChar '/')
    (List.mem_append_right _ List.mem_cons_self)
  cases hany

/-- A removal takes what is below what it takes. -/
theorem inSubtree_down (hp : Normal p) (hnul : '\x00' ∉ p) (hq : q ≠ root)
    (habs : q.head? = some '/') (h : inSubtree p (parentOf q) = true) : inSubtree p q = true := by
  have hpat : ∀ s : Str, s ++ ['/', '%'] = (s ++ ['/']) ++ ['%'] := fun s => by
    rw [List.append_assoc]
    rfl
  unfold inSubtree at h ⊢
  rw [Bool.or_eq_true, decide_eq_true_iff] at h ⊢
  right
  by_cases hroot : p = root
  · -- Everything is below the root.
    rw [if_pos hroot, hpat]
    refine like_of_prefix ?_
    rcases q with _ | ⟨c, s⟩
    · cases habs
    · obtain rfl := Option.some.inj habs
      exact ⟨s, rfl⟩
  rw [if_neg hroot] at h ⊢
  have hup : parentOf q ≠ root := by
    intro hup
    rw [hup, like_root hp hnul hroot] at h
    rcases h with h | h
    · exact hroot h.symm
    · cases h
  -- The path is its parent with a name behind it, so the pattern that the parent meets is met by
  -- the path.
  have hbelow := below_parentOf hq hup
  rw [hpat] at h ⊢
  rcases h with h | h
  · rw [h] at hbelow
    exact like_of_prefix hbelow
  · refine like_below (fun hmem => ?_) hbelow h
    rcases List.mem_append.1 hmem with hmem | hmem
    · exact hnul hmem
    · revert hmem
      decide

omit [DecidableEq K] in
/-- A removal that leaves nothing behind below what it takes. -/
theorem Stands.removed (h : o.Stands) (hr : Removed p o o')
    (hdown : ∀ q row, o.main.fs.get? q = some row → q ≠ root → inSubtree p (parentOf q) = true →
      inSubtree p q = true) : o'.Stands := by
  have hnone : ∀ q, inSubtree p q = true → o'.main.kindAt q = none := by
    intro q hq
    rw [Db.kindAt, hr.fs, if_pos hq]
    rfl
  have hold : ∀ q, ¬ inSubtree p q = true → o'.main.kindAt q = o.main.kindAt q := fun q hq =>
    Db.kindAt_congr (by rw [hr.fs, if_neg hq])
  refine ⟨?_, fun q row hrow => ?_⟩
  · rw [hr.base]
    refine h.layers.change (fun q => inSubtree p q = true) hold ?_ ?_ ?_ ?_
    · intro q k hq hk
      rw [hnone q hq] at hk
      cases hk
    · intro q hq _ r hrne hrq
      rw [← hrq] at hq
      by_cases hrS : inSubtree p r = true
      · exact hnone r hrS
      · rw [hold r hrS]
        -- A row of the Delta below it would have been taken too.
        refine Option.map_eq_none_iff.2 (Option.eq_none_iff_forall_ne_some.2 fun row hrow => ?_)
        exact hrS (hdown r row hrow hrne hq)
    · rintro q k hq _ _ ⟨k', hk', -⟩
      rw [hnone _ hq] at hk'
      cases hk'
    · intro q _ _ hmem
      rw [hr.whiteouts]
      split_ifs
      · exact mem_addWhiteout.2 (Or.inl hmem)
      · exact hmem
  · rw [hr.fs] at hrow
    split_ifs at hrow
    exact h.absolute q row hrow

/-! ## Runs -/

/-- The parent of an ancestor is the root or an ancestor. -/
theorem ancestors_dirs (p : Str) :
    ∀ d ∈ ancestors p, d ∈ ancestors p ∧ (parentOf d = root ∨ parentOf d ∈ ancestors p) :=
  fun _ hd => ⟨hd, parentOf_ancestor hd⟩

omit [DecidableEq K] in
/-- Writing a whole entry keeps the overlay a tree when its parents are directories. -/
theorem Stands.put (h : o.Stands) (hfits : o.ShapeFits op) (hrem : isRemove op = false) {now : ℤ}
    {kind : Kind} (hw : Wrote op.path (ancestors op.path) now o o')
    (hat : ∃ row, o'.main.fs.get? op.path = some row ∧ row.kind = kind)
    (hfile : kind = .file → makesFile o op) : o'.Stands := by
  obtain ⟨row, hrow, hk⟩ := hat
  refine h.wrote hw hfits.normal (ancestors_dirs _) (hfits.above hrem) (hfits.top hrem)
    (Or.inr ⟨fun hp => ?_, kind, ?_, ?_⟩)
  · rcases parentOf_mem_ancestors op.path with hroot | hmem
    · rw [hroot]
      exact Or.inr (hfits.top hrem hp)
    · exact Or.inl hmem
  · rw [Db.kindAt_of_get? hrow, hk]
  · exact fun hkind => ⟨hfits.bare (hfile hkind), hfits.hides (hfile hkind)⟩

omit [DecidableEq K] in
/-- A range operation of a file keeps the overlay a tree. -/
theorem Stands.ranged (h : o.Stands) (hfits : o.ShapeFits op) (hrange : isRemove op = false)
    (hdirs : dirsOf op = []) (hmakes : o.main.kindAt op.path = none → makesFile o op) {mode : ℤ}
    {size : ℕ} (hr : Ranged op.path mode size o o') : o'.Stands := by
  refine h.wrote hr.toWrote hfits.normal (fun d hd => by cases hd) (hfits.above hrange)
    (hfits.top hrange) ?_
  obtain ⟨row, hrow, -, hold, hnew⟩ := hr.row.row
  rcases hp : o.main.fs.get? op.path with _ | old
  · have hnone : o.main.kindAt op.path = none := Option.map_eq_none_iff.2 hp
    have hm := hmakes hnone
    refine Or.inr ⟨fun hne => Or.inr (hfits.parent hdirs hm hne), .file, ?_,
      fun _ => ⟨hfits.bare hm, hfits.hides hm⟩⟩
    rw [Db.kindAt_of_get? hrow, (hnew hp).1]
  · refine Or.inl ?_
    rw [Db.kindAt_of_get? hrow, Db.kindAt_of_get? hp, (hold old hp).1]

omit [DecidableEq K] in
/-- The whiteouts on the way are cleared. -/
theorem Stands.unhide (h : o.Stands) (hp : Normal p)
    (habove : ∀ a, a = root ∨ a ∈ ancestors p → a ≠ p → o.main.kindAt a ≠ some .file)
    (htop : p ≠ root → Carries FileKind o.rowKind root) : (o.unhide p).Stands :=
  h.wrote (wrote_unhide p o) hp (fun d hd => by cases hd) habove htop (Or.inl rfl)

/-- Every operation that returns keeps the overlay a tree, by cases on the operation. -/
theorem Stands.step (h : o.Stands) (hfits : o.ShapeFits op) (hok : op.run E o = .ok u o') :
    o'.Stands := by
  have hn := hfits.normal
  -- One case for each operation. A removal takes whole subtrees; all others write a row whose
  -- parent is there.
  cases op with
  | write vmPath data mode mtime now =>
    obtain ⟨hw, -, row, hrow, hk, -⟩ := write_ok rfl hn hok
    exact h.put hfits rfl hw ⟨row, hrow, hk⟩ fun _ => trivial
  | mkdir vmPath now =>
    obtain ⟨hw, -, row, hrow, hk, -⟩ := mkdir_ok rfl hn hok
    exact h.put hfits rfl hw ⟨row, hrow, hk⟩ fun hfile => by cases hfile
  | symlink vmPath target now =>
    obtain ⟨hw, -, row, hrow, hk, -⟩ := symlink_ok rfl hn hok
    exact h.put hfits rfl hw ⟨row, hrow, hk⟩ fun hfile => by cases hfile
  | remove vmPath =>
    refine h.removed (remove_ok hok) fun q row hrow hq hup => ?_
    by_cases hnul : '\x00' ∈ normalizeVmPath vmPath
    · refine hfits.taken rfl hnul q (fun hnone => ?_) hq hup
      rw [hnone] at hrow
      cases hrow
    · exact inSubtree_down hn hnul hq (h.absolute q row hrow) hup
  | writeRange vmPath off data mtime =>
    by_cases hd : data = []
    · rw [hd] at hok
      rw [writeRange_nil hok]
      exact h
    · obtain ⟨hr, -⟩ := writeRange_ok rfl hd hok rfl
      exact h.ranged hfits rfl rfl (fun hnone => hnone) hr
  | truncateRange vmPath newSize mtime =>
    obtain ⟨-, hcases⟩ := truncateRange_ok rfl hok rfl
    rcases hcases with ⟨-, hsame⟩ | ⟨-, hr, -⟩
    · -- Only the whiteouts on the way are cleared.
      rw [hsame]
      exact h.unhide hn (hfits.above rfl) (hfits.top rfl)
    · exact h.ranged hfits rfl rfl (fun hnone => hnone) hr

omit [DecidableEq K] in
/-- A fresh Delta over a Base with the shape of a tree stands. -/
theorem stands_init {base : Db K} (h : base.TreeShaped) (now : ℤ) :
    (⟨base, initDb now, []⟩ : Overlay K).Stands := by
  have hrow : ∀ q row, (initDb now : Db K).fs.get? q = some row → q = root ∧ row.kind = .dir := by
    intro q row hq
    unfold initDb at hq
    rw [Db.get?_addFs _ rfl] at hq
    split_ifs at hq with hqr
    · cases hq
      exact ⟨hqr, rfl⟩
    · cases hq
  have hkind : ∀ q k, (initDb now : Db K).kindAt q = some k → q = root ∧ k = .dir := by
    intro q k hk
    obtain ⟨row, hq, rfl⟩ := Option.map_eq_some_iff.1 hk
    exact hrow q row hq
  refine ⟨⟨h, fun q k hk hne => absurd (hkind q k hk).1 hne, fun q k _ _ hleaf => ?_⟩,
    fun q row hq => ?_⟩
  · obtain ⟨k', hk', hfile⟩ := hleaf
    rw [(hkind _ k' hk').2] at hfile
    cases hfile
  · rw [(hrow q row hq).1]
    rfl

/-- In every run whose operations fit, the layers are a tree. -/
theorem stands_of_reachable {base : Db K} (hbase : base.TreeShaped)
    (h : Reachable ShapeFits E base o) : o.Stands := by
  induction h with
  | init now => exact stands_init hbase now
  | step h op hop ih =>
    rcases endState_run (E := E) op _ with hsame | hok
    · rw [hsame]
      exact ih
    · exact ih.step hop hok

end Overlay

end Dbvm
