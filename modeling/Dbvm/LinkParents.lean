import Dbvm.Lib.Namei
import Dbvm.Host.Sync

/-!
# Links on the way to an entry

Where an entry of the VM really lies when some of its ancestors are links. `resolve_parent_in_vm`
(`src/vm/tree.rs`) makes one pass over the names of the parent directory and replaces a link by the
normalised text of its target. Four places build their view of the tree on it: the materialize
(`translatedLink`), the overlay (`resolved_path`), the alias table of the sync (`link_aliases`) and
the FUSE tree (`view_of`). It is compared with resolution component by component, in which the
components of a target that are links are resolved in turn.
-/

namespace Dbvm

open Lib Lib.Namei

/-! ## Paths as lists of names -/

/-- The path of a directory. -/
def pathOf (dir : List Str) : Str := if dir = [] then root else ofNames dir

/-- The components of a text: empty ones and `.` stay where they are, `..` goes up. -/
def hopsOf (s : Str) : List (Hop Str) := (s.splitOn '/').filterMap fun seg =>
  if seg = [] ∨ seg = ['.'] then none else if seg = ['.', '.'] then some .up else some (.into seg)

/-- The target of a link, from its text. -/
def targetOf (t : Str) : Target Str := ⟨t.head? = some '/', hopsOf t⟩

section Names

variable {dir ds : List Str} {c : Str}

/-- The path without names is the root. -/
@[simp] theorem pathOf_nil : pathOf [] = root := rfl

/-- A path of at least one name. -/
@[simp] theorem pathOf_concat : pathOf (dir ++ [c]) = ofNames (dir ++ [c]) := by simp [pathOf]

/-- What a target steps into is a name. -/
theorem isName_of_hopsOf {s n : Str} (h : .into n ∈ hopsOf s) : IsName n := by
  obtain ⟨seg, hseg, heq⟩ := List.mem_filterMap.1 h
  split_ifs at heq with h₁ h₂
  · simp at heq
  obtain rfl : seg = n := by simpa using heq
  push Not at h₁
  exact ⟨h₁.1, not_mem_of_mem_splitOn hseg, h₁.2, h₂⟩

/-- The steps of a path of names are its names. -/
theorem hopsOf_pathOf (h : ∀ c ∈ dir, IsName c) : hopsOf (pathOf dir) = dir.map .into := by
  by_cases hne : dir = []
  · subst hne
    decide
  · rw [pathOf, if_neg hne, hopsOf, splitOn_ofNames hne h]
    have hmap : ∀ c ∈ dir, (if c = [] ∨ c = ['.'] then none else
        if c = ['.', '.'] then some Hop.up else some (.into c)) = some (.into c) := by
      intro c hc
      have hname := h c hc
      rw [if_neg (by simp [hname.ne_nil, hname.ne_dot]), if_neg hname.ne_dotdot]
    rw [List.filterMap_cons_none (by simp), List.filterMap_congr hmap]
    exact congrFun List.filterMap_eq_map' dir

/-- The text of an entry is its directory's with one more name. -/
theorem child_pathOf (h : ∀ d ∈ dir, IsName d) :
    (if pathOf dir = root then '/' :: c else pathOf dir ++ '/' :: c) = ofNames (dir ++ [c]) := by
  by_cases hne : dir = []
  · subst hne
    simp [ofNames]
  · rw [pathOf, if_neg hne, if_neg (ofNames_ne_root h), ofNames_append]
    simp [ofNames]

/-- The parent of a path is its directory. -/
theorem pathParent_concat (h : ∀ d ∈ dir ++ [c], IsName d) :
    pathParent (ofNames (dir ++ [c])) = some (pathOf dir) := by
  rw [pathParent, if_neg (ofNames_ne_root h), ancestors_ofNames_concat fun d hd =>
    (h d hd).no_slash]
  by_cases hne : dir = []
  · subst hne
    rfl
  · have hlast : dir.inits.tail.getLast? = some dir := by
      have hinits := getLast?_inits dir
      rw [inits_eq_cons] at hinits
      rcases ht : dir.inits.tail with _ | ⟨e, es⟩
      · rw [ht] at hinits
        exact absurd (Option.some.inj hinits).symm hne
      · rwa [ht, List.getLast?_cons_cons] at hinits
    rw [List.head?_reverse, List.getLast?_map, hlast, pathOf, if_neg hne]
    rfl

/-- The directory above, which the walk of the source takes for the directory of a link. -/
theorem pathParent_pathOf (h : ∀ d ∈ dir, IsName d) :
    (pathParent (pathOf dir)).getD root = pathOf dir.dropLast := by
  induction dir using List.reverseRecOn with
  | nil => rfl
  | append_singleton dir c _ => rw [pathOf_concat, pathParent_concat h, List.dropLast_concat,
      Option.getD_some]

/-- The ancestors of a path are the nonempty initial parts of its directory. -/
theorem mem_ancestors_concat (h : ∀ d ∈ dir ++ [c], IsName d) {a : Str} :
    a ∈ ancestors (ofNames (dir ++ [c])) ↔ ∃ e, e ≠ [] ∧ e <+: dir ∧ a = ofNames e := by
  rw [ancestors_ofNames_concat fun d hd => (h d hd).no_slash, List.mem_reverse, List.mem_map]
  constructor
  · rintro ⟨e, he, rfl⟩
    exact ⟨e, ne_nil_of_mem_tail_inits he, (List.mem_inits e dir).1 (List.mem_of_mem_tail he), rfl⟩
  · rintro ⟨e, hne, he, rfl⟩
    refine ⟨e, ?_, rfl⟩
    have hmem := (List.mem_inits e dir).2 he
    rw [inits_eq_cons] at hmem
    exact (List.mem_cons.1 hmem).resolve_left hne

/-- The file name of a path is its last name. -/
theorem fileName_concat (h : ∀ d ∈ dir ++ [c], IsName d) : fileName (ofNames (dir ++ [c])) = c := by
  rw [fileName, splitOn_ofNames (by simp) h, ← List.cons_append, List.getLast?_concat,
    Option.getD_some]

/-- A path of names ends with no slash but the root's. -/
theorem trimEndSlashes_pathOf (h : ∀ d ∈ dir, IsName d) :
    trimEndSlashes (pathOf dir) = ofNames dir := by
  by_cases hne : dir = []
  · subst hne
    decide
  · rw [pathOf, if_neg hne, trimEndSlashes, List.reverse_eq_iff, List.dropWhile_eq_self_iff]
    intro hlen
    have hlast := getLast?_ofNames hne h
    rw [← List.head?_reverse, List.head?_eq_getElem?, List.getElem?_eq_getElem hlen] at hlast
    simpa using hlast

/-- A normal path is the root or an entry of a directory. -/
theorem Normal.split {p : Str} (h : Normal p) :
    p = root ∨ ∃ dir c, (∀ d ∈ dir ++ [c], IsName d) ∧ p = ofNames (dir ++ [c]) := by
  rcases h.shape with rfl | ⟨cs, hne, hcs, rfl⟩
  · exact Or.inl rfl
  · refine Or.inr ⟨cs.dropLast, cs.getLast hne, ?_, ?_⟩ <;> rw [List.dropLast_append_getLast hne]
    exact hcs

/-- Only the root has no name. -/
theorem fileName_eq_nil {p : Str} (h : Normal p) : fileName p = [] ↔ p = root := by
  rcases h.split with rfl | ⟨dir, c, hcs, rfl⟩
  · decide
  · rw [fileName_concat hcs]
    exact iff_of_false (hcs c (by simp)).ne_nil (ofNames_ne_root hcs)

end Names

/-! ## The links of a VM -/

/-- A set of VM symlinks: paths with their targets. -/
structure VmLinks where
  rows : List (Str × Str)
  /-- The paths are VM paths. -/
  normal : ∀ l ∈ rows, Normal l.1
  /-- A path has one target. -/
  nodup : (rows.map Prod.fst).Nodup

namespace VmLinks

variable (L : VmLinks)

/-- The link at a place of the tree. -/
def find (dir : List Str) : Option (Target Str) := (L.rows.lookup (ofNames dir)).map targetOf

/-- The resolution of every path ends. -/
def Acyclic : Prop := ∀ p : Str, ∃ r, Reaches L.find [] (hopsOf p) r

/-- The directory that contains `p` is `dir`: resolution of its parent, component by component, ends
there. -/
def ParentAt (p : Str) (dir : List Str) : Prop :=
  Reaches L.find [] (hopsOf ((pathParent p).getD root)) dir

/-- What the directory of `p` should be: none if no ancestor is a link, otherwise where its parent
really is. -/
def ParentResolved (p : Str) (r : Option Str) : Prop :=
  if ∀ a ∈ ancestors p, L.rows.lookup a = none then r = none
  else ∃ dir, L.ParentAt p dir ∧ r = some (pathOf dir)

/-- Two paths are one entry of one directory. -/
def SameLocation (p q : Str) : Prop := (∃ dir, L.ParentAt p dir ∧ L.ParentAt q dir) ∧
  fileName p = fileName q

end VmLinks

/-! ## The views built on it -/

/-- `Overlay::resolved_path`. -/
def resolvedPath (p : Str) (links : List (Str × Str)) : Str := translatedLink p links

/-- The path under which `link_aliases` files a link; a link that is placed nowhere else has none
and keeps its own. -/
def aliasPath (p : Str) (links : List (Str × Str)) : Str :=
  match resolveParentInVm p links with
  | some _ => normalizeVmPath (translatedLink p links)
  | none => p

/-- The link map of `VmFuse::rebuild`, from the rows of the links. -/
def rebuildLinkMap (rows : List (Str × Str)) : List (Str × Str) :=
  rows.foldl (fun m l => mapInsert m (normalizeVmPath l.1) l.2) []

/-- `view_of` of `VmFuse::rebuild`. -/
def viewOf (p : Str) (rows : List (Str × Str)) : Str :=
  match resolveParentInVm p (rebuildLinkMap rows) with
  | some pv => normalizeVmPath (trimEndSlashes pv ++ '/' :: fileName p)
  | none => p

/-- The links are resolved as they should be, and the four views agree on entries that are one. -/
structure VmLinks.Resolved (L : VmLinks) : Prop where
  /-- The directory of every path. -/
  parents : ∀ p, Normal p → L.ParentResolved p (resolveParentInVm p L.rows)
  /-- Paths of one entry have one view path. -/
  views : ∀ p q, Normal p → Normal q → L.SameLocation p q →
    translatedLink p L.rows = translatedLink q L.rows ∧
      resolvedPath p L.rows = resolvedPath q L.rows ∧
      aliasPath p L.rows = aliasPath q L.rows ∧ viewOf p L.rows = viewOf q L.rows

/-! ## The walk of the source -/

/-- The text whose normal form the walk of the source takes for the place of a link of `dir`: an
absolute target, or a relative one below the directory above `dir`. -/
def lexicalTarget (dir : List Str) (t : Str) : Str :=
  if t.head? = some '/' then t else pathOf dir.dropLast ++ '/' :: t

/-- The links by which nobody is misled: the target of a link that lies in a directory without
links, followed component by component from where it is to be taken, ends at the place that the
source reads off its text. -/
def VmLinks.Straight (L : VmLinks) : Prop := ∀ dir c t, (∀ d ∈ dir ++ [c], IsName d) →
  Real L.find dir →
  L.rows.lookup (ofNames (dir ++ [c])) = some t →
    ∃ r, Reaches L.find ((targetOf t).base dir) (hopsOf t) r ∧
      normalizeVmPath (lexicalTarget dir t) = pathOf r

section Walk

variable {L : VmLinks} {links : List (Str × Str)} {dir cs r : List Str} {c t : Str} {b : Bool}

/-- A directory is no link when no row names it. -/
theorem VmLinks.find_eq_none : L.find dir = none ↔ L.rows.lookup (ofNames dir) = none := by
  simp [VmLinks.find]

/-- A directory that a row names is a link to the row's target. -/
theorem VmLinks.find_eq_some (h : L.rows.lookup (ofNames dir) = some t) :
    L.find dir = some (targetOf t) := by
  simp [VmLinks.find, h]

/-- Every directory that is reached is a list of names. -/
theorem VmLinks.isName_of_reaches {hops : List (Hop Str)} (hdir : ∀ d ∈ dir, IsName d)
    (hhops : ∀ n, .into n ∈ hops → IsName n) (h : Reaches L.find dir hops r) :
    ∀ d ∈ r, IsName d := by
  refine h.all (fun d target hd n hn => ?_) hdir hhops
  obtain ⟨t, -, rfl⟩ := Option.map_eq_some_iff.1 hd
  exact isName_of_hopsOf hn

/-- A component that is a link is replaced by its target, normalised. -/
theorem resolveStep_link (hdir : ∀ d ∈ dir, IsName d)
    (h : links.lookup (ofNames (dir ++ [c])) = some t) :
    resolveStep links (pathOf dir, b) c = (normalizeVmPath (lexicalTarget dir t), true) := by
  unfold resolveStep lexicalTarget
  dsimp only
  rw [child_pathOf hdir, h, pathParent_pathOf hdir]
  dsimp only
  split_ifs <;> rfl

/-- A component that is no link is entered. -/
theorem resolveStep_name (hdir : ∀ d ∈ dir, IsName d)
    (h : links.lookup (ofNames (dir ++ [c])) = none) :
    resolveStep links (pathOf dir, b) c = (pathOf (dir ++ [c]), b) := by
  unfold resolveStep
  dsimp only
  rw [child_pathOf hdir, h, pathOf_concat]

/-- Once a link has been followed, the walk reports it. -/
theorem resolveStep_changed : ∀ (cs : List Str) (st : Str × Bool), st.2 = true →
    (cs.foldl (resolveStep links) st).2 = true
  | [], _, h => h
  | c :: cs, st, h => by
    refine resolveStep_changed cs _ ?_
    unfold resolveStep
    dsimp only
    split
    · split_ifs <;> rfl
    · exact h

/-- A walk that meets no link goes where the names lead. -/
theorem foldl_resolveStep_real (hdir : ∀ d ∈ dir ++ cs, IsName d)
    (h : ∀ e, e ≠ [] → e <+: cs → links.lookup (ofNames (dir ++ e)) = none) :
    cs.foldl (resolveStep links) (pathOf dir, b) = (pathOf (dir ++ cs), b) := by
  induction cs generalizing dir with
  | nil => rw [List.append_nil, List.foldl_nil]
  | cons c cs ih =>
    have hc : links.lookup (ofNames (dir ++ [c])) = none := h [c] (by simp) ⟨cs, rfl⟩
    rw [List.foldl_cons, resolveStep_name (fun d hd => hdir d (by simp [hd])) hc, ih]
    · rw [List.append_assoc, List.singleton_append]
    · rwa [List.append_assoc, List.singleton_append]
    · intro e _ he
      have hpre := h (c :: e) (by simp) ((List.cons_prefix_cons).2 ⟨rfl, he⟩)
      rwa [List.append_assoc, List.singleton_append]

/-- The walk reports a link if and only if one is among the directories of the text. -/
theorem foldl_resolveStep_changed (hdir : ∀ d ∈ dir ++ cs, IsName d) :
    (cs.foldl (resolveStep links) (pathOf dir, false)).2 = false ↔
      ∀ e, e ≠ [] → e <+: cs → links.lookup (ofNames (dir ++ e)) = none := by
  constructor
  · induction cs generalizing dir with
    | nil => exact fun _ e hne he => absurd (List.prefix_nil.1 he) hne
    | cons c cs ih =>
      intro hwalk e hne he
      have hnames : ∀ d ∈ dir, IsName d := fun d hd => hdir d (by simp [hd])
      cases hl : links.lookup (ofNames (dir ++ [c])) with
      | some t =>
        -- The first name is a link, so the walk reports it to its end.
        rw [List.foldl_cons, resolveStep_link hnames hl, resolveStep_changed _ _ rfl] at hwalk
        cases hwalk
      | none =>
        rw [List.foldl_cons, resolveStep_name hnames hl] at hwalk
        obtain ⟨d, ds, rfl⟩ := List.exists_cons_of_ne_nil hne
        obtain ⟨rfl, hds⟩ := List.cons_prefix_cons.1 he
        by_cases hnil : ds = []
        · rwa [hnil]
        · have hrest := ih (by rwa [List.append_assoc, List.singleton_append]) hwalk ds hnil hds
          rwa [List.append_assoc, List.singleton_append] at hrest
  · intro h
    rw [foldl_resolveStep_real hdir h]

/-- The source walks over the names of the parent directory. -/
theorem resolveParentInVm_concat (h : ∀ d ∈ dir ++ [c], IsName d) :
    resolveParentInVm (ofNames (dir ++ [c])) links =
      if (dir.foldl (resolveStep links) (pathOf [], false)).2 then
        some (dir.foldl (resolveStep links) (pathOf [], false)).1 else none := by
  have hsplit : ((pathOf dir).splitOn '/').filter (· ≠ []) = dir := by
    by_cases hne : dir = []
    · subst hne
      decide
    · rw [pathOf, if_neg hne]
      exact filter_splitOn_ofNames fun d hd => h d (by simp [hd])
  unfold resolveParentInVm
  rw [pathParent_concat h, Option.bind_eq_bind, Option.bind_some, hsplit]
  rfl

/-- No ancestor of an entry is a link if and only if its directory has none on the way. -/
theorem VmLinks.real_iff (h : ∀ d ∈ dir ++ [c], IsName d) :
    (∀ a ∈ ancestors (ofNames (dir ++ [c])), L.rows.lookup a = none) ↔ Real L.find dir := by
  constructor
  · intro ha e hne he
    exact find_eq_none.2 (ha _ ((mem_ancestors_concat h).2 ⟨e, hne, he, rfl⟩))
  · intro hreal a ha
    obtain ⟨e, hne, he, rfl⟩ := (mem_ancestors_concat h).1 ha
    exact find_eq_none.1 (hreal e hne he)

/-- The parent of a path is where its directory's names lead. -/
theorem VmLinks.parentAt_concat (h : ∀ d ∈ dir ++ [c], IsName d) :
    L.ParentAt (ofNames (dir ++ [c])) r ↔ Reaches L.find [] (dir.map .into) r := by
  have hdir : ∀ d ∈ dir, IsName d := fun d hd => h d (by simp [hd])
  rw [ParentAt, pathParent_concat h, Option.getD_some, hopsOf_pathOf hdir]

/-- Among straight links the walk of the source ends where resolution does. -/
theorem VmLinks.Straight.foldl_resolveStep (hL : L.Straight) (hreal : Real L.find dir)
    (hdir : ∀ d ∈ dir, IsName d) (hcs : ∀ d ∈ cs, IsName d) :
    ∃ r, Reaches L.find dir (cs.map .into) r ∧
      (cs.foldl (resolveStep L.rows) (pathOf dir, b)).1 = pathOf r := by
  -- The walk stays in directories without links, where a link says where it leads.
  induction cs generalizing dir b with
  | nil => exact ⟨dir, reaches_nil.2 rfl, rfl⟩
  | cons c cs ih =>
    have hrest : ∀ d ∈ cs, IsName d := fun d hd => hcs d (by simp [hd])
    have hnames : ∀ d ∈ dir ++ [c], IsName d := by
      intro d hd
      rcases List.mem_append.1 hd with hd | hd
      · exact hdir d hd
      · exact hcs d (by simp_all)
    cases hl : L.rows.lookup (ofNames (dir ++ [c])) with
    | none =>
      have hnone := find_eq_none.2 hl
      obtain ⟨r, hr, heq⟩ := ih (b := b) (real_concat.2 ⟨hreal, hnone⟩) hnames hrest
      refine ⟨r, (reaches_into hnone).2 hr, ?_⟩
      rw [List.foldl_cons, resolveStep_name hdir hl, heq]
    | some t =>
      obtain ⟨e, he, hlex⟩ := hL dir c t hnames hreal hl
      have hbase : ∀ d ∈ (targetOf t).base dir, IsName d := by
        unfold Target.base
        split
        · simp
        · exact hdir
      have hename := isName_of_reaches hbase (fun n hn => isName_of_hopsOf hn) he
      obtain ⟨r, hr, heq⟩ := ih (b := true) (he.real hreal.base) hename hrest
      refine ⟨r, (reaches_link (find_eq_some hl)).2 (he.append hr), ?_⟩
      rw [List.foldl_cons, resolveStep_link hdir hl, hlex, heq]

/-- Straight links are resolved as they should be. -/
theorem VmLinks.Straight.parents (hL : L.Straight) {p : Str} (hp : Normal p) :
    L.ParentResolved p (resolveParentInVm p L.rows) := by
  unfold ParentResolved
  rcases hp.split with rfl | ⟨dir, c, h, rfl⟩
  · have hnone : ancestors root = [] := by decide
    rw [if_pos (by simp [hnone])]
    rfl
  · have hdir : ∀ d ∈ dir, IsName d := fun d hd => h d (by simp [hd])
    have hchanged : (dir.foldl (resolveStep L.rows) (pathOf [], false)).2 = false ↔
      Real L.find dir := by
      rw [foldl_resolveStep_changed (by simpa using hdir)]
      exact forall₃_congr fun e _ _ => find_eq_none.symm
    rw [resolveParentInVm_concat h]
    split_ifs with ha hflag hflag
    · rw [hchanged.2 ((real_iff h).1 ha)] at hflag
      cases hflag
    · rfl
    · obtain ⟨r, hr, heq⟩ := hL.foldl_resolveStep (b := false) real_nil (by simp) hdir
      exact ⟨r, (parentAt_concat h).2 hr, by rw [heq]⟩
    · exact absurd ((real_iff h).2 (hchanged.1 (Bool.not_eq_true _ ▸ hflag))) ha

/-- The link map of the FUSE tree is the set of links. -/
theorem VmLinks.rebuildLinkMap_eq (L : VmLinks) : rebuildLinkMap L.rows = L.rows := by
  have hall : ∀ (rows m : List (Str × Str)), (∀ l ∈ rows, Normal l.1) →
      ((m ++ rows).map Prod.fst).Nodup →
      rows.foldl (fun m l => mapInsert m (normalizeVmPath l.1) l.2) m = m ++ rows := by
    intro rows
    induction rows with
    | nil => simp
    | cons l rows ih =>
      intro m hnormal hnodup
      have hkey : normalizeVmPath l.1 = l.1 := hnormal l (by simp)
      have hfresh : m.filter (fun r => r.1 ≠ l.1) = m := by
        refine List.filter_eq_self.2 fun r hr => decide_eq_true fun heq => ?_
        rw [List.map_append, List.nodup_append] at hnodup
        exact hnodup.2.2 r.1 (List.mem_map_of_mem hr) l.1 (by simp) heq
      rw [List.foldl_cons, mapInsert, hkey, hfresh,
        ih _ (fun r hr => hnormal r (by simp [hr])) (by simpa using hnodup)]
      simp
  exact hall L.rows [] L.normal (by simpa using L.nodup)

/-- Among straight links an entry is placed where it really is, in every view. -/
theorem VmLinks.Straight.views (hL : L.Straight) {p : Str} (hp : Normal p) (hat : L.ParentAt p r) :
    let view := if p = root then root else ofNames (r ++ [fileName p])
    translatedLink p L.rows = view ∧ aliasPath p L.rows = view ∧ viewOf p L.rows = view := by
  have hparents := hL.parents hp
  rcases hp.split with rfl | ⟨dir, c, h, rfl⟩
  · exact ⟨rfl, rfl, rfl⟩
  · have hdir : ∀ d ∈ dir, IsName d := fun d hd => h d (by simp [hd])
    have hreach := (parentAt_concat h).1 hat
    have hr : ∀ d ∈ r, IsName d := isName_of_reaches (by simp) (by simpa using hdir) hreach
    have hrc : ∀ d ∈ r ++ [c], IsName d := by
      intro d hd
      rcases List.mem_append.1 hd with hd | hd
      · exact hr d hd
      · exact h d (by simp_all)
    -- The last name is the same at both places, and it alone decides whether a path is normal.
    have hnormal : normalizeVmPath (ofNames (r ++ [c])) = ofNames (r ++ [c]) :=
      (normal_ofNames_concat hrc).2 ((normal_ofNames_concat h).1 hp)
    have hview : trimEndSlashes (pathOf r) ++ '/' :: c = ofNames (r ++ [c]) := by
      rw [trimEndSlashes_pathOf hr, ofNames_append]
      simp [ofNames]
    dsimp only
    rw [if_neg (ofNames_ne_root h), fileName_concat h]
    unfold aliasPath viewOf translatedLink
    rw [L.rebuildLinkMap_eq, fileName_concat h]
    unfold ParentResolved at hparents
    split_ifs at hparents with ha
    · have hsame : r = dir := hreach.unique ((real_iff h).1 ha).reaches
      rw [hparents, hsame]
      exact ⟨rfl, rfl, rfl⟩
    · obtain ⟨e, he, hsome⟩ := hparents
      obtain rfl : r = e := hat.unique he
      rw [hsome]
      dsimp only
      rw [hview, hnormal]
      exact ⟨rfl, rfl, rfl⟩

end Walk

/-! ## When the source resolves links -/

/-- The links of a VM are resolved as they should be, and every view places the paths of one entry
at one path, if and only if they are straight. -/
theorem VmLinks.resolved_iff_straight (L : VmLinks) : L.Resolved ↔ L.Straight := by
  constructor
  · intro hL dir c t h hreal hl
    -- An entry below the link shows where the source takes the link to lead.
    have hx : ∀ d ∈ (dir ++ [c]) ++ [['x']], IsName d := by
      intro d hd
      rcases List.mem_append.1 hd with hd | hd
      · exact h d hd
      · obtain rfl : d = ['x'] := by simpa using hd
        decide
    have hplain : ∀ x ∈ (['x'] : Str).getLast?, isWhitespace x = false := by
      intro x hmem
      cases hmem
      decide
    have hnormal : Normal (ofNames ((dir ++ [c]) ++ [['x']])) := (normal_ofNames_concat hx).2 hplain
    have hparents := hL.parents _ hnormal
    have hdir : ∀ d ∈ dir, IsName d := fun d hd => h d (by simp [hd])
    have hlink : ¬ ∀ a ∈ ancestors (ofNames ((dir ++ [c]) ++ [['x']])), L.rows.lookup a = none := by
      intro ha
      have hnone := find_eq_none.1 (real_concat.1 ((real_iff hx).1 ha)).2
      rw [hl] at hnone
      cases hnone
    have hwalk : (dir ++ [c]).foldl (resolveStep L.rows) (pathOf [], false) =
        (normalizeVmPath (lexicalTarget dir t), true) := by
      rw [List.foldl_append, foldl_resolveStep_real (by simpa using hdir)
        (fun e hne he => find_eq_none.1 (hreal e hne he)), List.nil_append, List.foldl_cons,
        List.foldl_nil, resolveStep_link hdir hl]
    unfold ParentResolved at hparents
    rw [if_neg hlink, resolveParentInVm_concat hx, hwalk, if_pos rfl] at hparents
    obtain ⟨r, hr, heq⟩ := hparents
    have hreach := (parentAt_concat hx).1 hr
    rw [List.map_append] at hreach
    have hstep := (reaches_link (find_eq_some hl)).1 (hreach.of_append hreal.reaches)
    rw [List.map_nil, List.append_nil] at hstep
    exact ⟨r, hstep, Option.some.inj heq⟩
  · intro hL
    refine ⟨fun p hp => hL.parents hp, ?_⟩
    rintro p q hp hq ⟨⟨r, hpr, hqr⟩, hname⟩
    have hroot : p = root ↔ q = root := by
      rw [← fileName_eq_nil hp, ← fileName_eq_nil hq, hname]
    have hviews := hL.views hp hpr
    have hviews' := hL.views hq hqr
    simp only [hroot, hname] at hviews
    obtain ⟨h₁, h₂, h₃⟩ := hviews
    obtain ⟨h₁', h₂', h₃'⟩ := hviews'
    exact ⟨h₁.trans h₁'.symm, h₁.trans h₁'.symm, h₂.trans h₂'.symm, h₃.trans h₃'.symm⟩

/-- Links whose targets are the paths of directories without links are straight. -/
theorem VmLinks.straight_of_real (L : VmLinks) (h : ∀ l ∈ L.rows, ∃ r, l.2 = pathOf r ∧
    (∀ d ∈ r, IsName d) ∧ Normal l.2 ∧ Real L.find r) : L.Straight := by
  intro dir c t _ _ hl
  obtain ⟨l₁, l₂, hrows, -⟩ := List.lookup_eq_some_iff.1 hl
  obtain ⟨r, rfl, hr, hnormal, hreal⟩ := h (ofNames (dir ++ [c]), t) (by rw [hrows]; simp)
  have habs : (pathOf r).head? = some '/' := by
    obtain ⟨s, hs⟩ := hnormal.eq_cons
    dsimp only at hs
    rw [hs, List.head?_cons]
  refine ⟨r, ?_, ?_⟩
  · rw [hopsOf_pathOf hr, Target.base, targetOf, if_pos (decide_eq_true habs)]
    exact hreal.reaches
  · rw [lexicalTarget, if_pos habs]
    exact hnormal

/-- `/usr/lib64 -> lib`, a relative link that is not at the root. -/
def usrLib64 : VmLinks where
  rows := [("/usr/lib64".toList, "lib".toList)]
  normal := by decide
  nodup := by decide

/-- Nothing is cyclic about it, but the source looks for its target in the directory above. -/
theorem usrLib64_not_resolved : usrLib64.Acyclic ∧
    resolveParentInVm "/usr/lib64/libc.so".toList usrLib64.rows = some "/lib".toList ∧
    ¬ usrLib64.Resolved := by
  have hcode : resolveParentInVm "/usr/lib64/libc.so".toList usrLib64.rows = some
    "/lib".toList := by
    decide +kernel
  refine ⟨fun p => exists_reaches (fun dir n t hl => ?_) [] (hopsOf p), hcode, fun hL => ?_⟩
  · obtain ⟨text, htext, rfl⟩ := Option.map_eq_some_iff.1 hl
    obtain rfl : text = "lib".toList := by
      obtain ⟨l₁, l₂, hrows, -⟩ := List.lookup_eq_some_iff.1 htext
      have hmem : (ofNames (dir ++ [n]), text) ∈ usrLib64.rows := by
        rw [hrows]
        simp
      exact (Prod.mk.inj (List.mem_singleton.1 hmem)).2
    -- The target of the link is no link, whatever directory it is taken from.
    have hnone : usrLib64.find (dir ++ ["lib".toList]) = none := by
      rw [VmLinks.find_eq_none, List.lookup_eq_none_iff]
      intro l hl
      obtain rfl := List.mem_singleton.1 hl
      refine bne_iff_ne.2 fun heq => ?_
      have hlast := congrArg List.getLast? heq
      rw [ofNames_append] at hlast
      simp [ofNames] at hlast
    exact ⟨_, (reaches_into hnone).2 (reaches_nil.2 rfl)⟩
  · have hparents := hL.parents "/usr/lib64/libc.so".toList (by decide +kernel)
    have hreal : usrLib64.ParentAt "/usr/lib64/libc.so".toList ["usr".toList, "lib".toList] :=
      ⟨3, by decide +kernel⟩
    unfold VmLinks.ParentResolved at hparents
    rw [hcode, if_neg (by decide +kernel)] at hparents
    obtain ⟨dir, hdir, heq⟩ := hparents
    rw [hdir.unique hreal] at heq
    exact absurd heq (by decide +kernel)

end Dbvm
