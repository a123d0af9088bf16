import Dbvm.Content
import Dbvm.FuseRuns

/-!
# A mount from its start on

`VmFuse::new` takes the node table that `rebuild` makes of the rows. When the rows fit into a tree
(`Fits`, which is when `rebuild` itself does what it should), this table is a tree in which every
node is an entry, in whatever order the second pass takes the nodes. So every run of requests after
it comes to an end, and shows a tree.
-/

namespace Dbvm.VmFuse

open Dbvm Lib Lib.Prog Lib.Forest

/-! ## The path of the directory above -/

/-- The stem of a path is its names, without the root's slash. -/
theorem stem_pathOf {cs : List Str} (h : ∀ c ∈ cs, IsName c) : stem (pathOf cs) = ofNames cs := by
  unfold stem pathOf
  by_cases hcs : cs = []
  · rw [if_pos hcs, if_pos rfl, hcs, ofNames_nil]
  · rw [if_neg hcs, if_neg (ofNames_ne_root h)]

/-- What a text of names becomes when it ends within a name: some of the names, and the last one cut
off. -/
theorem prefix_ofNames_splitComponents {ds : List Str} {c : Str} (hds : ∀ d ∈ ds, IsName d)
    (hc : '/' ∉ c) :
    ofNames (splitComponents (ofNames ds ++ '/' :: c)) <+: ofNames ds ++ '/' :: c := by
  have hsplit : splitComponents (ofNames ds ++ '/' :: c) = (hopsOf c).foldl vmHop ds := by
    rw [splitComponents_eq, hopsOf_append_slash, List.foldl_append, ← splitComponents_eq,
      splitComponents_ofNames hds]
  rw [hsplit, hopsOf_of_not_mem hc]
  split_ifs with hskip hup
  · exact List.prefix_append _ _
  · -- two dots take the name before away
    have hshort : ofNames ds.dropLast <+: ofNames ds := by
      obtain rfl | ⟨es, e, rfl⟩ := ds.eq_nil_or_concat
      · exact List.prefix_refl _
      · rw [List.concat_eq_append, List.dropLast_concat, ofNames_append]
        exact List.prefix_append _ _
    exact hshort.trans (List.prefix_append _ _)
  · show ofNames (ds ++ [c]) <+: _
    rw [ofNames_append, ofNames_cons, ofNames_nil, List.append_nil]

/-- Normalising a path of names leaves what it begins with. -/
theorem prefix_stem_normalizeVmPath {cs : List Str} (h : ∀ c ∈ cs, IsName c) :
    stem (normalizeVmPath (pathOf cs)) <+: ofNames cs := by
  rw [normalizeVmPath_eq, stem_pathOf (isName_splitComponents _)]
  by_cases hcs : cs = []
  · subst hcs
    exact (by decide : ofNames (splitComponents (trim (pathOf []))) = ofNames []) ▸
      List.prefix_refl _
  obtain ⟨s, hs⟩ : ∃ s, ofNames cs = '/' :: s := by
    obtain ⟨d, ds, rfl⟩ := List.exists_cons_of_ne_nil hcs
    exact ⟨d ++ ofNames ds, rfl⟩
  rw [pathOf, if_neg hcs]
  have htrim : trim (ofNames cs) <+: ofNames cs := by
    rw [hs]
    exact trim_prefix
  by_cases hnil : trim (ofNames cs) = []
  · rw [hnil]
    exact List.nil_prefix
  obtain ⟨ds, c, c', hds, hc', heq⟩ := names_of_prefix htrim hnil
  have hnames : ∀ d ∈ ds ++ [c], IsName d := fun d hd => h d (hds.subset hd)
  have hslash : '/' ∉ c' := fun hmem => (hnames c (by simp)).no_slash (hc'.subset hmem)
  rw [heq] at htrim ⊢
  exact (prefix_ofNames_splitComponents (fun d hd => hnames d (by simp [hd])) hslash).trans htrim

/-- A view path ends in a name, and goes on from that of the directory above. -/
theorem view_shape {s : Str} (h : normalizeVmPath s ≠ root) :
    IsName (fileName (normalizeVmPath s)) ∧
    ∃ mid, normalizeVmPath s = stem (parentOf (normalizeVmPath s)) ++ mid ++ '/' :: fileName
    (normalizeVmPath s) := by
  have hnames := isName_splitComponents (trim s)
  rw [normalizeVmPath_eq] at h ⊢
  generalize splitComponents (trim s) = cs at h hnames ⊢
  obtain rfl | ⟨dir, c, rfl⟩ := cs.eq_nil_or_concat
  · exact absurd rfl h
  rw [List.concat_eq_append] at hnames ⊢
  have hdir : ∀ d ∈ dir, IsName d := fun d hd => hnames d (List.mem_append_left _ hd)
  have hc : IsName c := hnames c (by simp)
  have hpath : pathOf (dir ++ [c]) = ofNames dir ++ '/' :: c := by
    rw [pathOf_concat, ofNames_append, ofNames_cons, ofNames_nil, List.append_nil]
  have hparent : parentOf (pathOf (dir ++ [c])) = normalizeVmPath (pathOf dir) := by
    rw [pathOf_concat, parentOf, pathParent_concat hnames, Option.getD_some]
  have hfile : fileName (pathOf (dir ++ [c])) = c := by rw [hpath, fileName_append hc.no_slash]
  obtain ⟨mid, hmid⟩ := prefix_stem_normalizeVmPath hdir
  rw [hfile, hparent]
  exact ⟨hc, mid, by rw [hmid, hpath]⟩

section Build

variable {K : Type} [DecidableEq K]

/-! ## The second pass -/

namespace Built

variable {st : Built} {done order : List ℕ} {nodes nodes' : Table ℕ Node} {ino : ℕ}

/-- Every node that had its turn names the directory into which it belongs. -/
def Filed (st : Built) (done : List ℕ) (nodes : Table ℕ Node) : Prop :=
  ∀ i m, i ∈ done → nodes.get? i = some m → st.Under i m.parent

/-- Linking one more node files it in the node of its directory. -/
theorem Filed.step (hf : Filed st done nodes) (hl : Linked st done nodes)
    (h : linkStep st.byView nodes ino = .ok nodes') :
    Filed st (done ++ [ino]) nodes' := by
  intro i m hi hm
  rw [List.mem_append, List.mem_singleton] at hi
  obtain ⟨node, hnode, ⟨rfl, hnot⟩ | ⟨p, q, hview, hq, hdir, rfl⟩⟩ := linkStep_cases h
  · -- what goes is not there any more
    have hget := nodes.get?_deleteWhere_key (fun j => j = ino) i
    rw [hget] at hm
    split_ifs at hm with hne
    exact hf i m (hi.resolve_right (by simpa using hne)) hm
  · have hunder := (hl.under_iff hnode hview hq).2 hdir
    rw [Table.get?_update_eq_map, Table.get?_update_eq_map, Option.map_map,
      Option.map_eq_some_iff] at hm
    obtain ⟨n, hn, rfl⟩ := hm
    dsimp only [Function.comp]
    by_cases hino : i = ino
    · rw [if_pos hino]
      subst hino
      split_ifs <;> exact hunder
    · rw [if_neg hino]
      have hold := hf i n (hi.resolve_right hino) hn
      split_ifs <;> exact hold

/-- By induction on the order, every node that is linked is filed. -/
theorem Filed.run (hf : Filed st done nodes) (hl : Linked st done nodes)
    (hnodup : (done ++ order).Nodup) (h : linkAll st.byView order nodes = .ok nodes') :
    Filed st (done ++ order) nodes' := by
  induction order generalizing done nodes with
  | nil =>
    obtain rfl := Except.ok.inj h
    rwa [List.append_nil]
  | cons ino order ih =>
    rw [linkAll] at h
    rcases hstep : linkStep st.byView nodes ino with e | next
    · rw [hstep] at h
      cases h
    rw [hstep] at h
    have hdone : ino ∉ done :=
      fun hmem => (List.nodup_append.1 hnodup).2.2 ino hmem ino (by simp) rfl
    rw [List.append_cons] at hnodup ⊢
    exact ih (hf.step hl hstep) (hl.step hdone hstep) hnodup h

/-- The table after the second pass is a tree. -/
theorem Linked.tree (hst : st.Good) (hl : Linked st done nodes) (hf : Filed st done nodes)
    (hroot : rootIno ∉ done) :
    Tree nodes st.nextIno := by
  refine ⟨?_, ?_, ?_⟩
  · obtain ⟨n, hn, hview, hkind⟩ := hst.top
    obtain ⟨m, hm⟩ := hl.get?_of_not_mem hroot hn
    obtain ⟨n', hn', hmview, -, hmattr⟩ := hl.same _ m hm
    obtain rfl : n = n' := Option.some.inj (hn.symm.trans hn')
    exact ⟨m, hm, hmview.trans hview, by rw [hmattr, hkind]⟩
  · intro p m x c hm hc
    obtain ⟨hdone, hunder, n, hn, hname⟩ := hl.sound p m x c hm hc
    obtain ⟨k, hk⟩ := Table.has_eq_true.1 (hl.has_child hm hc)
    obtain ⟨n', hn', hkview, -, -⟩ := hl.same c k hk
    obtain rfl : n = n' := Option.some.inj (hn.symm.trans hn')
    have hcroot : c ≠ rootIno := fun heq => hroot (heq ▸ hdone)
    -- the directory
    obtain ⟨n', q, hn', hpview, hq, hdir⟩ := id hunder
    obtain rfl : n = n' := Option.some.inj (hn.symm.trans hn')
    obtain ⟨q', hq', hqview⟩ := hst.exists_node hpview
    obtain rfl : q = q' := Option.some.inj (hq.symm.trans hq')
    obtain ⟨q', hq', hmview, -, hmattr⟩ := hl.same p m hm
    obtain rfl : q = q' := Option.some.inj (hq.symm.trans hq')
    -- the view path
    obtain ⟨s, hs⟩ := hst.shape c n hn
    have hne : normalizeVmPath s ≠ root := by
      rw [← hs]
      exact fun heq => hcroot ((hst.view_eq_root hn).1 heq)
    obtain ⟨hx, mid, hmid⟩ := view_shape hne
    rw [← hs, hname] at hx
    rw [← hs, hname, ← hqview, ← hmview, ← hkview] at hmid
    exact ⟨by rw [hmattr, hdir], hx, k, hk, (hf c k hdone hk).unique hunder, mid, hmid⟩
  · intro i m hm
    obtain ⟨n, hn, -⟩ := hl.same i m hm
    exact hst.fresh i n hn

/-- Every node is an entry when no two nodes of a directory have one name. -/
theorem Linked.listed (hl : Linked st done nodes) (hf : Filed st done nodes) (hrooted : st.Rooted)
    (hnamed : st.Named) (hdone : ∀ i n, i ≠ rootIno → st.nodes.get? i = some n → i ∈ done)
    (hroot : rootIno ∉ done) : Listed nodes := by
  intro i m hm hi
  obtain ⟨n, hn, -⟩ := hl.same i m hm
  have hunder := hf i m (hdone i n hi hn) hm
  obtain ⟨n', q, hn', hview, hq, -⟩ := id hunder
  obtain rfl : n = n' := Option.some.inj (hn.symm.trans hn')
  -- the directory has not gone
  obtain ⟨p, hp⟩ : ∃ p, nodes.get? m.parent = some p := by
    by_cases hproot : m.parent = rootIno
    · exact hl.get?_of_not_mem (hproot ▸ hroot) hq
    · exact (hl.kept _ q hq).2 fun _ => hrooted i n _ hi hn hview hproot
  obtain ⟨c, hc⟩ := hl.full i _ n p (hdone i n hi hn) hunder hn hp
  obtain ⟨hcdone, hcunder, k, hk, hname⟩ := hl.sound _ p _ c hp hc
  have hcroot : c ≠ rootIno := fun heq => hroot (heq ▸ hcdone)
  obtain rfl := hnamed c i k n _ hcroot hi hk hn hcunder hunder hname
  exact ⟨p, _, hp, hc⟩

end Built

/-! ## Runs -/

variable {σ : Type} {fs : Table Str (FsRow K)} {links : List (Str × Str)} {order : List ℕ}
  {conn : σ} {owner : Owner} {s : Vm σ}

/-- The second pass of a mount that has started. -/
theorem new_eq_ok (h : new fs order conn owner = .ok s) : ∃ links nodes, linkRows fs = some links ∧
    linkAll (build fs links).byView order (build fs links).nodes = .ok nodes ∧
      s = ⟨conn, nodes, (build fs links).nextIno, owner⟩ := by
  unfold new at h
  rcases hlinks : linkRows fs with _ | links
  · rw [hlinks] at h
    cases h
  rw [hlinks] at h
  dsimp only at h
  rcases hrun : linkAll (build fs links).byView order (build fs links).nodes with e | nodes
  · rw [hrun] at h
    cases h
  rw [hrun] at h
  exact ⟨links, nodes, rfl, hrun, (Except.ok.inj h).symm⟩

omit [DecidableEq K] in
/-- What the second pass is to take, in any order. -/
theorem order_spec (hlinks : linkRows fs = some links) (horder : order.Perm (inos fs)) :
    order.Nodup ∧
    ∀ i, i ∈ order ↔ i ≠ rootIno ∧ ∃ n, (build fs links).nodes.get? i = some n := by
  have hinos : inos fs = ((build fs links).nodes.rows.map Prod.fst).filter (· ≠ rootIno) :=
    by rw [inos, hlinks]
  rw [hinos] at horder
  refine ⟨horder.nodup_iff.2 ((build fs links).nodes.nodup.filter _), fun i => ?_⟩
  rw [horder.mem_iff, List.mem_filter, Table.mem_keys_iff, decide_eq_true_eq, and_comm]

/-- A mount starts in order when the rows fit. -/
theorem Fits.whole (hlinks : linkRows fs = some links) (hfits : Fits fs links)
    (horder : order.Perm (inos fs)) (h : new fs order conn owner = .ok s) : Whole s := by
  obtain ⟨links', nodes, hlinks', hrun, rfl⟩ := new_eq_ok h
  obtain rfl : links = links' := Option.some.inj (hlinks.symm.trans hlinks')
  obtain ⟨hst, -⟩ := Built.good_build fs links
  obtain ⟨hrooted, hnamed⟩ := (Built.fits_iff fs links).1 hfits
  obtain ⟨hnodup, hmem⟩ := order_spec hlinks horder
  have hroot : rootIno ∉ [] ++ order := fun hr => ((hmem rootIno).1 hr).1 rfl
  have hl := hst.linked_nil.run (by simpa using hnodup) hrun
  have hf : Built.Filed (build fs links) ([] ++ order) nodes :=
    Built.Filed.run (fun i m hi => absurd hi List.not_mem_nil) hst.linked_nil
    (by simpa using hnodup) hrun
  exact ⟨hl.tree hst hf hroot,
    hl.listed hf hrooted hnamed (fun i n hi hn => (hmem i).2 ⟨hi, n, hn⟩) hroot⟩

/-- In every run of requests, whatever the database answers to them, the next request does not
panic, and every node is reached from the root. -/
theorem mount_never_panics {K : Type} [DecidableEq K] {σ : Type} {fs : Table Str (FsRow K)}
    {links : List (Str × Str)} {order : List ℕ} {conn : σ} {owner : Owner} {s : Vm σ}
    (B : Backend σ) (hlinks : linkRows fs = some links) (hfits : Fits fs links)
    (horder : order.Perm (inos fs)) (h : new fs order conn owner = .ok s) (rs : List Request)
    (r : Request) :
    (handle B r (runAll B rs s)).1 ≠ .error .panicked ∧
      ∀ i n, (runAll B rs s).nodes.get? i = some n → Reached (runAll B rs s).nodes i := by
  have hwhole := (hfits.whole hlinks horder h).runAll B rs
  exact ⟨hwhole.handle_ne_panicked B r, fun i n hn => hwhole.tree.reached hwhole.listed _
    i n hn rfl⟩

/-- A database with one directory. -/
def oneDirDb : Db Bytes := endState (vmAddDir "/d".toList 0o755 0 0) (initDb 0)

/-- A mount of it. -/
def oneDirMount : Vm (Conn Bytes) :=
  (new oneDirDb.fs [2] ⟨oneDirDb, none⟩ ⟨0, 0⟩).toOption.getD ⟨⟨oneDirDb, none⟩, Table.empty,
    0, ⟨0, 0⟩⟩

/-- The rows of the example can be mounted. -/
theorem fits_oneDirDb : Fits oneDirDb.fs [] := by
  -- the only view path but the root
  have hview : ∀ v, v ≠ root → (kindAt oneDirDb.fs [] v).isSome → v = "/d".toList := by
    intro v hv hsome
    have hviews : (sortedRows oneDirDb.fs).map (fun r => viewOf (normalizeVmPath r.1) []) = [root,
      "/d".toList] := by decide +kernel
    rw [kindAt, if_neg hv, kindIn, Option.isSome_map, List.find?_isSome] at hsome
    obtain ⟨r, hr, htakes⟩ := hsome
    rw [Bool.and_eq_true, decide_eq_true_eq] at htakes
    have hmem : v ∈ (sortedRows oneDirDb.fs).map (fun r => viewOf (normalizeVmPath r.1) []) :=
      List.mem_map.2 ⟨r, hr, htakes.2⟩
    rw [hviews] at hmem
    rcases List.mem_cons.1 hmem with hroot | hmem
    · exact absurd hroot hv
    · exact List.mem_singleton.1 hmem
  constructor
  · intro v hv hsome hparent
    rw [hview v hv hsome] at hparent
    exact absurd (by decide +kernel) hparent
  · intro v w hv hw hvsome hwsome _ _ _
    rw [hview v hv hvsome, hview w hw hwsome]

/-- A directory is not moved into itself, and the mount goes on without a panic. -/
theorem mount_never_panics_oneDir :
    (handle (Backend.ofDb plainExt) (.rmdir rootIno (some "d".toList))
      (runAll (Backend.ofDb plainExt)
      [.mkdir 2 (some "x".toList) 0o755 0, .rename rootIno (some "d".toList) 2 (some "y".toList)]
      oneDirMount)).1 ≠ .error .panicked ∧
      ∀ i n, (runAll (Backend.ofDb plainExt) [.mkdir 2 (some "x".toList) 0o755 0,
        .rename rootIno (some "d".toList) 2 (some "y".toList)] oneDirMount).nodes.get? i = some n →
        Reached (runAll (Backend.ofDb plainExt) [.mkdir 2 (some "x".toList) 0o755 0,
          .rename rootIno (some "d".toList) 2 (some "y".toList)] oneDirMount).nodes i :=
  mount_never_panics (Backend.ofDb plainExt)
  (by decide +kernel) fits_oneDirDb (List.Perm.of_eq (by decide +kernel))
    (show new oneDirDb.fs [2] ⟨oneDirDb, none⟩ ⟨0, 0⟩ = .ok oneDirMount from rfl) _ _

end Build

end Dbvm.VmFuse
