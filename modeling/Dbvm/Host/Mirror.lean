import Mathlib.Algebra.Order.BigOperators.Group.List
import Dbvm.Host.Copy

/-!
# What a full sync mirrors

After `vm_sync_full` the database is to be a mirror of the host tree: each file, directory and link
has a row of its own with the same kind, mode, content and target, and no other row is left. A link
that the materialize has put below another link stands for the row it comes from.
`fullSync_mirrors_iff` says for which databases and trees a sync without failures achieves this. The
walk writes every entry at the path `vm_p` it is given, so what counts is that this is the path of
the entry (a name that ends in a blank is cut), that the links which are taken for stored ones have
not changed, and that no row is counted as seen because of a socket in its place or of a row that
used to stand where its link is placed.
-/

namespace Dbvm

open Lib Lib.Chunks Lib.Prog Lib.Posix

variable {K : Type} [DecidableEq K]

/-! ## Mirrors -/

section Mirror

variable {E : Ext K} {fs : Fs} {tree : Loc} {d : Db K}

/-- Where the materialize places a link that is stored below another link. -/
def Db.translation (d : Db K) (q : Str) : Option Str :=
  (resolveParentInVm q d.links).map fun _ => normalizeVmPath (translatedLink q d.links)

/-- The place of the link `q` is taken by a file or a directory of the host. -/
def Db.Occupied (d : Db K) (fs : Fs) (tree : Loc) (q : Str) : Prop := ∃ loc node,
  Shown fs tree loc node ∧ (∀ t, node ≠ .link t) ∧ d.translation q = some (hostPath tree loc)

/-- An entry stands for the row, or it is a link whose place is taken. -/
def Db.Accounted (d : Db K) (fs : Fs) (tree : Loc) (q : Str) : Prop :=
  (∃ loc node, Shown fs tree loc node ∧ d.rowOf tree loc node = q) ∨
    ((∃ row, d.fs.get? q = some row ∧ row.kind = .symlink) ∧ d.Occupied fs tree q)

/-- The database `d'` mirrors the tree. The rows of `d`, from which the tree was made, say which
links of the host stand for a row stored elsewhere. -/
structure MirrorOf (E : Ext K) (d : Db K) (fs : Fs) (tree : Loc) (d' : Db K) : Prop where
  /-- Every entry has a row with its kind, mode, content and target. -/
  entries : ∀ loc node, Shown fs tree loc node → SameAs E d' (d.rowOf tree loc node) node
  /-- Different entries have different rows. -/
  distinct : ∀ loc node loc' node', Shown fs tree loc node → Shown fs tree loc' node' →
    d.rowOf tree loc node = d.rowOf tree loc' node' → loc = loc'
  /-- No other row is left, except links whose place is taken. -/
  rows : ∀ q row, d'.fs.get? q = some row → isReservedVmPath q = false →
    (∃ loc node, Shown fs tree loc node ∧ d.rowOf tree loc node = q) ∨
      (row.kind = .symlink ∧ d.Occupied fs tree q)

/-- When a full sync mirrors the tree. -/
structure Db.Mirrorable (E : Ext K) (d : Db K) (fs : Fs) (tree : Loc) : Prop where
  /-- The path of an entry with a row of its own is not changed by normalisation: no name at its end
  has a blank at its end. -/
  own : ∀ loc node, Shown fs tree loc node → d.aliasOf tree loc node = none →
    vmPathOf tree loc = hostPath tree loc
  /-- A link that is taken for a stored one has its target and mode. -/
  aliased : ∀ loc t r, Shown fs tree loc (.link t) → d.aliasOf tree loc (.link t) = some r →
    Agrees E d r (.link t)
  /-- No other entry stands for the row of that link. -/
  once : ∀ loc t r, Shown fs tree loc (.link t) → d.aliasOf tree loc (.link t) = some r →
    ∀ loc' node', Shown fs tree loc' node' → d.rowOf tree loc' node' = r → loc' = loc
  /-- No socket or device is at the path of a row, unless something else accounts for the row. -/
  special : ∀ loc mode, fs.get? loc = some (.special mode) → Loc.below tree loc = true →
    isReservedVmPath (vmPathOf tree loc) = false → d.fs.has (vmPathOf tree loc) = true →
    d.Accounted fs tree (vmPathOf tree loc)
  /-- The place of a link that was served by another row is still taken. -/
  served : ∀ q ∈ d.servedLinks (linkAliases d.links), isReservedVmPath q = false →
    d.Accounted fs tree q

end Mirror

/-! ## The exact condition -/

section Exact

variable {E : Ext K} {fs : Fs} {tree : Loc} {d d₁ d' : Db K}

/-- The state of the rows after a full sync, over the database before it. -/
structure FullSynced (E : Ext K) (d : Db K) (fs : Fs) (tree : Loc) (d' : Db K) : Prop where
  /-- The walk meets every entry. -/
  walk : none ∉ walk fs tree
  /-- The rows that are not written. -/
  rows : ∀ q, (∀ loc node, Shown fs tree loc node → d.aliasOf tree loc node = none →
    vmPathOf tree loc ≠ q) → (d'.fs.get? q).map FsRow.unhashed =
      if q ∈ d.gone fs tree then none else (d.fs.get? q).map FsRow.unhashed
  /-- The entries that are written, if no path is written twice. -/
  agrees : (∀ loc node loc' node', Shown fs tree loc node → Shown fs tree loc' node' →
    d.aliasOf tree loc node = none → d.aliasOf tree loc' node' = none →
    vmPathOf tree loc = vmPathOf tree loc' → loc = loc') →
    ∀ loc node, Shown fs tree loc node → d.aliasOf tree loc node = none →
      Agrees E d' (vmPathOf tree loc) node
  /-- Counts and blobs. -/
  sound : Sound E d'

/-- A full sync without failures has synced every entry and removed what is gone. -/
theorem fullSynced (hE : Function.Injective E.blobKey) (hC : E.Faithful) (hs : Sound E d)
    (hh : d.Honest E) (hfs : HostTree fs) {now : ℤ} {rep : SyncReport}
    (hrun : vmSyncFull E fs tree now d = .ok rep d') (hfailed : rep.failed = 0) :
    FullSynced E d fs tree d' := by
  obtain ⟨n, d₁, hfinal, hbody⟩ := bind_eq_ok.1 hrun
  obtain ⟨hs₁, hh₁⟩ := honest_finalizeDirty hE hs hh hfinal
  have hshape := shape_finalizeDirty hfinal
  have hsynced := synced_of_syncBody rfl hbody hfailed
  have hmem : ∀ {q : Str} {node : Node}, (q, node) ∈ (walk fs tree).filterMap
      (copyTarget tree (linkAliases d₁.links)) ↔
        ∃ loc, Shown fs tree loc node ∧ d.aliasOf tree loc node = none ∧ q = vmPathOf tree loc := by
    intro q node
    rw [mem_copies hfs hsynced.walk]
    simp only [rowOf_of_shape hshape]
  -- The rows come from the walk, their number from the distinct paths, and an entry is either
  -- copied now or was current before.
  refine ⟨hsynced.walk, fun q hq => ?_, fun hinj loc node hshown halias => ?_, ?_⟩
  · have hnot : q ∉ ((walk fs tree).filterMap (copyTarget tree (linkAliases d₁.links))).map
      Prod.fst := by
      intro hq'
      obtain ⟨⟨q', node⟩, hr, rfl⟩ := List.mem_map.1 hq'
      obtain ⟨loc, hshown, halias, hpath⟩ := hmem.1 hr
      exact hq loc node hshown halias hpath.symm
    rw [hsynced.rows q hnot, gone_of_shape hshape]
    split_ifs
    · rfl
    · exact row_of_shape hshape q
  · have hnodup := nodup_copies (d := d₁) hfs hsynced.walk fun a n b m hs hs' ha hb => by
      rw [rowOf_of_shape hshape] at ha hb
      exact hinj a n b m hs hs' ha hb
    have hsettled := hsynced.settled hnodup _ (hmem.2 ⟨loc, hshown, halias, rfl⟩)
    dsimp only at hsettled
    rcases hsettled with ⟨hcur, hrow, hch⟩ | hm
    · exact (agrees_of_current hE rfl hh₁ (finalizeDirty_ok hfinal).2 hshown.kind hcur).congr hrow
        hch
    · exact hm.agrees
  · exact (keeps_sound_syncBody hC rfl fs tree).triple d₁ rep d' hs₁ hbody

/-- A row that no entry of the tree writes and no removal names stays, up to its hash. -/
theorem FullSynced.kept (h : FullSynced E d fs tree d') {q : Str} {row : FsRow K}
    (hq : ∀ loc node, Shown fs tree loc node → d.aliasOf tree loc node = none →
      vmPathOf tree loc ≠ q)
    (hrow : d.fs.get? q = some row) (hgone : q ∉ d.gone fs tree) :
    ∃ row', d'.fs.get? q = some row' ∧ row'.unhashed = row.unhashed := by
  have hrows := h.rows q hq
  rw [if_neg hgone, hrow, Option.map_some, Option.map_eq_some_iff] at hrows
  exact hrows

omit [DecidableEq K] in
/-- A link row that is not written stays a link row. -/
theorem agrees_link_iff {r : Str} {t : Name}
    (h : (d'.fs.get? r).map FsRow.unhashed = (d.fs.get? r).map FsRow.unhashed) :
    Agrees E d' r (.link t) ↔ Agrees E d r (.link t) := by
  have himp : ∀ {a b : Db K}, (b.fs.get? r).map FsRow.unhashed = (a.fs.get? r).map FsRow.unhashed →
      Agrees E a r (.link t) → Agrees E b r (.link t) := by
    rintro a b heq ⟨row, hrow, hkind, hmode, htarget⟩
    rw [hrow, Option.map_some, Option.map_eq_some_iff] at heq
    obtain ⟨row', hrow', hun⟩ := heq
    refine ⟨row', hrow', ?_, ?_, ?_⟩
    · rw [← hkind]
      exact congrArg (fun r => r.toFsMeta.kind) hun
    · rw [← hmode]
      exact congrArg (fun r => r.toFsMeta.mode) hun
    · rw [← htarget]
      exact congrArg (fun r => r.toFsMeta.linkTarget) hun
  exact ⟨himp h.symm, himp h⟩

/-- If the path of an entry is cut, its row in the mirror can come only from an entry with a longer
path that is cut as well. -/
theorem MirrorOf.longer (h : MirrorOf E d fs tree d') (hsync : FullSynced E d fs tree d')
    (hfs : HostTree fs) (hnormal : ∀ q, d.fs.has q = true → Normal q) {loc : Loc} {node : Node}
    (hshown : Shown fs tree loc node) (halias : d.aliasOf tree loc node = none)
    (hne : vmPathOf tree loc ≠ hostPath tree loc) : ∃ loc' node', Shown fs tree loc' node' ∧
      d.aliasOf tree loc' node' = none ∧ vmPathOf tree loc' ≠ hostPath tree loc' ∧
      (hostPath tree loc).length < (hostPath tree loc').length := by
  have hhas := (h.entries loc node hshown).has
  have hrow : d.rowOf tree loc node = hostPath tree loc := by
    rw [Db.rowOf, halias]
    rfl
  rw [hrow] at hhas
  by_contra hnone
  -- No entry is written there, so the row was there before; but its path is not normal.
  have hfree : ∀ loc' node', Shown fs tree loc' node' → d.aliasOf tree loc' node' = none →
      vmPathOf tree loc' ≠ hostPath tree loc := by
    intro loc' node' hshown' halias' hpath
    have hcut : vmPathOf tree loc' ≠ hostPath tree loc' := by
      intro hown
      have hloc := hostPath_inj hfs hshown'.there hshown'.below hshown.there hshown.below
        (hown.symm.trans hpath)
      rw [hloc] at hpath
      exact hne hpath
    have hlen := length_vmPathOf_lt hfs hshown'.there hshown'.below hcut
    rw [hpath] at hlen
    exact hnone ⟨loc', node', hshown', halias', hcut, hlen⟩
  have hrows := hsync.rows _ hfree
  obtain ⟨row, hget⟩ := Table.has_eq_true.1 hhas
  rw [hget, Option.map_some] at hrows
  split_ifs at hrows with hgone
  obtain ⟨row₀, hget₀, -⟩ := Option.map_eq_some_iff.1 hrows.symm
  have hnorm := hnormal _ (Table.has_eq_true.2 ⟨row₀, hget₀⟩)
  rw [vmPathOf_eq hfs hshown.there hshown.below] at hne
  exact hne hnorm

/-- In a mirror every entry has its own path: a name that is cut leaves its entry without a row. -/
theorem MirrorOf.own (h : MirrorOf E d fs tree d') (hsync : FullSynced E d fs tree d')
    (hfs : HostTree fs) (hnormal : ∀ q, d.fs.has q = true → Normal q) :
    ∀ (n : ℕ) {loc : Loc} {node : Node},
      Shown fs tree loc node → d.aliasOf tree loc node = none →
      (fs.rows.map fun r => (hostPath tree r.1).length).sum < (hostPath tree loc).length + n →
      vmPathOf tree loc = hostPath tree loc
  | 0, loc, node, hshown, _, hn => by
    have hmem : (hostPath tree loc).length ∈ fs.rows.map fun r => (hostPath tree r.1).length :=
      List.mem_map.2 ⟨(loc, node), Table.get?_eq_some_iff.1 hshown.there, rfl⟩
    have hle := List.le_sum_of_mem hmem
    omega
  | n + 1, loc, node, hshown, halias, hn => by
    by_contra hne
    obtain ⟨loc', node', hshown', halias', hcut, hlen⟩ :=
      h.longer hsync hfs hnormal hshown halias hne
    exact hcut (h.own hsync hfs hnormal n hshown' halias' (by omega))

/-- A mirror meets the condition. -/
theorem mirrorable_of_mirrorOf (h : MirrorOf E d fs tree d') (hsync : FullSynced E d fs tree d')
    (hfs : HostTree fs) (hnormal : ∀ q, d.fs.has q = true → Normal q) : d.Mirrorable E fs tree := by
  have hown : ∀ loc node, Shown fs tree loc node → d.aliasOf tree loc node = none →
      vmPathOf tree loc = hostPath tree loc := fun loc node hshown halias =>
    h.own hsync hfs hnormal ((fs.rows.map fun r => (hostPath tree r.1).length).sum + 1)
    hshown halias
      (by omega)
  have hrowOf : ∀ loc node, Shown fs tree loc node → d.aliasOf tree loc node = none →
      d.rowOf tree loc node = vmPathOf tree loc := by
    intro loc node hshown halias
    rw [hown loc node hshown halias, Db.rowOf, halias]
    rfl
  have halias' : ∀ loc t r, d.aliasOf tree loc (.link t) = some r →
    d.rowOf tree loc (.link t) = r := by
    intro loc t r halias
    rw [Db.rowOf, halias]
    rfl
  -- What stays of a row that counts as seen must be accounted for.
  have hseen : ∀ q row, d.fs.get? q = some row → isReservedVmPath q = false → q ∉ d.gone fs tree →
      d.Accounted fs tree q := by
    intro q row hrow hres hgone
    by_cases hwritten : ∃ loc node, Shown fs tree loc node ∧ d.aliasOf tree loc node = none ∧
        vmPathOf tree loc = q
    · obtain ⟨loc, node, hshown, halias, hq⟩ := hwritten
      exact Or.inl ⟨loc, node, hshown, (hrowOf loc node hshown halias).trans hq⟩
    · obtain ⟨row', hrow', hun⟩ := hsync.kept (fun loc node hshown halias hq =>
        hwritten ⟨loc, node, hshown, halias, hq⟩) hrow hgone
      rcases h.rows q row' hrow' hres with hleft | ⟨hkind, hocc⟩
      · exact Or.inl hleft
      · refine Or.inr ⟨⟨row, hrow, ?_⟩, hocc⟩
        rw [← hkind]
        exact (congrArg (fun r => r.toFsMeta.kind) hun).symm
  refine ⟨hown, fun loc t r hshown halias => ?_,
    fun loc t r hshown halias loc' node' hshown' hrow => ?_,
    fun loc mode hget hbelow hres hhas => ?_, fun q hq hres => ?_⟩
  · -- The row of the link is not written, so it was as it is.
    have hsame := h.entries loc (.link t) hshown
    rw [halias' loc t r halias] at hsame
    have hfree : ∀ loc' node', Shown fs tree loc' node' → d.aliasOf tree loc' node' = none →
        vmPathOf tree loc' ≠ r := by
      intro loc' node' hshown' hnone hq
      have hloc := h.distinct loc' node' loc (.link t) hshown' hshown
        (((hrowOf loc' node' hshown' hnone).trans hq).trans (halias' loc t r halias).symm)
      have hnode : node' = .link t := by
        have := hshown'.there
        rw [hloc, hshown.there] at this
        exact (Option.some.inj this).symm
      rw [hloc, hnode, halias] at hnone
      cases hnone
    have hrows := hsync.rows r hfree
    have hagrees : Agrees E d' r (.link t) := hsame
    by_cases hgone : r ∈ d.gone fs tree
    · obtain ⟨row, hrow⟩ := Table.has_eq_true.1 hsame.has
      rw [if_pos hgone, hrow] at hrows
      cases hrows
    · rw [if_neg hgone] at hrows
      exact (agrees_link_iff hrows).1 hagrees
  · exact h.distinct loc' node' loc (.link t) hshown' hshown
      (hrow.trans (halias' loc t r halias).symm)
  · obtain ⟨row, hrow⟩ := Table.has_eq_true.1 hhas
    refine hseen _ row hrow hres
      ((not_mem_gone_iff hhas hres).2 (Or.inr ⟨some (loc, .special mode), ?_, ?_⟩))
    · exact (mem_walk hfs.root hsync.walk).2 ⟨hget, hbelow⟩
    · have hnone : d.aliasOf tree loc (.special mode) = none := by unfold Db.aliasOf; rfl
      exact mem_seenStep_iff.2 ⟨hres, by rw [hnone, Option.getD_none]⟩
  · obtain ⟨r, hr, hqr⟩ := List.mem_map.1 hq
    have hrow : d.fs.get? q = some r.2 := by
      rw [← hqr]
      exact Table.get?_eq_some_iff.2 (List.mem_filter.1 hr).1
    exact hseen q r.2 hrow hres ((not_mem_gone_iff (Table.has_eq_true.2 ⟨_, hrow⟩) hres).2
      (Or.inl hq))

/-- Under the condition the sync gives a mirror. -/
theorem mirrorOf_of_mirrorable (hE : Function.Injective E.blobKey) (h : d.Mirrorable E fs tree)
    (hsync : FullSynced E d fs tree d') (hfs : HostTree fs) : MirrorOf E d fs tree d' := by
  have hrowOf : ∀ loc node, Shown fs tree loc node → d.aliasOf tree loc node = none →
      d.rowOf tree loc node = vmPathOf tree loc := by
    intro loc node hshown halias
    rw [h.own loc node hshown halias, Db.rowOf, halias]
    rfl
  have hagrees := hsync.agrees fun loc node loc' node' hs hs' ha ha' he => by
    rw [h.own loc node hs ha, h.own loc' node' hs' ha'] at he
    exact hostPath_inj hfs hs.there hs.below hs'.there hs'.below he
  -- The row of a link that is taken for a stored one is not written and not deleted.
  have hlink : ∀ loc t r, Shown fs tree loc (.link t) → d.aliasOf tree loc (.link t) = some r →
      (d'.fs.get? r).map FsRow.unhashed = (d.fs.get? r).map FsRow.unhashed := by
    intro loc t r hshown halias
    have hrows := hsync.rows r fun loc' node' hshown' hnone hq => by
      have hloc :=
        h.once loc t r hshown halias loc' node' hshown' ((hrowOf loc' node' hshown' hnone).trans hq)
      have hnode : node' = .link t := by
        have := hshown'.there
        rw [hloc, hshown.there] at this
        exact (Option.some.inj this).symm
      rw [hloc, hnode, halias] at hnone
      cases hnone
    have hgone : r ∉ d.gone fs tree := by
      intro hmem
      have hfilter := (List.mem_filter.1 hmem).2
      simp only [Bool.and_eq_true, decide_eq_true_iff] at hfilter
      refine hfilter.2 ?_
      unfold Db.seen
      rw [mem_foldl_seenStep]
      refine Or.inr ⟨some (loc, .link t),
        (mem_walk hfs.root hsync.walk).2 ⟨hshown.there, hshown.below⟩, ?_⟩
      rw [mem_seenStep_iff, halias]
      exact ⟨hshown.free, rfl⟩
    rwa [if_neg hgone] at hrows
  refine ⟨fun loc node hshown => ?_, fun loc node loc' node' hs hs' he => ?_,
    fun q row hrow hres => ?_⟩
  · rcases halias : d.aliasOf tree loc node with _ | r
    · rw [hrowOf loc node hshown halias]
      exact (hagrees loc node hshown halias).sameAs hE hsync.sound
    · rcases node with _ | _ | t | _
      · cases halias
      · cases halias
      · rw [Db.rowOf, halias]
        exact (agrees_link_iff (hlink loc t r hshown halias)).2 (h.aliased loc t r hshown halias)
      · cases halias
  · rcases halias : d.aliasOf tree loc node with _ | r
    · rcases halias' : d.aliasOf tree loc' node' with _ | r'
      · rw [hrowOf loc node hs halias, hrowOf loc' node' hs' halias', h.own loc node hs halias,
          h.own loc' node' hs' halias'] at he
        exact hostPath_inj hfs hs.there hs.below hs'.there hs'.below he
      · rcases node' with _ | _ | t | _
        · cases halias'
        · cases halias'
        · refine h.once loc' t r' hs' halias' loc node hs (he.trans ?_)
          rw [Db.rowOf, halias']
          rfl
        · cases halias'
    · rcases node with _ | _ | t | _
      · cases halias
      · cases halias
      · refine (h.once loc t r hs halias loc' node' hs' (he.symm.trans ?_)).symm
        rw [Db.rowOf, halias]
        rfl
      · cases halias
  · by_cases hwritten : ∃ loc node, Shown fs tree loc node ∧ d.aliasOf tree loc node = none ∧
        vmPathOf tree loc = q
    · obtain ⟨loc, node, hshown, halias, hq⟩ := hwritten
      exact Or.inl ⟨loc, node, hshown, (hrowOf loc node hshown halias).trans hq⟩
    -- A row that is not written was there and counts as seen.
    have hrows :=
      hsync.rows q fun loc node hshown halias hq => hwritten ⟨loc, node, hshown, halias, hq⟩
    rw [hrow, Option.map_some] at hrows
    split_ifs at hrows with hgone
    obtain ⟨row₀, hrow₀, hun⟩ := Option.map_eq_some_iff.1 hrows.symm
    have hhas : d.fs.has q = true := Table.has_eq_true.2 ⟨row₀, hrow₀⟩
    have haccounted : d.Accounted fs tree q := by
      rcases (not_mem_gone_iff hhas hres).1 hgone with hserved | ⟨_ | ⟨loc, node⟩, he, hq⟩
      · exact h.served q hserved hres
      · exact absurd he hsync.walk
      · obtain ⟨hget, hbelow⟩ := (mem_walk hfs.root hsync.walk).1 he
        obtain ⟨hfree, hpath⟩ := mem_seenStep_iff.1 hq
        rcases halias : d.aliasOf tree loc node with _ | r
        · rw [halias, Option.getD_none] at hpath
          by_cases hkind : ∃ mode, node = .special mode
          · obtain ⟨mode, rfl⟩ := hkind
            rw [hpath] at hhas ⊢
            exact h.special loc mode hget hbelow hfree hhas
          · exact absurd ⟨loc, node, ⟨hget, hbelow, fun mode hm => hkind ⟨mode, hm⟩, hfree⟩, halias,
              hpath.symm⟩
              hwritten
        · rw [halias, Option.getD_some] at hpath
          refine Or.inl ⟨loc, node, ⟨hget, hbelow, ?_, hfree⟩, ?_⟩
          · rintro mode rfl
            cases halias
          · rw [Db.rowOf, halias, hpath, Option.getD_some]
    rcases haccounted with hleft | ⟨⟨row₁, hrow₁, hkind⟩, hocc⟩
    · exact Or.inl hleft
    · rw [hrow₀] at hrow₁
      cases hrow₁
      refine Or.inr ⟨?_, hocc⟩
      rw [← hkind]
      exact (congrArg (fun r => r.toFsMeta.kind) hun).symm

/-- A full sync that returns without failures mirrors the tree exactly when no path of an entry is
cut by normalisation, the links taken for stored ones are as stored and stand alone for their rows,
no socket is in the place of a row, and the place of every link that was served by another row is
still taken. -/
theorem fullSync_mirrors_iff {K : Type} [DecidableEq K] {E : Ext K} {fs : Fs} {tree : Loc}
    {d d' : Db K} (hE : Function.Injective E.blobKey) (hC : E.Faithful) (hs : Sound E d)
    (hh : d.Honest E) (hnormal : ∀ q, d.fs.has q = true → Normal q) (hfs : HostTree fs) {now : ℤ}
    {rep : SyncReport} (hrun : vmSyncFull E fs tree now d = .ok rep d') (hfailed : rep.failed = 0) :
    MirrorOf E d fs tree d' ↔ d.Mirrorable E fs tree := by
  have hsync := fullSynced hE hC hs hh hfs hrun hfailed
  exact ⟨fun h => mirrorable_of_mirrorOf h hsync hfs hnormal,
    fun h => mirrorOf_of_mirrorable hE h hsync hfs⟩

/-- A tree with one file. -/
def oneFile : Fs := (Table.empty.insertIgnore ["t".toList] (.dir 0o755 true)).insertIgnore
  ["t".toList, "f".toList] (.file [1, 2] 0o644 5 true)

/-- Its file is what there is to mirror. -/
theorem shown_oneFile {loc : Loc} {node : Node} (h : Shown oneFile ["t".toList] loc node) :
    loc = ["t".toList, "f".toList] ∧ node = .file [1, 2] 0o644 5 true := by
  have hmem : (loc, node) ∈ [(["t".toList], Node.dir 0o755 true),
      (["t".toList, "f".toList], Node.file [1, 2] 0o644 5 true)] := Table.get?_eq_some_iff.1 h.there
  rcases List.mem_cons.1 hmem with he | hmem
  · have hbelow := h.below
    rw [(Prod.mk.inj he).1] at hbelow
    exact absurd hbelow (by decide)
  · exact Prod.mk.inj (List.mem_singleton.1 hmem)

/-- No link and no socket is in its way. -/
theorem mirrorable_oneFile : (initDb 0 : Db Bytes).Mirrorable plainExt oneFile ["t".toList] where
  own loc node hshown _ := by
    rw [(shown_oneFile hshown).1]
    decide
  aliased loc t r hshown _ := by cases (shown_oneFile hshown).2
  once loc t r hshown _ := by cases (shown_oneFile hshown).2
  special loc mode hget hbelow _ _ := by
    have hmem : (loc, Node.special mode) ∈ [(["t".toList], Node.dir 0o755 true),
        (["t".toList, "f".toList], Node.file [1, 2] 0o644 5 true)] := Table.get?_eq_some_iff.1 hget
    rcases List.mem_cons.1 hmem with he | hmem
    · cases he
    · cases List.mem_singleton.1 hmem
  served q hq _ := by
    rw [show (initDb 0 : Db Bytes).servedLinks (linkAliases (initDb 0 : Db Bytes).links) =
      [] by decide] at hq
    cases hq

/-- After the sync a new database mirrors it. -/
theorem fullSync_mirrors_iff_oneFile : ∃ (rep : SyncReport) (d' : Db Bytes),
    vmSyncFull plainExt oneFile ["t".toList] 7 (initDb 0) = .ok rep d' ∧ rep.failed = 0 ∧
      MirrorOf plainExt (initDb 0) oneFile ["t".toList] d' := by
  obtain ⟨rep, hrun⟩ : ∃ rep, vmSyncFull plainExt oneFile ["t".toList] 7 (initDb 0) = .ok rep
      (endState (vmSyncFull plainExt oneFile ["t".toList] 7) (initDb 0)) :=
    exists_of_returns (by decide +kernel)
  have hreport : (match vmSyncFull plainExt oneFile ["t".toList] 7 (initDb 0) with
      | .ok rep _ => rep.failed
      | .error _ _ => 1) = 0 := by decide +kernel
  rw [hrun] at hreport
  exact ⟨rep, _, hrun, hreport, (fullSync_mirrors_iff plainExt_injective plainExt_faithful
    (sound_initDb plainExt 0) (honest_initDb plainExt 0) (fun _ => normal_initDb)
    (HostTree.of_rows (by decide) (by decide)) hrun hreport).2 mirrorable_oneFile⟩

/-- A database with one file. -/
def oneRow : Db Bytes := endState (vmAddBytes plainExt "/a".toList [1] 0o644 0 0) (initDb 0)

/-- A tree that has a socket where the file was. -/
def socketTree : Fs := (Table.empty.insertIgnore ["t".toList] (.dir 0o755 true)).insertIgnore
  ["t".toList, "a".toList] (.special 0o644)

/-- The row of the file stays. -/
theorem fullSync_keeps_row_of_socket : ∃ (rep : SyncReport) (d' : Db Bytes),
    vmSyncFull plainExt socketTree ["t".toList] 7 oneRow = .ok rep d' ∧ rep.failed = 0 ∧
      ¬ MirrorOf plainExt oneRow socketTree ["t".toList] d' := by
  obtain ⟨rep, hrun⟩ : ∃ rep, vmSyncFull plainExt socketTree ["t".toList] 7 oneRow = .ok rep
      (endState (vmSyncFull plainExt socketTree ["t".toList] 7) oneRow) :=
    exists_of_returns (by decide +kernel)
  have hreport : (match vmSyncFull plainExt socketTree ["t".toList] 7 oneRow with
      | .ok rep _ => rep.failed
      | .error _ _ => 1) = 0 := by decide +kernel
  rw [hrun] at hreport
  refine ⟨rep, _, hrun, hreport, fun h => ?_⟩
  have hrow : ((endState (vmSyncFull plainExt socketTree ["t".toList] 7) oneRow).fs.get?
      "/a".toList).isSome = true := by decide +kernel
  obtain ⟨row, hrow⟩ := Option.isSome_iff_exists.1 hrow
  -- No entry of the tree is one that the database is to hold.
  have hnone : ∀ loc node, ¬ Shown socketTree ["t".toList] loc node := by
    intro loc node hshown
    have hmem : (loc, node) ∈ [(["t".toList], Node.dir 0o755 true),
        (["t".toList, "a".toList], Node.special 0o644)] := Table.get?_eq_some_iff.1 hshown.there
    rcases List.mem_cons.1 hmem with he | hmem
    · have hbelow := hshown.below
      rw [(Prod.mk.inj he).1] at hbelow
      exact absurd hbelow (by decide)
    · exact hshown.kind _ (Prod.mk.inj (List.mem_singleton.1 hmem)).2
  rcases h.rows _ row hrow (by decide) with ⟨loc, node, hshown, -⟩ | ⟨-, loc, node, hshown, -⟩
  · exact hnone loc node hshown
  · exact hnone loc node hshown

end Exact

end Dbvm
