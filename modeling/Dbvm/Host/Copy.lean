import Dbvm.Host.Walk
import Dbvm.Host.Intact

/-!
# What the walk writes

`sync_report_impl` writes each entry of the tree at the VM path of its name, unless the entry is
taken for a link row that the materialize has placed there. After a sync that meets no error a path
that was written once has the row of its entry, or the row it had if that passed the comparison
(`Settled`); the other rows are gone or as they were (`Synced`).
-/

namespace Dbvm

open Lib Lib.Chunks Lib.Prog Lib.Posix

variable {K : Type} [DecidableEq K]

/-! ## Host paths -/

/-- The path of an entry of the tree at `tree`, its names as they are. -/
def hostPath (tree loc : Loc) : Str := ofNames (loc.drop tree.length)

/-- A tree as the kernel keeps it: every name is one, and the root is not an entry. -/
structure HostTree (fs : Fs) : Prop where
  /-- The names. -/
  names : ∀ loc node, fs.get? loc = some node → ∀ c ∈ loc, IsName c
  /-- The root. -/
  root : fs.get? [] = none

section Paths

variable {fs : Fs} {tree loc loc' : Loc} {node node' : Node}

/-- The locations of the rows decide whether a host tree is sound. -/
theorem HostTree.of_rows (hnames : ∀ r ∈ fs.rows, ∀ c ∈ r.1, IsName c) (hroot : fs.get? [] = none) :
    HostTree fs :=
  ⟨fun loc node hloc => hnames (loc, node) (Table.get?_eq_some_iff.1 hloc), hroot⟩

/-- The VM path of an entry is its path, normalised. -/
theorem vmPathOf_eq (hfs : HostTree fs) (hloc : fs.get? loc = some node)
    (hbelow : Loc.below tree loc = true) :
    vmPathOf tree loc = normalizeVmPath (hostPath tree loc) := by
  obtain ⟨ds, hds, rfl⟩ := Loc.below_iff.1 hbelow
  have hnames : ∀ c ∈ ds, IsName c := fun c hc => hfs.names _ _ hloc c (by simp [hc])
  obtain ⟨c, cs, rfl⟩ := List.exists_cons_of_ne_nil hds
  have hjoin := ofNames_eq_intercalate hds
  -- The text before the slash is put in front begins with a name.
  have htrim : trimStartSlashes (List.intercalate ['/'] (c :: cs)) = List.intercalate ['/']
    (c :: cs) := by
    have hname := hnames c (by simp)
    obtain ⟨x, c', rfl⟩ := List.exists_cons_of_ne_nil hname.ne_nil
    have hx : x ≠ '/' := fun hx => hname.no_slash (by simp [hx])
    rw [ofNames_cons, List.cons_append] at hjoin
    rw [← (List.cons.inj hjoin).2]
    exact List.dropWhile_cons_of_neg (by simpa using hx)
  unfold vmPathOf hostPath
  rw [List.drop_left, htrim, hjoin]

/-- Different entries have different paths. -/
theorem hostPath_inj (hfs : HostTree fs) (hloc : fs.get? loc = some node)
    (hbelow : Loc.below tree loc = true) (hloc' : fs.get? loc' = some node')
    (hbelow' : Loc.below tree loc' = true) (h : hostPath tree loc = hostPath tree loc') :
    loc = loc' := by
  obtain ⟨ds, hds, rfl⟩ := Loc.below_iff.1 hbelow
  obtain ⟨ds', hds', rfl⟩ := Loc.below_iff.1 hbelow'
  unfold hostPath at h
  rw [List.drop_left, List.drop_left] at h
  rw [ofNames_inj (fun c hc => hfs.names _ _ hloc c (by simp [hc]))
    (fun c hc => hfs.names _ _ hloc' c (by simp [hc])) h]

/-- A path that is not the VM path of its entry is longer than that. -/
theorem length_vmPathOf_lt (hfs : HostTree fs) (hloc : fs.get? loc = some node)
    (hbelow : Loc.below tree loc = true) (h : vmPathOf tree loc ≠ hostPath tree loc) :
    (vmPathOf tree loc).length < (hostPath tree loc).length := by
  have heq := vmPathOf_eq hfs hloc hbelow
  obtain ⟨ds, hds, rfl⟩ := Loc.below_iff.1 hbelow
  have hnames : ∀ c ∈ ds, IsName c := fun c hc => hfs.names _ _ hloc c (by simp [hc])
  rw [heq] at h ⊢
  unfold hostPath at h ⊢
  rw [List.drop_left] at h ⊢
  exact (normal_or_shorter hds hnames).resolve_left h

end Paths

/-! ## Rows that agree with an entry -/

section Agrees

variable {E : Ext K} {ctx : SyncCtx} {p : Str} {d d' : Db K} {node : Node}

/-- The row and the chunk rows of `p` are those of the entry. -/
def Agrees (E : Ext K) (d : Db K) (p : Str) : Node → Prop
  | .file data mode ns readable => (∃ row, d.fs.get? p = some row ∧ row.kind = .file ∧
      row.mode = hostMode (.file data mode ns readable) ∧ row.size = data.length ∧
      row.hash ≠ .null) ∧
      d.Chunked E p data
  | .dir mode listable => ∃ row, d.fs.get? p = some row ∧ row.kind = .dir ∧
      row.mode = hostMode (.dir mode listable)
  | .link t => ∃ row, d.fs.get? p = some row ∧ row.kind = .symlink ∧ row.mode = hostMode (.link t) ∧
      row.linkTarget = some t
  | .special _ => False

omit [DecidableEq K] in
/-- Only the rows of `p` count. -/
theorem Agrees.congr (h : Agrees E d p node) (hrow : d'.fs.get? p = d.fs.get? p)
    (hch : ∀ i, d'.chunks.get? (p, i) = d.chunks.get? (p, i)) : Agrees E d' p node := by
  cases node with
  | file data mode ns readable => exact ⟨by rw [hrow]; exact h.1, fun i => (hch i).trans (h.2 i)⟩
  | dir mode listable =>
    unfold Agrees
    rw [hrow]
    exact h
  | link t =>
    unfold Agrees
    rw [hrow]
    exact h
  | special mode => exact h

omit [DecidableEq K] in
/-- What the sync writes agrees. -/
theorem Mirrors.agrees (h : Mirrors E ctx d p node) : Agrees E d p node := by
  cases node with
  | file data mode ns readable => exact ⟨⟨_, h.1, rfl, rfl, rfl, by simp [fileRow]⟩, h.2⟩
  | dir mode listable => exact h
  | link t => exact h
  | special mode => exact h

/-- What the full sync leaves as it is agrees: the hash of the row is that of the host's content. -/
theorem agrees_of_current (hE : Function.Injective E.blobKey) (hverify : ctx.verifyContent = true)
    (hd : d.Honest E) (hdirty : d.dirty = []) (hkind : ∀ mode, node ≠ .special mode)
    (h : Current E ctx node ((d.fs.get? p).map fun r => r.toFsMeta) = true) :
    Agrees E d p node := by
  rcases hrow : d.fs.get? p with _ | row
  · rw [hrow] at h
    rcases node with _ | _ | _ | mode
    · cases h
    · cases h
    · cases h
    · exact absurd rfl (hkind mode)
  rw [hrow, Option.map_some] at h
  -- The kinds agree. Of a file the hash is current too, so the content is the one on the host.
  cases node with
  | file data mode ns readable =>
    simp only [Current, Bool.and_eq_true, decide_eq_true_iff, hverify, Bool.not_true,
      Bool.false_or] at h
    obtain ⟨⟨hk, ⟨⟨hsize, -⟩, hmode⟩, -⟩, hhash⟩ := h
    obtain ⟨b, hb, hkey⟩ := (hd p row hrow hk).2 (by rw [hdirty]; simp) _ hhash
    have hdata : data = b := hE hkey
    exact ⟨⟨row, hrow, hk, hmode, hsize, by rw [hhash]; simp⟩, by rw [hdata]; exact hb.chunks⟩
  | dir mode listable =>
    simp only [Current, Bool.and_eq_true, decide_eq_true_iff] at h
    exact ⟨row, hrow, h⟩
  | link t =>
    simp only [Current, Bool.and_eq_true, decide_eq_true_iff] at h
    exact ⟨row, hrow, h.1.1, h.2, h.1.2⟩
  | special mode => exact absurd rfl (hkind mode)

/-- The row has the kind, the mode, the content and the target of the entry. -/
def SameAs (E : Ext K) (d : Db K) (p : Str) : Node → Prop
  | .file data mode ns readable => ∃ row, d.fs.get? p = some row ∧ row.kind = .file ∧
      row.mode = hostMode (.file data mode ns readable) ∧ fileBytes E d p = .ok data
  | .dir mode listable => ∃ row, d.fs.get? p = some row ∧ row.kind = .dir ∧
      row.mode = hostMode (.dir mode listable)
  | .link t => ∃ row, d.fs.get? p = some row ∧ row.kind = .symlink ∧ row.mode = hostMode (.link t) ∧
      row.linkTarget = some t
  | .special _ => False

/-- In a sound database the rows say what is read. -/
theorem Agrees.sameAs (h : Agrees E d p node) (hE : Function.Injective E.blobKey) (hs : Sound E d) :
    SameAs E d p node := by
  cases node with
  | file data mode ns readable =>
    obtain ⟨⟨row, hrow, hk, hmode, hsize, hnull⟩, hch⟩ := h
    exact ⟨row, hrow, hk, hmode, fileBytes_of_holds (hs.holds hE ⟨row, hrow, hk, hsize, hnull⟩ hch)⟩
  | dir mode listable => exact h
  | link t => exact h
  | special mode => exact h

/-- What is the same as a node is there. -/
theorem SameAs.has (h : SameAs E d p node) : d.fs.has p = true := by
  rw [Table.has_eq_true]
  cases node with
  | file data mode ns readable => exact ⟨h.choose, h.choose_spec.1⟩
  | dir mode listable => exact ⟨h.choose, h.choose_spec.1⟩
  | link t => exact ⟨h.choose, h.choose_spec.1⟩
  | special mode => exact absurd h (by simp [SameAs])

end Agrees

/-! ## What the walk copies -/

section Copied

variable {E : Ext K} {ctx : SyncCtx} {tree : Loc} {aliases : List (Str × Str)} {d₁ d d' : Db K}

/-- The row an entry is written to. -/
def copyTarget (tree : Loc) (aliases : List (Str × Str)) (e : Option (Loc × Node)) :
    Option (Str × Node) :=
  (syncTarget tree aliases e).filter fun r => !(r.2 matches .special _)

/-- What has become of the row of an entry: it passed the comparison and is as it was, or it was
written. -/
def Settled (E : Ext K) (ctx : SyncCtx) (d₁ d : Db K) (p : Str) (node : Node) : Prop :=
  (Current E ctx node ((d₁.fs.get? p).map fun r => r.toFsMeta) = true ∧ d.fs.get? p = d₁.fs.get? p ∧
    ∀ i, d.chunks.get? (p, i) = d₁.chunks.get? (p, i)) ∨ Mirrors E ctx d p node

omit [DecidableEq K] in
/-- Whether a row mirrors a node depends on the row and its chunks. -/
theorem Mirrors.congr {p : Str} {node : Node} (h : Mirrors E ctx d p node)
    (hrow : d'.fs.get? p = d.fs.get? p) (hch : ∀ i, d'.chunks.get? (p, i) = d.chunks.get? (p, i)) :
    Mirrors E ctx d' p node := by
  cases node with
  | file data mode ns readable => exact ⟨hrow.trans h.1, fun i => (hch i).trans (h.2 i)⟩
  | dir mode listable =>
    unfold Mirrors
    rw [hrow]
    exact h
  | link t =>
    unfold Mirrors
    rw [hrow]
    exact h
  | special mode => exact h

/-- Only the rows of `p` count. -/
theorem Settled.congr {p : Str} {node : Node} (h : Settled E ctx d₁ d p node)
    (hrow : d'.fs.get? p = d.fs.get? p) (hch : ∀ i, d'.chunks.get? (p, i) = d.chunks.get? (p, i)) :
    Settled E ctx d₁ d' p node := by
  rcases h with ⟨hcur, hsame, hchunks⟩ | hm
  · exact Or.inl ⟨hcur, hrow.trans hsame, fun i => (hch i).trans (hchunks i)⟩
  · exact Or.inr (hm.congr hrow hch)

/-- One entry, compared with the row it has. -/
theorem settled_of_syncOne (hundo : ctx.undo = none) {p : Str} {node : Node} {res : Option Bool}
    (hrun : syncOne E ctx node p ((d.fs.get? p).map fun r => r.toFsMeta) d = .ok res d') :
    Settled E ctx d d' p node ∧ (∀ q, q ≠ p → d'.fs.get? q = d.fs.get? q) ∧
      ∀ q i, q ≠ p → d'.chunks.get? (q, i) = d.chunks.get? (q, i) := by
  have hone := syncsOne E hundo node p ((d.fs.get? p).map fun r => r.toFsMeta) d
  unfold SyncsOne at hone
  rw [hrun] at hone
  cases hone with
  | kept hcur => exact ⟨Or.inl ⟨hcur rfl, rfl, fun _ => rfl⟩, fun _ _ => rfl, fun _ _ _ => rfl⟩
  | written b _ hW hfs hch => exact ⟨Or.inr (hW.2 rfl).2.2, hfs, hch⟩

/-- The rows at other paths, whatever the entry was compared with. -/
theorem syncOne_frame (hundo : ctx.undo = none) {p : Str} {node : Node} {prev : Option (FsMeta K)}
    {res : Option Bool} (hrun : syncOne E ctx node p prev d = .ok res d') :
    (∀ q, q ≠ p → d'.fs.get? q = d.fs.get? q) ∧
      ∀ q i, q ≠ p → d'.chunks.get? (q, i) = d.chunks.get? (q, i) := by
  have hone := syncsOne E hundo node p prev d
  unfold SyncsOne at hone
  rw [hrun] at hone
  cases hone with
  | kept _ => exact ⟨fun _ _ => rfl, fun _ _ _ => rfl⟩
  | written b _ _ hfs hch => exact ⟨hfs, hch⟩

/-- The walk has written the entries `done`, one after the other. Other rows are as they were, and
if no path is written twice every entry has its row. -/
structure Copied (E : Ext K) (ctx : SyncCtx) (d₁ : Db K) (done : List (Str × Node)) (d : Db K) :
    Prop where
  /-- The other rows. -/
  rows : ∀ q, q ∉ done.map Prod.fst → d.fs.get? q = d₁.fs.get? q
  /-- Their chunks. -/
  chunks : ∀ q i, q ∉ done.map Prod.fst → d.chunks.get? (q, i) = d₁.chunks.get? (q, i)
  /-- The entries. -/
  settled : (done.map Prod.fst).Nodup → ∀ r ∈ done, Settled E ctx d₁ d r.1 r.2

/-- Nothing is copied yet. -/
theorem Copied.refl (E : Ext K) (ctx : SyncCtx) (d : Db K) : Copied E ctx d [] d :=
  ⟨fun _ _ => rfl, fun _ _ _ => rfl, by simp⟩

/-- One more entry is copied when its `sync_one` returns. -/
theorem Copied.one (hundo : ctx.undo = none) {done : List (Str × Node)} {p : Str} {node : Node}
    (h : Copied E ctx d₁ done d) {res : Option Bool}
    (hrun : syncOne E ctx node p ((d₁.fs.get? p).map fun r => r.toFsMeta) d = .ok res d') :
    Copied E ctx d₁ (done ++ [(p, node)]) d' := by
  obtain ⟨hfs, hch⟩ := syncOne_frame hundo hrun
  have hmap : (done ++ [(p, node)]).map Prod.fst = done.map Prod.fst ++ [p] := by simp
  refine ⟨fun q hq => ?_, fun q i hq => ?_, fun hnd r hr => ?_⟩
  · rw [hmap, List.mem_append, not_or, List.mem_singleton] at hq
    rw [hfs q hq.2, h.rows q hq.1]
  · rw [hmap, List.mem_append, not_or, List.mem_singleton] at hq
    rw [hch q i hq.2, h.chunks q i hq.1]
  · rw [hmap] at hnd
    have hfresh : p ∉ done.map Prod.fst := fun hp => List.disjoint_of_nodup_append hnd hp (by simp)
    rcases List.mem_append.1 hr with hr | hr
    · have hne : r.1 ≠ p := fun he => hfresh (by rw [← he]; exact List.mem_map.2 ⟨r, hr, rfl⟩)
      exact (h.settled (List.nodup_append.1 hnd).1 r hr).congr (hfs r.1 hne) fun i => hch r.1 i hne
    · -- A path that is new here still has the row it was compared with.
      rw [List.mem_singleton.1 hr]
      rw [← h.rows p hfresh] at hrun
      rcases (settled_of_syncOne hundo hrun).1 with ⟨hcur, hsame, hchunks⟩ | hm
      · rw [h.rows p hfresh] at hcur hsame
        exact Or.inl ⟨hcur, hsame, fun i => (hchunks i).trans (h.chunks p i hfresh)⟩
      · exact Or.inr hm

/-- What is compared and written, or fails. -/
theorem copyTarget_of_some {e : Option (Loc × Node)} {p : Str} {node : Node}
    (htarget : syncTarget tree aliases e = some (p, node)) (hkind : ∀ mode, node ≠ .special mode) :
    copyTarget tree aliases e = some (p, node) := by
  rw [copyTarget, htarget, Option.filter_some, if_pos]
  rcases node with _ | _ | _ | mode
  · rfl
  · rfl
  · rfl
  · exact absurd rfl (hkind mode)

/-- One entry of the walk: it fails, or it is written. -/
theorem Copied.step (seen : List Str) (e : Option (Loc × Node)) (hundo : ctx.undo = none)
    {done : List (Option (Loc × Node))} {rep : SyncReport}
    (h : rep.failed = 0 → none ∉ done ∧
      Copied E ctx d₁ (done.filterMap (copyTarget tree aliases)) d) :
    ∃ st d', syncEntry E ctx tree d₁.fs aliases (seen, rep) e d = .ok st d' ∧
      st.1 = seenStep tree aliases seen e ∧ (st.2.failed = 0 → none ∉ done ++ [e] ∧
        Copied E ctx d₁ ((done ++ [e]).filterMap (copyTarget tree aliases)) d') := by
  -- An entry that is not taken changes nothing; one that is taken goes through `sync_one`, whose
  -- failure is counted.
  rcases htarget : syncTarget tree aliases e with _ | ⟨p, node⟩
  · have hcopy : copyTarget tree aliases e = none := by
      rw [copyTarget, htarget]
      rfl
    refine ⟨_, d, syncEntry_of_none htarget d, rfl, fun hfailed => ?_⟩
    rcases e with _ | e
    · cases hfailed
    · obtain ⟨hnone, hc⟩ := h hfailed
      refine ⟨by simp [hnone], ?_⟩
      rw [List.filterMap_append, List.filterMap_cons, hcopy, List.filterMap_nil, List.append_nil]
      exact hc
  · have hrun := syncEntry_of_some E ctx d₁.fs seen rep htarget
    have hsome : e ≠ none := by
      rintro rfl
      cases htarget
    rcases hres : syncOne E ctx node p ((d₁.fs.get? p).map fun r => r.toFsMeta) d with ⟨res,
      d'⟩ | ⟨err, d'⟩
    · refine ⟨_, d', by rw [hrun, bind_of_ok (attempt_of_ok hres)]; rfl, rfl, fun hfailed => ?_⟩
      have hrep : rep.failed = 0 := by
        rcases res with _ | _ | _
        · exact hfailed
        · exact hfailed
        · exact hfailed
      obtain ⟨hnone, hc⟩ := h hrep
      refine ⟨by simp [hnone, hsome.symm], ?_⟩
      rw [List.filterMap_append, List.filterMap_cons, List.filterMap_nil]
      by_cases hkind : ∃ mode, node = .special mode
      · -- A socket is not stored.
        obtain ⟨mode, rfl⟩ := hkind
        have hcopy : copyTarget tree aliases e = none := by
          rw [copyTarget, htarget]
          rfl
        have hd' : d' = d := by
          cases hres
          rfl
        rw [hcopy, hd', List.append_nil]
        exact hc
      · rw [copyTarget_of_some htarget fun mode hm => hkind ⟨mode, hm⟩]
        exact hc.one hundo hres
    · refine ⟨_, d', by rw [hrun, bind_of_ok (attempt_of_error hres)]; rfl, rfl, fun hfailed => ?_⟩
      cases hfailed

/-- What a sync of the tree without failures leaves: the rows it has not written stay or are
deleted, and the entries it has written are settled, unless a path was written twice. -/
structure Synced (E : Ext K) (ctx : SyncCtx) (d₁ : Db K) (fs : Fs) (tree : Loc) (d' : Db K) :
    Prop where
  /-- The walk meets every entry. -/
  walk : none ∉ walk fs tree
  /-- The other rows. -/
  rows : ∀ q, q ∉ ((Posix.walk fs tree).filterMap (copyTarget tree (linkAliases d₁.links))).map
    Prod.fst →
    d'.fs.get? q = if q ∈ d₁.gone fs tree then none else d₁.fs.get? q
  /-- Their chunks. -/
  chunks : ∀ q i, q ∉ ((Posix.walk fs tree).filterMap (copyTarget tree (linkAliases d₁.links))).map
    Prod.fst →
    q ∉ d₁.gone fs tree → d'.chunks.get? (q, i) = d₁.chunks.get? (q, i)
  /-- The entries. -/
  settled :
    (((Posix.walk fs tree).filterMap (copyTarget tree (linkAliases d₁.links))).map Prod.fst).Nodup →
    ∀ r ∈ (Posix.walk fs tree).filterMap (copyTarget tree (linkAliases d₁.links)),
    Settled E ctx d₁ d' r.1 r.2

/-- What counts as seen: the links that are served by another row, and what the entries stand for.
-/
theorem mem_foldl_seenStep {q : Str} : ∀ (es : List (Option (Loc × Node))) {seen : List Str},
    q ∈ es.foldl (seenStep tree aliases) seen ↔
      q ∈ seen ∨ ∃ e ∈ es, q ∈ seenStep tree aliases [] e
  | [], seen => by simp
  | e :: es, seen => by
    have hstep : seenStep tree aliases seen e = seenStep tree aliases [] e ++ seen := by
      unfold seenStep
      split
      · rfl
      · split_ifs
        · rfl
        · split
          · rfl
          · rfl
    rw [List.foldl_cons, mem_foldl_seenStep es, hstep, List.mem_append]
    simp only [List.mem_cons, exists_eq_or_imp]
    tauto

/-- What is copied is taken by a sync. -/
theorem syncTarget_of_copyTarget {e : Option (Loc × Node)} {r : Str × Node}
    (h : copyTarget tree aliases e = some r) : syncTarget tree aliases e = some r := by
  rw [copyTarget, Option.filter_eq_some_iff] at h
  exact h.1

/-- The sync of a tree, once the hashes are computed. -/
theorem synced_of_syncBody (hundo : ctx.undo = none) {fs : Fs} {rep : SyncReport}
    (hrun : syncBody E ctx fs tree d₁ = .ok rep d') (hfailed : rep.failed = 0) :
    Synced E ctx d₁ fs tree d' := by
  obtain ⟨st, d, hwalk, done, hdone, hseen, hcopied⟩ := foldlM_total
    (f := syncEntry E ctx tree d₁.fs (linkAliases d₁.links))
    (J := fun rest st c => ∃ done, walk fs tree = done ++ rest ∧
      st.1 = done.foldl (seenStep tree (linkAliases d₁.links))
      (d₁.servedLinks (linkAliases d₁.links)) ∧
      (st.2.failed = 0 → none ∉ done ∧
        Copied E ctx d₁ (done.filterMap (copyTarget tree (linkAliases d₁.links))) c))
    (by
      rintro e rest ⟨seen, rep⟩ c ⟨done, hes, hseen, hc⟩
      obtain ⟨st, c', hrun, hst, hc'⟩ := Copied.step seen e hundo hc
      refine ⟨st, c', hrun, done ++ [e], by simp [hes], ?_, hc'⟩
      have hseen' : seen = _ := hseen
      rw [hst, hseen', List.foldl_append]
      rfl) (walk fs tree) (b := (d₁.servedLinks (linkAliases d₁.links), {})) (s := d₁)
    ⟨[], rfl, rfl, fun _ => ⟨by simp, Copied.refl E ctx d₁⟩⟩
  rw [List.append_nil] at hdone
  rw [← hdone] at hseen hcopied
  rw [syncBody_eq, bind_of_ok hwalk] at hrun
  obtain ⟨hrows, hchunks, hrep⟩ := syncDeletes_ok hundo _ hrun
  simp only [List.mem_insertionSort] at hrows hchunks
  have hgone : ((d₁.fs.rows.map Prod.fst).filter fun p => !isReservedVmPath p && p ∉ st.1) =
      d₁.gone fs tree := by
    rw [hseen]
    rfl
  rw [hgone] at hrows hchunks
  obtain ⟨hnone, hc⟩ := hcopied (hrep.symm.trans hfailed)
  refine ⟨hnone, fun q hq => by rw [hrows, hc.rows q hq], fun q i hq hk => ?_, fun hnd r hr => ?_⟩
  · rw [hchunks q i hk, hc.chunks q i hq]
  -- What is written counts as seen, and is not deleted.
  have hkept : r.1 ∉ d₁.gone fs tree := by
    intro hmem
    obtain ⟨e, he, htarget⟩ := List.mem_filterMap.1 hr
    have hmem := (List.mem_filter.1 hmem).2
    simp only [Bool.and_eq_true, decide_eq_true_iff] at hmem
    refine hmem.2 ?_
    unfold Db.seen
    rw [mem_foldl_seenStep]
    have hsync : syncTarget tree (linkAliases d₁.links) e = some (r.1, r.2) :=
      syncTarget_of_copyTarget htarget
    exact Or.inr ⟨e, he, mem_seenStep_of_target hsync⟩
  refine (hc.settled hnd r hr).congr ?_ fun i => hchunks r.1 i hkept
  rw [hrows, if_neg hkept]

end Copied

/-! ## Rows and their entries -/

section Shown

variable {fs : Fs} {tree loc loc' : Loc} {node node' : Node} {d d' : Db K}

/-- An entry that the database is to hold: a file, a directory or a link, not at a reserved path. -/
structure Shown (fs : Fs) (tree loc : Loc) (node : Node) : Prop where
  /-- It is there. -/
  there : fs.get? loc = some node
  /-- It is below the tree. -/
  below : Loc.below tree loc = true
  /-- It is not a socket or a device. -/
  kind : ∀ mode, node ≠ .special mode
  /-- Its path is not reserved. -/
  free : isReservedVmPath (vmPathOf tree loc) = false

/-- The row of a link that the materialize has placed at the path of this one. -/
def Db.aliasOf (d : Db K) (tree loc : Loc) : Node → Option Str
  | .link _ => (linkAliases d.links).lookup (vmPathOf tree loc)
  | _ => none

/-- The path of the row that stands for an entry: that of the link it is taken for, or its own. -/
def Db.rowOf (d : Db K) (tree loc : Loc) (node : Node) : Str :=
  (d.aliasOf tree loc node).getD (hostPath tree loc)

omit [DecidableEq K] in
/-- An entry is written when it is not a socket, not at a reserved path and not taken for another
link. -/
theorem copyTarget_eq_some {r : Str × Node} :
    copyTarget tree (linkAliases d.links) (some (loc, node)) = some r ↔
      (∀ mode, node ≠ .special mode) ∧ isReservedVmPath (vmPathOf tree loc) = false ∧
        d.aliasOf tree loc node = none ∧ r = (vmPathOf tree loc, node) := by
  unfold copyTarget syncTarget Db.aliasOf
  dsimp only
  rcases hres : isReservedVmPath (vmPathOf tree loc) with _ | _
  · rw [if_neg (by simp)]
    rcases node with _ | _ | t | mode
    · rw [Option.filter_some, if_pos (by simp)]
      simp [eq_comm]
    · rw [Option.filter_some, if_pos (by simp)]
      simp [eq_comm]
    · rcases (linkAliases d.links).lookup (vmPathOf tree loc) with _ | row
      · rw [Option.filter_some, if_pos (by simp)]
        simp [eq_comm]
      · simp
    · rw [Option.filter_some, if_neg (by simp)]
      simp
  · simp

omit [DecidableEq K] in
/-- What is written: the entries that have a row of their own, at their VM paths. -/
theorem mem_copies (hfs : HostTree fs) (hwalk : none ∉ walk fs tree) {q : Str} :
    (q, node) ∈ (walk fs tree).filterMap (copyTarget tree (linkAliases d.links)) ↔
      ∃ loc, Shown fs tree loc node ∧ d.aliasOf tree loc node = none ∧ q = vmPathOf tree loc := by
  rw [List.mem_filterMap]
  constructor
  · rintro ⟨_ | ⟨loc, node'⟩, he, htarget⟩
    · exact absurd he hwalk
    · obtain ⟨hget, hbelow⟩ := (mem_walk hfs.root hwalk).1 he
      obtain ⟨hkind, hfree, halias, hr⟩ := copyTarget_eq_some.1 htarget
      obtain ⟨rfl, rfl⟩ := Prod.mk.inj hr
      exact ⟨loc, ⟨hget, hbelow, hkind, hfree⟩, halias, rfl⟩
  · rintro ⟨loc, hs, halias, rfl⟩
    exact ⟨some (loc, node), (mem_walk hfs.root hwalk).2 ⟨hs.there, hs.below⟩,
      copyTarget_eq_some.2 ⟨hs.kind, hs.free, halias, rfl⟩⟩

variable {d₁ : Db K}

omit [DecidableEq K] in
/-- The row that an entry shares depends on the shape only. -/
theorem rowOf_of_shape (h : d₁.shape = d.shape) (loc : Loc) (node : Node) :
    d₁.aliasOf tree loc node = d.aliasOf tree loc node := by
  unfold Db.aliasOf
  rw [links_of_shape h]

omit [DecidableEq K] in
/-- The rows that a sync removes depend on the shape only. -/
theorem gone_of_shape (h : d₁.shape = d.shape) : d₁.gone fs tree = d.gone fs tree := by
  unfold Db.gone Db.seen
  rw [links_of_shape h, servedLinks_of_shape h, paths_of_shape h]

omit [DecidableEq K] in
/-- What an entry that is walked counts as seen. -/
theorem mem_seenStep_iff {q : Str} :
    q ∈ seenStep tree (linkAliases d.links) [] (some (loc, node)) ↔
      isReservedVmPath (vmPathOf tree loc) = false ∧
        q = (d.aliasOf tree loc node).getD (vmPathOf tree loc) := by
  unfold seenStep Db.aliasOf
  dsimp only
  split_ifs with hres
  · simp [hres]
  · have hfree : isReservedVmPath (vmPathOf tree loc) = false := by simpa using hres
    rw [and_iff_right hfree]
    rcases node with _ | _ | t | _
    · simp
    · simp
    · rcases (linkAliases d.links).lookup (vmPathOf tree loc) with _ | row
      · simp
      · simp
    · simp

omit [DecidableEq K] in
/-- A row that is not written stays when it counts as seen. -/
theorem not_mem_gone_iff {q : Str} (hq : d.fs.has q = true) (hres : isReservedVmPath q = false) :
    q ∉ d.gone fs tree ↔ q ∈ d.servedLinks (linkAliases d.links) ∨
      ∃ e ∈ walk fs tree, q ∈ seenStep tree (linkAliases d.links) [] e := by
  have hkey : q ∈ d.fs.rows.map Prod.fst := Table.mem_keys_iff.2 (Table.has_eq_true.1 hq)
  unfold Db.gone
  rw [List.mem_filter]
  simp only [hkey, hres, true_and, Bool.not_false, Bool.true_and, decide_eq_true_eq, not_not]
  unfold Db.seen
  rw [mem_foldl_seenStep]

omit [DecidableEq K] in
/-- Under distinct VM paths no row is written twice. -/
theorem nodup_copies (hfs : HostTree fs) (hwalk : none ∉ walk fs tree)
    (hinj : ∀ loc node loc' node', Shown fs tree loc node → Shown fs tree loc' node' →
      d.aliasOf tree loc node = none → d.aliasOf tree loc' node' = none →
      vmPathOf tree loc = vmPathOf tree loc' → loc = loc') :
    (((walk fs tree).filterMap (copyTarget tree (linkAliases d.links))).map Prod.fst).Nodup := by
  rw [List.Nodup, List.pairwise_map, List.pairwise_filterMap]
  refine (walk_pairwise fs tree).imp_of_mem fun {a b} ha hb hne r hr r' hr' he => ?_
  rcases a with _ | ⟨loc₁, node₁⟩
  · cases hr
  rcases b with _ | ⟨loc₂, node₂⟩
  · cases hr'
  obtain ⟨hget₁, hbelow₁⟩ := (mem_walk hfs.root hwalk).1 ha
  obtain ⟨hget₂, hbelow₂⟩ := (mem_walk hfs.root hwalk).1 hb
  obtain ⟨hkind₁, hfree₁, halias₁, hr₁⟩ := copyTarget_eq_some.1 hr
  obtain ⟨hkind₂, hfree₂, halias₂, hr₂⟩ := copyTarget_eq_some.1 hr'
  rw [hr₁, hr₂] at he
  dsimp only at he
  exact hne _ _ rfl rfl (hinj loc₁ node₁ loc₂ node₂ ⟨hget₁, hbelow₁, hkind₁, hfree₁⟩
    ⟨hget₂, hbelow₂, hkind₂, hfree₂⟩ halias₁ halias₂ he)

end Shown

end Dbvm
