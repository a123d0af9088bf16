import Dbvm.FuseMount
import Dbvm.Tree

/-!
# The mount and the rows

A mount reads the rows once, when it starts, and from then on answers from its node table. `Mirrors`
says that the table still shows the rows: the entries are the rows, each under its path, with the
kind, the permission bits and the size that the row has. The root stands for itself, since `rebuild`
takes only its times from the row.

`Upright` says of the rows alone that they are a tree of directories: then a mount of them starts
and mirrors them, in whatever order the second pass takes its nodes (`Upright.mirrors`). Rows that a
mount mirrors are upright (`Mirrors.upright`), and so the next mount shows them again.
-/

namespace Dbvm.VmFuse

open Dbvm Lib Lib.Prog Lib.Forest

variable {K : Type} [DecidableEq K] {fs : Table Str (FsRow K)} {links : List (Str × Str)}
  {order : List ℕ} {nodes : Table ℕ Node}

/-! ## What is shown -/

/-- What a mount shows of an entry. -/
structure Look where
  /-- File, directory or link. -/
  kind : Kind
  /-- The permission bits. -/
  perm : ℕ
  /-- The size. -/
  size : ℕ
deriving DecidableEq

/-- What a node shows. -/
def Attr.look (a : Attr) : Look := ⟨a.kind, a.perm, a.size⟩

/-- What a row is shown as. -/
def lookOf (row : FsRow K) : Look := ⟨row.kind, (row.mode % 0o10000).toNat, sizeOf row⟩

/-- The node table shows the rows. -/
structure Mirrors (nodes : Table ℕ Node) (fs : Table Str (FsRow K)) : Prop where
  /-- The root is the root of the database. -/
  top : ∀ n, nodes.get? rootIno = some n → n.dbPath = root
  /-- The attributes name the node. -/
  number : ∀ i n, nodes.get? i = some n → n.attr.ino = i
  /-- The path of an entry is its directory's with its name, in the mount and in the database. -/
  path : ∀ p n x c m, nodes.get? p = some n → n.children.get? x = some c → nodes.get? c = some m →
    m.view = join n.view x ∧ m.dbPath = m.view ∧ Normal m.view
  /-- An entry shows its row. -/
  row : ∀ i n, nodes.get? i = some n → i ≠ rootIno → ∃ row, fs.get? n.view = some row ∧
    n.attr.look = lookOf row
  /-- Every row is shown. -/
  node : ∀ p row, fs.get? p = some row → p ≠ root → ∃ i n, nodes.get? i = some n ∧ n.view = p
  /-- Links have targets. -/
  target : ∀ p row, fs.get? p = some row → row.kind = .symlink → row.linkTarget ≠ none

/-- The rows are a tree of directories, at normal paths. -/
structure Upright (fs : Table Str (FsRow K)) : Prop where
  /-- The paths. -/
  normal : ∀ p row, fs.get? p = some row → Normal p
  /-- Above a row is a directory. -/
  above : ∀ p row, fs.get? p = some row → p ≠ root → Dbvm.parentOf p ≠ root →
    ∃ d, fs.get? (Dbvm.parentOf p) = some d ∧ d.kind = .dir
  /-- Links have targets. -/
  target : ∀ p row, fs.get? p = some row → row.kind = .symlink → row.linkTarget ≠ none

/-! ## Paths -/

/-- The root is normal. -/
theorem normal_root : Normal root := by decide

/-- Joining a name to a directory is one more name. -/
theorem join_pathOf {dir : List Str} {c : Str} (h : ∀ d ∈ dir, IsName d) :
    join (pathOf dir) c = ofNames (dir ++ [c]) :=
  child_pathOf h

/-- The parent of a path with one more name. -/
theorem parentOf_join {d x : Str} (hx : IsName x) (hd : d ≠ []) : Dbvm.parentOf (join d x) = d := by
  rw [join_eq, parentOf_concat hx.no_slash hx.ne_nil]
  unfold stem
  by_cases hroot : d = root
  · rw [if_pos hroot, if_pos rfl, hroot]
  · rw [if_neg hroot, if_neg hd]

/-- The file name of a joined path is the name. -/
theorem fileName_join {d x : Str} (hx : IsName x) : fileName (join d x) = x := by
  rw [join_eq, fileName_append hx.no_slash]

/-- A joined path is not the root. -/
theorem join_ne_root {d x : Str} (hx : IsName x) : join d x ≠ root := by
  intro h
  have hlen := congrArg List.length h
  have hpos : 0 < x.length := List.length_pos_iff.2 hx.ne_nil
  have hone : root.length = 1 := rfl
  rw [join_eq, List.length_append, List.length_cons] at hlen
  omega

/-- A normal path is that of its parent with its name. -/
theorem join_parentOf {v : Str} (hv : Normal v) (hne : v ≠ root) :
    IsName (fileName v) ∧ join (Dbvm.parentOf v) (fileName v) = v := by
  rcases hv.split with rfl | ⟨dir, c, hnames, rfl⟩
  · exact absurd rfl hne
  · have hdir : ∀ d ∈ dir, IsName d := fun d hd => hnames d (List.mem_append_left _ hd)
    rw [fileName_concat hnames, Dbvm.parentOf, pathParent_concat hnames, Option.getD_some,
      join_pathOf hdir]
    exact ⟨hnames c (by simp), rfl⟩

/-- The directory of a path, as the second pass asks for it. -/
theorem parentOf_eq {v : Str} (h : Normal (Dbvm.parentOf v)) : parentOf v = Dbvm.parentOf v := h

/-! ## Upright rows -/

namespace Upright

variable (h : Upright fs)

include h

omit [DecidableEq K] in
/-- The parent of a row's path is normal. -/
theorem normal_parentOf {p : Str} {row : FsRow K} (hrow : fs.get? p = some row) (hp : p ≠ root) :
    Normal (Dbvm.parentOf p) := by
  by_cases hroot : Dbvm.parentOf p = root
  · rw [hroot]
    exact normal_root
  · obtain ⟨d, hd, -⟩ := h.above p row hrow hp hroot
    exact h.normal _ d hd

omit [DecidableEq K] in
/-- All that is above a row is a directory. The induction is on the names of the directories. -/
theorem dirs (dir : List Str) :
    ∀ c, (∀ d ∈ dir ++ [c], IsName d) → (∃ row, fs.get? (ofNames (dir ++ [c])) = some row) →
    ∀ e, e ≠ [] → e <+: dir → ∃ d, fs.get? (ofNames e) = some d ∧ d.kind = .dir := by
  induction dir using List.reverseRecOn with
  | nil => exact fun _ _ _ e hne he => absurd (List.prefix_nil.1 he) hne
  | append_singleton dir b ih =>
    intro c hnames hrow e hne he
    obtain ⟨row, hrow⟩ := hrow
    have hdir : ∀ d ∈ dir ++ [b], IsName d := fun d hd => hnames d (List.mem_append_left _ hd)
    have hparent : Dbvm.parentOf (ofNames (dir ++ [b] ++ [c])) = ofNames (dir ++ [b]) := by
      rw [Dbvm.parentOf, pathParent_concat hnames, Option.getD_some, pathOf_concat]
    obtain ⟨d, hd, hkind⟩ :=
      h.above _ row hrow (ofNames_ne_root hnames) (by rw [hparent]; exact ofNames_ne_root hdir)
    rw [hparent] at hd
    rcases List.prefix_concat_iff.1 he with rfl | he
    · exact ⟨d, hd, hkind⟩
    · exact ih b hdir ⟨d, hd⟩ e hne he

omit [DecidableEq K] in
/-- The links of upright rows have targets, and each is at the path of its row. -/
theorem exists_links : ∃ links, linkRows fs = some links ∧ (links.map Prod.fst).Nodup ∧
    ∀ l ∈ links, ∃ row, fs.get? l.1 = some row ∧ row.kind = .symlink := by
  -- Every link has a target, so the collection does not stop.
  have hmapM : ∀ rows : List (Str × FsRow K), (∀ r ∈ rows, r.2.linkTarget ≠ none) →
      ∃ ls, (rows.mapM fun r => r.2.linkTarget.map fun t => (r.1, t)) = some ls ∧
      ls.map Prod.fst = rows.map Prod.fst := by
    intro rows hrows
    induction rows with
    | nil => exact ⟨[], rfl, rfl⟩
    | cons r rows ih =>
      obtain ⟨ls, hls, hkeys⟩ := ih fun r' hr' => hrows r' (List.mem_cons_of_mem _ hr')
      obtain ⟨t, ht⟩ := Option.ne_none_iff_exists'.1 (hrows r List.mem_cons_self)
      refine ⟨(r.1, t) :: ls, ?_, by rw [List.map_cons, List.map_cons, hkeys]⟩
      rw [List.mapM_cons, hls, ht]
      rfl
  have hmem : ∀ r ∈ fs.rows.filter fun r => r.2.kind = .symlink, fs.get? r.1 = some r.2 ∧
    r.2.kind = .symlink := by
    intro r hr
    rw [List.mem_filter, decide_eq_true_eq] at hr
    exact ⟨Table.get?_eq_some_iff.2 hr.1, hr.2⟩
  obtain ⟨ls, hls, hkeys⟩ := hmapM _ fun r hr => h.target r.1 r.2 (hmem r hr).1 (hmem r hr).2
  refine ⟨ls, hls, ?_, fun l hl => ?_⟩
  · rw [hkeys]
    exact fs.nodup.sublist (List.filter_sublist.map _)
  · have hl' : l.1 ∈ ls.map Prod.fst := List.mem_map_of_mem hl
    rw [hkeys] at hl'
    obtain ⟨r, hr, heq⟩ := List.mem_map.1 hl'
    rw [← heq]
    exact ⟨r.2, hmem r hr⟩

end Upright

/-- What holds of the links of a table. -/
structure LinksOf (fs : Table Str (FsRow K)) (links : List (Str × Str)) : Prop where
  /-- The query. -/
  query : linkRows fs = some links
  /-- A path has one target. -/
  nodup : (links.map Prod.fst).Nodup
  /-- They are rows. -/
  row : ∀ l ∈ links, ∃ row, fs.get? l.1 = some row ∧ row.kind = .symlink

namespace Upright

variable (h : Upright fs) (hl : LinksOf fs links)

include h hl

omit [DecidableEq K] in
/-- A row is shown at its own path. -/
theorem viewOf_eq {p : Str} {row : FsRow K} (hrow : fs.get? p = some row) : viewOf p links = p := by
  have hmap : rebuildLinkMap links = links := VmLinks.rebuildLinkMap_eq
    ⟨links, fun l hlm => by obtain ⟨r, hr, -⟩ := hl.row l hlm; exact h.normal _ r hr, hl.nodup⟩
  unfold viewOf
  rw [hmap]
  rcases (h.normal p row hrow).split with rfl | ⟨dir, c, hnames, rfl⟩
  · rfl
  · -- the directories on the way are no links
    have hnone : ∀ e, e ≠ [] → e <+: dir → links.lookup (ofNames ([] ++ e)) = none := by
      intro e hne he
      obtain ⟨d, hd, hkind⟩ := h.dirs dir c hnames ⟨row, hrow⟩ e hne he
      rw [List.nil_append, List.lookup_eq_none_iff]
      intro l hlm
      obtain ⟨r, hr, hlink⟩ := hl.row l hlm
      by_contra heq
      have heq' : ofNames e = l.1 := by simpa using heq
      rw [← heq', hd] at hr
      rw [← Option.some.inj hr, hkind] at hlink
      cases hlink
    rw [resolveParentInVm_concat hnames,
      foldl_resolveStep_real (by simpa using fun d hd => hnames d (by simp [hd])) hnone]
    rfl

omit [DecidableEq K] in
/-- Every row but the root's has room. -/
theorem takes_iff (r : Str × FsRow K) (hr : fs.get? r.1 = some r.2) (v : Str) :
    (takes links (realPaths fs) r && viewOf (normalizeVmPath r.1) links = v) = true ↔ r.1 ≠ root ∧
    r.1 = v := by
  have hnormal : normalizeVmPath r.1 = r.1 := h.normal r.1 r.2 hr
  unfold takes
  rw [hnormal, h.viewOf_eq hl hr]
  simp

omit [DecidableEq K] in
/-- The kinds that are shown are those of the rows. -/
theorem kindAt_eq (v : Str) :
    kindAt fs links v = if v = root then some .dir else (fs.get? v).map fun row => row.kind := by
  unfold kindAt
  split_ifs with hv
  · rfl
  have hmem : ∀ r, r ∈ sortedRows fs ↔ fs.get? r.1 = some r.2 := by
    intro r
    rw [sortedRows, List.mem_insertionSort, Table.get?_eq_some_iff]
  unfold kindIn
  rcases hfind : (sortedRows fs).find? fun r => takes links (realPaths fs) r && viewOf
    (normalizeVmPath r.1) links = v with _ | r
  · rw [List.find?_eq_none] at hfind
    rcases hrow : fs.get? v with _ | row
    · rfl
    · exact absurd ((h.takes_iff hl (v, row) hrow v).2 ⟨hv, rfl⟩) (hfind _ ((hmem _).2 hrow))
  · have hr := (hmem r).1 (List.mem_of_find?_eq_some hfind)
    have hpred := List.find?_some hfind
    obtain ⟨-, heq⟩ := (h.takes_iff hl r hr v).1 hpred
    rw [← heq, hr]
    rfl

omit [DecidableEq K] in
/-- A path other than the root has a kind iff it has a row. -/
theorem kindAt_isSome {v : Str} (hv : v ≠ root) :
    (kindAt fs links v).isSome ↔ ∃ row, fs.get? v = some row := by
  rw [h.kindAt_eq hl, if_neg hv, Option.isSome_map, Option.isSome_iff_exists]

omit [DecidableEq K] in
/-- What is above a row is shown as a directory. -/
theorem kindAt_parentOf {p : Str} {row : FsRow K} (hrow : fs.get? p = some row) (hp : p ≠ root) :
    kindAt fs links (parentOf p) = some .dir := by
  rw [parentOf_eq (h.normal_parentOf hrow hp), h.kindAt_eq hl]
  split_ifs with hroot
  · rfl
  · obtain ⟨d, hd, hkind⟩ := h.above p row hrow hp hroot
    rw [hd, Option.map_some, hkind]

omit [DecidableEq K] in
/-- Upright rows fit into a tree. -/
theorem fits : Fits fs links := by
  constructor
  · intro v _ _ hparent hpsome
    obtain ⟨d, hd⟩ := (h.kindAt_isSome hl hparent).1 hpsome
    exact h.kindAt_parentOf hl hd hparent
  · intro v w hv hw hvsome hwsome hparent _ hname
    obtain ⟨row, hrow⟩ := (h.kindAt_isSome hl hv).1 hvsome
    obtain ⟨row', hrow'⟩ := (h.kindAt_isSome hl hw).1 hwsome
    rw [parentOf_eq (h.normal_parentOf hrow hv),
      parentOf_eq (h.normal_parentOf hrow' hw)] at hparent
    rw [← (join_parentOf (h.normal v row hrow) hv).2,
      ← (join_parentOf (h.normal w row' hrow') hw).2, hparent, hname]

end Upright

/-! ## The first pass -/

/-- What the first pass has put into the table: the root, and the nodes of rows. -/
structure FromRows (links : List (Str × Str)) (rows : List (Str × FsRow K)) (st : Built) :
    Prop where
  /-- The numbers that come are not the root's. -/
  next : rootIno < st.nextIno
  /-- The root. -/
  top : ∀ n, st.nodes.get? rootIno = some n → n.dbPath = root
  /-- The numbers. -/
  number : ∀ i n, st.nodes.get? i = some n → n.attr.ino = i
  /-- The other nodes. -/
  row : ∀ i n, st.nodes.get? i = some n → i ≠ rootIno → ∃ r ∈ rows, n.dbPath = normalizeVmPath r.1 ∧
    n.view = viewOf (normalizeVmPath r.1) links ∧ n.attr.look = lookOf r.2

omit [DecidableEq K] in
/-- One more row of the table has its node. -/
theorem FromRows.addRow {reals : List Str} {rows : List (Str × FsRow K)} {st : Built}
    (hst : FromRows links rows st) {r : Str × FsRow K} (hr : r ∈ rows) :
    FromRows links rows (VmFuse.addRow links reals st r) := by
  unfold VmFuse.addRow
  dsimp only
  split_ifs with hroot hreal hhas
  · -- the root's row gives the root its times
    refine ⟨hst.next, fun n hn => ?_, fun i n hn => ?_, fun i n hn hi => ?_⟩
    · rw [Table.get?_update_eq_map, Option.map_eq_some_iff] at hn
      obtain ⟨m, hm, rfl⟩ := hn
      rw [if_pos rfl]
      exact hst.top m hm
    · rw [Table.get?_update_eq_map, Option.map_eq_some_iff] at hn
      obtain ⟨m, hm, rfl⟩ := hn
      rw [← hst.number i m hm]
      split_ifs <;> rfl
    · rw [Table.get?_update_eq_map, Option.map_eq_some_iff] at hn
      obtain ⟨m, hm, rfl⟩ := hn
      rw [if_neg hi]
      exact hst.row i m hm hi
  · exact hst
  · exact hst
  -- A new node: the row it comes from is `r`, and all others keep theirs.
  · have hnext := hst.next
    refine ⟨by dsimp only; omega, fun n hn => ?_, fun i n hn => ?_, fun i n hn hi => ?_⟩
    · rw [Table.get?_put, if_neg (by omega)] at hn
      exact hst.top n hn
    · rw [Table.get?_put] at hn
      split_ifs at hn with hnew
      · rw [← Option.some.inj hn, hnew]
        rfl
      · exact hst.number i n hn
    · rw [Table.get?_put] at hn
      split_ifs at hn with hnew
      · rw [← Option.some.inj hn]
        exact ⟨r, hr, rfl, rfl, rfl⟩
      · exact hst.row i n hn hi

omit [DecidableEq K] in
/-- The nodes that are built come from the rows. -/
theorem fromRows_build (fs : Table Str (FsRow K)) (links : List (Str × Str)) :
    FromRows links (sortedRows fs) (build fs links) := by
  have hall : ∀ (rest : List (Str × FsRow K)) (st : Built), (∀ r ∈ rest, r ∈ sortedRows fs) →
      FromRows links (sortedRows fs) st →
      FromRows links (sortedRows fs) (rest.foldl (addRow links (realPaths fs)) st) := by
    intro rest
    induction rest with
    | nil => exact fun _ _ hst => hst
    | cons r rest ih =>
      exact fun st hrest hst => ih _ (fun r' hr' => hrest r' (List.mem_cons_of_mem _ hr'))
        (hst.addRow (hrest r List.mem_cons_self))
  refine hall _ start (fun r hr => hr)
    ⟨by decide, fun n hn => ?_, fun i n hn => ?_, fun i n hn hi => ?_⟩
  · rw [start, Table.get?_put, if_pos rfl] at hn
    rw [← Option.some.inj hn]
  · rw [start, Table.get?_put] at hn
    split_ifs at hn with hi
    · rw [← Option.some.inj hn, hi]
      rfl
    · rw [Table.get?_empty] at hn
      cases hn
  · rw [start, Table.get?_put, if_neg hi, Table.get?_empty] at hn
    cases hn

/-! ## The start of a mount -/

section Start

variable {σ : Type} {conn : σ} {owner : Owner}

/-- A mount of upright rows starts, and it mirrors them. -/
theorem Upright.mirrors (h : Upright fs) (horder : order.Perm (inos fs)) (conn : σ)
    (owner : Owner) :
    ∃ s, new fs order conn owner = .ok s ∧ s.conn = conn ∧ Whole s ∧ Mirrors s.nodes fs := by
  obtain ⟨links, hquery, hnodup, hrows⟩ := h.exists_links
  have hl : LinksOf fs links := ⟨hquery, hnodup, hrows⟩
  have hfits := h.fits hl
  obtain ⟨hst, hkinds⟩ := Built.good_build fs links
  obtain ⟨hrooted, hnamed⟩ := (Built.fits_iff fs links).1 hfits
  obtain ⟨hnd, hmem⟩ := order_spec hquery horder
  have hroot : rootIno ∉ [] ++ order := fun hr => ((hmem rootIno).1 hr).1 rfl
  -- it starts
  obtain ⟨nodes, hrun⟩ :=
    hrooted.linkAll_ok hst hst.linked_nil List.not_mem_nil (by simpa using hnd)
    fun i hi => (hmem i).1 hi
  have hnew : new fs order conn owner = .ok ⟨conn, nodes, (build fs links).nextIno, owner⟩ := by
    unfold new
    rw [hquery]
    dsimp only
    rw [hrun]
    rfl
  refine ⟨_, hnew, rfl, hfits.whole hquery horder hnew, ?_⟩
  -- it mirrors the rows
  have hlinked := hst.linked_nil.run (by simpa using hnd) hrun
  have hfrom := fromRows_build fs links
  have hrow : ∀ i n, (build fs links).nodes.get? i = some n → i ≠ rootIno →
      ∃ row, fs.get? n.view = some row ∧ n.dbPath = n.view ∧ n.attr.look = lookOf row := by
    intro i n hn hi
    obtain ⟨r, hr, hpath, hview, hlook⟩ := hfrom.row i n hn hi
    have hrow : fs.get? r.1 = some r.2 := by
      rw [sortedRows, List.mem_insertionSort] at hr
      exact Table.get?_eq_some_iff.2 hr
    rw [h.normal r.1 r.2 hrow] at hpath hview
    rw [h.viewOf_eq hl hrow] at hview
    exact ⟨r.2, by rw [hview, hrow], hpath.trans hview.symm, hlook⟩
  refine ⟨?_, ?_, ?_, ?_, ?_, h.target⟩
  · intro n hn
    obtain ⟨b, hb, -, hpath, -⟩ := hlinked.same _ n hn
    rw [hpath, hfrom.top b hb]
  · intro i n hn
    obtain ⟨b, hb, -, -, hattr⟩ := hlinked.same i n hn
    rw [hattr, hfrom.number i b hb]
  · intro p n x c m hn hx hm
    obtain ⟨hdone, hunder, b, hb, hname⟩ := hlinked.sound p n x c hn hx
    have hc : c ≠ rootIno := fun heq => hroot (heq ▸ hdone)
    obtain ⟨row, hbrow, hbpath, -⟩ := hrow c b hb hc
    obtain ⟨b', hb', hview, hpath, -⟩ := hlinked.same c m hm
    obtain rfl : b = b' := Option.some.inj (hb.symm.trans hb')
    have hbroot : b.view ≠ root := fun heq => hc ((hst.view_eq_root hb).1 heq)
    have hbnormal := h.normal _ row hbrow
    -- the directory
    obtain ⟨b', q, hb', hpview, hq, -⟩ := id hunder
    obtain rfl : b = b' := Option.some.inj (hb.symm.trans hb')
    obtain ⟨q', hq', hqview⟩ := hst.exists_node hpview
    obtain rfl : q = q' := Option.some.inj (hq.symm.trans hq')
    obtain ⟨q', hq', hnview, -, -⟩ := hlinked.same p n hn
    obtain rfl : q = q' := Option.some.inj (hq.symm.trans hq')
    rw [hview, hpath, hnview, hqview, parentOf_eq (h.normal_parentOf hbrow hbroot), ← hname,
      (join_parentOf hbnormal hbroot).2]
    exact ⟨rfl, hbpath, hbnormal⟩
  · intro i n hn hi
    obtain ⟨b, hb, hview, -, hattr⟩ := hlinked.same i n hn
    obtain ⟨row, hbrow, -, hlook⟩ := hrow i b hb hi
    exact ⟨row, by rw [hview, hbrow], by rw [hattr, hlook]⟩
  · intro p row hp hne
    -- the node of the row has not gone, for there is a directory above it
    have hsome : ((build fs links).kindOf p).isSome := by
      rw [hkinds, h.kindAt_isSome hl hne]
      exact ⟨row, hp⟩
    obtain ⟨i, b, hb, hview⟩ := hst.kindOf_isSome.1 hsome
    have hdir := h.kindAt_parentOf hl hp hne
    rw [← hkinds, hst.kindOf_eq_some] at hdir
    obtain ⟨j, q, hq, hqview, hqkind⟩ := hdir
    have hunder : (build fs links).Under i j :=
      ⟨b, q, hb, (hst.byView_iff _ j).2 ⟨q, hq, by rw [hqview, hview]⟩, hq, hqkind⟩
    obtain ⟨m, hm⟩ := (hlinked.kept i b hb).2 fun _ => ⟨j, hunder⟩
    obtain ⟨b', hb', hmview, -⟩ := hlinked.same i m hm
    obtain rfl : b = b' := Option.some.inj (hb.symm.trans hb')
    exact ⟨i, m, hm, hmview.trans hview⟩

end Start

/-! ## Mirrored rows -/

namespace Mirrors

variable {nxt : ℕ} (h : Mirrors nodes fs) (htree : Tree nodes nxt) (hlisted : Listed nodes)

include h htree hlisted

omit [DecidableEq K] in
/-- A node but the root is an entry of a directory. -/
theorem exists_dir {i : ℕ} {n : Node} (hn : nodes.get? i = some n) (hi : i ≠ rootIno) :
    ∃ p x, nodes.get? n.parent = some p ∧
    p.children.get? x = some i ∧ p.attr.kind = .dir ∧ IsName x ∧ n.view = join p.view x ∧
    n.dbPath = n.view ∧ Normal n.view := by
  obtain ⟨p, x, hp, hx⟩ := hlisted i n hn hi
  obtain ⟨hdir, hname, -⟩ := htree.kid _ p x i hp hx
  obtain ⟨hview, hpath, hnormal⟩ := h.path _ p x i n hp hx hn
  exact ⟨p, x, hp, hx, hdir, hname, hview, hpath, hnormal⟩

omit [DecidableEq K] in
/-- Without links in the way the path of a node's row is the path it shows. -/
theorem dbPath_eq {i : ℕ} {n : Node} (hn : nodes.get? i = some n) :
    n.dbPath = n.view ∧ Normal n.view := by
  by_cases hi : i = rootIno
  · subst hi
    obtain ⟨r, hr, hview, -⟩ := htree.top
    obtain rfl : n = r := Option.some.inj (hn.symm.trans hr)
    rw [h.top n hn, hview]
    exact ⟨rfl, normal_root⟩
  · obtain ⟨p, x, -, -, -, -, -, hpath, hnormal⟩ := h.exists_dir htree hlisted hn hi
    exact ⟨hpath, hnormal⟩

omit [DecidableEq K] in
/-- Only the root has its path. -/
theorem view_eq_root {i : ℕ} {n : Node} (hn : nodes.get? i = some n) :
    n.view = root ↔ i = rootIno := by
  constructor
  · intro hview
    by_contra hi
    obtain ⟨p, x, -, -, -, hx, hjoin, -⟩ := h.exists_dir htree hlisted hn hi
    exact join_ne_root hx (hjoin.symm.trans hview)
  · rintro rfl
    obtain ⟨r, hr, hview, -⟩ := htree.top
    rw [Option.some.inj (hn.symm.trans hr), hview]

omit [DecidableEq K] in
/-- Two nodes have two paths. The induction is on the length of the path. -/
theorem view_inj (len : ℕ) :
    ∀ i j n m, nodes.get? i = some n → nodes.get? j = some m → n.view.length = len →
    n.view = m.view → i = j := by
  induction len using Nat.strong_induction_on with
  | _ len ih =>
    intro i j n m hn hm hlen hview
    by_cases hi : i = rootIno
    · rw [hi]
      exact ((h.view_eq_root htree hlisted hm).1
        (hview ▸ (h.view_eq_root htree hlisted hn).2 hi)).symm
    by_cases hj : j = rootIno
    · rw [hj]
      exact (h.view_eq_root htree hlisted hn).1 (hview ▸ (h.view_eq_root htree hlisted hm).2 hj)
    obtain ⟨p, x, hp, hpx, -, hx, hnjoin, -, -⟩ := h.exists_dir htree hlisted hn hi
    obtain ⟨q, y, hq, hqy, -, hy, hmjoin, -, -⟩ := h.exists_dir htree hlisted hm hj
    -- the two directories are one, and so are the names
    have hpne : p.view ≠ [] := (h.dbPath_eq htree hlisted hp).2.ne_nil
    have hqne : q.view ≠ [] := (h.dbPath_eq htree hlisted hq).2.ne_nil
    have hdirs : p.view = q.view := by
      rw [← parentOf_join hx hpne, ← hnjoin, hview, hmjoin, parentOf_join hy hqne]
    have hnames : x = y := by
      rw [← fileName_join (d := p.view) hx, ← hnjoin, hview, hmjoin, fileName_join hy]
    have hlt := (htree.length_lt hp hpx hn).1
    have hsame := ih p.view.length (by omega) _ _ p q hp hq rfl hdirs
    rw [hsame, hq] at hp
    rw [Option.some.inj hp, ← hnames, hpx] at hqy
    exact Option.some.inj hqy

omit [DecidableEq K] in
/-- Nodes that show the same path are the same. -/
theorem eq_of_view {i j : ℕ} {n m : Node} (hn : nodes.get? i = some n)
    (hm : nodes.get? j = some m) (hview : n.view = m.view) :
    i = j := h.view_inj htree hlisted _ i j n m hn hm rfl hview

omit [DecidableEq K] in
/-- A directory lists the node at the path of one of its names. -/
theorem get?_children {p i : ℕ} {n m : Node} {x : Str} (hn : nodes.get? p = some n) (hx : IsName x)
    (hm : nodes.get? i = some m) (hview : m.view = join n.view x) : n.children.get? x = some i := by
  have hi : i ≠ rootIno := by
    intro heq
    exact join_ne_root hx (hview.symm.trans ((h.view_eq_root htree hlisted hm).2 heq))
  obtain ⟨q, y, hq, hy, -, hyname, hjoin, -, -⟩ := h.exists_dir htree hlisted hm hi
  have hnne : n.view ≠ [] := (h.dbPath_eq htree hlisted hn).2.ne_nil
  have hqne : q.view ≠ [] := (h.dbPath_eq htree hlisted hq).2.ne_nil
  have hdirs :
    n.view = q.view := by rw [← parentOf_join hx hnne, ← hview, hjoin, parentOf_join hyname hqne]
  have hnames :
    x = y := by rw [← fileName_join (d := n.view) hx, ← hview, hjoin, fileName_join hyname]
  rw [h.eq_of_view htree hlisted hn hq hdirs, hq] at hn
  rw [← Option.some.inj hn, hnames, hy]

omit [DecidableEq K] in
/-- Rows that are mirrored are upright. -/
theorem upright : Upright fs := by
  refine ⟨?_, ?_, h.target⟩
  · intro p row hp
    by_cases hne : p = root
    · rw [hne]
      exact normal_root
    · obtain ⟨i, n, hn, rfl⟩ := h.node p row hp hne
      exact (h.dbPath_eq htree hlisted hn).2
  · intro p row hp hne hparent
    obtain ⟨i, n, hn, rfl⟩ := h.node p row hp hne
    have hi : i ≠ rootIno := fun heq => hne ((h.view_eq_root htree hlisted hn).2 heq)
    obtain ⟨q, x, hq, -, hdir, hx, hjoin, -, -⟩ := h.exists_dir htree hlisted hn hi
    rw [hjoin, parentOf_join hx (h.dbPath_eq htree hlisted hq).2.ne_nil] at hparent ⊢
    obtain ⟨d, hd, hlook⟩ :=
      h.row _ q hq fun heq => hparent ((h.view_eq_root htree hlisted hq).2 heq)
    refine ⟨d, hd, ?_⟩
    have hkind : q.attr.kind = d.kind := congrArg Look.kind hlook
    rw [← hkind, hdir]

end Mirrors

end Dbvm.VmFuse
