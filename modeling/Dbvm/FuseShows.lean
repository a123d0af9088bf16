import Dbvm.FuseRows

/-!
# What a mount shows in its runs

The mount over a database that mirrors its rows: every request that the database has done keeps the
mirror (`stays_mirroring`), and one that fails has not changed the rows. So the mount shows the rows
after every run (`mount_shows_rows`), and the next mount of the rows shows what the last one has
shown (`remount_same`), when the kernel gives no name that ends in white space, which
`normalize_vm_path` would take away, writes to and cuts regular files only, and writes at least one
byte at a time (`polite`). What is compared is what does not change by itself: kind, permission
bits, size and the text of a link, not the times, of which an access time is kept in the node table
only.
-/

namespace Dbvm.VmFuse

open Dbvm Lib Lib.Prog Lib.Forest Lib.Moves

variable {K : Type} [DecidableEq K] {E : Ext K} {fs : Table Str (FsRow K)} {s : Vm (Conn K)}
  {order : List ℕ}

/-! ## The kernel -/

/-- What a mount that mirrors the rows relies on: the kernel writes to and cuts regular files only,
every write has at least one byte (an empty one past the end of a file would make the node longer,
and not the row), and no name ends in white space. -/
def polite : Manners where
  name x := ¬ EndsBlank x
  cut kind := kind = .file
  write kind data := kind = .file ∧ data ≠ []
  cut_file := rfl

/-- The mount is in order and mirrors the rows. -/
structure Mirroring (s : Vm (Conn K)) : Prop extends Whole s where
  /-- The rows. -/
  rows : Mirrors s.nodes s.conn.db.fs

namespace Mirroring

variable (h : Mirroring s)

include h

omit [DecidableEq K] in
/-- Another connection with rows that read the same. -/
theorem conn {c : Conn K}
    (hsame : ∀ q, (c.db.fs.get? q).map readsOf = (s.conn.db.fs.get? q).map readsOf) :
    Mirroring { s with conn := c } := ⟨⟨h.tree, h.listed⟩, h.rows.of_reads hsame⟩

omit [DecidableEq K] in
/-- Without links in the way the path of a node is what it shows, and is normal. -/
theorem path {i : ℕ} {n : Node} (hn : s.nodes.get? i = some n) :
    n.dbPath = n.view ∧ Normal n.view :=
  h.rows.dbPath_eq h.tree h.listed hn

omit [DecidableEq K] in
/-- The path of a directory is its names. -/
theorem exists_names {i : ℕ} {n : Node} (hn : s.nodes.get? i = some n) :
    ∃ ds, (∀ d ∈ ds, IsName d) ∧ n.view = pathOf ds := by
  rcases (h.path hn).2.shape with hroot | ⟨cs, hne, hcs, hview⟩
  · exact ⟨[], by simp, hroot⟩
  · exact ⟨cs, hcs, by rw [hview, pathOf, if_neg hne]⟩

omit [DecidableEq K] in
/-- The place of a new entry: its path is normal, and what is above it is there. -/
theorem place {p : ℕ} {n : Node} {x : Str} (hn : s.nodes.get? p = some n) (hx : IsName x)
    (hblank : ¬ EndsBlank x) :
    Normal (join n.view x) ∧ ∀ a ∈ parentDirs (join n.view x), s.conn.db.fs.has a = true := by
  obtain ⟨ds, hds, hview⟩ := h.exists_names hn
  have hall : ∀ d ∈ ds ++ [x], IsName d := by
    intro d hd
    rcases List.mem_append.1 hd with hd | hd
    · exact hds d hd
    · rw [List.mem_singleton.1 hd]
      exact hx
  have hnormal : Normal (join n.view x) := by
    rw [hview, join_pathOf hds]
    refine (normal_ofNames_concat hall).2 fun c hc => ?_
    by_contra hwhite
    exact hblank ⟨c, hc, by simpa using hwhite⟩
  refine ⟨hnormal, fun a ha => ?_⟩
  rw [mem_parentDirs hnormal, hview, join_pathOf hds, mem_ancestors_concat hall] at ha
  obtain ⟨e, hne, he, rfl⟩ := ha
  -- the directory itself has a row, and so has all that is above it
  have hdsne : ds ≠ [] := by
    rintro rfl
    exact hne (List.prefix_nil.1 he)
  have hp : p ≠ rootIno := by
    intro heq
    rw [pathOf, if_neg hdsne, (h.rows.view_eq_root h.tree h.listed hn).2 heq] at hview
    exact ofNames_ne_root hds hview.symm
  obtain ⟨row, hrow, -⟩ := h.rows.row p n hn hp
  rw [hview, pathOf, if_neg hdsne] at hrow
  obtain ⟨init, last, rfl⟩ : ∃ init last, ds = init ++ [last] :=
    ⟨_, _, (List.dropLast_append_getLast hdsne).symm⟩
  rcases List.prefix_concat_iff.1 he with rfl | he
  · exact Table.has_eq_true.2 ⟨row, hrow⟩
  · obtain ⟨d, hd, -⟩ := (h.rows.upright h.tree h.listed).dirs init last hds ⟨row, hrow⟩ e hne he
    exact Table.has_eq_true.2 ⟨d, hd⟩

/-- A request to the database that fails leaves the database as it was. -/
theorem db_of_fails {c : Conn K} (hf : Fails (Backend.ofDb E) polite s c) : c.db = s.conn.db := by
  rcases hf with ⟨a, e, hroom, ha⟩ | ⟨path, off, len, e, ha⟩
  · have hplace : ∀ path ∈ a.makes, Normal path ∧ ∀ b ∈ parentDirs path,
      s.conn.db.fs.has b = true := by
      intro path hpath
      obtain ⟨p, n, x, hn, -, hx, hblank, rfl⟩ := hroom path hpath
      rw [(h.path hn).1]
      exact h.place hn hx hblank
    -- Each request is one operation of the store that is atomic on its database.
    cases a with
    | addBytes path mode now =>
      obtain ⟨hv, hhas⟩ := hplace path rfl
      dsimp only [Backend.run, Backend.ofDb] at ha
      have hrun := onDb_eq_error ha
      unfold vmAddBytes at hrun
      rw [hv] at hrun
      exact parents_then_error (fun _ _ hx => inSavepoint_error hx) now hhas hrun
    | addDir path mode now =>
      obtain ⟨hv, hhas⟩ := hplace path rfl
      dsimp only [Backend.run, Backend.ofDb] at ha
      have hrun := onDb_eq_error ha
      unfold vmAddDir at hrun
      rw [hv] at hrun
      exact parents_then_error (fun _ _ hx => inSavepoint_error hx) now hhas hrun
    | addSymlink path target now =>
      obtain ⟨hv, hhas⟩ := hplace path rfl
      dsimp only [Backend.run, Backend.ofDb] at ha
      have hrun := onDb_eq_error ha
      unfold vmAddSymlink at hrun
      rw [hv] at hrun
      exact parents_then_error (fun _ _ hx => inSavepoint_error hx) now hhas hrun
    | delete path => exact statement_error (onDb_eq_error ha)
    | setMode path mode => exact statement_error (onDb_eq_error ha)
    | setMtime path mtime => exact statement_error (onDb_eq_error ha)
    | rename replaced moves => exact inSavepoint_error (onDb_eq_error ha)
    | truncate path size now => exact truncateRangeDeferred_dbAtomic path size now _ _ _ ha
    | write path off data now => exact writeRangeDeferred_dbAtomic path off data now _ _ _ ha
  · have hend := readOnly_readRangeCached E path off len s.conn.db s.conn rfl
    have ha' : readRangeCached E path off len s.conn = .error e c := ha
    unfold endState at hend
    rwa [ha'] at hend

end Mirroring

/-! ## Moves of rows -/

omit [DecidableEq K] in
/-- Each move takes a row, that of a node in the subtree, from where it is to the same place below
the new name. -/
theorem Mirrors.exists_row {nodes : Table ℕ Node} {nxt p ino newparent : ℕ} {n node np : Node}
    {x newName : Str} {moves : List Move} {db : Db K} (h : Mirrors nodes db.fs)
    (htree : Tree nodes nxt) (hf : Found nodes ino newparent newName node np moves)
    (hp : nodes.get? p = some n) (hx : n.children.get? x = some ino)
    (hpaths : MovesPaths node np newName moves) :
    ∀ m ∈ moves, ∃ k names row, nodes.get? m.ino = some k ∧ (∀ c ∈ names, IsName c) ∧
      m.oldDb = k.view ∧
      k.view = node.view ++ ofNames names ∧ m.newDb = join np.view newName ++ ofNames names ∧
        db.fs.get? m.oldDb = some row := by
  intro m hm
  have hlong := (htree.length_lt hp hx hf.isNode).2
  have hreach : Reach childInos nodes ino m.ino :=
    (hf.below.mem_iff m.ino).1 (List.mem_map_of_mem hm)
  obtain ⟨k, names, m', hk, hnames, hview, hm', hmi, hold, hnew⟩ :=
    h.exists_move htree hf hlong hpaths hreach
  obtain rfl : m' = m := List.inj_on_of_nodup_map hf.below.nodup hm' hm hmi
  have hne : m'.ino ≠ rootIno := fun heq => htree.not_reach_root hp hx (heq ▸ hreach)
  obtain ⟨row, hrow, -⟩ := h.row _ k hk hne
  exact ⟨k, names, row, hk, hnames, hold, hview, hnew, by rw [hold, hrow]⟩

omit [DecidableEq K] in
/-- No row comes where another one is, was or comes. -/
theorem Mirrors.apart {nodes : Table ℕ Node} {nxt p ino newparent : ℕ} {n node np : Node}
    {x newName : Str} {moves : List Move} {db : Db K} (h : Mirrors nodes db.fs)
    (htree : Tree nodes nxt) (hlisted : Listed nodes)
    (hf : Found nodes ino newparent newName node np moves) (hp : nodes.get? p = some n)
    (hx : n.children.get? x = some ino) (hfree : np.children.get? newName = none)
    (hpaths : MovesPaths node np newName moves) :
    Apart (moves.map fun m => (m.oldDb, m.newDb)) := by
  -- Each move takes the row of one node below `ino`; two nodes have two paths, and no row is at
  -- the new ones.
  have hmove := h.exists_row htree hf hp hx hpaths
  have hold : ∀ m ∈ moves, ∀ m' ∈ moves, m.oldDb = m'.oldDb → m = m' := by
    intro m hm m' hm' heq
    obtain ⟨k, -, -, hk, -, hkold, -⟩ := hmove m hm
    obtain ⟨k', -, -, hk', -, hkold', -⟩ := hmove m' hm'
    refine List.inj_on_of_nodup_map hf.below.nodup hm hm' (h.eq_of_view htree hlisted hk hk' ?_)
    rw [← hkold, heq, hkold']
  have hnew : ∀ m ∈ moves, ∀ m' ∈ moves, m.newDb = m'.newDb → m = m' := by
    intro m hm m' hm' heq
    obtain ⟨k, names, -, -, -, hkold, hview, hknew, -⟩ := hmove m hm
    obtain ⟨k', names', -, -, -, hkold', hview', hknew', -⟩ := hmove m' hm'
    rw [hknew, hknew'] at heq
    refine hold m hm m' hm' ?_
    rw [hkold, hkold', hview, hview', List.append_cancel_left heq]
  have hnodup : moves.Nodup := List.Nodup.of_map _ hf.below.nodup
  refine ⟨?_, ?_, ?_⟩
  · rw [List.map_map]
    exact hnodup.map_on hold
  · rw [List.map_map]
    exact hnodup.map_on hnew
  · intro a ha b hb heq
    obtain ⟨m, hm, rfl⟩ := List.mem_map.1 ha
    obtain ⟨m', hm', rfl⟩ := List.mem_map.1 hb
    obtain ⟨-, -, row, -, -, -, -, -, hrow⟩ := hmove m hm
    obtain ⟨-, names, -, -, hnames, -, -, hknew, -⟩ := hmove m' hm'
    dsimp only at heq
    rw [heq, hknew, h.no_row htree hlisted hf.newDir.1 hf.name hfree hnames] at hrow
    cases hrow

omit [DecidableEq K] in
/-- The rows after a rename: those of the moves have moved, the others have not. -/
theorem Mirrors.rename_rows {nodes : Table ℕ Node} {nxt p ino newparent : ℕ} {n node np : Node}
    {x newName : Str} {moves : List Move} {db db' : Db K} {u : Unit} (h : Mirrors nodes db.fs)
    (htree : Tree nodes nxt) (hlisted : Listed nodes)
    (hf : Found nodes ino newparent newName node np moves) (hp : nodes.get? p = some n)
    (hx : n.children.get? x = some ino) (hfree : np.children.get? newName = none)
    (hpaths : MovesPaths node np newName moves)
    (hrun : (moves.map fun m => (m.oldDb, m.newDb)).forM moveEntry db = .ok u db') :
    (∀ m ∈ moves, db'.fs.get? m.newDb = db.fs.get? m.oldDb) ∧
      (∀ m ∈ moves, db'.fs.get? m.oldDb = none) ∧
      ∀ q, (∀ m ∈ moves, q ≠ m.oldDb ∧ q ≠ m.newDb) → db'.fs.get? q = db.fs.get? q := by
  have happart := h.apart htree hlisted hf hp hx hfree hpaths
  obtain ⟨hrows, -⟩ := movedAll_rows happart (by
    intro a ha
    obtain ⟨m, hm, rfl⟩ := List.mem_map.1 ha
    obtain ⟨-, -, row, -, -, -, -, -, hrow⟩ := h.exists_row htree hf hp hx hpaths m hm
    dsimp only
    rw [hrow]
    exact Option.some_ne_none _) hrun
  obtain ⟨hcome, hgo, hstay⟩ :=
    moveAll_spec (e := (none : Option (FsRow K))) (f := db.fs.get?) happart
  rw [← hrows] at hcome hgo hstay
  refine ⟨fun m hm => hcome _ (List.mem_map_of_mem hm), fun m hm => hgo _ (List.mem_map_of_mem hm),
    fun q hq => hstay q ?_⟩
  intro a ha
  obtain ⟨m, hm, rfl⟩ := List.mem_map.1 ha
  exact hq m hm

/-! ## Every change -/

/-- What is replaced goes first, in the table and in the database. -/
theorem Mirroring.replace {ino newparent : ℕ} {newN : Str} {node np : Node} {moves : List Move}
    {db' : Db K} {u : Unit} (h : Mirroring s)
    (hf : Found s.nodes ino newparent newN node np moves)
    (hx : fuseRename (((np.children.get? newN).bind s.nodes.get?).map fun rn => rn.dbPath)
      (moves.map fun m => (m.oldDb, m.newDb)) s.conn.db = .ok u db') :
    ∃ db, Mirrors (replacedNodes s.nodes (np.children.get? newN)) db.fs ∧
      (db = s.conn.db ∨ db = s.conn.db.delFs fun q => q = join np.view newN) ∧
      (moves.map fun m => (m.oldDb, m.newDb)).forM moveEntry db = .ok () db' := by
  unfold fuseRename inSavepoint at hx
  have hbody := savepoint_eq_ok.1 hx
  unfold replacedNodes
  rcases hr : np.children.get? newN with _ | r
  · rw [hr, Option.bind_none, Option.map_none] at hbody
    exact ⟨s.conn.db, h.rows, Or.inl rfl, hbody⟩
  · obtain ⟨rn, hrn⟩ := h.tree.exists_node hf.newDir.1 hr
    rw [hr, Option.bind_some, hrn, Option.map_some] at hbody
    obtain ⟨_, d, hdel, hbody⟩ := bind_eq_ok.1 hbody
    refine ⟨d, ?_, Or.inr ?_, hbody⟩
    swap
    · -- the node that is replaced is at the new path
      have hview := (h.rows.path _ np newN r rn hf.newDir.1 hr hrn).1
      rw [deleteFs_ok hdel, (h.path hrn).1, hview]
    have hbare := h.tree.bare_of_kind hrn (hf.replaced r rn hr hrn)
    refine h.rows.removed h.tree h.listed hf.newDir.1 hr hrn hbare fun q => ?_
    rw [deleteFs_ok hdel, Db.get?_delFs, (h.path hrn).1]
    simp only [decide_eq_true_eq]

omit [DecidableEq K] in
/-- The moves that a rename asks for take what is below the entry to the same places below the new
name. -/
theorem Mirroring.movesPaths {ino newparent : ℕ} {newN : Str} {node np np' : Node}
    {moves : List Move} (h : Mirroring s) (hf : Found s.nodes ino newparent newN node np moves)
    (hview : np'.view = np.view)
    (hmoves : ∀ m ∈ moves, ∃ k rel, s.nodes.get? m.ino = some k ∧ k.view = node.view ++ rel ∧
      m.oldDb = k.dbPath ∧
      m.newDb = join np.dbPath newN ++ rel ∧ m.newView = join np.view newN ++ rel) :
    Mirrors.MovesPaths node np' newN moves := by
  intro m hm
  obtain ⟨k, rel, hk, hkview, hold, hnewDb, hnewView⟩ := hmoves m hm
  rw [(h.path hk).1, hkview] at hold
  rw [(h.path hf.newDir.1).1] at hnewDb
  rw [hview]
  exact ⟨rel, hold, hnewDb, hnewView⟩

/-- Every change of a mount over the database keeps the mirror. -/
theorem stays_mirroring (E : Ext K) : Stays (Backend.ofDb E) polite Mirroring where
  whole s h := h.toWhole
  failed s c h hc := h.conn fun q => by rw [h.db_of_fails hc]
  read s path off len b c h hx := by
    have hend := readOnly_readRangeCached E path off len s.conn.db s.conn rfl
    rw [endState_of_ok (show readRangeCached E path off len s.conn = .ok b c from hx)] at hend
    exact h.conn fun q => by rw [hend]
  finalize s h := by
    refine h.conn fun q => ?_
    have hdb : (endState (Backend.ofDb E).finalize s.conn).db = endState (finalizeDirty E)
      s.conn.db := by
      show (endState (onDb (finalizeDirty E >>= fun _ => pure ())) s.conn).db = _
      unfold endState onDb
      rcases hx : finalizeDirty E s.conn.db with ⟨n, d⟩ | ⟨e, d⟩
      · rw [bind_of_ok hx]
        rfl
      · rw [bind_of_error hx]
    have hrows := (rehashed_finalizeDirty E s.conn.db).rows q
    have hreads : ∀ o : Option (FsRow K), o.map readsOf = (o.map FsRow.unhashed).map readsOf :=
      fun o => by
      rw [Option.map_map]
      rfl
    rw [hdb, hreads, hreads (s.conn.db.fs.get? q), hrows]
  made s parent p x e now c h hp hdir hname hblank hfree hperm hx := by
    obtain ⟨hnormal, hhas⟩ := h.place hp hname hblank
    have hpath := (h.path hp).1
    rw [hpath] at hx
    obtain ⟨⟨row', hrow', hlook, hlink⟩, hother⟩ := run_novel_ok e now hnormal hhas hperm hx
    have hnew : s.conn.db.fs.get? (join p.view x) = none := by
      have hclear : s.conn.db.fs.get? (join p.view x ++ ofNames []) = none :=
        h.rows.no_row h.tree h.listed hp hname hfree (by simp)
      rwa [ofNames_nil, List.append_nil] at hclear
    refine ⟨(stays_whole (Backend.ofDb E) polite).made s parent p x e now c h.toWhole hp hdir hname
      hblank hfree hperm
      (by rw [hpath]; exact hx), ?_⟩
    exact h.rows.made h.tree hp hpath rfl rfl rfl hnormal hrow' (by rw [hlook]; rfl) rfl hlink
      hother hnew
  dropped s parent p x ino n c h hp hchild hn hbare hx := by
    refine ⟨(stays_whole (Backend.ofDb E) polite).dropped s parent p x ino n c h.toWhole hp hchild
      hn hbare hx, ?_⟩
    have hempty : ∀ y, n.children.get? y = none := by
      by_cases hdir : n.attr.kind = .dir
      · intro y
        rw [Table.get?_eq_none_iff, hbare hdir]
        simp
      · exact h.tree.bare_of_kind hn hdir
    refine h.rows.removed h.tree h.listed hp hchild hn hempty fun q => ?_
    dsimp only [Backend.run, Backend.ofDb] at hx
    rw [deleteFs_ok (onDb_eq_ok hx), Db.get?_delFs, (h.path hn).1]
    simp only [decide_eq_true_eq]
  renamed s ino newparent newN node np moves c nodes' h hblank hf hmoves hx htree hlisted
    hnodes := by
    refine ⟨⟨htree, hlisted⟩, ?_⟩
    dsimp only [Backend.run, Backend.ofDb] at hx
    obtain ⟨db, hdb, -, hrun⟩ := h.replace hf (onDb_eq_ok hx)
    obtain ⟨np', htree', hlisted', hfree, hview, hf'⟩ := hf.replacedNodes h.tree h.listed
    obtain ⟨p, x, n, hp, hpx⟩ := hf'.entry
    have hpaths := h.movesPaths hf hview hmoves
    obtain ⟨hcome, hgo, hstay⟩ := hdb.rename_rows htree' hlisted' hf' hp hpx hfree hpaths hrun
    have hnormal : Normal (join np'.view newN) := by
      rw [hview]
      exact (h.place hf.newDir.1 hf.name hblank).1
    have hparent := htree'.parent_eq hp hpx hf'.isNode
    have hname := htree'.name_eq hp hpx hf'.isNode
    rw [hnodes, hparent, hname]
    exact hdb.moved htree' hlisted' hf' hp hpx hfree hnormal hpaths hcome hgo hstay
  edited s ino n e c h hn hheeds hx := by
    refine ⟨(stays_whole (Backend.ofDb E) polite).edited s ino n e c h.toWhole hn (by
      cases e <;> exact hheeds) hx, ?_⟩
    obtain ⟨hpath, hnormal⟩ := h.path hn
    rw [hpath] at hx
    -- a node that is cut or written to is a file, with a row
    have hisFile : n.attr.kind = .file → ∃ row, s.conn.db.fs.get? n.view = some row ∧
      row.kind = .file := by
      intro hkind
      have hne : ino ≠ rootIno := by
        rintro rfl
        obtain ⟨r, hr, -, hdir⟩ := h.tree.top
        rw [Option.some.inj (hn.symm.trans hr), hdir] at hkind
        cases hkind
      obtain ⟨row, hrow, hlook⟩ := h.rows.row ino n hn hne
      exact ⟨row, hrow, (congrArg Look.kind hlook).symm.trans hkind⟩
    have hfile : ∀ row, s.conn.db.fs.get? n.view = some row →
        (∀ size now, e = .cut size now → row.kind = .file) ∧
        ∀ off data now, e = .write off data now → row.kind = .file ∧ data ≠ [] := by
      intro row hrow
      constructor
      · rintro size now rfl
        obtain ⟨row', hrow', hkind⟩ := hisFile hheeds
        rwa [Option.some.inj (hrow.symm.trans hrow')]
      · rintro off data now rfl
        obtain ⟨row', hrow', hkind⟩ := hisFile hheeds.1
        rw [Option.some.inj (hrow.symm.trans hrow')]
        exact ⟨hkind, hheeds.2⟩
    have hthere : (∃ m, e = .mode m) ∨ (∃ t, e = .mtime t) ∨
      ∃ row, s.conn.db.fs.get? n.view = some row := by
      cases e with
      | mode m => exact Or.inl ⟨m, rfl⟩
      | mtime t => exact Or.inr (Or.inl ⟨t, rfl⟩)
      | cut size now =>
        obtain ⟨row, hrow, -⟩ := hisFile hheeds
        exact Or.inr (Or.inr ⟨row, hrow⟩)
      | write off data now =>
        obtain ⟨row, hrow, -⟩ := hisFile hheeds.1
        exact Or.inr (Or.inr ⟨row, hrow⟩)
    obtain ⟨hset, hnone, hother⟩ := run_edit_ok e hnormal hfile hthere hx
    refine h.rows.edited h.tree h.listed hn e.attr_ino hother ?_ ?_
    · intro row hrow hne
      obtain ⟨row', hrow', hlook, -⟩ := hset row hrow
      obtain ⟨row₀, hrow₀, hlook₀⟩ := h.rows.row ino n hn hne
      obtain rfl : row = row₀ := Option.some.inj (hrow.symm.trans hrow₀)
      exact ⟨row', hrow', by rw [e.attr_look, hlook₀, hlook]⟩
    · intro row' hrow' hlink
      have hrow' : c.db.fs.get? n.view = some row' := hrow'
      rcases hrow : s.conn.db.fs.get? n.view with _ | row
      · rw [hnone hrow] at hrow'
        cases hrow'
      · obtain ⟨row'', hrow'', -, hkind, htarget⟩ := hset row hrow
        obtain rfl : row' = row'' := Option.some.inj (hrow'.symm.trans hrow'')
        rw [htarget]
        exact h.rows.target _ row hrow (hkind ▸ hlink)
  touched s ino n t h hn := by
    refine ⟨(stays_whole (Backend.ofDb E) polite).touched s ino n t h.toWhole hn, ?_⟩
    refine h.rows.edited h.tree h.listed hn (f := fun a => { a with atime := t }) (fun _ => rfl)
      (fun _ _ => rfl) ?_
      fun row hrow => h.rows.target _ row hrow
    intro row hrow hne
    obtain ⟨row₀, hrow₀, hlook₀⟩ := h.rows.row ino n hn hne
    exact ⟨row₀, hrow₀, hlook₀⟩

/-! ## What the kernel sees -/

/-- A path as the kernel resolves it: a lookup for each name, and the attributes of what is found.
-/
def resolve {σ : Type} (B : Backend σ) (s : Vm σ) : ℕ → List Str → Option Attr
  | ino, [] =>
    match (handle B (.getattr ino) s).1 with
    | .ok (.attr a) => some a
    | _ => none
  | ino, c :: cs =>
    match (handle B (.lookup ino (some c)) s).1 with
    | .ok (.entry a) => resolve B s a.ino cs
    | _ => none

/-- The text of a link, as the kernel reads it. -/
def linkText {σ : Type} (B : Backend σ) (s : Vm σ) (ino : ℕ) : Option Str :=
  match (handle B (.readlink ino) s).1 with
  | .ok (.target t) => some t
  | _ => none

/-- What the kernel finds at a path: how the entry looks and, for a link, its text. -/
def find {σ : Type} (B : Backend σ) (s : Vm σ) (cs : List Str) : Option (Look × Option Str) :=
  (resolve B s rootIno cs).map fun a =>
  (a.look, if a.kind = .symlink then linkText B s a.ino else none)

/-- What it should find of a row: how the row looks and, for a link, its target, as a path that
stays in the mount. -/
def foundAs (p : Str) (row : FsRow K) : Look × Option Str :=
  (lookOf row, if row.kind = .symlink then row.linkTarget.map (mountLinkText p) else none)

section Resolve

variable {σ : Type} {B : Backend σ} {t : Vm σ} {ino : ℕ} {n : Node}

/-- A handler that returns answers with its reply. -/
theorem handle_of_ok {r : Request} {reply : Reply} {t' : Vm σ} (h : handler B r t = .ok reply t') :
    handle B r t = (.ok reply, t') := by
  rw [handle, h]

/-- A handler that fails answers with its failure. -/
theorem handle_of_error {r : Request} {f : Fail} {t' : Vm σ} (h : handler B r t = .error f t') :
    handle B r t = (.error f, t') := by
  rw [handle, h]

/-- Without a name left the node's own attributes are found. -/
theorem resolve_nil (h : t.nodes.get? ino = some n) : resolve B t ino [] = some n.attr := by
  have hrun : handler B (.getattr ino) t = .ok (.attr n.attr) t := by
    show getattr ino t = _
    unfold getattr
    rw [bind_of_ok (show (get : Op σ (Vm σ)) t = .ok t t from rfl), h]
    rfl
  rw [resolve, handle_of_ok hrun]

/-- A name that is there leads on to its node. -/
theorem resolve_of_some {c : Str} {i : ℕ} {m : Node} (h : t.nodes.get? ino = some n)
    (hc : n.children.get? c = some i) (hm : t.nodes.get? i = some m) (cs : List Str) :
    resolve B t ino (c :: cs) = resolve B t m.attr.ino cs := by
  have hrun : handler B (.lookup ino (some c)) t = .ok (.entry m.attr) t := by
    show lookup ino (some c) t = _
    unfold lookup child
    rw [bind_of_ok (show (get : Op σ (Vm σ)) t = .ok t t from rfl), h]
    dsimp only
    rw [hc, Option.bind_some, hm]
    rfl
  rw [resolve, handle_of_ok hrun]

/-- A name that is not there leads nowhere. -/
theorem resolve_of_none {c : Str} (h : t.nodes.get? ino = some n) (hc : n.children.get? c = none)
    (cs : List Str) :
    resolve B t ino (c :: cs) = none := by
  have hrun : handler B (.lookup ino (some c)) t = .error (.errno .noent) t := by
    show lookup ino (some c) t = _
    unfold lookup child
    rw [bind_of_ok (show (get : Op σ (Vm σ)) t = .ok t t from rfl), h]
    dsimp only
    rw [hc]
    rfl
  rw [resolve, handle_of_error hrun]

end Resolve

namespace Mirroring

variable (h : Mirroring s)

include h

/-- A link is read as its row has it. -/
theorem linkText_eq {ino : ℕ} {n : Node} {row : FsRow K} (hn : s.nodes.get? ino = some n)
    (hrow : s.conn.db.fs.get? n.view = some row) (hkind : row.kind = .symlink) :
    linkText (Backend.ofDb E) s ino = row.linkTarget.map (mountLinkText n.view) := by
  obtain ⟨t, ht⟩ := Option.ne_none_iff_exists'.1 (h.rows.target _ row hrow hkind)
  have htarget : (Backend.ofDb E).linkTarget n.dbPath s.conn = some t := by
    show (s.conn.db.fs.get? n.dbPath).bind (fun row => row.linkTarget) = some t
    rw [(h.path hn).1, hrow]
    exact ht
  have hrun : handler (Backend.ofDb E)
    (.readlink ino) s = .ok (.target (mountLinkText n.view t)) s := by
    show readlink (Backend.ofDb E) ino s = _
    unfold readlink
    rw [bind_of_ok (show (get : Op (Conn K) (Vm (Conn K))) s = .ok s s from rfl), hn,
      bind_of_ok (show pick (some n) (.errno .noent) s = .ok n s from rfl), htarget]
    rfl
  rw [linkText, handle_of_ok hrun, ht]
  rfl

/-- From a directory on, the kernel finds the rows. The induction is on the names that are left. -/
theorem resolve_eq (cs : List Str) :
    ∀ ino n ds, s.nodes.get? ino = some n → (∀ d ∈ ds ++ cs, IsName d) →
    n.view = pathOf ds → ds ++ cs ≠ [] →
    (resolve (Backend.ofDb E) s ino cs).map (fun a =>
        (a.look, if a.kind = .symlink then linkText (Backend.ofDb E) s a.ino else none)) =
      (s.conn.db.fs.get? (ofNames (ds ++ cs))).map (foundAs (ofNames (ds ++ cs))) := by
  -- By induction on the names: at the end the node mirrors its row, before it the next name is an
  -- entry of the directory.
  induction cs with
  | nil =>
    intro ino n ds hn hnames hview hne
    rw [List.append_nil] at hnames hne ⊢
    rw [pathOf, if_neg hne] at hview
    have hi : ino ≠ rootIno := by
      intro heq
      rw [(h.rows.view_eq_root h.tree h.listed hn).2 heq] at hview
      exact ofNames_ne_root hnames hview.symm
    obtain ⟨row, hrow, hlook⟩ := h.rows.row ino n hn hi
    have hkind : n.attr.kind = row.kind := congrArg Look.kind hlook
    rw [resolve_nil hn, ← hview, hrow, Option.map_some, Option.map_some, hlook,
      h.rows.number ino n hn, hkind, foundAs]
    split_ifs with hlink
    · rw [h.linkText_eq hn hrow hlink]
    · rfl
  | cons c cs ih =>
    intro ino n ds hn hnames hview hne
    have hds : ∀ d ∈ ds, IsName d := fun d hd => hnames d (List.mem_append_left _ hd)
    have hc : IsName c := hnames c (by simp)
    have hcs : ∀ d ∈ cs, IsName d := fun d hd => hnames d (by simp [hd])
    have hjoin : join n.view c = ofNames (ds ++ [c]) := by rw [hview, join_pathOf hds]
    rcases hchild : n.children.get? c with _ | i
    · -- there is no row at the name and none below it
      have hclear := h.rows.no_row h.tree h.listed hn hc hchild hcs
      rw [hjoin, ← ofNames_append, List.append_assoc, List.singleton_append] at hclear
      rw [resolve_of_none hn hchild, hclear]
      rfl
    · obtain ⟨m, hm⟩ := h.tree.exists_node hn hchild
      obtain ⟨hmview, -, -⟩ := h.rows.path ino n c i m hn hchild hm
      rw [resolve_of_some hn hchild hm, h.rows.number i m hm, List.append_cons]
      refine ih i m (ds ++ [c]) hm ?_ ?_ (by simp)
      · rwa [← List.append_cons]
      · rw [hmview, hjoin, pathOf_concat]

/-- From the root on, the kernel finds exactly the rows. -/
theorem find_eq {cs : List Str} (hcs : ∀ c ∈ cs, IsName c) (hne : cs ≠ []) :
    find (Backend.ofDb E) s cs = (s.conn.db.fs.get? (ofNames cs)).map (foundAs (ofNames cs)) := by
  obtain ⟨r, hr, hview, -⟩ := h.tree.top
  exact h.resolve_eq cs rootIno r [] hr hcs hview hne

end Mirroring

/-! ## Runs -/

/-- A database with a directory and a file in it. -/
def shownDb : Db Bytes := endState (do
  vmAddDir "/d".toList 0o755 0 0
  vmAddBytes plainExt "/d/f".toList [1] 0o644 0 0) (initDb 0)

/-- A connection to it. -/
def shownConn : Conn Bytes := ⟨shownDb, none⟩

/-- A mount of it. -/
def shownMount : Vm (Conn Bytes) :=
  (new shownConn.db.fs [2, 3] shownConn ⟨0, 0⟩).toOption.getD ⟨shownConn, Table.empty, 0, ⟨0, 0⟩⟩

/-- The rows of the example can be mounted. -/
theorem new_shownConn : new shownConn.db.fs [2, 3] shownConn ⟨0, 0⟩ = .ok shownMount := rfl

/-- The nodes of the example are numbered from 2 on. -/
theorem inos_shownConn : List.Perm [2, 3] (inos shownConn.db.fs) := by decide +kernel

/-- The rows of the example make a tree. -/
theorem upright_shownConn : Upright shownConn.db.fs := by
  show Upright shownDb.fs
  -- the rows
  have hrows : ∀ p row, shownDb.fs.get? p = some row → (p = root ∧ row.kind = .dir) ∨
      (p = "/d".toList ∧ row.kind = .dir) ∨
      (p = "/d/f".toList ∧ row.kind = .file) := by
    intro p row hrow
    have hkeys : shownDb.fs.rows.map (fun r => (r.1, r.2.kind)) =
        [(root, .dir), ("/d".toList, .dir), ("/d/f".toList, .file)] := by decide +kernel
    have hmem : (p, row.kind) ∈ shownDb.fs.rows.map (fun r => (r.1, r.2.kind)) :=
      List.mem_map.2 ⟨(p, row), Table.get?_eq_some_iff.1 hrow, rfl⟩
    rw [hkeys] at hmem
    simpa using hmem
  refine ⟨fun p row hrow => ?_, fun p row hrow hroot hparent => ?_, fun p row hrow hlink => ?_⟩
  · rcases hrows p row hrow with ⟨rfl, -⟩ | ⟨rfl, -⟩ | ⟨rfl, -⟩
    · exact normal_root
    · show normalizeVmPath _ = _
      decide +kernel
    · show normalizeVmPath _ = _
      decide +kernel
  · rcases hrows p row hrow with ⟨rfl, -⟩ | ⟨rfl, -⟩ | ⟨rfl, -⟩
    · exact absurd rfl hroot
    · exact absurd (by decide +kernel) hparent
    · have hdir : (shownDb.fs.get? (Dbvm.parentOf "/d/f".toList)).map (fun row => row.kind) = some
        .dir := by decide +kernel
      exact Option.map_eq_some_iff.1 hdir
  · rcases hrows p row hrow with ⟨-, hkind⟩ | ⟨-, hkind⟩ | ⟨-, hkind⟩
    · rw [hkind] at hlink
      cases hlink
    · rw [hkind] at hlink
      cases hlink
    · rw [hkind] at hlink
      cases hlink

/-- Requests of a kernel. -/
def shownRequests : List Request :=
  [.mkdir 2 (some "x".toList) 0o755 1, .rename rootIno (some "d".toList) rootIno (some "e".toList)]

/-- The requests of the example keep to the manners. -/
theorem heeded_shownRequests : Heeded polite (Backend.ofDb plainExt) shownRequests shownMount := by
  have hname : ∀ c : Char, isWhitespace c = false → ∀ x ∈ some [c], polite.name x := by
    rintro c hc x hx ⟨d, hd, hwhite⟩
    rw [← Option.some.inj hx] at hd
    obtain rfl : c = d := by simpa using hd
    rw [hc] at hwhite
    cases hwhite
  exact ⟨hname 'x' (by decide), hname 'e' (by decide), trivial⟩

section Runs

variable {conn : Conn K} {owner : Owner}

/-- A mount of upright rows mirrors them after every run of requests. -/
theorem Upright.mirroring (hup : Upright conn.db.fs) (horder : order.Perm (inos conn.db.fs))
    (hnew : new conn.db.fs order conn owner = .ok s) {rs : List Request}
    (hrs : Heeded polite (Backend.ofDb E) rs s) :
    Mirroring (runAll (Backend.ofDb E) rs s) := by
  obtain ⟨s', hnew', hconn, hwhole, hmirrors⟩ := hup.mirrors horder conn owner
  obtain rfl : s = s' := Except.ok.inj (hnew.symm.trans hnew')
  refine (stays_mirroring E).runAll rs s ⟨hwhole, ?_⟩ hrs
  rw [hconn]
  exact hmirrors

/-- After every run of requests the kernel finds at every path what the row there says, the text of
a link included, and finds nothing where there is no row. -/
theorem mount_shows_rows {K : Type} [DecidableEq K] {E : Ext K} {s : Vm (Conn K)} {order : List ℕ}
    {conn : Conn K} {owner : Owner} (hup : Upright conn.db.fs)
    (horder : order.Perm (inos conn.db.fs)) (hnew : new conn.db.fs order conn owner = .ok s)
    (rs : List Request) (hrs : Heeded polite (Backend.ofDb E) rs s) (cs : List Str)
    (hcs : ∀ c ∈ cs, IsName c) (hne : cs ≠ []) :
    find (Backend.ofDb E) (runAll (Backend.ofDb E) rs s) cs =
      ((runAll (Backend.ofDb E) rs s).conn.db.fs.get? (ofNames cs)).map (foundAs (ofNames cs)) :=
  (hup.mirroring horder hnew hrs).find_eq hcs hne

/-- Requests of a kernel that makes a link beside a file and renames the directory. -/
def linkRequests : List Request :=
  [.symlink 2 (some "l".toList) "/d/f".toList 1,
    .rename rootIno (some "d".toList) rootIno (some "e".toList)]

/-- No name in these requests ends in white space. -/
theorem heeded_linkRequests : Heeded polite (Backend.ofDb plainExt) linkRequests shownMount := by
  have hname : ∀ c : Char, isWhitespace c = false → ∀ x ∈ some [c], polite.name x := by
    rintro c hc x hx ⟨d, hd, hwhite⟩
    rw [← Option.some.inj hx] at hd
    obtain rfl : c = d := by simpa using hd
    rw [hc] at hwhite
    cases hwhite
  exact ⟨hname 'l' (by decide), hname 'e' (by decide), trivial⟩

/-- The link is found in the renamed directory, its absolute target as a path from there; nothing is
left where it was. -/
theorem mount_shows_rows_linked :
    find (Backend.ofDb plainExt) (runAll (Backend.ofDb plainExt) linkRequests shownMount)
      ["e".toList, "l".toList] =
      some (⟨.symlink, 0o777, 4⟩, some "../d/f".toList) ∧
    find (Backend.ofDb plainExt) (runAll (Backend.ofDb plainExt) linkRequests shownMount)
      ["d".toList, "l".toList] =
      none := by
  have hshows : ∀ cs, (∀ c ∈ cs, IsName c) → cs ≠ [] →
      find (Backend.ofDb plainExt) (runAll (Backend.ofDb plainExt) linkRequests shownMount) cs =
        ((runAll (Backend.ofDb plainExt) linkRequests shownMount).conn.db.fs.get? (ofNames cs)).map
          (foundAs (ofNames cs)) :=
    mount_shows_rows upright_shownConn inos_shownConn new_shownConn linkRequests heeded_linkRequests
  rw [hshows _ (by decide) (by decide), hshows _ (by decide) (by decide)]
  exact ⟨by decide +kernel, by decide +kernel⟩

/-- A mount of the rows that a mount has left starts, in whatever order it takes its nodes, and the
kernel finds in it at every path what it has found in the one before. -/
theorem remount_same {K : Type} [DecidableEq K] {E : Ext K} {s : Vm (Conn K)} {order : List ℕ}
    {conn : Conn K} {owner : Owner} (hup : Upright conn.db.fs)
    (horder : order.Perm (inos conn.db.fs)) (hnew : new conn.db.fs order conn owner = .ok s)
    (rs : List Request) (hrs : Heeded polite (Backend.ofDb E) rs s) (order' : List ℕ)
    (horder' : order'.Perm (inos (runAll (Backend.ofDb E) rs s).conn.db.fs))
    (cache : Option (ChunkCache K)) (owner' : Owner) :
    ∃ s', new (runAll (Backend.ofDb E) rs s).conn.db.fs order'
        ⟨(runAll (Backend.ofDb E) rs s).conn.db, cache⟩
        owner' = .ok s' ∧
      ∀ cs, (∀ c ∈ cs, IsName c) → cs ≠ [] →
        find (Backend.ofDb E) s' cs = find (Backend.ofDb E) (runAll (Backend.ofDb E) rs s) cs := by
  have hend := hup.mirroring horder hnew hrs
  generalize runAll (Backend.ofDb E) rs s = t at hend horder'
  obtain ⟨s', hnew', hconn, hwhole, hmirrors⟩ :=
    (hend.rows.upright hend.tree hend.listed).mirrors horder' (⟨t.conn.db, cache⟩ : Conn K) owner'
  have hstart : Mirroring s' := by
    refine ⟨hwhole, ?_⟩
    rw [hconn]
    exact hmirrors
  refine ⟨s', hnew', fun cs hcs hne => ?_⟩
  rw [hstart.find_eq hcs hne, hend.find_eq hcs hne, hconn]

/-- The same link is found by the kernel that mounts the database again. -/
theorem remount_same_linked :
    ∃ s', new (runAll (Backend.ofDb plainExt) linkRequests shownMount).conn.db.fs [4, 3, 2]
        (⟨(runAll (Backend.ofDb plainExt) linkRequests shownMount).conn.db, none⟩ : Conn Bytes)
        ⟨0, 0⟩ = .ok s' ∧
      ∀ cs, (∀ c ∈ cs, IsName c) → cs ≠ [] →
        find (Backend.ofDb plainExt) s' cs =
          find (Backend.ofDb plainExt)
          (runAll (Backend.ofDb plainExt) linkRequests shownMount) cs :=
  remount_same upright_shownConn inos_shownConn new_shownConn linkRequests
  heeded_linkRequests [4, 3, 2]
    (by decide +kernel) none ⟨0, 0⟩

/-- A request that is answered with an error, when it sets no attributes, has changed neither the
tree nor the database. -/
theorem failed_request_changes_nothing {K : Type} [DecidableEq K] {E : Ext K} {s : Vm (Conn K)}
    {order : List ℕ} {conn : Conn K} {owner : Owner} (hup : Upright conn.db.fs)
    (horder : order.Perm (inos conn.db.fs)) (hnew : new conn.db.fs order conn owner = .ok s)
    (rs : List Request) (hrs : Heeded polite (Backend.ofDb E) rs s) (r : Request)
    (hr : r.Heeds polite (runAll (Backend.ofDb E) rs s).nodes)
    (hset : ∀ ino mode uid gid size atime mtime now,
      r ≠ .setattr ino mode uid gid size atime mtime now)
    {f : Fail} {s' : Vm (Conn K)}
    (hf : handle (Backend.ofDb E) r (runAll (Backend.ofDb E) rs s) = (.error f, s')) :
    s'.nodes = (runAll (Backend.ofDb E) rs s).nodes ∧
      s'.nextIno = (runAll (Backend.ofDb E) rs s).nextIno ∧
      s'.conn.db = (runAll (Backend.ofDb E) rs s).conn.db := by
  have hend := hup.mirroring horder hnew hrs
  generalize runAll (Backend.ofDb E) rs s = t at hend hr hf
  have hleft := (stays_mirroring E).handler_left hend r hr hset
  unfold handle at hf
  rcases hx : handler (Backend.ofDb E) r t with ⟨reply, t'⟩ | ⟨f', t'⟩
  · rw [hx] at hf
    cases hf
  · rw [Wp.of_error hx] at hleft
    rw [hx] at hf
    cases hf
    obtain ⟨-, rfl | ⟨c, hc, rfl⟩⟩ := hleft
    · exact ⟨rfl, rfl, rfl⟩
    · exact ⟨rfl, rfl, hend.db_of_fails hc⟩

/-- A pair is its two parts. -/
theorem pair_eq {α β : Type} {p : α × β} {a : α} (h : p.1 = a) : p = (a, p.2) := by rw [← h]

/-- The reason why a request has failed. -/
def failOf : Except Fail Reply → Option Fail
  | .error f => some f
  | .ok _ => none

/-- A reply with a reason is that failure. -/
theorem eq_error_of_failOf {reply : Except Fail Reply} {f : Fail} (h : failOf reply = some f) :
    reply = .error f := by
  cases reply with
  | error e => exact congrArg Except.error (Option.some.inj h)
  | ok r => cases h

/-- A directory that is not empty is not removed. -/
theorem handle_rmdir_shown : (handle (Backend.ofDb plainExt) (.rmdir rootIno (some "e".toList))
    (runAll (Backend.ofDb plainExt) shownRequests shownMount)).1 = .error (.errno .notempty) :=
  eq_error_of_failOf (by decide +kernel)

/-- The refused `rmdir` of the example changes neither nodes nor rows. -/
theorem failed_request_changes_nothing_shown :
    (handle (Backend.ofDb plainExt) (.rmdir rootIno (some "e".toList))
        (runAll (Backend.ofDb plainExt) shownRequests shownMount)).2.nodes =
      (runAll (Backend.ofDb plainExt) shownRequests shownMount).nodes ∧
    (handle (Backend.ofDb plainExt) (.rmdir rootIno (some "e".toList))
        (runAll (Backend.ofDb plainExt) shownRequests shownMount)).2.nextIno =
      (runAll (Backend.ofDb plainExt) shownRequests shownMount).nextIno ∧
    (handle (Backend.ofDb plainExt) (.rmdir rootIno (some "e".toList))
        (runAll (Backend.ofDb plainExt) shownRequests shownMount)).2.conn.db =
      (runAll (Backend.ofDb plainExt) shownRequests shownMount).conn.db :=
  failed_request_changes_nothing upright_shownConn inos_shownConn new_shownConn shownRequests
  heeded_shownRequests
    (.rmdir rootIno (some "e".toList)) trivial (fun _ _ _ _ _ _ _ _ heq => by cases heq)
    (pair_eq handle_rmdir_shown)

end Runs

end Dbvm.VmFuse
