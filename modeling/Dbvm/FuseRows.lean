import Dbvm.FuseMirror
import Dbvm.Lib.Moves
import Dbvm.Stream
import Dbvm.Undo.Sync

/-!
# The mount shows the rows in every run

Every request changes the node table and the rows together. When the database has done what it was
asked for, the rows have changed at the path of the node, or at the paths of all nodes that move,
and when it has failed they have not changed at all. So a mount that mirrors the rows when it starts
mirrors them after every run (`mount_shows_rows`), as long as the kernel gives no name that ends in
white space, which `normalize_vm_path` would take away, writes something and not nothing, and writes
to and cuts regular files only. The next mount of the rows, in whatever order it builds its table,
shows what the last one has shown (`remount_same`).
-/

namespace Dbvm.VmFuse

open Dbvm Lib Lib.Prog Lib.Forest Lib.Moves

variable {K : Type} [DecidableEq K] {fs fs' : Table Str (FsRow K)} {nodes : Table ℕ Node}

/-! ## Changes of both -/

/-- What the mount and the next one read of a row. -/
def readsOf (row : FsRow K) : Look × Option Str := (lookOf row, row.linkTarget)

namespace Mirrors

variable {nxt p ino newparent : ℕ} {n node np : Node} {x newName : Str} {moves : List Move}

omit [DecidableEq K] in
/-- Rows that read the same are mirrored as well. -/
theorem of_reads (h : Mirrors nodes fs)
    (hsame : ∀ q, (fs'.get? q).map readsOf = (fs.get? q).map readsOf) : Mirrors nodes fs' := by
  have hback : ∀ q row', fs'.get? q = some row' → ∃ row, fs.get? q = some row ∧
    readsOf row' = readsOf row := by
    intro q row' hrow'
    have hq := hsame q
    rw [hrow', Option.map_some, eq_comm, Option.map_eq_some_iff] at hq
    obtain ⟨row, hrow, heq⟩ := hq
    exact ⟨row, hrow, heq.symm⟩
  refine ⟨h.top, h.number, h.path, ?_, ?_, ?_⟩
  · intro i n hn hi
    obtain ⟨row, hrow, hlook⟩ := h.row i n hn hi
    have hq := hsame n.view
    rw [hrow, Option.map_some, Option.map_eq_some_iff] at hq
    obtain ⟨row', hrow', heq⟩ := hq
    exact ⟨row', hrow', hlook.trans (congrArg Prod.fst heq).symm⟩
  · intro q row' hrow' hne
    obtain ⟨row, hrow, -⟩ := hback q row' hrow'
    exact h.node q row hrow hne
  · intro q row' hrow' hlink
    obtain ⟨row, hrow, heq⟩ := hback q row' hrow'
    have hkind : row'.kind = row.kind := congrArg (fun r => r.1.kind) heq
    have htarget : row'.linkTarget = row.linkTarget := congrArg Prod.snd heq
    rw [htarget]
    exact h.target q row hrow (hkind ▸ hlink)

omit [DecidableEq K] in
/-- New attributes of a node and of its row keep the mirror. -/
theorem edited (h : Mirrors nodes fs) (htree : Tree nodes nxt) (hlisted : Listed nodes)
    (hn : nodes.get? ino = some n) {f : Attr → Attr} (hnumber : ∀ a, (f a).ino = a.ino)
    (hother : ∀ q, q ≠ n.view → fs'.get? q = fs.get? q)
    (hlook : ∀ row, fs.get? n.view = some row → ino ≠ rootIno →
      ∃ row', fs'.get? n.view = some row' ∧ (f n.attr).look = lookOf row')
    (hlink : ∀ row', fs'.get? n.view = some row' → row'.kind = .symlink → row'.linkTarget ≠ none) :
    Mirrors (nodes.update ino fun n => { n with attr := f n.attr }) fs' := by
  have hback : ∀ j m, (nodes.update ino fun n => { n with attr := f n.attr }).get? j = some m →
      ∃ k, nodes.get? j = some k ∧
      m.view = k.view ∧ m.dbPath = k.dbPath ∧ m.children = k.children ∧
      m.attr = if j = ino then f k.attr else k.attr := by
    intro j m hm
    rw [Table.get?_update_eq_map, Option.map_eq_some_iff] at hm
    obtain ⟨k, hk, rfl⟩ := hm
    refine ⟨k, hk, ?_⟩
    split_ifs
    · exact ⟨rfl, rfl, rfl, rfl⟩
    · exact ⟨rfl, rfl, rfl, rfl⟩
  have hforth : ∀ j k, nodes.get? j = some k →
      ∃ m, (nodes.update ino fun n => { n with attr := f n.attr }).get? j = some m ∧
      m.view = k.view := by
    intro j k hk
    refine ⟨if j = ino then { k with attr := f k.attr }
      else k, by rw [Table.get?_update_eq_map, hk, Option.map_some], ?_⟩
    split_ifs <;> rfl
  -- Only the attributes of one node change, and the row with them.
  refine ⟨?_, ?_, ?_, ?_, ?_, ?_⟩
  · intro m hm
    obtain ⟨k, hk, -, hpath, -⟩ := hback _ m hm
    rw [hpath, h.top k hk]
  · intro j m hm
    obtain ⟨k, hk, -, -, -, hattr⟩ := hback j m hm
    rw [hattr, ← h.number j k hk]
    split_ifs
    · exact hnumber k.attr
    · rfl
  · intro q m y c m' hm hc hm'
    obtain ⟨k, hk, hview, -, hchildren, -⟩ := hback q m hm
    obtain ⟨k', hk', hview', hpath', -, -⟩ := hback c m' hm'
    rw [hchildren] at hc
    rw [hview', hpath', hview]
    exact h.path q k y c k' hk hc hk'
  · intro j m hm hj
    obtain ⟨k, hk, hview, -, -, hattr⟩ := hback j m hm
    obtain ⟨row, hrow, hrowlook⟩ := h.row j k hk hj
    rw [hview, hattr]
    split_ifs with hji
    · subst hji
      obtain rfl : n = k := Option.some.inj (hn.symm.trans hk)
      exact hlook row hrow hj
    · have hne : k.view ≠ n.view := fun heq => hji (h.eq_of_view htree hlisted hk hn heq)
      exact ⟨row, by rw [hother _ hne, hrow], hrowlook⟩
  · intro q row' hrow' hne
    by_cases hq : q = n.view
    · obtain ⟨m, hm, hview⟩ := hforth ino n hn
      exact ⟨ino, m, hm, hview.trans hq.symm⟩
    · rw [hother q hq] at hrow'
      obtain ⟨i, k, hk, hview⟩ := h.node q row' hrow' hne
      obtain ⟨m, hm, hmview⟩ := hforth i k hk
      exact ⟨i, m, hm, hmview.trans hview⟩
  · intro q row' hrow' hkind
    by_cases hq : q = n.view
    · subst hq
      exact hlink row' hrow' hkind
    · rw [hother q hq] at hrow'
      exact h.target q row' hrow' hkind

omit [DecidableEq K] in
/-- A new entry and its row keep the mirror. -/
theorem made (h : Mirrors nodes fs) (htree : Tree nodes nxt) (hp : nodes.get? p = some n)
    (hpath : n.dbPath = n.view) {m : Node} (hview : m.view = join n.view x)
    (hdb : m.dbPath = join n.dbPath x) (hbare : m.children = Table.empty)
    (hnormal : Normal (join n.view x)) {row' : FsRow K}
    (hrow : fs'.get? (join n.view x) = some row') (hlook : m.attr.look = lookOf row')
    (hnumber : m.attr.ino = nxt) (hlink : row'.kind = .symlink → row'.linkTarget ≠ none)
    (hother : ∀ q, q ≠ join n.view x → fs'.get? q = fs.get? q)
    (hnew : fs.get? (join n.view x) = none) :
    Mirrors (Tree.added nodes nxt p x m) fs' := by
  have hget := Tree.get?_added nodes nxt p x m
  have hback : ∀ j k', (Tree.added nodes nxt p x m).get? j = some k' → j = nxt ∧ k' = m ∨ j ≠ nxt ∧
      ∃ k, nodes.get? j = some k ∧ k'.view = k.view ∧ k'.dbPath = k.dbPath ∧ k'.attr = k.attr ∧
        k'.children = if j = p then k.children.put x nxt else k.children := by
    intro j k' hk'
    rw [hget] at hk'
    by_cases hj : j = nxt
    · rw [if_pos hj] at hk'
      exact Or.inl ⟨hj, (Option.some.inj hk').symm⟩
    · rw [if_neg hj, Option.map_eq_some_iff] at hk'
      obtain ⟨k, hk, rfl⟩ := hk'
      refine Or.inr ⟨hj, k, hk, ?_⟩
      split_ifs
      · exact ⟨rfl, rfl, rfl, rfl⟩
      · exact ⟨rfl, rfl, rfl, rfl⟩
  have hfreshRow : ∀ q row, fs.get? q = some row → q ≠ join n.view x := by
    rintro q row hq rfl
    rw [hnew] at hq
    cases hq
  -- Each part of the mirror, for the new node and for those that were there.
  refine ⟨?_, ?_, ?_, ?_, ?_, ?_⟩
  · intro k' hk'
    rcases hback _ k' hk' with ⟨heq, -⟩ | ⟨-, k, hk, -, hdbk, -⟩
    · obtain ⟨r, hr, -⟩ := htree.top
      exact absurd heq (htree.fresh _ r hr).ne
    · rw [hdbk, h.top k hk]
  · intro j k' hk'
    rcases hback j k' hk' with ⟨heq, rfl⟩ | ⟨-, k, hk, -, -, hkattr, -⟩
    · rw [hnumber, heq]
    · rw [hkattr, h.number j k hk]
  · intro q k' y c m' hk' hc hm'
    rcases hback q k' hk' with ⟨-, rfl⟩ | ⟨-, k, hk, hkview, -, -, hchildren⟩
    · rw [hbare, Table.get?_empty] at hc
      cases hc
    have hold : k.children.get? y = some c → m'.view = join k'.view y ∧ m'.dbPath = m'.view ∧
      Normal m'.view := by
      intro hc₀
      obtain ⟨e, he⟩ := htree.exists_node hk hc₀
      rcases hback c m' hm' with ⟨heq, -⟩ | ⟨-, e', he', heview, hepath, -⟩
      · exact absurd heq (htree.fresh c e he).ne
      · rw [heview, hepath, hkview]
        exact h.path q k y c e' hk hc₀ he'
    rw [hchildren] at hc
    split_ifs at hc with hq
    · rw [Table.get?_put] at hc
      split_ifs at hc with hy
      · -- the new entry
        obtain rfl := Option.some.inj hc
        subst hq
        obtain rfl : k = n := Option.some.inj (hk.symm.trans hp)
        rw [hget, if_pos rfl] at hm'
        rw [← Option.some.inj hm', hview, hdb, hkview, hy, hpath]
        exact ⟨rfl, rfl, hnormal⟩
      · exact hold hc
    · exact hold hc
  · intro j k' hk' hj
    rcases hback j k' hk' with ⟨-, rfl⟩ | ⟨-, k, hk, hkview, -, hkattr, -⟩
    · exact ⟨row', by rw [hview, hrow], hlook⟩
    · obtain ⟨row, hkrow, hklook⟩ := h.row j k hk hj
      exact ⟨row, by rw [hkview, hother _ (hfreshRow _ row hkrow), hkrow], by rw [hkattr, hklook]⟩
  · intro q row hq hne
    by_cases hnewpath : q = join n.view x
    · exact ⟨nxt, m, by rw [hget, if_pos rfl], hview.trans hnewpath.symm⟩
    · rw [hother q hnewpath] at hq
      obtain ⟨i, k, hk, hkview⟩ := h.node q row hq hne
      refine ⟨i, _, by rw [hget, if_neg (htree.fresh i k hk).ne, hk, Option.map_some], ?_⟩
      rw [← hkview]
      split_ifs <;> rfl
  · intro q row hq hkind
    by_cases hnewpath : q = join n.view x
    · rw [hnewpath, hrow] at hq
      obtain rfl := Option.some.inj hq
      exact hlink hkind
    · rw [hother q hnewpath] at hq
      exact h.target q row hq hkind

omit [DecidableEq K] in
/-- An entry without entries of its own goes, and its row. -/
theorem removed (h : Mirrors nodes fs) (htree : Tree nodes nxt) (hlisted : Listed nodes)
    (hp : nodes.get? p = some n) (hx : n.children.get? x = some ino)
    (hnode : nodes.get? ino = some node) (hbare : ∀ y, node.children.get? y = none)
    (hrows : ∀ q, fs'.get? q = if q = node.view then none else fs.get? q) :
    Mirrors (removeNode nodes ino) fs' := by
  have hget := fun (j : ℕ) (hj : j ≠ ino) => htree.get?_removeBare hp hx hnode hbare hj
  have hgone : (removeNode nodes ino).get? ino = none :=
    (htree.get?_removeNode hp hx ino).1 Relation.ReflTransGen.refl
  have hback : ∀ j k', (removeNode nodes ino).get? j = some k' → j ≠ ino ∧
      ∃ k, nodes.get? j = some k ∧
      k'.view = k.view ∧ k'.dbPath = k.dbPath ∧ k'.attr = k.attr ∧
        ∀ y c, k'.children.get? y = some c → k.children.get? y = some c := by
    intro j k' hk'
    have hj : j ≠ ino := by
      rintro rfl
      rw [hgone] at hk'
      cases hk'
    rw [hget j hj, Option.map_eq_some_iff] at hk'
    obtain ⟨k, hk, rfl⟩ := hk'
    refine ⟨hj, k, hk, ?_⟩
    split_ifs
    · refine ⟨rfl, rfl, rfl, fun y c hc => ?_⟩
      rw [get?_without] at hc
      split_ifs at hc
      exact hc
    · exact ⟨rfl, rfl, rfl, fun _ _ hc => hc⟩
  -- Node and row of `ino` go together; the other nodes keep theirs.
  refine ⟨?_, ?_, ?_, ?_, ?_, ?_⟩
  · intro k' hk'
    obtain ⟨-, k, hk, -, hpath, -⟩ := hback _ k' hk'
    rw [hpath, h.top k hk]
  · intro j k' hk'
    obtain ⟨-, k, hk, -, -, hattr, -⟩ := hback j k' hk'
    rw [hattr, h.number j k hk]
  · intro q k' y c m' hk' hc hm'
    obtain ⟨-, k, hk, hview, -, -, hchildren⟩ := hback q k' hk'
    obtain ⟨-, m, hm, hmview, hmpath, -⟩ := hback c m' hm'
    rw [hmview, hmpath, hview]
    exact h.path q k y c m hk (hchildren y c hc) hm
  · intro j k' hk' hj
    obtain ⟨hne, k, hk, hview, -, hattr, -⟩ := hback j k' hk'
    obtain ⟨row, hrow, hlook⟩ := h.row j k hk hj
    refine ⟨row, ?_, by rw [hattr, hlook]⟩
    rw [hview, hrows, if_neg fun heq => hne (h.eq_of_view htree hlisted hk hnode heq), hrow]
  · intro q row hq hne
    rw [hrows] at hq
    split_ifs at hq with hqview
    obtain ⟨i, k, hk, hview⟩ := h.node q row hq hne
    have hi : i ≠ ino := by
      rintro rfl
      rw [hk] at hnode
      exact hqview (by rw [← hview, Option.some.inj hnode])
    refine ⟨i, _, by rw [hget i hi, hk, Option.map_some], ?_⟩
    rw [← hview]
    split_ifs <;> rfl
  · intro q row hq hkind
    rw [hrows] at hq
    split_ifs at hq
    exact h.target q row hq hkind

/-! ## Moves -/

omit [DecidableEq K] in
/-- What is below an entry has its path with more names. -/
theorem view_of_reach (h : Mirrors nodes fs) (htree : Tree nodes nxt)
    (hnode : nodes.get? ino = some node) (hlong : 1 < node.view.length) {i : ℕ}
    (hr : Reach childInos nodes ino i) :
    ∃ k names, nodes.get? i = some k ∧ (∀ c ∈ names, IsName c) ∧
    k.view = node.view ++ ofNames names := by
  induction hr with
  | refl => exact ⟨node, [], hnode, by simp, (List.append_nil _).symm⟩
  | @tail q c _ hc ih =>
    obtain ⟨k, names, hk, hnames, hview⟩ := ih
    obtain ⟨k', y, hk', hy⟩ := mem_next_iff.1 hc
    obtain rfl : k = k' := Option.some.inj (hk.symm.trans hk')
    obtain ⟨-, hyname, m, hm, -⟩ := htree.kid q k y c hk hy
    obtain ⟨hmview, -, -⟩ := h.path q k y c m hk hy hm
    have hklong : 1 < k.view.length := by
      rw [hview, List.length_append]
      omega
    refine ⟨m, names ++ [y], hm, ?_, ?_⟩
    · intro d hd
      rcases List.mem_append.1 hd with hd | hd
      · exact hnames d hd
      · rw [List.mem_singleton.1 hd]
        exact hyname
    · rw [hmview, join_eq, stem_of_length hklong, hview, ofNames_append, ofNames_cons, ofNames_nil]
      simp

omit [DecidableEq K] in
/-- At a free name of a directory there is no row, and none below. -/
theorem no_row (h : Mirrors nodes fs) (htree : Tree nodes nxt) (hlisted : Listed nodes)
    (hnp : nodes.get? newparent = some np) (hname : IsName newName)
    (hfree : np.children.get? newName = none) {names : List Str} (hnames : ∀ c ∈ names, IsName c) :
    fs.get? (join np.view newName ++ ofNames names) = none := by
  rcases hrow : fs.get? (join np.view newName ++ ofNames names) with _ | row
  · rfl
  -- a row there has a row at the free name itself
  obtain ⟨row', hrow'⟩ : ∃ row', fs.get? (join np.view newName) = some row' := by
    obtain rfl | ⟨init, last, rfl⟩ := names.eq_nil_or_concat
    · rw [ofNames_nil, List.append_nil] at hrow
      exact ⟨row, hrow⟩
    rw [List.concat_eq_append] at hrow hnames
    obtain ⟨ds, hds, hview⟩ : ∃ ds, (∀ d ∈ ds, IsName d) ∧ np.view = pathOf ds := by
      rcases (h.dbPath_eq htree hlisted hnp).2.shape with hroot | ⟨cs, hne, hcs, hview⟩
      · exact ⟨[], by simp, hroot⟩
      · exact ⟨cs, hcs, by rw [hview, pathOf, if_neg hne]⟩
    have hall : ∀ d ∈ (ds ++ [newName] ++ init) ++ [last], IsName d := by
      intro d hd
      simp only [List.append_assoc, List.mem_append, List.mem_singleton] at hd
      rcases hd with hd | rfl | hd | rfl
      · exact hds d hd
      · exact hname
      · exact hnames d (by simp [hd])
      · exact hnames d (by simp)
    rw [hview, join_pathOf hds, ← ofNames_append, ← List.append_assoc] at hrow
    obtain ⟨d, hd, -⟩ := (h.upright htree hlisted).dirs _ last hall ⟨row, hrow⟩
      (ds ++ [newName]) (by simp)
      (List.prefix_append _ _)
    exact ⟨d, by rw [hview, join_pathOf hds, hd]⟩
  obtain ⟨i, m, hm, hview⟩ := h.node _ row' hrow' (join_ne_root hname)
  rw [h.get?_children htree hlisted hnp hname hm hview] at hfree
  cases hfree

/-- A path stays normal when only what is in front of its names changes. -/
theorem normal_moved {ss ts names : List Str} (hss : ∀ c ∈ ss, IsName c)
    (hts : ∀ c ∈ ts, IsName c) (hnames : ∀ c ∈ names, IsName c) (hne : names ≠ [])
    (h : Normal (ofNames (ss ++ names))) : Normal (ofNames (ts ++ names)) := by
  obtain ⟨init, last, rfl⟩ : ∃ init last, names = init ++ [last] :=
    ⟨_, _, (List.dropLast_append_getLast hne).symm⟩
  have hs : ∀ d ∈ (ss ++ init) ++ [last], IsName d := by
    intro d hd
    rw [List.append_assoc] at hd
    rcases List.mem_append.1 hd with hd | hd
    · exact hss d hd
    · exact hnames d hd
  have ht : ∀ d ∈ (ts ++ init) ++ [last], IsName d := by
    intro d hd
    rw [List.append_assoc] at hd
    rcases List.mem_append.1 hd with hd | hd
    · exact hts d hd
    · exact hnames d hd
  rw [← List.append_assoc] at h ⊢
  exact (normal_ofNames_concat ht).2 ((normal_ofNames_concat hs).1 h)

/-- What the moves of a rename say: the paths of each node before and after. -/
def MovesPaths (node np : Node) (newName : Str) (moves : List Move) : Prop := ∀ m ∈ moves, ∃ rel,
  m.oldDb = node.view ++ rel ∧ m.newDb = join np.view newName ++ rel ∧
  m.newView = join np.view newName ++ rel

omit [DecidableEq K] in
/-- Each node below the entry has its move. -/
theorem exists_move (h : Mirrors nodes fs) (htree : Tree nodes nxt)
    (hf : Found nodes ino newparent newName node np moves) (hlong : 1 < node.view.length)
    (hpaths : MovesPaths node np newName moves) {i : ℕ} (hr : Reach childInos nodes ino i) :
    ∃ k names m,
      nodes.get? i = some k ∧ (∀ c ∈ names, IsName c) ∧ k.view = node.view ++ ofNames names ∧
        m ∈ moves ∧ m.ino = i ∧
        m.oldDb = k.view ∧ m.newDb = join np.view newName ++ ofNames names := by
  obtain ⟨k, names, hk, hnames, hview⟩ := h.view_of_reach htree hf.isNode hlong hr
  obtain ⟨m, hm, hmi⟩ := List.mem_map.1 ((hf.below.mem_iff i).2 hr)
  obtain ⟨k', rel, hk', hrel, hnewView⟩ := hf.below.view m hm
  obtain ⟨rel', holdDb, hnewDb, hnewView'⟩ := hpaths m hm
  rw [hmi, hk] at hk'
  rw [← Option.some.inj hk', hview] at hrel
  rw [hnewView] at hnewView'
  rw [← List.append_cancel_left hnewView', ← List.append_cancel_left hrel] at holdDb hnewDb
  exact ⟨k, names, m, hk, hnames, hview, hm, hmi, holdDb.trans hview.symm, hnewDb⟩

omit [DecidableEq K] in
/-- An entry moves to a free name of a directory with all that is below it, and so do the rows. -/
theorem moved (h : Mirrors nodes fs) (htree : Tree nodes nxt) (hlisted : Listed nodes)
    (hf : Found nodes ino newparent newName node np moves) (hp : nodes.get? p = some n)
    (hx : n.children.get? x = some ino) (hfree : np.children.get? newName = none)
    (hnormal : Normal (join np.view newName)) (hpaths : MovesPaths node np newName moves)
    (hnew : ∀ m ∈ moves, fs'.get? m.newDb = fs.get? m.oldDb)
    (hold : ∀ m ∈ moves, fs'.get? m.oldDb = none)
    (hsame : ∀ q, (∀ m ∈ moves, q ≠ m.oldDb ∧ q ≠ m.newDb) → fs'.get? q = fs.get? q) :
    Mirrors (movedNodes nodes ino p x newparent newName moves) fs' := by
  have hnode := hf.isNode
  obtain ⟨hnp, -⟩ := hf.newDir
  have hlong := (htree.length_lt hp hx hnode).2
  have hdb : ∀ {i k}, nodes.get? i = some k → k.dbPath = k.view ∧ Normal k.view :=
    fun hk => h.dbPath_eq htree hlisted hk
  have hmoved : ∀ i, Reach childInos nodes ino i → _ :=
    fun i hr => h.exists_move htree hf hlong hpaths hr
  have hreach : ∀ m ∈ moves, Reach childInos nodes ino m.ino :=
    fun m hm => (hf.below.mem_iff m.ino).1 (List.mem_map_of_mem hm)
  -- no row was where one comes
  have hclear : ∀ names, (∀ c ∈ names, IsName c) →
    fs.get? (join np.view newName ++ ofNames names) = none :=
    fun names hnames => h.no_row htree hlisted hnp hf.name hfree hnames
  have hapart : ∀ j k row, nodes.get? j = some k → fs.get? k.view = some row →
      ¬ Reach childInos nodes ino j →
      fs'.get? k.view = fs.get? k.view := by
    intro j k row hk hrow hr
    refine hsame _ fun m hm => ?_
    obtain ⟨k', names, m', hk', hnames, -, hm', hmi, holdDb, hnewDb⟩ := hmoved m.ino (hreach m hm)
    obtain rfl : m' = m := List.inj_on_of_nodup_map hf.below.nodup hm' hm hmi
    constructor
    · intro heq
      rw [holdDb] at heq
      exact hr (h.eq_of_view htree hlisted hk hk' heq ▸ hreach m' hm)
    · intro heq
      rw [heq, hnewDb, hclear names hnames] at hrow
      cases hrow
  have hforth : ∀ {j k}, nodes.get? j = some k → _ :=
    fun hk => Tree.get?_movedNodes p newparent x hf.below hk
  have hback : ∀ {j k'}, (movedNodes nodes ino p x newparent newName moves).get? j = some k' →
    ∃ k, nodes.get? j = some k := by
    intro j k' hk'
    rcases hk : nodes.get? j with _ | k
    · rw [Tree.movedNodes_none hf.below p newparent x hk] at hk'
      cases hk'
    · exact ⟨k, rfl⟩
  -- the paths of a node afterwards
  have hview : ∀ {j k k'}, nodes.get? j = some k →
      (movedNodes nodes ino p x newparent newName moves).get? j = some k' →
      k'.dbPath = k'.view ∧ (¬ Reach childInos nodes ino j → k'.view = k.view) ∧ ∀ names,
        Reach childInos nodes ino j →
        k.view = node.view ++ ofNames names → k'.view = join np.view newName ++ ofNames names := by
    intro j k k' hk hk'
    obtain ⟨k'', hk'', -, -, -, hstay, hgo⟩ := hforth hk
    obtain rfl : k' = k'' := Option.some.inj (hk'.symm.trans hk'')
    obtain ⟨hdbstay, hdbgo⟩ := Tree.dbPath_movedNodes p newparent x hf.below hk hk'
    refine ⟨?_, hstay, fun names => hgo (ofNames names)⟩
    by_cases hr : Reach childInos nodes ino j
    · obtain ⟨k₂, names, m, hk₂, -, hview, hm, hmi, -, hnewDb⟩ := hmoved j hr
      obtain rfl : k = k₂ := Option.some.inj (hk.symm.trans hk₂)
      rw [hdbgo m hm hmi, hnewDb, hgo (ofNames names) hr hview]
    · rw [hdbstay hr, hstay hr, (hdb hk).1]
  refine ⟨?_, ?_, ?_, ?_, ?_, ?_⟩
  · intro r' hr'
    obtain ⟨r, hr, hroot, -⟩ := htree.top
    obtain ⟨hsamePath, hstay, -⟩ := hview hr hr'
    rw [hsamePath, hstay (htree.not_reach_root hp hx), hroot]
  · intro j k' hk'
    obtain ⟨k, hk⟩ := hback hk'
    obtain ⟨k'', hk'', hattr, -⟩ := hforth hk
    obtain rfl : k' = k'' := Option.some.inj (hk'.symm.trans hk'')
    rw [hattr, h.number j k hk]
  · intro q k' y c m' hk' hc hm'
    obtain ⟨k, hk⟩ := hback hk'
    obtain ⟨m, hm⟩ := hback hm'
    obtain ⟨k'', hk'', -, -, hchildren, -, -⟩ := hforth hk
    obtain rfl : k' = k'' := Option.some.inj (hk'.symm.trans hk'')
    obtain ⟨-, hkstay, hkgo⟩ := hview hk hk'
    obtain ⟨hmdb, hmstay, hmgo⟩ := hview hm hm'
    rw [hchildren] at hc
    by_cases hisnew : q = newparent ∧ y = newName
    · -- the entry under its new name
      rw [if_pos hisnew] at hc
      obtain rfl := Option.some.inj hc
      obtain ⟨rfl, rfl⟩ := hisnew
      obtain rfl : k = np := Option.some.inj (hk.symm.trans hnp)
      obtain rfl : m = node := Option.some.inj (hm.symm.trans hnode)
      have hm'view := hmgo [] Relation.ReflTransGen.refl (by rw [ofNames_nil, List.append_nil])
      rw [ofNames_nil, List.append_nil] at hm'view
      rw [hmdb, hkstay hf.outside, hm'view]
      exact ⟨rfl, rfl, hnormal⟩
    · rw [if_neg hisnew] at hc
      by_cases hisold : q = p ∧ y = x
      · rw [if_pos hisold] at hc
        cases hc
      rw [if_neg hisold] at hc
      obtain ⟨hjoin, -, hmnormal⟩ := h.path q k y c m hk hc hm
      obtain ⟨-, hy, -⟩ := htree.kid q k y c hk hc
      rw [hmdb]
      by_cases hr : Reach childInos nodes ino q
      · -- an entry of a directory that moves
        obtain ⟨k₂, names, -, hk₂, hnames, hkview, -⟩ := hmoved q hr
        obtain rfl : k = k₂ := Option.some.inj (hk.symm.trans hk₂)
        have hklong : 1 < k.view.length := by
          rw [hkview, List.length_append]
          omega
        have hmview : m.view = node.view ++ ofNames (names ++ [y]) := by
          rw [hjoin, join_eq, stem_of_length hklong, hkview, ofNames_append, ofNames_cons,
            ofNames_nil]
          simp
        have hrc : Reach childInos nodes ino c := hr.tail (mem_next_iff.2 ⟨k, y, hk, hc⟩)
        have hk'view := hkgo names hr hkview
        have hm'view := hmgo (names ++ [y]) hrc hmview
        have hk'long : 1 < k'.view.length := by
          have hpos : 0 < newName.length := List.length_pos_iff.2 hf.name.ne_nil
          rw [hk'view, join_eq, List.length_append, List.length_append, List.length_cons]
          omega
        refine ⟨?_, rfl, ?_⟩
        · rw [hm'view, join_eq k'.view, stem_of_length hk'long, hk'view, ofNames_append,
            ofNames_cons, ofNames_nil]
          simp
        · rw [hm'view]
          obtain ⟨ss, hss, hSS⟩ : ∃ ss, (∀ d ∈ ss, IsName d) ∧ node.view = ofNames ss := by
            rcases (hdb hnode).2.shape with hroot | ⟨cs, -, hcs, hcsview⟩
            · rw [hroot] at hlong
              exact absurd hlong (by decide)
            · exact ⟨cs, hcs, hcsview⟩
          obtain ⟨ts, hts, hTT⟩ : ∃ ts, (∀ d ∈ ts, IsName d) ∧
            join np.view newName = ofNames ts := by
            rcases hnormal.shape with hroot | ⟨cs, -, hcs, hcsview⟩
            · exact absurd hroot (join_ne_root hf.name)
            · exact ⟨cs, hcs, hcsview⟩
          have hall : ∀ d ∈ names ++ [y], IsName d := by
            intro d hd
            rcases List.mem_append.1 hd with hd | hd
            · exact hnames d hd
            · rw [List.mem_singleton.1 hd]
              exact hy
          rw [hmview, hSS, ← ofNames_append] at hmnormal
          rw [hTT, ← ofNames_append]
          exact normal_moved hss hts hall (by simp) hmnormal
      · have hci : c ≠ ino := by
          rintro rfl
          obtain rfl : q = p := htree.parent_unique (mem_next_iff.2 ⟨k, y, hk, hc⟩)
            (mem_next_iff.2 ⟨n, x, hp, hx⟩)
          obtain rfl : k = n := Option.some.inj (hk.symm.trans hp)
          exact hisold ⟨rfl, htree.name_unique hk hc hx⟩
        have hrc : ¬ Reach childInos nodes ino c := fun hr' => hr (htree.reach_parent hr' hci hk hc)
        rw [hmstay hrc, hkstay hr]
        exact ⟨hjoin, rfl, hmnormal⟩
  · intro j k' hk' hj
    obtain ⟨k, hk⟩ := hback hk'
    obtain ⟨k'', hk'', hattr, -⟩ := hforth hk
    obtain rfl : k' = k'' := Option.some.inj (hk'.symm.trans hk'')
    obtain ⟨-, hstay, hgo⟩ := hview hk hk'
    obtain ⟨row, hrow, hlook⟩ := h.row j k hk hj
    refine ⟨row, ?_, by rw [hattr, hlook]⟩
    by_cases hr : Reach childInos nodes ino j
    · obtain ⟨k₂, names, m, hk₂, -, hkview, hm, -, holdDb, hnewDb⟩ := hmoved j hr
      obtain rfl : k = k₂ := Option.some.inj (hk.symm.trans hk₂)
      rw [hgo names hr hkview, ← hnewDb, hnew m hm, holdDb, hrow]
    · rw [hstay hr, hapart j k row hk hrow hr, hrow]
  · intro q row hq hne
    by_cases hmem : ∃ m ∈ moves, q = m.newDb
    · obtain ⟨m, hm, rfl⟩ := hmem
      obtain ⟨k, names, m', hk, -, hkview, hm', hmi, -, hnewDb⟩ := hmoved m.ino (hreach m hm)
      obtain rfl : m' = m := List.inj_on_of_nodup_map hf.below.nodup hm' hm hmi
      obtain ⟨k', hk', -⟩ := hforth hk
      exact ⟨m'.ino, k', hk', by rw [(hview hk hk').2.2 names (hreach m' hm) hkview, hnewDb]⟩
    by_cases hgone : ∃ m ∈ moves, q = m.oldDb
    · obtain ⟨m, hm, rfl⟩ := hgone
      rw [hold m hm] at hq
      cases hq
    push Not at hmem hgone
    rw [hsame q fun m hm => ⟨hgone m hm, hmem m hm⟩] at hq
    obtain ⟨i, k, hk, rfl⟩ := h.node q row hq hne
    have hr : ¬ Reach childInos nodes ino i := by
      intro hr
      obtain ⟨k₂, -, m, hk₂, -, -, hm, -, holdDb, -⟩ := hmoved i hr
      obtain rfl : k = k₂ := Option.some.inj (hk.symm.trans hk₂)
      exact hgone m hm holdDb.symm
    obtain ⟨k', hk', -⟩ := hforth hk
    exact ⟨i, k', hk', (hview hk hk').2.1 hr⟩
  · intro q row hq hkind
    by_cases hmem : ∃ m ∈ moves, q = m.newDb
    · obtain ⟨m, hm, rfl⟩ := hmem
      rw [hnew m hm] at hq
      exact h.target _ row hq hkind
    by_cases hgone : ∃ m ∈ moves, q = m.oldDb
    · obtain ⟨m, hm, rfl⟩ := hgone
      rw [hold m hm] at hq
      cases hq
    push Not at hmem hgone
    rw [hsame q fun m hm => ⟨hgone m hm, hmem m hm⟩] at hq
    exact h.target q row hq hkind

end Mirrors

/-! ## What the database does -/

section Database

variable {E : Ext K} {c c' : Conn K} {db db' : Db K} {v : Str} {u : Unit}

omit [DecidableEq K] in
/-- A program on the mount's database that returns has returned there. -/
theorem onDb_eq_ok {α : Type} {x : Sql K α} {a : α} (h : onDb x c = .ok a c') :
    x c.db = .ok a c'.db := by
  unfold onDb at h
  rcases hx : x c.db with ⟨b, d⟩ | ⟨e, d⟩
  · rw [hx] at h
    cases h
    rfl
  · rw [hx] at h
    cases h

omit [DecidableEq K] in
/-- A program on the mount's database that fails has failed there. -/
theorem onDb_eq_error {α : Type} {x : Sql K α} {e : Err} (h : onDb x c = .error e c') :
    x c.db = .error e c'.db := by
  unfold onDb at h
  rcases hx : x c.db with ⟨b, d⟩ | ⟨e', d⟩
  · rw [hx] at h
    cases h
  · rw [hx] at h
    cases h
    rfl

omit [DecidableEq K] in
/-- Parents that are there are left alone, also when they are refused. -/
theorem endState_ensureParentDirs (now : ℤ) (hhas : ∀ a ∈ parentDirs v, db.fs.has a = true) :
    endState (ensureParentDirs v now) db = db := by
  have hkeeps : Keeps (fun d => d = db) (ensureParentDirs v now) := by
    refine Keeps.forM_mem fun a ha => Keeps.statement fun d d' hd hx => ?_
    subst hd
    rw [if_pos (hhas a ha)] at hx
    split_ifs at hx
    exact (Except.ok.inj hx).symm
  exact hkeeps db rfl

omit [DecidableEq K] in
/-- What `vm_add_bytes`, `vm_add_dir` and `vm_add_symlink` do where the parents are there: the last
step of them alone. -/
theorem parents_then {x : Sql K Unit} (now : ℤ) (hhas : ∀ a ∈ parentDirs v, db.fs.has a = true)
    (h : (ensureParentDirs v now >>= fun _ => x) db = .ok u db') : x db = .ok u db' := by
  obtain ⟨_, d, hensure, hx⟩ := bind_eq_ok.1 h
  have hend : endState (ensureParentDirs v now) db = db := endState_ensureParentDirs now hhas
  rw [endState_of_ok hensure] at hend
  rwa [hend] at hx

omit [DecidableEq K] in
/-- When the parents are there, a failing write leaves the database as it was. -/
theorem parents_then_error {x : Sql K Unit} (hx : ∀ e d, x db = .error e d → d = db) (now : ℤ)
    (hhas : ∀ a ∈ parentDirs v, db.fs.has a = true) {e : Err}
    (h : (ensureParentDirs v now >>= fun _ => x) db = .error e db') : db' = db := by
  have hend : endState (ensureParentDirs v now) db = db := endState_ensureParentDirs now hhas
  rcases hensure : ensureParentDirs v now db with ⟨w, d⟩ | ⟨e', d⟩
  · rw [endState_of_ok hensure] at hend
    rw [bind_of_ok hensure, hend] at h
    exact hx e db' h
  · unfold endState at hend
    rw [hensure] at hend
    rw [bind_of_error hensure] at h
    cases h
    exact hend

/-- A new entry has a row, and no other row has changed. -/
theorem run_novel_ok (e : Novel) (now : ℤ) (hv : Normal v)
    (hhas : ∀ a ∈ parentDirs v, c.db.fs.has a = true) (hperm : e.perm < 0o10000)
    (h : (Backend.ofDb E).run (e.ask v now) c = .ok () c') :
    (∃ row', c'.db.fs.get? v = some row' ∧ lookOf row' = ⟨e.kind, e.perm, e.size⟩ ∧
      (row'.kind = .symlink → row'.linkTarget ≠ none)) ∧ ∀ q, q ≠ v →
      c'.db.fs.get? q = c.db.fs.get? q := by
  have hcast : ∀ m : ℕ, m < 0o10000 → ((m : ℤ) % 0o10000).toNat = m := fun m hm => by omega
  -- Each kind of entry is written by one operation of the store, whose row is read off.
  cases e with
  | file mode =>
    dsimp only [Novel.ask, Backend.run, Backend.ofDb] at h
    have hrun := onDb_eq_ok h
    unfold vmAddBytes at hrun
    rw [hv] at hrun
    obtain ⟨⟨row, hrow, hkind, hmode, hsize, -⟩, hother, -⟩ :=
      (fsPutFile_ok (parents_then now hhas hrun)).1
    refine ⟨⟨row, hrow, ?_, fun hlink => ?_⟩, hother⟩
    · rw [lookOf, sizeOf, hkind, hmode, hsize, hcast mode hperm]
      rfl
    · rw [hkind] at hlink
      cases hlink
  | dir mode =>
    dsimp only [Novel.ask, Backend.run, Backend.ofDb] at h
    have hrun := onDb_eq_ok h
    unfold vmAddDir at hrun
    rw [hv] at hrun
    obtain ⟨⟨row, hrow, hkind, hmode, -, -⟩, hother, -⟩ :=
      (fsPutNode_ok (parents_then now hhas hrun)).1
    refine ⟨⟨row, hrow, ?_, fun hlink => ?_⟩, hother⟩
    · rw [lookOf, sizeOf, hkind, hmode, hcast mode hperm]
      rfl
    · rw [hkind] at hlink
      cases hlink
  | link target =>
    dsimp only [Novel.ask, Backend.run, Backend.ofDb] at h
    have hrun := onDb_eq_ok h
    unfold vmAddSymlink at hrun
    rw [hv] at hrun
    obtain ⟨⟨row, hrow, hkind, hmode, -, hlinkTarget⟩, hother, -⟩ :=
      (fsPutNode_ok (parents_then now hhas hrun)).1
    refine ⟨⟨row, hrow, ?_, fun _ => ?_⟩, hother⟩
    · rw [lookOf, sizeOf, hkind, hmode, hlinkTarget]
      rfl
    · rw [hlinkTarget]
      exact Option.some_ne_none _

/-- What new attributes do to what is shown. -/
def Edit.look : Edit → Look → Look
  | .mode m => fun l => { l with perm := m % 0o10000 }
  | .mtime _ => fun l => l
  | .cut size _ => fun l => { l with size := size }
  | .write off data _ => fun l => { l with size := max l.size (off + data.length) }

/-- What a `getattr` shows of new attributes depends on what it showed before. -/
theorem Edit.attr_look (e : Edit) (a : Attr) : (e.attr a).look = e.look a.look := by
  cases e <;> rfl

omit [DecidableEq K] in
/-- A path that is no link leads to itself. -/
theorem resolvePath_of_row {row : FsRow K} (hv : Normal v) (hrow : db.fs.get? v = some row)
    (hkind : row.kind = .file) :
    resolvePath db v = .ok v := by
  rw [resolvePath, hv, resolveFrom, if_neg (by simp), hrow]
  simp [hkind]

omit [DecidableEq K] in
/-- The path of a file's row resolves to the file. -/
theorem fileOf_of_row {row : FsRow K} (hv : Normal v) (hrow : db.fs.get? v = some row)
    (hkind : row.kind = .file) :
    db.fileOf v = some (v, row.size) := by
  have hreg : regularFile v db = .ok (v, row.size) db := by
    unfold regularFile
    refine query_of_ok ?_
    rw [resolvePath_of_row hv hrow hkind]
    dsimp only [bind, Except.bind]
    rw [hrow]
    dsimp only
    rw [if_neg (by simp [hkind])]
  rw [Db.fileOf, hreg]

omit [DecidableEq K] in
/-- A new size changes the row of its file in nothing else that is shown. -/
theorem resized_rows {size : ℕ} {mtime : ℤ} {row : FsRow K} (h : Resized v size mtime db db')
    (hrow : db.fs.get? v = some row) :
    (∃ row', db'.fs.get? v = some row' ∧ lookOf row' = { lookOf row with size := size } ∧
      row'.kind = row.kind ∧ row'.linkTarget = row.linkTarget) ∧ ∀ q, q ≠ v →
      db'.fs.get? q = db.fs.get? q := by
  obtain ⟨row₀, hrow₀, hkind, hrow'⟩ := h.row
  obtain rfl : row = row₀ := Option.some.inj (hrow.symm.trans hrow₀)
  refine ⟨⟨_, hrow', ?_, rfl, rfl⟩, h.only.fs⟩
  rw [lookOf, lookOf, sizeOf]
  simp only [hkind]

omit [DecidableEq K] in
/-- An update changes the columns of its row, if there is one, and no other row. -/
theorem updateFs_rows {f : FsRow K → FsRow K} (h : updateFs v f db = .ok u db') :
    (∀ row, db.fs.get? v = some row → db'.fs.get? v = some (f row)) ∧
      (db.fs.get? v = none → db'.fs.get? v = none) ∧ ∀ q, q ≠ v → db'.fs.get? q = db.fs.get? q := by
  rcases updateFs_ok h with ⟨hnone, rfl⟩ | ⟨row, hrow, rfl⟩
  · exact ⟨fun row hrow => (by rw [hnone] at hrow; cases hrow), fun h => h, fun _ _ => rfl⟩
  · refine ⟨fun row' hrow' => ?_, fun hnone => ?_, fun q hq => ?_⟩
    · rw [Db.get?_setFs, if_pos rfl, hrow', Option.map_some]
    · rw [hrow] at hnone
      cases hnone
    · rw [Db.get?_setFs, if_neg hq]

/-- New attributes change what the row shows as they change what the node shows, and no other row.
-/
theorem run_edit_ok (e : Edit) (hv : Normal v)
    (hfile : ∀ row, c.db.fs.get? v = some row →
    (∀ size now, e = .cut size now → row.kind = .file) ∧ ∀ off data now, e = .write off data now →
    row.kind = .file ∧ data ≠ [])
    (hthere : (∃ m, e = .mode m) ∨ (∃ t, e = .mtime t) ∨ ∃ row, c.db.fs.get? v = some row)
    (h : (Backend.ofDb E).run (e.ask v) c = .ok () c') :
    (∀ row, c.db.fs.get? v = some row → ∃ row', c'.db.fs.get? v = some row' ∧
      lookOf row' = e.look (lookOf row) ∧
      row'.kind = row.kind ∧ row'.linkTarget = row.linkTarget) ∧
      (c.db.fs.get? v = none → c'.db.fs.get? v = none) ∧ ∀ q, q ≠ v →
      c'.db.fs.get? q = c.db.fs.get? q := by
  have hgone : ∀ {row}, c.db.fs.get? v = some row →
    (c.db.fs.get? v = none → c'.db.fs.get? v = none) := by
    intro row hrow hnone
    rw [hrow] at hnone
    cases hnone
  -- Modes and times update the row itself; sizes go through the range operations of the store.
  cases e with
  | mode m =>
    obtain ⟨hset, hnone, hother⟩ := updateFs_rows (onDb_eq_ok
      (show onDb (updateFs v fun row => { row with mode := m }) c = .ok () c' from h))
    refine ⟨fun row hrow => ⟨_, hset row hrow, ?_, rfl, rfl⟩, hnone, hother⟩
    have hcast : ((m : ℤ) % 0o10000).toNat = m % 0o10000 := by omega
    rw [lookOf, lookOf, Edit.look, hcast]
    rfl
  | mtime t =>
    obtain ⟨hset, hnone, hother⟩ := updateFs_rows (onDb_eq_ok
      (show onDb (updateFs v fun row => { row with mtime := t }) c = .ok () c' from h))
    exact ⟨fun row hrow => ⟨_, hset row hrow, rfl, rfl, rfl⟩, hnone, hother⟩
  | cut size now =>
    obtain ⟨row, hrow⟩ : ∃ row, c.db.fs.get? v = some row := by simpa using hthere
    have hkind := (hfile row hrow).1 size now rfl
    have hranged := truncateRangeDeferred_ranged (E := E) h
    rw [Db.truncateTarget, fileOf_of_row hv hrow hkind, Option.bind_some] at hranged
    dsimp only at hranged
    have hdone :
        (∃ row', c'.db.fs.get? v = some row' ∧ lookOf row' = { lookOf row with size := size } ∧
        row'.kind = row.kind ∧ row'.linkTarget = row.linkTarget) ∧ ∀ q, q ≠ v →
        c'.db.fs.get? q = c.db.fs.get? q := by
      split_ifs at hranged with heq hgt
      · -- the size is that of the row already
        have hdb : c'.db = c.db := hranged
        rw [hdb]
        refine ⟨⟨row, hrow, ?_, rfl, rfl⟩, fun _ _ => rfl⟩
        rw [heq, lookOf, sizeOf]
        simp only [hkind]
      · have hdata : List.replicate (size - row.size) (0 : UInt8) ≠ [] := by
          intro hnil
          have hlen := congrArg List.length hnil
          rw [List.length_replicate, List.length_nil] at hlen
          omega
        rw [Db.writeTarget, if_neg hdata, fileOf_of_row hv hrow hkind, Option.map_some,
          List.length_replicate] at hranged
        have hsize : max row.size (row.size + (size - row.size)) = size := by omega
        rw [hsize] at hranged
        exact resized_rows hranged hrow
      · exact resized_rows hranged hrow
    refine ⟨fun row₀ hrow₀ => ?_, hgone hrow, hdone.2⟩
    obtain rfl : row = row₀ := Option.some.inj (hrow.symm.trans hrow₀)
    exact hdone.1
  | write off data now =>
    obtain ⟨row, hrow⟩ : ∃ row, c.db.fs.get? v = some row := by simpa using hthere
    obtain ⟨hkind, hdata⟩ := (hfile row hrow).2 off data now rfl
    have hranged := writeRangeDeferred_ranged (E := E) h
    rw [Db.writeTarget, if_neg hdata, fileOf_of_row hv hrow hkind, Option.map_some] at hranged
    obtain ⟨⟨row', hrow', hlook, hrest⟩, hother⟩ := resized_rows hranged hrow
    refine ⟨fun row₀ hrow₀ => ?_, hgone hrow, hother⟩
    obtain rfl : row = row₀ := Option.some.inj (hrow.symm.trans hrow₀)
    have hsize : (lookOf row).size = row.size := by
      rw [lookOf, sizeOf]
      simp only [hkind]
    refine ⟨row', hrow', ?_, hrest⟩
    rw [hlook]
    dsimp only [Edit.look]
    rw [hsize]

/-- No path has chunks without a row. -/
def ChunksOwned (db : Db K) : Prop := ∀ q i, db.fs.get? q = none → db.chunks.get? (q, i) = none

omit [DecidableEq K] in
/-- One move takes a row and its chunks to the new path. -/
theorem moveEntry_rows {m : Str × Str} (hne : m.1 ≠ m.2) (hthere : db.fs.get? m.1 ≠ none)
    (h : moveEntry m db = .ok u db') :
    db'.fs.get? = move none db.fs.get? m ∧ (ChunksOwned db → ChunksOwned db' ∧
      (fun q i => db'.chunks.get? (q, i)) = move (fun _ => none)
      (fun q i => db.chunks.get? (q, i)) m) := by
  obtain ⟨_, d, hfs, hch⟩ := bind_eq_ok.1 h
  rcases moveFs_ok hne hfs with ⟨hnone, -⟩ | ⟨-, hfree, hrows, -, hchunks, -⟩
  · exact absurd hnone hthere
  have hsame : db'.fs = d.fs := by
    rw [moveChunks, statement_eq_ok] at hch
    split_ifs at hch
    rcases hre : d.chunks.rekey (fun c => if c.1 = m.1 then (m.2, c.2) else c) with _ | chunks
    · rw [hre] at hch
      cases hch
    · rw [hre] at hch
      cases hch
      rfl
  have hrow : ∀ q, db'.fs.get? q = move none db.fs.get? m q := fun q => by rw [hsame, hrows, move]
  refine ⟨funext hrow, fun howned => ?_⟩
  -- no chunks are where the row comes
  obtain ⟨hkeys, -⟩ := moveChunks_ok hne (fun i => by rw [hchunks]; exact howned _ i hfree) hch
  have hchunk : ∀ q i, db'.chunks.get? (q, i) = if q = m.2 then db.chunks.get? (m.1, i)
    else if q = m.1 then none else
      db.chunks.get? (q, i) := fun q i => by rw [hkeys, hchunks]
  constructor
  · intro q i hq
    rw [hrow, move] at hq
    rw [hchunk]
    split_ifs at hq ⊢ with hnew hold
    · exact absurd hq hthere
    · rfl
    · exact howned q i hq
  · funext q i
    rw [hchunk, move]
    split_ifs <;> rfl

omit [DecidableEq K] in
/-- The moves of a rename change the rows as `move` does, one after the other. -/
theorem movedAll_rows {ms : List (Str × Str)} :
    ∀ {db : Db K}, Apart ms → (∀ m ∈ ms, db.fs.get? m.1 ≠ none) →
    ms.forM moveEntry db = .ok u db' → db'.fs.get? = moveAll none db.fs.get? ms ∧ (ChunksOwned db →
      (fun q i => db'.chunks.get? (q, i)) = moveAll (fun _ => none)
      (fun q i => db.chunks.get? (q, i)) ms) := by
  induction ms with
  | nil =>
    intro db _ _ h
    cases h
    exact ⟨rfl, fun _ => rfl⟩
  | cons m ms ih =>
    intro db happart hthere h
    rw [List.forM_eq_forM, List.forM_cons] at h
    -- By induction on the moves: the first one leaves the rows that the others move where they
    -- are.
    obtain ⟨_, d, hone, hrest⟩ := bind_eq_ok.1 h
    rw [← List.forM_eq_forM] at hrest
    obtain ⟨hrows, hchunks⟩ :=
      moveEntry_rows (happart.apart m List.mem_cons_self m List.mem_cons_self)
      (hthere m List.mem_cons_self) hone
    obtain ⟨hrows', hchunks'⟩ := ih happart.tail (fun m' hm' => by
      rw [hrows, move_of_ne (happart.head m' hm').1 (happart.head m' hm').2.1]
      exact hthere m' (List.mem_cons_of_mem _ hm')) hrest
    refine ⟨by rw [hrows', hrows]; rfl, fun howned => ?_⟩
    obtain ⟨howned', hone'⟩ := hchunks howned
    rw [hchunks' howned', hone']
    rfl

end Database

end Dbvm.VmFuse
