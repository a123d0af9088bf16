import Dbvm.FuseTree

/-!
# Runs of a mount

A mount changes in few ways: a new entry, an entry that goes, an entry that moves, new attributes of
one node, and the connection alone. `Stays` says of a property of mounts that each of these keeps
it, when the database has done what the mount asked for and the kernel keeps to its manners; then
every request, in every order, keeps it (`Stays.runAll`). The proofs go through the handlers step by
step (`Wp`): what a handler unwraps is there because the node table is a tree.

That the table is a tree is itself such a property (`stays_whole`), whatever the database answers,
and so no request of a run panics. A request that is answered with an error, `setattr` apart, has
changed nothing but the connection, by a request to the database that failed (`Whole.handler_left`).
-/

namespace Dbvm.VmFuse

open Dbvm Lib Lib.Prog Lib.Forest

/-! ## What the database is asked for -/

/-- A request to the database that changes rows. -/
inductive Ask where
  /-- `vm_add_bytes` of an empty file. -/
  | addBytes (path : Str) (mode : ℕ) (now : ℤ)
  /-- `vm_add_dir`. -/
  | addDir (path : Str) (mode : ℕ) (now : ℤ)
  /-- `vm_add_symlink`. -/
  | addSymlink (path target : Str) (now : ℤ)
  /-- A row is deleted. -/
  | delete (path : Str)
  /-- A row gets a mode. -/
  | setMode (path : Str) (mode : ℕ)
  /-- A row gets a time. -/
  | setMtime (path : Str) (mtime : ℤ)
  /-- Rows are moved. -/
  | rename (replaced : Option Str) (moves : List (Str × Str))
  /-- `truncate_range_deferred`. -/
  | truncate (path : Str) (size : ℕ) (now : ℤ)
  /-- `write_range_deferred`. -/
  | write (path : Str) (off : ℕ) (data : Bytes) (now : ℤ)

/-- The request at a database. -/
def Backend.run {σ : Type} (B : Backend σ) : Ask → EStateM Err σ Unit
  | .addBytes path mode now => B.addBytes path mode now
  | .addDir path mode now => B.addDir path mode now
  | .addSymlink path target now => B.addSymlink path target now
  | .delete path => B.delete path
  | .setMode path mode => B.setMode path mode
  | .setMtime path mtime => B.setMtime path mtime
  | .rename replaced moves => B.rename replaced moves
  | .truncate path size now => B.truncate path size now
  | .write path off data now => B.write path off data now

/-- The path at which it makes a row. -/
def Ask.makes : Ask → Option Str
  | .addBytes path .. => some path
  | .addDir path .. => some path
  | .addSymlink path .. => some path
  | _ => none

/-- What the kernel promises of its requests. -/
structure Manners where
  /-- The names that it gives. -/
  name : Str → Prop
  /-- What it cuts. -/
  cut : Kind → Prop
  /-- What it writes to, and what. -/
  write : Kind → Bytes → Prop
  /-- It may cut regular files. -/
  cut_file : cut .file

/-- Whatever it likes. -/
def Manners.any : Manners where
  name _ := True
  cut _ := True
  write _ _ := True
  cut_file := trivial

/-- The path has a name in a directory. -/
def HasRoom (M : Manners) (nodes : Table ℕ Node) (path : Str) : Prop :=
  ∃ p n x, nodes.get? p = some n ∧ n.attr.kind = .dir ∧ IsName x ∧ M.name x ∧ path = join n.dbPath x

/-- A request of the mount to the database fails and leaves this connection. -/
def Fails {σ : Type} (B : Backend σ) (M : Manners) (s : Vm σ) (c : σ) : Prop :=
  (∃ a e, (∀ path ∈ a.makes, HasRoom M s.nodes path) ∧ B.run a s.conn = .error e c) ∨
    ∃ path off len e, B.read path off len s.conn = .error e c

variable {σ α : Type} {B : Backend σ} {M : Manners} {s : Vm σ} {Q : α → Vm σ → Prop}
  {R : Fail → Vm σ → Prop}

/-! ## The steps of a handler -/

/-- The rule for an option that must be there. -/
theorem wp_pick {o : Option α} {f : Fail} (hnone : o = none → R f s)
    (hsome : ∀ a, o = some a → Q a s) :
    Wp (pick o f) Q R s := by
  rcases o with _ | a
  · exact hnone rfl
  · exact hsome a rfl

/-- The database changes the connection, whatever it answers. -/
theorem wp_ask {answer : Err → Errno} {x : EStateM Err σ α}
    (hok : ∀ a c, x s.conn = .ok a c → Q a { s with conn := c })
    (herror : ∀ e c, x s.conn = .error e c → R (.errno (answer e)) { s with conn := c }) :
    Wp (ask answer x) Q R s := by
  unfold Wp ask
  rcases hx : x s.conn with ⟨a, c⟩ | ⟨e, c⟩
  · exact hok a c hx
  · exact herror e c hx

/-- The rule for a node that is there. -/
theorem wp_node {ino : ℕ} {n : Node} {Q : Node → Vm σ → Prop} (hn : s.nodes.get? ino = some n)
    (hQ : Q n s) :
    Wp (node ino) Q R s := by
  unfold node
  rw [wp_bind, wp_get]
  refine wp_pick (fun hnone => ?_) fun a ha => ?_
  · rw [hn] at hnone
    cases hnone
  · rw [← Option.some.inj (hn.symm.trans ha)]
    exact hQ

/-- The rule for a change of a node that is there. -/
theorem wp_modifyNode {ino : ℕ} {f : Node → Node} {Q : Unit → Vm σ → Prop}
    (hn : ∃ n, s.nodes.get? ino = some n) (hQ : Q () { s with nodes := s.nodes.update ino f }) :
    Wp (modifyNode ino f) Q R s := by
  obtain ⟨n, hn⟩ := hn
  unfold modifyNode
  rw [wp_bind]
  exact wp_node hn hQ

/-- A node that is changed stays there. -/
theorem exists_update {t : Table ℕ Node} {i j : ℕ} {f : Node → Node} (h : ∃ k, t.get? j = some k) :
    ∃ k, (t.update i f).get? j = some k := by
  obtain ⟨k, hk⟩ := h
  rw [Table.get?_update_eq_map, hk]
  exact ⟨_, rfl⟩

/-- A request to the database returns, or fails and changes the connection only. -/
theorem wp_run {answer : Err → Errno} {Q : Unit → Vm σ → Prop} (a : Ask)
    (hroom : ∀ path ∈ a.makes, HasRoom M s.nodes path)
    (hok : ∀ c, B.run a s.conn = .ok () c → Q () { s with conn := c })
    (hfail : ∀ e c, Fails B M s c → R (.errno e) { s with conn := c }) :
    Wp (ask answer (B.run a)) Q R s :=
  wp_ask (fun _ c hx => hok c hx) fun e c hx => hfail (answer e) c (Or.inl ⟨a, e, hroom, hx⟩)

/-! ## Mounts in order -/

/-- The node table is a tree. -/
structure Whole (s : Vm σ) : Prop where
  /-- The tree. -/
  tree : Tree s.nodes s.nextIno
  /-- Every node is an entry. -/
  listed : Listed s.nodes

/-- The connection is no matter of the node table. -/
theorem Whole.conn (h : Whole s) (c : σ) : Whole { s with conn := c } := ⟨h.tree, h.listed⟩

/-- The child of a name is an entry of a node. -/
theorem child_eq_some {nodes : Table ℕ Node} {parent ino : ℕ} {name : Option Str}
    (h : child nodes parent name = some ino) :
    ∃ p x, nodes.get? parent = some p ∧ name = some x ∧ p.children.get? x = some ino := by
  unfold child at h
  rcases hp : nodes.get? parent with _ | p
  · rw [hp] at h
    cases h
  rcases name with _ | x
  · rw [hp] at h
    cases h
  · rw [hp] at h
    exact ⟨p, x, rfl, rfl, h⟩

/-- A new entry has a directory as parent and a name that is free in it. -/
theorem newEntryPaths_ok {nodes : Table ℕ Node} {parent : ℕ} {name : Option Str}
    {paths : Str × Str} (h : newEntryPaths nodes parent name = .ok paths) :
    ∃ p x, nodes.get? parent = some p ∧ p.attr.kind = .dir ∧
      name = some x ∧ IsName x ∧ p.children.get? x = none ∧
      paths = (join p.dbPath x, join p.view x) := by
  unfold newEntryPaths at h
  rcases hp : nodes.get? parent with _ | p
  · rw [hp] at h
    cases h
  rw [hp] at h
  dsimp only at h
  split_ifs at h with hdir
  rcases name with _ | x
  · cases h
  dsimp only at h
  split_ifs at h with hname hhas
  rw [not_not] at hdir
  exact ⟨p, x, rfl, hdir, rfl, refusesName_eq_false.1 (by simpa using hname),
    Table.get?_of_not_has hhas,
    (Except.ok.inj h).symm⟩

/-- The child of a name is a node. -/
theorem Whole.exists_child (h : Whole s) {parent ino : ℕ} {name : Option Str}
    (hchild : child s.nodes parent name = some ino) : ∃ n, s.nodes.get? ino = some n := by
  obtain ⟨p, x, hp, -, hx⟩ := child_eq_some hchild
  exact h.tree.exists_node hp hx

/-! ## Renames -/

/-- Every moved node gets its new paths and keeps the rest. -/
theorem wp_applyMoves {Q : PUnit → Vm σ → Prop} : ∀ (moves : List Move) {s : Vm σ},
    (∀ m ∈ moves, ∃ n, s.nodes.get? m.ino = some n) →
      Q ⟨⟩ { s with nodes := applyMoves s.nodes moves } →
      Wp (moves.forM fun m => modifyNode m.ino fun n =>
        { n with dbPath := m.newDb, view := m.newView }) Q R s
  | [], _, _, hQ => hQ
  | m :: moves, s, hthere, hQ => by
    rw [List.forM_eq_forM, List.forM_cons, wp_bind]
    refine wp_modifyNode (hthere m List.mem_cons_self) ?_
    rw [← List.forM_eq_forM]
    exact wp_applyMoves moves (fun m' hm' => exists_update (hthere m' (List.mem_cons_of_mem _ hm')))
      hQ

/-- A move gives the node table of `movedNodes`. -/
theorem wp_moveNodes {ino newparent : ℕ} {node p np : Node} {newName oldView : Str}
    {moves : List Move} {Q : Unit → Vm σ → Prop} (hnode : s.nodes.get? ino = some node)
    (hp : s.nodes.get? node.parent = some p) (hnp : s.nodes.get? newparent = some np)
    (hmoves : ∀ m ∈ moves, ∃ k, s.nodes.get? m.ino = some k)
    (hQ : Q ()
      { s with
        nodes :=
          movedNodes s.nodes ino node.parent (fileName oldView) newparent newName moves }) :
    Wp (moveNodes ino newparent newName oldView moves) Q R s := by
  unfold moveNodes
  rw [wp_bind]
  refine wp_node hnode ?_
  rw [wp_bind]
  refine wp_modifyNode ⟨p, hp⟩ ?_
  rw [wp_bind]
  refine wp_modifyNode (exists_update ⟨np, hnp⟩) ?_
  rw [wp_bind]
  refine wp_modifyNode (exists_update (exists_update ⟨node, hnode⟩)) ?_
  exact wp_applyMoves moves
    (fun m hm => exists_update (exists_update (exists_update (hmoves m hm)))) hQ

/-- What a rename has found when it asks the database: the entry, the new directory, the entry that
is replaced, and the moves. -/
structure Found (nodes : Table ℕ Node) (ino newparent : ℕ) (newName : Str) (node np : Node)
    (moves : List Move) : Prop where
  /-- The entry. -/
  entry : ∃ p x n, nodes.get? p = some n ∧ n.children.get? x = some ino
  /-- Its node. -/
  isNode : nodes.get? ino = some node
  /-- The new directory. -/
  newDir : nodes.get? newparent = some np ∧ np.attr.kind = .dir
  /-- The new name. -/
  name : IsName newName
  /-- It is not the entry's already. -/
  other : np.children.get? newName ≠ some ino
  /-- What is replaced is no directory. -/
  replaced : ∀ r rn, np.children.get? newName = some r → nodes.get? r = some rn →
    rn.attr.kind ≠ .dir
  /-- The new directory does not move. -/
  outside : ¬ Reach childInos nodes ino newparent
  /-- The moves. -/
  below : MovesBelow nodes ino node (join np.view newName) moves

/-- The table after an entry has been replaced. -/
def replacedNodes (nodes : Table ℕ Node) (replaced : Option ℕ) : Table ℕ Node :=
  replaced.elim nodes (removeNode nodes)

/-- What is replaced goes, and everything else is still found. -/
theorem Found.replacedNodes {nodes : Table ℕ Node} {nxt ino newparent : ℕ} {newName : Str}
    {node np : Node} {moves : List Move} (hf : Found nodes ino newparent newName node np moves)
    (h : Tree nodes nxt) (hl : Listed nodes) :
    ∃ np', Tree (replacedNodes nodes (np.children.get? newName)) nxt ∧
      Listed (replacedNodes nodes (np.children.get? newName)) ∧ np'.children.get? newName = none ∧
      np'.view = np.view ∧
      Found (replacedNodes nodes (np.children.get? newName)) ino newparent newName node np'
      moves := by
  obtain ⟨p, x, n, hp, hx⟩ := hf.entry
  obtain ⟨hnp, hnpdir⟩ := hf.newDir
  unfold VmFuse.replacedNodes
  -- Without an entry under the new name there is nothing to replace.
  rcases hr : np.children.get? newName with _ | r
  · exact ⟨np, h, hl, hr, rfl, hf⟩
  rw [Option.elim_some]
  obtain ⟨rn, hrn⟩ := h.exists_node hnp hr
  have hkind := hf.replaced r rn hr hrn
  have hother : r ≠ ino := fun heq => hf.other (heq ▸ hr)
  have hget :=
    fun (j : ℕ) (hj : j ≠ r) => h.get?_removeBare hnp hr hrn (h.bare_of_kind hrn hkind) hj
  have hreach := h.reach_removeBare hnp hr hrn (h.bare_of_kind hrn hkind) hf.outside hother.symm
  have hnpr : newparent ≠ r := by
    rintro rfl
    rw [hnp] at hrn
    exact hkind (Option.some.inj hrn ▸ hnpdir)
  have hpr : p ≠ r := by
    rintro rfl
    rw [hp] at hrn
    exact hkind (Option.some.inj hrn ▸ (h.kid p n x ino hp hx).1)
  have hselfnp : ino ≠ newparent := fun heq => hf.outside (heq ▸ Relation.ReflTransGen.refl)
  obtain ⟨htree, hlisted⟩ := h.remove hl hnp hr
  refine ⟨{ np with children := without np.children newName }, htree, hlisted, ?_, rfl, ?_⟩
  · rw [get?_without, if_pos rfl]
  · refine ⟨?_, ?_, ⟨?_, hnpdir⟩, hf.name, ?_, ?_, ?_, ?_⟩
    · refine ⟨p, x, if p = newparent then { n with children := without n.children newName } else n,
        ?_, ?_⟩
      · rw [hget p hpr, hp, Option.map_some]
      · split_ifs with hsame
        · rw [get?_without, if_neg, hx]
          rintro rfl
          rw [hsame, hnp] at hp
          rw [← Option.some.inj hp] at hx
          exact hf.other hx
        · exact hx
    · rw [hget ino hother.symm, hf.isNode, Option.map_some, if_neg hselfnp]
    · rw [hget newparent hnpr, hnp, Option.map_some, if_pos rfl]
    · rw [get?_without, if_pos rfl]
      simp
    · intro r' rn' hr'
      rw [get?_without, if_pos rfl] at hr'
      cases hr'
    · rw [hreach]
      exact hf.outside
    · refine ⟨hf.below.nodup, fun i => ?_, ?_⟩
      · rw [hreach]
        exact hf.below.mem_iff i
      · intro m hm
        obtain ⟨k, rel, hk, hview, hnew⟩ := hf.below.view m hm
        have hmem : Reach childInos nodes ino m.ino :=
          (hf.below.mem_iff m.ino).1 (List.mem_map_of_mem hm)
        have hmr : m.ino ≠ r := by
          intro heq
          exact hf.outside (h.reach_parent (heq ▸ hmem) hother hnp hr)
        have hmnp : m.ino ≠ newparent := fun heq => hf.outside (heq ▸ hmem)
        exact ⟨k, rel, by rw [hget _ hmr, hk, Option.map_some, if_neg hmnp], hview, hnew⟩

/-- The nodes after a rename that the database has done. -/
theorem Found.wp_moveNodes {ino newparent : ℕ} {newName : Str} {node np : Node}
    {moves : List Move} (hf : Found s.nodes ino newparent newName node np moves) (h : Whole s)
    {Q : Unit → Vm σ → Prop}
    (hQ : ∀ nodes', Tree nodes' s.nextIno → Listed nodes' →
      nodes' = movedNodes (VmFuse.replacedNodes s.nodes (np.children.get? newName))
        ino node.parent (fileName node.view)
        newparent newName moves → Q () { s with nodes := nodes' }) :
    Wp (moveNodes ino newparent newName node.view moves) Q R
      { s with nodes := VmFuse.replacedNodes s.nodes (np.children.get? newName) } := by
  obtain ⟨np', htree, hlisted, hfree, hview, hf'⟩ := hf.replacedNodes h.tree h.listed
  generalize hbase : VmFuse.replacedNodes
    s.nodes (np.children.get? newName) = base at htree hlisted hf' hQ ⊢
  obtain ⟨p, x, n, hp, hx⟩ := hf'.entry
  have hparent := htree.parent_eq hp hx hf'.isNode
  have hname := htree.name_eq hp hx hf'.isNode
  refine VmFuse.wp_moveNodes (p := n) hf'.isNode (by rw [hparent]; exact hp) hf'.newDir.1 ?_ ?_
  · intro m hm
    obtain ⟨k, -, hk, -⟩ := hf'.below.view m hm
    exact ⟨k, hk⟩
  · have hmoves : MovesBelow base ino node (join np'.view newName) moves := hf'.below
    obtain ⟨htree', hlisted'⟩ :=
      htree.move hlisted hp hx hf'.isNode hf'.newDir.1 hf'.newDir.2 hf'.name hfree
      hf'.outside hmoves
    rw [hparent, hname]
    rw [hparent, hname] at hQ
    exact hQ _ htree' hlisted' rfl

/-- A rename comes to the database with everything found, or ends before. -/
theorem Whole.wp_rename (h : Whole s) {parent newparent : ℕ} {name newname : Option Str}
    {Q : Reply → Vm σ → Prop}
    (hsame : ∀ ino np newN, child s.nodes parent name = some ino →
      s.nodes.get? newparent = some np → newname = some newN →
      IsName newN → np.children.get? newN = some ino → Q .ok s)
    (herror : ∀ e c, Fails B M s c → R (.errno e) { s with conn := c })
    (hnone : ∀ e, R (.errno e) s)
    (hdone : ∀ ino newN node np moves gone c nodes', child s.nodes parent name = some ino →
      newname = some newN →
      Found s.nodes ino newparent newN node np moves →
      (∀ m ∈ moves, ∃ k rel, s.nodes.get? m.ino = some k ∧ k.view = node.view ++ rel ∧
        m.oldDb = k.dbPath ∧
        m.newDb = join np.dbPath newN ++ rel ∧ m.newView = join np.view newN ++ rel) →
      gone = ((np.children.get? newN).bind s.nodes.get?).map (fun rn => rn.dbPath) →
      B.run (.rename gone (moves.map fun m => (m.oldDb, m.newDb))) s.conn = .ok () c →
      Tree nodes' s.nextIno → Listed nodes' →
      nodes' = movedNodes (replacedNodes s.nodes (np.children.get? newN)) ino node.parent
        (fileName node.view) newparent newN
        moves → Q .ok { s with conn := c, nodes := nodes' }) :
    Wp (rename B parent name newparent newname) Q R s := by
  unfold rename
  rw [wp_bind, wp_get, wp_bind]
  refine wp_pick (fun _ => hnone _) fun ino hchild => ?_
  rw [wp_bind]
  refine wp_pick (fun _ => hnone _) fun np hnp => ?_
  rw [wp_ite]
  refine ⟨fun _ => hnone _, fun hdir => ?_⟩
  rw [not_not] at hdir
  rw [wp_bind]
  refine wp_pick (fun _ => hnone _) fun newN hnewN => ?_
  obtain ⟨hnewname, hplain⟩ := Option.filter_eq_some_iff.1 hnewN
  have hname : IsName newN := refusesName_eq_false.1 (by simpa using hplain)
  obtain ⟨p, x, hp, -, hx⟩ := child_eq_some hchild
  obtain ⟨node, hnode⟩ := h.tree.exists_node hp hx
  dsimp only
  rw [wp_ite]
  refine ⟨fun hsameEntry => hsame ino np newN hchild hnp hnewname hname hsameEntry,
    fun hother => ?_⟩
  rw [wp_bind]
  -- what is replaced
  have hgone : ∀ {Q' : Option Node → Vm σ → Prop},
      (∀ gone, gone = (np.children.get? newN).bind s.nodes.get? →
      (∀ r rn, np.children.get? newN = some r → s.nodes.get? r = some rn → rn.attr.kind ≠ .dir) →
      Q' gone s) →
      Wp (replacedNode (np.children.get? newN)) Q' R s := by
    intro Q' hQ'
    rcases hr : np.children.get? newN with _ | r
    · exact hQ' none (by rw [hr]; rfl) (by simp [hr])
    obtain ⟨rn, hrn⟩ := h.tree.exists_node hnp hr
    rw [replacedNode, wp_bind]
    refine wp_node hrn ?_
    rw [wp_ite]
    refine ⟨fun _ => hnone _, fun hkind => hQ' (some rn) (by rw [hr]; exact hrn.symm) ?_⟩
    intro r' rn' hr' hrn'
    rw [hr] at hr'
    rw [← Option.some.inj hr', hrn] at hrn'
    rw [← Option.some.inj hrn']
    exact hkind
  refine hgone fun gone hgoneeq hreplaced => ?_
  -- what moves
  obtain ⟨l, hl, hnodup, hmem⟩ := h.tree.subtree_spec hnode
  rw [hl, wp_bind]
  refine wp_pick (fun heq => by cases heq) fun l' heq => ?_
  obtain rfl : l = l' := Option.some.inj heq
  rw [wp_ite]
  refine ⟨fun _ => hnone _, fun hout => ?_⟩
  rw [wp_bind]
  refine wp_node hnode ?_
  have hlong := (h.tree.length_lt hp hx hnode).2
  obtain ⟨moves, hmoves, hinos, hall⟩ := h.tree.exists_moves hnode hlong (join np.dbPath newN)
    (join np.view newN) l
    fun i hi => (hmem i).1 hi
  rw [hmoves, wp_bind]
  refine wp_pick (fun heq => by cases heq) fun moves' heq => ?_
  obtain rfl : moves = moves' := Option.some.inj heq
  have hbelow : MovesBelow s.nodes ino node (join np.view newN) moves := by
    refine ⟨by rwa [hinos], fun i => by rw [hinos, hmem], fun m hm => ?_⟩
    obtain ⟨k, rel, hk, hview, -, -, hnew⟩ := hall m hm
    exact ⟨k, rel, hk, hview, hnew⟩
  have hf : Found s.nodes ino newparent newN node np moves :=
    ⟨⟨parent, x, p, hp, hx⟩, hnode, ⟨hnp, hdir⟩, hname, hother, hreplaced,
      fun hr => hout ((hmem _).2 hr), hbelow⟩
  rw [wp_bind]
  refine wp_run (M := M) (.rename _ _) (by simp [Ask.makes]) (fun c hok => ?_) herror
  rw [wp_bind, wp_modify, wp_bind]
  refine (Found.wp_moveNodes (s := { s with conn := c }) hf (h.conn c)
    fun nodes' htree hlisted heq => ?_)
  rw [wp_pure]
  exact hdone ino newN node np moves _ c nodes' hchild hnewname hf hall (by rw [hgoneeq]) hok htree
    hlisted heq

/-! ## Requests that heed the manners -/

/-- A request keeps to the manners. -/
def Request.Heeds (M : Manners) (nodes : Table ℕ Node) : Request → Prop
  | .create _ name .. => ∀ x ∈ name, M.name x
  | .mkdir _ name .. => ∀ x ∈ name, M.name x
  | .mknod _ name .. => ∀ x ∈ name, M.name x
  | .symlink _ name .. => ∀ x ∈ name, M.name x
  | .rename _ _ _ newname => ∀ x ∈ newname, M.name x
  | .write ino _ data _ => ∀ n, nodes.get? ino = some n → M.write n.attr.kind data
  | .setattr ino _ _ _ size .. => ∀ n, nodes.get? ino = some n → ∀ _ ∈ size, M.cut n.attr.kind
  | _ => True

/-- So do the requests of a run. -/
def Heeded (M : Manners) (B : Backend σ) : List Request → Vm σ → Prop
  | [], _ => True
  | r :: rs, s => r.Heeds M s.nodes ∧ Heeded M B rs (handle B r s).2

/-- Every request keeps to no manners at all. -/
theorem Request.heeds_any (r : Request) (nodes : Table ℕ Node) : r.Heeds Manners.any nodes := by
  cases r <;> simp [Request.Heeds, Manners.any]

/-- Every run keeps to no manners at all. -/
theorem heeded_any (B : Backend σ) (rs : List Request) : ∀ s, Heeded Manners.any B rs s := by
  induction rs with
  | nil => exact fun _ => trivial
  | cons r rs ih => exact fun s => ⟨r.heeds_any s.nodes, ih _⟩

/-! ## The changes of a mount -/

/-- A new entry. -/
inductive Novel where
  /-- An empty file. -/
  | file (mode : ℕ)
  /-- A directory. -/
  | dir (mode : ℕ)
  /-- A link. -/
  | link (target : Str)

namespace Novel

/-- Its kind. -/
def kind : Novel → Kind
  | .file _ => .file
  | .dir _ => .dir
  | .link _ => .symlink

/-- Its permission bits. -/
def perm : Novel → ℕ
  | .file mode => mode
  | .dir mode => mode
  | .link _ => 0o777

/-- Its size. -/
def size : Novel → ℕ
  | .file _ => 0
  | .dir _ => 4096
  | .link target => target.bytes.length

/-- What the database is asked for. -/
def ask (path : Str) (now : ℤ) : Novel → Ask
  | .file mode => .addBytes path mode now
  | .dir mode => .addDir path mode now
  | .link target => .addSymlink path target now

/-- A new entry asks for the creation of its path. -/
theorem makes_ask (e : Novel) (path : Str) (now : ℤ) : (e.ask path now).makes = some path := by
  cases e <;> rfl

end Novel

/-- New attributes. -/
inductive Edit where
  /-- A mode. -/
  | mode (m : ℕ)
  /-- A time. -/
  | mtime (t : ℕ)
  /-- A size. -/
  | cut (size : ℕ) (now : ℤ)
  /-- Bytes. -/
  | write (off : ℕ) (data : Bytes) (now : ℤ)

namespace Edit

/-- What the database is asked for. -/
def ask (path : Str) : Edit → Ask
  | .mode m => .setMode path m
  | .mtime t => .setMtime path t
  | .cut size now => .truncate path size now
  | .write off data now => .write path off data now

/-- The attributes after it. -/
def attr : Edit → Attr → Attr
  | .mode m => fun a => { a with perm := m % 0o10000 }
  | .mtime t => fun a => { a with mtime := t, ctime := t }
  | .cut size now => fun a =>
    { a with size := size, blocks := (size + 511)
      / 512, mtime := systemTime now, ctime := systemTime now }
  | .write off data now => fun a =>
    let size := max a.size (off + data.length)
    { a with size := size, blocks := (size + 511)
      / 512, mtime := systemTime now, ctime := systemTime now }

/-- What the kernel promises for it. -/
def Heeds (M : Manners) (kind : Kind) : Edit → Prop
  | .mode _ => True
  | .mtime _ => True
  | .cut _ _ => M.cut kind
  | .write _ data _ => M.write kind data

/-- New attributes ask for no creation. -/
theorem makes_ask (e : Edit) (path : Str) : (e.ask path).makes = none := by
  cases e <;> rfl

/-- New attributes keep the kind. -/
theorem attr_kind (e : Edit) (a : Attr) : (e.attr a).kind = a.kind := by
  cases e <;> rfl

/-- New attributes keep the inode. -/
theorem attr_ino (e : Edit) (a : Attr) : (e.attr a).ino = a.ino := by
  cases e <;> rfl

end Edit

/-- The mount with a new entry. -/
def Vm.made (s : Vm σ) (c : σ) (parent : ℕ) (p : Node) (x : Str) (e : Novel) (now : ℤ) : Vm σ :=
  { s with
    conn := c
    nodes := Tree.added s.nodes s.nextIno parent x
      ⟨join p.dbPath x, join p.view x, attr s.nextIno e.kind e.perm e.size (systemTime now), parent,
        Table.empty⟩
    nextIno := s.nextIno + 1 }

/-- The mount with new attributes of a node. -/
def Vm.edited (s : Vm σ) (c : σ) (ino : ℕ) (f : Attr → Attr) : Vm σ :=
  { s with conn := c, nodes := s.nodes.update ino fun n => { n with attr := f n.attr } }

/-- Every change that the database has done keeps the property. -/
structure Stays (B : Backend σ) (M : Manners) (I : Vm σ → Prop) : Prop where
  /-- The mount is in order. -/
  whole : ∀ s, I s → Whole s
  /-- A request that fails. -/
  failed : ∀ s c, I s → Fails B M s c → I { s with conn := c }
  /-- A read. -/
  read : ∀ s path off len b c, I s → B.read path off len s.conn = .ok b c → I { s with conn := c }
  /-- The end. -/
  finalize : ∀ s, I s → I { s with conn := endState B.finalize s.conn }
  /-- A new entry. -/
  made : ∀ s parent p x e now c, I s → s.nodes.get? parent = some p → p.attr.kind = .dir →
    IsName x → M.name x →
    p.children.get? x = none → e.perm < 0o10000 →
    B.run (e.ask (join p.dbPath x) now) s.conn = .ok () c → I (s.made c parent p x e now)
  /-- An entry without entries goes. -/
  dropped : ∀ s parent p x ino n c, I s → s.nodes.get? parent = some p →
    p.children.get? x = some ino →
    s.nodes.get? ino = some n → (n.attr.kind = .dir → n.children.rows = []) →
    B.run (.delete n.dbPath) s.conn = .ok () c →
    I { s with conn := c, nodes := removeNode s.nodes ino }
  /-- An entry moves, in front of one that is replaced. -/
  renamed : ∀ s ino newparent newN node np moves c nodes', I s → M.name newN →
    Found s.nodes ino newparent newN node np moves →
    (∀ m ∈ moves, ∃ k rel, s.nodes.get? m.ino = some k ∧ k.view = node.view ++ rel ∧
      m.oldDb = k.dbPath ∧
      m.newDb = join np.dbPath newN ++ rel ∧ m.newView = join np.view newN ++ rel) →
    B.run (.rename (((np.children.get? newN).bind s.nodes.get?).map fun rn => rn.dbPath)
      (moves.map fun m => (m.oldDb, m.newDb))) s.conn = .ok () c →
    Tree nodes' s.nextIno → Listed nodes' →
    nodes' = movedNodes (replacedNodes s.nodes (np.children.get? newN)) ino node.parent
    (fileName node.view) newparent newN
      moves → I { s with conn := c, nodes := nodes' }
  /-- New attributes. -/
  edited : ∀ s ino n (e : Edit) c, I s → s.nodes.get? ino = some n → e.Heeds M n.attr.kind →
    B.run (e.ask n.dbPath) s.conn = .ok () c → I (s.edited c ino e.attr)
  /-- A time of access. -/
  touched : ∀ s ino n t, I s → s.nodes.get? ino = some n →
    I (s.edited s.conn ino fun a => { a with atime := t })

/-- That the table is a tree stays, whatever the database answers and the kernel asks for. -/
theorem stays_whole (B : Backend σ) (M : Manners) : Stays B M Whole where
  whole s h := h
  failed s c h _ := h.conn c
  read s path off len b c h _ := h.conn c
  finalize s h := h.conn _
  made s parent p x e now c h hp hdir hname _ hfree _ _ := by
    obtain ⟨htree, hlisted⟩ := h.tree.add h.listed
      (m := ⟨join p.dbPath x, join p.view x, attr s.nextIno e.kind e.perm e.size (systemTime now),
        parent, Table.empty⟩)
      hp hdir hname hfree rfl rfl rfl
    exact ⟨htree, hlisted⟩
  dropped s parent p x ino n c h hp hx _ _ _ := by
    obtain ⟨htree, hlisted⟩ := h.tree.remove h.listed hp hx
    exact ⟨htree, hlisted⟩
  renamed s ino newparent newN node np moves c nodes' h _ _ _ _ htree hlisted _ := ⟨htree, hlisted⟩
  edited s ino n e c h _ _ _ := by
    obtain ⟨htree, hlisted⟩ := h.tree.retouch h.listed ino e.attr_kind
    exact ⟨htree, hlisted⟩
  touched s ino n t h _ := by
    obtain ⟨htree, hlisted⟩ :=
      h.tree.retouch (f := fun a => { a with atime := t }) h.listed ino fun _ => rfl
    exact ⟨htree, hlisted⟩

/-- A handler that ends without a reply has not panicked, and has changed nothing but the
connection, by a request to the database that failed. -/
def Left (B : Backend σ) (M : Manners) (s : Vm σ) (f : Fail) (s' : Vm σ) : Prop :=
  f ≠ .panicked ∧ (s' = s ∨ ∃ c, Fails B M s c ∧ s' = { s with conn := c })

/-- A handler that gives up before it asks has changed nothing. -/
theorem left_errno (e : Errno) : Left B M s (.errno e) s := ⟨by simp, Or.inl rfl⟩

/-- A handler whose request to the database failed has changed the connection only. -/
theorem left_failed {c : σ} (e : Errno) (h : Fails B M s c) :
    Left B M s (.errno e) { s with conn := c } :=
  ⟨by simp, Or.inr ⟨c, h, rfl⟩⟩

/-! ## The handlers -/

namespace Stays

variable {I : Vm σ → Prop} (h : Stays B M I) (hs : I s)

include h hs

/-- What is left of a handler that ends without a reply keeps the property. -/
theorem left {f : Fail} {s' : Vm σ} (hleft : Left B M s f s') : f ≠ .panicked ∧ I s' := by
  obtain ⟨hf, rfl | ⟨c, hc, rfl⟩⟩ := hleft
  · exact ⟨hf, hs⟩
  · exact ⟨hf, h.failed s c hs hc⟩

/-- The mount has the node, with the row and the kind it had. -/
def With (I : Vm σ → Prop) (ino : ℕ) (n : Node) (s : Vm σ) : Prop :=
  I s ∧ ∃ m, s.nodes.get? ino = some m ∧ m.dbPath = n.dbPath ∧ m.attr.kind = n.attr.kind

/-- New attributes that the database has taken. -/
theorem wp_edit {ino : ℕ} {n : Node} (hn : s.nodes.get? ino = some n) (e : Edit)
    (hheeds : e.Heeds M n.attr.kind) {Q : Unit → Vm σ → Prop}
    (hQ : ∀ s', With I ino n s' → Q () s')
    (hR : ∀ e c, Fails B M s c → R (.errno e) { s with conn := c }) :
    Wp (ask writeErrno (B.run (e.ask n.dbPath)) >>= fun _ => touch ino e.attr) Q R s := by
  rw [wp_bind]
  refine wp_run _ (by simp [Edit.makes_ask]) (fun c hc => ?_) hR
  unfold touch
  refine wp_modifyNode ⟨n, hn⟩
    (hQ _ ⟨h.edited s ino n e c hs hn hheeds hc, { n with attr := e.attr n.attr }, ?_, rfl, ?_⟩)
  · show (s.nodes.update ino _).get? ino = _
    rw [Table.get?_update_eq_map, hn, Option.map_some, if_pos rfl]
  · exact e.attr_kind n.attr

/-- A truncation changes the attributes of its node and the connection only. -/
theorem wp_truncateNode {ino : ℕ} {n : Node} (hn : s.nodes.get? ino = some n)
    (hcut : M.cut n.attr.kind) (size : ℕ) (now : ℤ) {Q : Unit → Vm σ → Prop}
    (hQ : ∀ s', With I ino n s' → Q () s')
    (hR : ∀ e c, Fails B M s c → R (.errno e) { s with conn := c }) :
    Wp (truncateNode B ino size now) Q R s := by
  unfold truncateNode
  rw [wp_bind, wp_get, wp_bind]
  refine wp_pick (fun hnone => ?_) fun n' hn' => ?_
  · rw [hn] at hnone
    cases hnone
  · rw [← Option.some.inj (hn.symm.trans hn')]
    exact h.wp_edit hs hn (.cut size now) hcut hQ hR

/-- `O_TRUNC` truncates, and an open without it does nothing. -/
theorem wp_truncateIf {ino : ℕ} {n : Node} (hn : s.nodes.get? ino = some n)
    (hkind : n.attr.kind = .file) (trunc : Bool) (now : ℤ) {Q : Unit → Vm σ → Prop}
    (hQ : ∀ s', With I ino n s' → Q () s')
    (hR : ∀ e c, Fails B M s c → R (.errno e) { s with conn := c }) :
    Wp (truncateIf B trunc ino now) Q R s := by
  unfold truncateIf
  rw [wp_ite]
  exact ⟨fun _ => h.wp_truncateNode hs hn (by rw [hkind]; exact M.cut_file) 0 now hQ hR,
    fun _ => hQ s ⟨hs, n, hn, rfl, rfl⟩⟩

/-- A new entry keeps the table whole. -/
theorem wp_make {parent : ℕ} {name : Option Str} {paths : Str × Str}
    (hpaths : newEntryPaths s.nodes parent name = .ok paths) (hheeds : ∀ x ∈ name, M.name x)
    (e : Novel) (hperm : e.perm < 0o10000) (now : ℤ) :
    Wp (make (fun p => B.run (e.ask p now)) parent paths e.kind e.perm e.size now) (fun _ => I)
    (Left B M s) s := by
  obtain ⟨p, x, hp, hdir, rfl, hname, hfree, rfl⟩ := newEntryPaths_ok hpaths
  have hfile : fileName (join p.view x) = x := by rw [join_eq, fileName_append hname.no_slash]
  unfold make
  rw [wp_bind]
  have hroom : ∀ path ∈ (e.ask (join p.dbPath x) now).makes, HasRoom M s.nodes path := by
    intro path hpath
    rw [Novel.makes_ask, Option.mem_some_iff] at hpath
    exact ⟨parent, p, x, hp, hdir, hname, hheeds x rfl, hpath.symm⟩
  refine wp_run _ hroom (fun c hc => ?_) fun _ _ hc => left_failed _ hc
  unfold addNode
  simp only [wp_bind, wp_get, wp_modify]
  refine wp_modifyNode ⟨p, hp⟩ ?_
  have hmade := h.made s parent p x e now c hs hp hdir hname (hheeds x rfl) hfree hperm hc
  dsimp only
  rw [hfile]
  exact hmade

/-- The removal of an entry without entries below it keeps the table whole. -/
theorem wp_drop {parent ino : ℕ} {name : Option Str} {n : Node}
    (hchild : child s.nodes parent name = some ino) (hn : s.nodes.get? ino = some n)
    (hbare : n.attr.kind = .dir → n.children.rows = []) :
    Wp (drop B ino n) (fun _ => I) (Left B M s) s := by
  obtain ⟨p, x, hp, -, hx⟩ := child_eq_some hchild
  unfold drop
  rw [wp_bind]
  exact wp_run (.delete n.dbPath) (by simp [Ask.makes])
    (fun c hc => h.dropped s parent p x ino n c hs hp hx hn hbare hc) fun _ _ hc => left_failed _ hc

omit h in
/-- A lookup changes nothing. -/
theorem wp_lookup (parent : ℕ) (name : Option Str) :
    Wp (lookup parent name) (fun _ => I) (Left B M s) s := by
  unfold lookup
  rw [wp_bind, wp_get, wp_bind]
  exact wp_pick (fun _ => left_errno _) fun _ _ => hs

omit h in
/-- Reading the attributes of a node changes nothing. -/
theorem wp_getattr (ino : ℕ) : Wp (getattr ino) (fun _ => I) (Left B M s) s := by
  unfold getattr
  rw [wp_bind, wp_get, wp_bind]
  exact wp_pick (fun _ => left_errno _) fun _ _ => hs

omit h in
/-- Reading the text of a link changes nothing but the connection. -/
theorem wp_readlink (ino : ℕ) : Wp (readlink B ino) (fun _ => I) (Left B M s) s := by
  unfold readlink
  rw [wp_bind, wp_get, wp_bind]
  refine wp_pick (fun _ => left_errno _) fun _ _ => ?_
  rw [wp_bind]
  exact wp_pick (fun _ => left_errno _) fun _ _ => hs

/-- An open keeps the table whole. -/
theorem wp_open (ino : ℕ) (trunc : Bool) (now : ℤ) :
    Wp (VmFuse.open B ino trunc now) (fun _ => I) (Left B M s) s := by
  unfold VmFuse.open
  rw [wp_bind, wp_get, wp_bind]
  refine wp_pick (fun _ => left_errno _) fun n hn => ?_
  rcases hkind : n.attr.kind with _ | _ | _
  · dsimp only
    rw [wp_bind]
    exact h.wp_truncateIf hs hn hkind trunc now (fun _ hs' => hs'.1) fun _ _ hc => left_failed _ hc
  · exact left_errno _
  · exact hs

/-- A read keeps the table whole. -/
theorem wp_read (ino : ℕ) (offset : ℤ) (size : ℕ) :
    Wp (VmFuse.read B ino offset size) (fun _ => I) (Left B M s) s := by
  unfold VmFuse.read
  rw [wp_ite]
  refine ⟨fun _ => left_errno _, fun _ => ?_⟩
  rw [wp_bind, wp_get, wp_bind]
  refine wp_pick (fun _ => left_errno _) fun n hn => ?_
  cases n.attr.kind with
  | dir => exact left_errno _
  | symlink => exact left_errno _
  | file =>
    dsimp only
    rw [wp_bind]
    exact wp_ask (fun b c hx => h.read s _ _ _ b c hs hx) fun e c hx =>
      left_failed _ (Or.inr ⟨_, _, _, e, hx⟩)

/-- A write keeps the table whole. -/
theorem wp_write (ino : ℕ) (offset : ℤ) (data : Bytes) (now : ℤ)
    (hheeds : ∀ n, s.nodes.get? ino = some n → M.write n.attr.kind data) :
    Wp (VmFuse.write B ino offset data now) (fun _ => I) (Left B M s) s := by
  unfold VmFuse.write
  rw [wp_ite]
  refine ⟨fun _ => left_errno _, fun _ => ?_⟩
  rw [wp_bind, wp_get, wp_bind]
  refine wp_pick (fun _ => left_errno _) fun n hn => ?_
  rw [wp_ite]
  refine ⟨fun _ => left_errno _, fun _ => ?_⟩
  have hedit := h.wp_edit (R := Left B M s) (Q := fun _ => I)
    hs hn (.write offset.toNat data now) (hheeds n hn)
    (fun _ hs' => hs'.1) fun _ _ hc => left_failed _ hc
  rw [wp_bind] at hedit ⊢
  refine hedit.mono (fun _ s' hs' => ?_) fun _ _ hs' => hs'
  rw [wp_bind]
  exact hs'

omit h in
/-- Opening a directory changes nothing. -/
theorem wp_opendir (ino : ℕ) : Wp (opendir ino) (fun _ => I) (Left B M s) s := by
  unfold opendir
  rw [wp_bind, wp_get, wp_ite]
  exact ⟨fun _ => hs, fun _ => left_errno _⟩

/-- A listing, which does not panic because the entries of the directory are nodes. -/
theorem wp_readdir (ino : ℕ) (offset : ℤ) (room : ℕ) :
    Wp (readdirOp ino offset room) (fun _ => I) (Left B M s) s := by
  unfold readdirOp
  rw [wp_bind, wp_get]
  have hne : readdir s.nodes ino (offset % 2 ^ 64).toNat room ≠ .panicked := by
    refine readdir_ne_panicked (fun n name c hn hc => ?_) _ _
    exact Table.has_eq_true.2 ((h.whole s hs).tree.exists_node hn hc)
  generalize readdir s.nodes ino (offset % 2 ^ 64).toNat room = listing at hne
  rcases listing with _ | _ | _ | es
  · exact left_errno _
  · exact left_errno _
  · exact absurd rfl hne
  · exact hs

/-- A new file, or one that is there. -/
theorem wp_create (parent : ℕ) (name : Option Str) (mode : ℕ) (excl trunc : Bool) (now : ℤ)
    (hheeds : ∀ x ∈ name, M.name x) :
    Wp (create B parent name mode excl trunc now) (fun _ => I) (Left B M s) s := by
  unfold create
  rw [wp_bind, wp_get]
  rcases hpaths : newEntryPaths s.nodes parent name with e | paths
  -- A name that is there is opened like a file; with any other error nothing is done.
  · by_cases he : e = .exist
    · subst he
      dsimp only
      rw [wp_bind]
      refine wp_pick (fun _ => left_errno _) fun ino hchild => ?_
      obtain ⟨n, hn⟩ := (h.whole s hs).exists_child hchild
      rw [wp_bind]
      refine wp_node hn ?_
      rw [wp_ite]
      refine ⟨fun hfile => ?_, fun _ => left_errno _⟩
      rw [wp_bind]
      refine h.wp_truncateIf hs hn hfile.1 trunc now (fun s' hs' => ?_) fun _ _ hc =>
        left_failed _ hc
      obtain ⟨hI, n', hn', -⟩ := hs'
      rw [wp_bind]
      exact wp_node hn' hI
    · cases e <;> first | exact left_errno _ | exact absurd rfl he
  · dsimp only
    rw [wp_bind]
    exact h.wp_make hs hpaths hheeds (.file (mode % 0o10000)) (Nat.mod_lt _ (by decide)) now

/-- A new directory, or one that is there. -/
theorem wp_mkdir (parent : ℕ) (name : Option Str) (mode : ℕ) (now : ℤ)
    (hheeds : ∀ x ∈ name, M.name x) :
    Wp (mkdir B parent name mode now) (fun _ => I) (Left B M s) s := by
  unfold mkdir
  rw [wp_bind, wp_get]
  rcases hpaths : newEntryPaths s.nodes parent name with e | paths
  · by_cases he : e = .exist
    · subst he
      dsimp only
      rw [wp_bind]
      refine wp_pick (fun _ => left_errno _) fun n _ => ?_
      rw [wp_ite]
      exact ⟨fun _ => hs, fun _ => left_errno _⟩
    · cases e <;> first | exact left_errno _ | exact absurd rfl he
  · dsimp only
    rw [wp_bind]
    exact h.wp_make hs hpaths hheeds (.dir (mode % 0o10000)) (Nat.mod_lt _ (by decide)) now

/-- A new file keeps the table whole. -/
theorem wp_mknod (parent : ℕ) (name : Option Str) (mode : ℕ) (now : ℤ)
    (hheeds : ∀ x ∈ name, M.name x) :
    Wp (mknod B parent name mode now) (fun _ => I) (Left B M s) s := by
  unfold mknod
  dsimp only
  rw [wp_ite]
  refine ⟨fun _ => left_errno _, fun _ => ?_⟩
  rw [wp_bind, wp_get]
  rcases hpaths : newEntryPaths s.nodes parent name with e | paths
  · exact left_errno _
  · dsimp only
    rw [wp_bind]
    exact h.wp_make hs hpaths hheeds (.file (mode % 0o10000)) (Nat.mod_lt _ (by decide)) now

/-- A new link keeps the table whole. -/
theorem wp_symlink (parent : ℕ) (linkName : Option Str) (target : Str) (now : ℤ)
    (hheeds : ∀ x ∈ linkName, M.name x) :
    Wp (symlink B parent linkName target now) (fun _ => I) (Left B M s) s := by
  unfold symlink
  rw [wp_bind, wp_get]
  rcases hpaths : newEntryPaths s.nodes parent linkName with e | paths
  · exact left_errno _
  · dsimp only
    rw [wp_bind]
    exact h.wp_make hs hpaths hheeds (.link target) (show 0o777 < 0o10000 by decide) now

/-- The removal of a file or a link keeps the table whole. -/
theorem wp_unlink (parent : ℕ) (name : Option Str) :
    Wp (unlink B parent name) (fun _ => I) (Left B M s) s := by
  unfold unlink
  rw [wp_bind, wp_get, wp_bind]
  refine wp_pick (fun _ => left_errno _) fun ino hchild => ?_
  obtain ⟨n, hn⟩ := (h.whole s hs).exists_child hchild
  rw [wp_bind]
  refine wp_node hn ?_
  rw [wp_ite]
  exact ⟨fun _ => left_errno _, fun hkind => h.wp_drop hs hchild hn fun hdir => absurd hdir hkind⟩

/-- The removal of a directory keeps the table whole. -/
theorem wp_rmdir (parent : ℕ) (name : Option Str) :
    Wp (rmdir B parent name) (fun _ => I) (Left B M s) s := by
  unfold rmdir
  rw [wp_bind, wp_get, wp_bind]
  refine wp_pick (fun _ => left_errno _) fun ino hchild => ?_
  obtain ⟨n, hn⟩ := (h.whole s hs).exists_child hchild
  rw [wp_bind]
  refine wp_node hn ?_
  rw [wp_ite, wp_ite]
  refine ⟨fun _ => left_errno _, fun _ => ⟨fun _ => left_errno _, fun hrows => ?_⟩⟩
  rw [not_not] at hrows
  exact h.wp_drop hs hchild hn fun _ => hrows

/-- A rename keeps the table whole. -/
theorem wp_rename (parent : ℕ) (name : Option Str) (newparent : ℕ) (newname : Option Str)
    (hheeds : ∀ x ∈ newname, M.name x) :
    Wp (rename B parent name newparent newname) (fun _ => I) (Left B M s) s := by
  refine (h.whole s hs).wp_rename (fun _ _ _ _ _ _ _ _ => hs)
    (fun e c hc => left_failed e hc) left_errno ?_
  intro ino newN node np moves gone c nodes' _ hnewname hf hmoves hgone hc htree hlisted hnodes
  rw [hgone] at hc
  exact h.renamed s ino newparent newN node np moves c nodes' hs (hheeds newN hnewname) hf hmoves hc
    htree hlisted hnodes

omit h in
/-- A test of permissions changes nothing. -/
theorem wp_access (ino : ℕ) : Wp (access ino) (fun _ => I) (Left B M s) s := by
  unfold access
  rw [wp_bind, wp_get, wp_ite]
  exact ⟨fun _ => hs, fun _ => left_errno _⟩

/-- New attributes, each of them by a request of its own: what is done before one fails stays done.
-/
theorem wp_setattr (ino : ℕ) (mode uid gid size atime mtime : Option ℕ) (now : ℤ)
    (hheeds : ∀ n, s.nodes.get? ino = some n → ∀ _ ∈ size, M.cut n.attr.kind) :
    Wp (setattr B ino mode uid gid size atime mtime now) (fun _ => I)
    (fun f s' => f ≠ .panicked ∧ I s') s := by
  unfold setattr
  rw [wp_bind, wp_get, wp_bind]
  refine wp_pick (fun _ => ⟨by simp, hs⟩) fun n hn => ?_
  rw [wp_ite]
  refine ⟨fun _ => ⟨by simp, hs⟩, fun _ => ?_⟩
  have hfail : ∀ s', I s' → ∀ e c, Fails B M s' c →
    (Fail.errno e ≠ .panicked ∧ I { s' with conn := c }) :=
    fun s' hs' e c hc => ⟨by simp, h.failed s' c hs' hc⟩
  rw [wp_bind]
  -- one attribute after the other, each from a mount with the node
  have hmode : Wp (mode.forM fun m => do
      ask writeErrno (B.setMode n.dbPath m)
      touch ino fun a => { a with perm := m % 0o10000 }) (fun _ => With I ino n)
        (fun f s' => f ≠ .panicked ∧ I s') s := by
    refine wp_forM (fun _ => ⟨hs, n, hn, rfl, rfl⟩) fun m _ => ?_
    exact h.wp_edit hs hn (.mode m) trivial (fun _ hs' => hs') (hfail s hs)
  refine hmode.mono (fun _ s₁ hs₁ => ?_) fun _ _ hs' => hs'
  rw [wp_bind]
  have hatime : Wp (atime.forM fun t => touch ino fun a => { a with atime := t })
    (fun _ => With I ino n)
      (fun f s' => f ≠ .panicked ∧ I s') s₁ := by
    refine wp_forM (fun _ => hs₁) fun t _ => ?_
    obtain ⟨hI, m, hm, hpath, hkind⟩ := hs₁
    unfold touch
    refine wp_modifyNode ⟨m, hm⟩ ⟨h.touched s₁ ino m t hI hm,
      { m with attr := { m.attr with atime := t } }, ?_, hpath, hkind⟩
    show (s₁.nodes.update ino _).get? ino = _
    rw [Table.get?_update_eq_map, hm, Option.map_some, if_pos rfl]
  refine hatime.mono (fun _ s₂ hs₂ => ?_) fun _ _ hs' => hs'
  rw [wp_bind]
  have hmtime : Wp (mtime.forM fun t => do
      ask writeErrno (B.setMtime n.dbPath t)
      touch ino fun a => { a with mtime := t, ctime := t }) (fun _ => With I ino n)
        (fun f s' => f ≠ .panicked ∧ I s') s₂ := by
    refine wp_forM (fun _ => hs₂) fun t _ => ?_
    obtain ⟨hI, m, hm, hpath, hkind⟩ := hs₂
    rw [← hpath]
    refine h.wp_edit hI hm (.mtime t) trivial (fun s' hs' => ?_) (hfail s₂ hI)
    obtain ⟨hI', m', hm', hpath', hkind'⟩ := hs'
    exact ⟨hI', m', hm', hpath'.trans hpath, hkind'.trans hkind⟩
  refine hmtime.mono (fun _ s₃ hs₃ => ?_) fun _ _ hs' => hs'
  rw [wp_bind]
  have hsize : Wp (size.forM fun sz => truncateNode B ino sz now) (fun _ => With I ino n)
      (fun f s' => f ≠ .panicked ∧ I s') s₃ := by
    refine wp_forM (fun _ => hs₃) fun sz hsz => ?_
    obtain ⟨hI, m, hm, hpath, hkind⟩ := hs₃
    refine h.wp_truncateNode hI hm (by rw [hkind]; exact hheeds n hn sz hsz) sz now
      (fun s' hs' => ?_) (hfail s₃ hI)
    obtain ⟨hI', m', hm', hpath', hkind'⟩ := hs'
    exact ⟨hI', m', hm', hpath'.trans hpath, hkind'.trans hkind⟩
  refine hsize.mono (fun _ s₄ hs₄ => ?_) fun _ _ hs' => hs'
  obtain ⟨hI, n', hn', -⟩ := hs₄
  rw [wp_bind]
  exact wp_node hn' hI

/-! ## All requests -/

/-- A failing request other than `setattr` leaves what it found, up to the connection. -/
theorem handler_left (r : Request) (hheeds : r.Heeds M s.nodes)
    (hr : ∀ ino mode uid gid size atime mtime now,
      r ≠ .setattr ino mode uid gid size atime mtime now) :
    Wp (handler B r) (fun _ => I) (Left B M s) s := by
  -- One case for each request, by the lemma on its handler.
  cases r with
  | lookup parent name => exact wp_lookup hs parent name
  | getattr ino => exact wp_getattr hs ino
  | readlink ino => exact wp_readlink hs ino
  | «open» ino trunc now => exact h.wp_open hs ino trunc now
  | read ino offset size => exact h.wp_read hs ino offset size
  | write ino offset data now => exact h.wp_write hs ino offset data now hheeds
  | flush => exact hs
  | opendir ino => exact wp_opendir hs ino
  | readdir ino offset room => exact h.wp_readdir hs ino offset room
  | statfs => exact hs
  | create parent name mode excl trunc now =>
    exact h.wp_create hs parent name mode excl trunc now hheeds
  | mkdir parent name mode now => exact h.wp_mkdir hs parent name mode now hheeds
  | mknod parent name mode now => exact h.wp_mknod hs parent name mode now hheeds
  | symlink parent linkName target now => exact h.wp_symlink hs parent linkName target now hheeds
  | unlink parent name => exact h.wp_unlink hs parent name
  | rmdir parent name => exact h.wp_rmdir hs parent name
  | rename parent name newparent newname =>
      exact h.wp_rename hs parent name newparent newname hheeds
  | setattr ino mode uid gid size atime mtime now =>
      exact absurd rfl (hr ino mode uid gid size atime mtime now)
  | access ino => exact wp_access hs ino
  | getxattr => exact left_errno _
  | listxattr => exact left_errno _
  | destroy => exact h.finalize s hs

/-- Every request keeps the property and does not panic. -/
theorem handler (r : Request) (hheeds : r.Heeds M s.nodes) :
    Wp (VmFuse.handler B r) (fun _ => I) (fun f s' => f ≠ .panicked ∧ I s') s := by
  by_cases hr : ∃ ino mode uid gid size atime mtime now,
    r = .setattr ino mode uid gid size atime mtime now
  · obtain ⟨ino, mode, uid, gid, size, atime, mtime, now, rfl⟩ := hr
    exact h.wp_setattr hs ino mode uid gid size atime mtime now hheeds
  · push Not at hr
    exact (h.handler_left hs r hheeds hr).mono (fun _ _ hs' => hs') fun _ _ hleft => h.left hs hleft

/-- No request panics, and each keeps the invariant. -/
theorem handle (r : Request) (hheeds : r.Heeds M s.nodes) :
    (VmFuse.handle B r s).1 ≠ .error .panicked ∧ I (VmFuse.handle B r s).2 := by
  have hwp := h.handler hs r hheeds
  unfold VmFuse.handle
  rcases hx : VmFuse.handler B r s with ⟨reply, s'⟩ | ⟨f, s'⟩
  · rw [Wp.of_ok hx] at hwp
    exact ⟨by simp, hwp⟩
  · rw [Wp.of_error hx] at hwp
    exact ⟨by simpa using hwp.1, hwp.2⟩

omit hs in
/-- By induction on the requests, the invariant holds in every state of a run. -/
theorem runAll (rs : List Request) : ∀ s, I s → Heeded M B rs s → I (VmFuse.runAll B rs s) := by
  induction rs with
  | nil => exact fun s hs _ => hs
  | cons r rs ih => exact fun s hs hheeds => ih _ (h.handle hs r hheeds.1).2 hheeds.2

end Stays

/-- All requests of a run keep the tree, whatever they are. -/
theorem Whole.runAll (h : Whole s) (B : Backend σ) (rs : List Request) :
    Whole (VmFuse.runAll B rs s) :=
  (stays_whole B Manners.any).runAll rs s h (heeded_any B rs s)

/-- On a whole table no request panics. -/
theorem Whole.handle_ne_panicked (h : Whole s) (B : Backend σ) (r : Request) :
    (handle B r s).1 ≠ .error .panicked :=
  ((stays_whole B Manners.any).handle h r (r.heeds_any s.nodes)).1

end Dbvm.VmFuse
