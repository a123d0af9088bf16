import Dbvm.MountLinks

/-!
# The tree of a mount

`VmFuse::rebuild` (`src/fuse.rs`) makes the node table of a mount from the rows of `vm_fs`. One pass
makes a node for each path under which the kernel reaches an entry (`view_of`), with the rows in the
order of the lengths of their paths. A second pass links every node to the directory above it, and
removes the ones that have none; it takes the nodes in the order in which the hash map yields their
numbers, which is not known (`order`).

The second pass should not panic, and should come to the same tree, whatever the order is
(`Mounts`). It looks up the node of a directory that it may have removed before, and it files two
entries of one directory under one name when their paths differ in white space only.
-/

namespace Dbvm.VmFuse

open Dbvm Lib

/-! ## The node table -/

/-- `FileAttr`, without what is the same for every node. -/
structure Attr where
  /-- The number of the node. -/
  ino : ℕ
  /-- The size. -/
  size : ℕ
  /-- The size in blocks. -/
  blocks : ℕ
  /-- The time of access. -/
  atime : ℕ
  /-- The time of modification. -/
  mtime : ℕ
  /-- The time of change. -/
  ctime : ℕ
  /-- The time of creation. -/
  crtime : ℕ
  /-- The kind. -/
  kind : Kind
  /-- The permission bits. -/
  perm : ℕ
  /-- The number of links. -/
  nlink : ℕ

/-- `Node`. -/
structure Node where
  /-- The row in `vm_fs`. -/
  dbPath : Str
  /-- The path under which the kernel reaches the node. -/
  view : Str
  /-- The attributes. -/
  attr : Attr
  /-- The directory above. -/
  parent : ℕ
  /-- The entries of a directory by name. -/
  children : Table Str ℕ

/-- `ROOT`. -/
def rootIno : ℕ := 1

/-- `parent_of`. -/
def parentOf (p : Str) : Str := normalizeVmPath ((pathParent p).getD root)

/-- `system_time`, in seconds. -/
def systemTime (secs : ℤ) : ℕ := secs.toNat

/-- `VmFuse::attr`. -/
def attr (ino : ℕ) (kind : Kind) (perm size mtime : ℕ) : Attr :=
  { ino := ino
    size := size
    blocks := if kind = .dir then 8 else (size + 511) / 512
    atime := mtime
    mtime := mtime
    ctime := mtime
    crtime := mtime
    kind := kind
    perm := perm
    nlink := if kind = .dir then 2 else 1 }

section Rebuild

variable {K : Type} [DecidableEq K]

/-- What the first pass has made. -/
structure Built where
  /-- The nodes. -/
  nodes : Table ℕ Node
  /-- The next free number. -/
  nextIno : ℕ
  /-- The number of each view path. -/
  byView : Table Str ℕ

/-- What the first pass starts with: the root. -/
def start : Built :=
  { nodes := Table.empty.put rootIno ⟨root, root, attr rootIno .dir 0o755 4096 0, rootIno,
    Table.empty⟩
    nextIno := rootIno + 1
    byView := Table.empty.put root rootIno }

/-- The links, with the paths of their rows; none when a link has no target, which is an error of
the query. -/
def linkRows (fs : Table Str (FsRow K)) : Option (List (Str × Str)) :=
  (fs.rows.filter fun r => r.2.kind = .symlink).mapM fun r => r.2.linkTarget.map fun t => (r.1, t)

/-- `real_paths`: the paths of what is not a link. -/
def realPaths (fs : Table Str (FsRow K)) : List Str :=
  (fs.rows.filter fun r => r.2.kind ≠ .symlink).map fun r => normalizeVmPath r.1

/-- The rows by `length(path), path`. -/
def sortedRows (fs : Table Str (FsRow K)) : List (Str × FsRow K) :=
  fs.rows.insertionSort fun a b => pathBefore a.1 b.1

/-- The size that a node shows. -/
def sizeOf (row : FsRow K) : ℕ :=
  match row.kind with
  | .dir => 4096
  | .symlink => (row.linkTarget.map fun t => t.bytes.length).getD 0
  | .file => row.size

/-- One row of the first pass. -/
def addRow (links : List (Str × Str)) (reals : List Str) (st : Built) (r : Str × FsRow K) : Built :=
  let norm := normalizeVmPath r.1
  if norm = root then
    let t := systemTime r.2.mtime
    { st with nodes := st.nodes.update rootIno fun n =>
      { n with attr := { n.attr with mtime := t, ctime := t, atime := t } } }
  else
    let view := viewOf norm links
    -- a link that leads to a real entry has no room in the tree
    if view ≠ norm ∧ view ∈ reals then st
    else if st.byView.has view then st
    else
      let ino := st.nextIno
      { nodes := st.nodes.put ino
          ⟨norm, view, attr ino r.2.kind (r.2.mode % 0o10000).toNat (sizeOf r.2)
            (systemTime r.2.mtime), rootIno, Table.empty⟩
        nextIno := ino + 1
        byView := st.byView.put view ino }

/-- The first pass. -/
def build (fs : Table Str (FsRow K)) (links : List (Str × Str)) : Built :=
  (sortedRows fs).foldl (addRow links (realPaths fs)) start

/-- Why `rebuild` does not return a tree. -/
inductive RebuildErr where
  /-- A query failed. -/
  | sql
  /-- It panicked. -/
  | panicked
deriving DecidableEq

/-- One node of the second pass. Both lookups panic when there is no such node. -/
def linkStep (byView : Table Str ℕ) (nodes : Table ℕ Node) (ino : ℕ) :
    Except RebuildErr (Table ℕ Node) :=
  match nodes.get? ino with
  | none => .error .panicked
  | some node =>
    match byView.get? (parentOf node.view) with
    | none => .ok (nodes.deleteWhere fun i _ => i = ino)
    | some parent =>
      match nodes.get? parent with
      | none => .error .panicked
      | some p =>
        if p.attr.kind = .dir then
          .ok ((nodes.update ino fun n => { n with parent := parent }).update parent fun n =>
            { n with children := n.children.put (fileName node.view) ino })
        else .ok (nodes.deleteWhere fun i _ => i = ino)

/-- The second pass. -/
def linkAll (byView : Table Str ℕ) : List ℕ → Table ℕ Node → Except RebuildErr (Table ℕ Node)
  | [], nodes => .ok nodes
  | ino :: rest, nodes =>
    match linkStep byView nodes ino with
    | .error e => .error e
    | .ok nodes => linkAll byView rest nodes

/-- `VmFuse::rebuild`, with the hash map yielding the numbers in this order. -/
def rebuild (fs : Table Str (FsRow K)) (order : List ℕ) : Except RebuildErr (Table ℕ Node) :=
  match linkRows fs with
  | none => .error .sql
  | some links => linkAll (build fs links).byView order (build fs links).nodes

/-- The numbers that the second pass is to take. -/
def inos (fs : Table Str (FsRow K)) : List ℕ :=
  match linkRows fs with
  | none => []
  | some links => ((build fs links).nodes.rows.map Prod.fst).filter (· ≠ rootIno)

/-! ## Listings -/

/-- What `readdir` comes to. -/
inductive Listing where
  /-- `ENOENT`. -/
  | noent
  /-- `ENOTDIR`. -/
  | notdir
  /-- It panicked. -/
  | panicked
  /-- The entries that fit: number, kind and name. -/
  | entries (es : List (ℕ × Kind × Str))

/-- `readdir`: the two dots and the children in the order of their names, from the offset, as many
as there is room for. The kind of every entry up to the first that does not fit is looked up. -/
def readdir (nodes : Table ℕ Node) (ino offset room : ℕ) : Listing :=
  match nodes.get? ino with
  | none => .noent
  | some n =>
    if n.attr.kind ≠ .dir then .notdir
    else
      let dots : List (ℕ × Option Kind × Str) :=
        [(ino, some .dir, ".".toList), (n.parent, some .dir, "..".toList)]
      let children := (n.children.rows.insertionSort fun a b => a.1 ≤ b.1).map fun c =>
        (c.2, (nodes.get? c.2).map fun n => n.attr.kind, c.1)
      match ((dots ++ children).take (offset + room + 1)).mapM fun e => e.2.1.map fun kind =>
        (e.1, kind, e.2.2) with
      | none => .panicked
      | some es => .entries ((es.drop offset).take room)

/-! ## What should hold -/

/-- A node that is reached from the root. -/
inductive Reached (nodes : Table ℕ Node) : ℕ → Prop where
  /-- The root. -/
  | root : Reached nodes rootIno
  /-- A child of a node. -/
  | child {p c : ℕ} {n : Node} {name : Str} : Reached nodes p → nodes.get? p = some n →
      n.children.get? name = some c →
    Reached nodes c

/-- The entries of a tree: view path, row and kind. -/
def Shows (nodes : Table ℕ Node) (e : Str × Str × Kind) : Prop :=
  ∃ i n, Reached nodes i ∧ nodes.get? i = some n ∧ e = (n.view, n.dbPath, n.attr.kind)

/-- Building the tree does not panic and comes to one tree, whatever the order is. -/
structure Mounts (fs : Table Str (FsRow K)) : Prop where
  /-- It does not panic. -/
  total : ∀ order, order.Perm (inos fs) → rebuild fs order ≠ .error .panicked
  /-- Every child is a node. -/
  listed : ∀ order nodes, order.Perm (inos fs) → rebuild fs order = .ok nodes →
    ∀ i n name c, nodes.get? i = some n → n.children.get? name = some c → nodes.has c = true
  /-- The entries do not depend on the order. -/
  same : ∀ order order' nodes nodes', order.Perm (inos fs) → order'.Perm (inos fs) →
    rebuild fs order = .ok nodes →
    rebuild fs order' = .ok nodes' → ∀ e, Shows nodes e ↔ Shows nodes' e

/-! ## When it does -/

/-- A row that has room in the tree. -/
def takes (links : List (Str × Str)) (reals : List Str) (r : Str × FsRow K) : Bool :=
  normalizeVmPath r.1 ≠ root &&
    !(viewOf (normalizeVmPath r.1) links ≠ normalizeVmPath r.1 && viewOf (normalizeVmPath r.1)
      links ∈ reals)

/-- The kind of what is shown at a view path: of the first row with that view path. -/
def kindIn (links : List (Str × Str)) (reals : List Str) (rows : List (Str × FsRow K)) (v : Str) :
    Option Kind :=
  (rows.find? fun r => takes links reals r && viewOf (normalizeVmPath r.1) links = v).map fun r =>
  r.2.kind

/-- The kind of what is shown at a view path, the root included. -/
def kindAt (fs : Table Str (FsRow K)) (links : List (Str × Str)) (v : Str) : Option Kind :=
  if v = root then some .dir else kindIn links (realPaths fs) (sortedRows fs) v

/-- No entry lies below one that is in no directory, and two entries of a directory differ in their
names. -/
structure Fits (fs : Table Str (FsRow K)) (links : List (Str × Str)) : Prop where
  /-- What has an entry below it, beside the root, lies in a directory itself. -/
  parents : ∀ v, v ≠ root → (kindAt fs links v).isSome → parentOf v ≠ root →
    (kindAt fs links (parentOf v)).isSome →
    kindAt fs links (parentOf (parentOf v)) = some .dir
  /-- The names in a directory. -/
  names : ∀ v w, v ≠ root → w ≠ root → (kindAt fs links v).isSome → (kindAt fs links w).isSome →
    parentOf v = parentOf w → kindAt fs links (parentOf v) = some .dir → fileName v = fileName w →
    v = w

end Rebuild

/-! ## Parents -/

/-- A text that `normalize_vm_path` returns is the root or has a parent that is shorter. -/
theorem length_parentOf_lt {s : Str} (h : normalizeVmPath s ≠ root) :
    (parentOf (normalizeVmPath s)).length < (normalizeVmPath s).length := by
  have hnames := isName_splitComponents (trim s)
  rw [normalizeVmPath_eq] at h ⊢
  generalize splitComponents (trim s) = cs at h hnames ⊢
  obtain rfl | ⟨dir, c, rfl⟩ := cs.eq_nil_or_concat
  · exact absurd rfl h
  rw [List.concat_eq_append] at hnames ⊢
  have hdir : ∀ d ∈ dir, IsName d := fun d hd => hnames d (List.mem_append_left _ hd)
  have hparent := length_normalizeVmPath_pathOf hdir
  rw [pathOf_concat, parentOf, pathParent_concat hnames, Option.getD_some]
  refine lt_of_le_of_lt hparent ?_
  have hc := List.length_pos_of_ne_nil (hnames c (by simp)).ne_nil
  rw [ofNames_append]
  unfold pathOf
  split_ifs with hnil
  · subst hnil
    simp [ofNames, root]
    omega
  · simp [ofNames]

section Build

variable {K : Type} [DecidableEq K] {links : List (Str × Str)} {reals : List Str} {st : Built}

/-! ## The first pass -/

namespace Built

/-- The kind of the node at a view path. -/
def kindOf (st : Built) (v : Str) : Option Kind :=
  (st.byView.get? v).bind fun i => (st.nodes.get? i).map fun n => n.attr.kind

/-- What holds after every row: the root is there, the table of view paths is that of the nodes, the
numbers that come are free, and nothing is linked yet. -/
structure Good (st : Built) : Prop where
  /-- The root. -/
  top : ∃ n, st.nodes.get? rootIno = some n ∧ n.view = root ∧ n.attr.kind = .dir
  /-- The view paths. -/
  byView_iff : ∀ v i, st.byView.get? v = some i ↔ ∃ n, st.nodes.get? i = some n ∧ n.view = v
  /-- The numbers. -/
  fresh : ∀ i n, st.nodes.get? i = some n → i < st.nextIno
  /-- No node has an entry. -/
  bare : ∀ i n, st.nodes.get? i = some n → n.children = Table.empty
  /-- The texts of the view paths. -/
  shape : ∀ i n, st.nodes.get? i = some n → ∃ s, n.view = normalizeVmPath s

namespace Good

variable (hst : st.Good)

include hst

/-- A view path leads to a node. -/
theorem exists_node {v : Str} {i : ℕ} (h : st.byView.get? v = some i) :
    ∃ n, st.nodes.get? i = some n ∧ n.view = v :=
  (hst.byView_iff v i).1 h

/-- A node is found by the path it shows. -/
theorem byView_view {i : ℕ} {n : Node} (h : st.nodes.get? i = some n) :
    st.byView.get? n.view = some i :=
  (hst.byView_iff n.view i).2 ⟨n, h, rfl⟩

/-- Two nodes have two view paths. -/
theorem view_inj {i j : ℕ} {n m : Node} (hi : st.nodes.get? i = some n)
    (hj : st.nodes.get? j = some m) (h : n.view = m.view) : i = j := by
  have hview := hst.byView_view hi
  rw [h, hst.byView_view hj] at hview
  exact (Option.some.inj hview).symm

/-- The first node shows the root, and no other does. -/
theorem view_eq_root {i : ℕ} {n : Node} (h : st.nodes.get? i = some n) :
    n.view = root ↔ i = rootIno := by
  obtain ⟨m, hm, hview, -⟩ := hst.top
  constructor
  · intro hn
    exact hst.view_inj h hm (hn.trans hview.symm)
  · rintro rfl
    rw [h] at hm
    rw [Option.some.inj hm, hview]

/-- The kind at a path is that of the node that shows it. -/
theorem kindOf_eq_some {v : Str} {k : Kind} :
    st.kindOf v = some k ↔ ∃ i n, st.nodes.get? i = some n ∧ n.view = v ∧ n.attr.kind = k := by
  unfold kindOf
  rw [Option.bind_eq_some_iff]
  constructor
  · rintro ⟨i, hi, hk⟩
    obtain ⟨n, hn, hview⟩ := hst.exists_node hi
    rw [hn] at hk
    exact ⟨i, n, hn, hview, Option.some.inj hk⟩
  · rintro ⟨i, n, hn, hview, hk⟩
    exact ⟨i, (hst.byView_iff v i).2 ⟨n, hn, hview⟩, by rw [hn, Option.map_some, hk]⟩

/-- A path has a kind iff a node shows it. -/
theorem kindOf_isSome {v : Str} :
    (st.kindOf v).isSome ↔ ∃ i n, st.nodes.get? i = some n ∧ n.view = v := by
  rw [Option.isSome_iff_exists]
  constructor
  · rintro ⟨k, hk⟩
    obtain ⟨i, n, hn, hview, -⟩ := hst.kindOf_eq_some.1 hk
    exact ⟨i, n, hn, hview⟩
  · rintro ⟨i, n, hn, hview⟩
    exact ⟨_, hst.kindOf_eq_some.2 ⟨i, n, hn, hview, rfl⟩⟩

end Good

/-- The first pass starts with the root alone. -/
theorem good_start : start.Good := by
  -- The root is the only node.
  have hroot : ∀ i n, start.nodes.get? i = some n → i = rootIno ∧
      n = ⟨root, root, attr rootIno .dir 0o755 4096 0, rootIno, Table.empty⟩ := by
    intro i n h
    rw [start, Table.get?_put] at h
    split_ifs at h with hi
    · exact ⟨hi, (Option.some.inj h).symm⟩
    · rw [Table.get?_empty] at h
      cases h
  refine ⟨⟨_, rfl, rfl, rfl⟩, ?_, ?_, ?_, ?_⟩
  · intro v i
    rw [start, Table.get?_put]
    constructor
    · intro h
      split_ifs at h with hv
      · obtain rfl := Option.some.inj h
        exact ⟨_, rfl, hv.symm⟩
      · rw [Table.get?_empty] at h
        cases h
    · rintro ⟨n, hn, hview⟩
      obtain ⟨rfl, rfl⟩ := hroot i n hn
      rw [if_pos hview.symm]
  · intro i n h
    rw [(hroot i n h).1]
    decide
  · intro i n h
    rw [(hroot i n h).2]
  · intro i n h
    refine ⟨root, ?_⟩
    rw [(hroot i n h).2]
    exact (by decide : normalizeVmPath root = root).symm

omit [DecidableEq K] in
/-- What a row does to the table: nothing that shows, or it puts a node under a free number and a
free view path. -/
theorem addRow_cases (links : List (Str × Str)) (reals : List Str) (st : Built)
    (r : Str × FsRow K) :
    (addRow links reals st r = { st with nodes := st.nodes.update rootIno fun n =>
        { n with
          attr :=
            { n.attr with
              mtime := systemTime r.2.mtime
              ctime := systemTime r.2.mtime
              atime := systemTime r.2.mtime } } } ∧
      takes links reals r = false) ∨
    (addRow links reals st r = st ∧
      (takes links reals r = true → st.byView.has (viewOf (normalizeVmPath r.1) links) = true)) ∨
    (takes links reals r = true ∧ st.byView.get? (viewOf (normalizeVmPath r.1) links) = none ∧
      ∃ n : Node, n.view = viewOf (normalizeVmPath r.1) links ∧ n.attr.kind = r.2.kind ∧
        n.children = Table.empty ∧
        addRow links reals st r = ⟨st.nodes.put st.nextIno n, st.nextIno + 1,
          st.byView.put n.view st.nextIno⟩) := by
  unfold addRow takes
  dsimp only
  generalize viewOf (normalizeVmPath r.1) links = view
  -- The root, a path in the way of a link, a name that is taken, and a new node.
  split_ifs with hroot hreal hhas
  · exact Or.inl ⟨rfl, by simp [hroot]⟩
  · exact Or.inr (Or.inl ⟨rfl, by simp [hroot, hreal.1, hreal.2]⟩)
  · exact Or.inr (Or.inl ⟨rfl, fun _ => hhas⟩)
  · refine Or.inr (Or.inr ⟨?_, Table.get?_of_not_has hhas, ⟨_, rfl, rfl, rfl, rfl⟩⟩)
    rw [not_and] at hreal
    simpa [hroot, or_iff_not_imp_left] using hreal

/-- The view path of a row is a text that `normalize_vm_path` returns. -/
theorem exists_viewOf (p : Str) (links : List (Str × Str)) :
    ∃ s, viewOf (normalizeVmPath p) links = normalizeVmPath s := by
  unfold viewOf
  split
  · exact ⟨_, rfl⟩
  · exact ⟨p, rfl⟩

namespace Good

variable (hst : st.Good)

include hst

/-- New times for the root keep the nodes good and every kind. -/
theorem touchRoot (f : Attr → Attr) (hf : ∀ a, (f a).kind = a.kind) :
    ({ st with nodes := st.nodes.update rootIno fun n =>
      { n with attr := f n.attr } } : Built).Good ∧
      ∀ v,
      ({ st with nodes := st.nodes.update rootIno fun n =>
        { n with attr := f n.attr } } : Built).kindOf v = st.kindOf v := by
  have hnode : ∀ i, (st.nodes.update rootIno fun n => { n with attr := f n.attr }).get? i =
      (st.nodes.get? i).map fun n => if i = rootIno then { n with attr := f n.attr } else n :=
    fun i => Table.get?_update_eq_map st.nodes rootIno i _
  have hback : ∀ i m, (st.nodes.update rootIno fun n => { n with attr := f n.attr }).get?
      i = some m →
      ∃ n, st.nodes.get? i = some n ∧ m.view = n.view ∧ m.children = n.children := by
    intro i m h
    rw [hnode, Option.map_eq_some_iff] at h
    obtain ⟨n, hn, rfl⟩ := h
    exact ⟨n, hn, by split_ifs <;> rfl, by split_ifs <;> rfl⟩
  -- Only the attributes of the root change, and not its kind.
  constructor
  · refine ⟨?_, ?_, ?_, ?_, ?_⟩
    · obtain ⟨n, hn, hview, hkind⟩ := hst.top
      refine ⟨{ n with attr := f n.attr }, ?_, hview, (hf _).trans hkind⟩
      rw [hnode, hn]
      rfl
    · intro v i
      rw [hst.byView_iff v i]
      constructor
      · rintro ⟨n, hn, hview⟩
        refine ⟨if i = rootIno then { n with attr := f n.attr } else n, ?_, ?_⟩
        · rw [hnode, hn, Option.map_some]
        · split_ifs <;> exact hview
      · rintro ⟨m, hm, hview⟩
        obtain ⟨n, hn, hmn, -⟩ := hback i m hm
        exact ⟨n, hn, hmn.symm.trans hview⟩
    · intro i m h
      obtain ⟨n, hn, -, -⟩ := hback i m h
      exact hst.fresh i n hn
    · intro i m h
      obtain ⟨n, hn, -, hchildren⟩ := hback i m h
      rw [hchildren, hst.bare i n hn]
    · intro i m h
      obtain ⟨n, hn, hview, -⟩ := hback i m h
      obtain ⟨s, hs⟩ := hst.shape i n hn
      exact ⟨s, hview.trans hs⟩
  · intro v
    unfold kindOf
    congr 1
    funext i
    rw [hnode]
    rcases st.nodes.get? i with _ | n
    · rfl
    · simp only [Option.map_some]
      split_ifs
      · rw [hf]
      · rfl

/-- A new node keeps the nodes good and shows its kind at its path. -/
theorem putNode {n : Node} (hfree : st.byView.get? n.view = none)
    (hchildren : n.children = Table.empty) (hshape : ∃ s, n.view = normalizeVmPath s) :
    (⟨st.nodes.put st.nextIno n, st.nextIno + 1, st.byView.put n.view st.nextIno⟩ : Built).Good ∧
      ∀ v,
        (⟨st.nodes.put st.nextIno n, st.nextIno + 1,
          st.byView.put n.view st.nextIno⟩ : Built).kindOf v =
        (st.kindOf v).or (if n.view = v then some n.attr.kind else none) := by
  have hnew : ∀ i m, st.nodes.get? i = some m → i ≠ st.nextIno := fun i m h => (hst.fresh i m h).ne
  -- A node is the new one or one of the old ones.
  have hback : ∀ i m, (st.nodes.put st.nextIno n).get? i = some m → i = st.nextIno ∧ m = n ∨
    st.nodes.get? i = some m := by
    intro i m h
    rw [Table.get?_put] at h
    split_ifs at h with hi
    · exact Or.inl ⟨hi, (Option.some.inj h).symm⟩
    · exact Or.inr h
  have hold : ∀ i m, st.nodes.get? i = some m → (st.nodes.put st.nextIno n).get? i = some m := by
    intro i m h
    rw [Table.get?_put, if_neg (hnew i m h), h]
  have hself : (st.nodes.put st.nextIno n).get? st.nextIno = some n :=
    by rw [Table.get?_put, if_pos rfl]
  have hgood :
    (⟨st.nodes.put st.nextIno n, st.nextIno + 1,
      st.byView.put n.view st.nextIno⟩ : Built).Good := by
    refine ⟨?_, ?_, ?_, ?_, ?_⟩
    · obtain ⟨m, hm, hview, hkind⟩ := hst.top
      exact ⟨m, hold _ _ hm, hview, hkind⟩
    · intro v i
      dsimp only
      rw [Table.get?_put]
      constructor
      · intro h
        split_ifs at h with hv
        · obtain rfl := Option.some.inj h
          exact ⟨n, hself, hv.symm⟩
        · obtain ⟨m, hm, hview⟩ := hst.exists_node h
          exact ⟨m, hold _ _ hm, hview⟩
      · rintro ⟨m, hm, hview⟩
        rcases hback i m hm with ⟨rfl, rfl⟩ | hm
        · rw [if_pos hview.symm]
        · have hv := (hst.byView_iff v i).2 ⟨m, hm, hview⟩
          rw [if_neg, hv]
          rintro rfl
          rw [hfree] at hv
          cases hv
    · intro i m h
      dsimp only
      rcases hback i m h with ⟨rfl, -⟩ | h
      · omega
      · have := hst.fresh i m h
        omega
    · intro i m h
      rcases hback i m h with ⟨-, rfl⟩ | h
      · exact hchildren
      · exact hst.bare i m h
    · intro i m h
      rcases hback i m h with ⟨-, rfl⟩ | h
      · exact hshape
      · exact hst.shape i m h
  refine ⟨hgood, fun v => ?_⟩
  ext k
  rw [hgood.kindOf_eq_some]
  constructor
  · rintro ⟨i, m, hm, hview, hkind⟩
    rcases hback i m hm with ⟨rfl, rfl⟩ | hm
    · subst hview
      rw [kindOf, hfree, Option.bind_none, Option.none_or, if_pos rfl, hkind]
    · rw [hst.kindOf_eq_some.2 ⟨i, m, hm, hview, hkind⟩, Option.some_or]
  · intro h
    rcases hk : st.kindOf v with _ | k'
    · rw [hk, Option.none_or] at h
      split_ifs at h with hv
      exact ⟨st.nextIno, n, hself, hv, Option.some.inj h⟩
    · rw [hk, Option.some_or] at h
      obtain rfl := Option.some.inj h
      obtain ⟨i, m, hm, hview, hkind⟩ := hst.kindOf_eq_some.1 hk
      exact ⟨i, m, hold i m hm, hview, hkind⟩

omit [DecidableEq K] in
/-- A row that is taken shows its kind at its view path, unless another one shows there already. -/
theorem addRow (links : List (Str × Str)) (reals : List Str) (r : Str × FsRow K) :
    (VmFuse.addRow links reals st r).Good ∧ ∀ v, (VmFuse.addRow links reals st r).kindOf v =
      (st.kindOf v).or (if takes links reals r && viewOf (normalizeVmPath r.1) links = v then some
        r.2.kind else none) := by
  -- The root's row gives the root its times, a hidden row or a second one adds nothing, and any
  -- other adds a node.
  rcases addRow_cases links reals st r with ⟨heq, htakes⟩ | ⟨heq, htakes⟩ | ⟨htakes, hfree, n,
    hview, hkind, hchildren, heq⟩
  · obtain ⟨hgood, hkinds⟩ := hst.touchRoot
      (fun a =>
        { a with
          mtime := systemTime r.2.mtime
          ctime := systemTime r.2.mtime
          atime := systemTime r.2.mtime })
      fun _ => rfl
    rw [heq, htakes]
    refine ⟨hgood, fun v => ?_⟩
    rw [hkinds v]
    simp
  · rw [heq]
    refine ⟨hst, fun v => ?_⟩
    split_ifs with h
    · rw [Bool.and_eq_true, decide_eq_true_eq] at h
      obtain ⟨i, hi⟩ := Table.has_eq_true.1 (htakes h.1)
      rw [h.2] at hi
      obtain ⟨n, hn, hview⟩ := hst.exists_node hi
      rw [hst.kindOf_eq_some.2 ⟨i, n, hn, hview, rfl⟩, Option.some_or]
    · rw [Option.or_none]
  · rw [← hview] at hfree
    obtain ⟨hgood, hkinds⟩ := hst.putNode hfree hchildren (hview ▸ exists_viewOf r.1 links)
    rw [heq]
    refine ⟨hgood, fun v => ?_⟩
    rw [hkinds v, htakes, hview, hkind]
    simp

omit [DecidableEq K] in
/-- By induction on the rows, a path shows the kind of the first row that is taken there. -/
theorem foldl_addRow (links : List (Str × Str)) (reals : List Str) (rows : List (Str × FsRow K)) :
    (rows.foldl (VmFuse.addRow links reals) st).Good ∧
      ∀ v, (rows.foldl (VmFuse.addRow links reals) st).kindOf v = (st.kindOf v).or
      (kindIn links reals rows v) := by
  induction rows generalizing st with
  | nil => exact ⟨hst, fun v => by simp [kindIn]⟩
  | cons r rows ih =>
    obtain ⟨hgood, hkinds⟩ := hst.addRow links reals r
    obtain ⟨hgood', hkinds'⟩ := ih hgood
    refine ⟨hgood', fun v => ?_⟩
    rw [List.foldl_cons, hkinds' v, hkinds v, Option.or_assoc]
    congr 1
    rw [kindIn, kindIn, List.find?_cons]
    cases h : takes links reals r && viewOf (normalizeVmPath r.1) links = v with
    | true => simp
    | false => simp

end Good

omit [DecidableEq K] in
/-- The first pass shows at every view path the kind that the rows have for it. -/
theorem good_build (fs : Table Str (FsRow K)) (links : List (Str × Str)) :
    (build fs links).Good ∧ ∀ v, (build fs links).kindOf v = kindAt fs links v := by
  obtain ⟨hgood, hkinds⟩ := good_start.foldl_addRow links (realPaths fs) (sortedRows fs)
  refine ⟨hgood, fun v => (hkinds v).trans ?_⟩
  unfold kindAt
  split_ifs with hv
  · subst hv
    rfl
  · have hnone : start.kindOf v = none := by
      rw [kindOf, start, Table.get?_put, if_neg hv]
      rfl
    rw [hnone, Option.none_or]

/-! ## The second pass -/

/-- The node `i` belongs into the directory `p`. -/
def Under (st : Built) (i p : ℕ) : Prop :=
  ∃ n q, st.nodes.get? i = some n ∧ st.byView.get? (parentOf n.view) = some p ∧
  st.nodes.get? p = some q ∧ q.attr.kind = .dir

/-- A node belongs into one directory. -/
theorem Under.unique {i p q : ℕ} (hp : st.Under i p) (hq : st.Under i q) : p = q := by
  obtain ⟨n, -, hn, hview, -, -⟩ := hp
  obtain ⟨m, -, hm, hview', -, -⟩ := hq
  rw [hn] at hm
  rw [← Option.some.inj hm, hview] at hview'
  exact Option.some.inj hview'

/-- The view path of a directory is shorter than those of its entries. -/
theorem Good.length_parent_lt (hst : st.Good) {i p : ℕ} {n q : Node} (hi : i ≠ rootIno)
    (hn : st.nodes.get? i = some n) (hp : st.byView.get? (parentOf n.view) = some p)
    (hq : st.nodes.get? p = some q) : q.view.length < n.view.length := by
  obtain ⟨q', hq', hview⟩ := hst.exists_node hp
  obtain rfl : q = q' := Option.some.inj (hq.symm.trans hq')
  rw [hview]
  obtain ⟨s, hs⟩ := hst.shape i n hn
  have hroot : n.view ≠ root := fun h => hi ((hst.view_eq_root hn).1 h)
  rw [hs] at hroot ⊢
  exact length_parentOf_lt hroot

/-- The table after the nodes `done`. -/
structure Linked (st : Built) (done : List ℕ) (nodes : Table ℕ Node) : Prop where
  /-- The nodes are those of the first pass. -/
  same : ∀ i m, nodes.get? i = some m →
    ∃ n, st.nodes.get? i = some n ∧ m.view = n.view ∧ m.dbPath = n.dbPath ∧ m.attr = n.attr
  /-- A node is gone when it had its turn and belongs nowhere. -/
  kept : ∀ i n, st.nodes.get? i = some n →
    ((∃ m, nodes.get? i = some m) ↔ (i ∈ done → ∃ p, st.Under i p))
  /-- The entries of a directory belong there. -/
  sound : ∀ p m name c, nodes.get? p = some m → m.children.get? name = some c →
    c ∈ done ∧ st.Under c p ∧ ∃ n, st.nodes.get? c = some n ∧ fileName n.view = name
  /-- Every name of what belongs into a directory is taken there. -/
  full : ∀ c p n m, c ∈ done → st.Under c p → st.nodes.get? c = some n → nodes.get? p = some m →
    ∃ c', m.children.get? (fileName n.view) = some c'

/-- Before the second pass no node is linked. -/
theorem Good.linked_nil (hst : st.Good) : Linked st [] st.nodes where
  same i m h := ⟨m, h, rfl, rfl, rfl⟩
  kept i n h := iff_of_true ⟨n, h⟩ fun hi => absurd hi List.not_mem_nil
  sound p m name c h hc := by
    rw [hst.bare p m h, Table.get?_empty] at hc
    cases hc
  full c p n m hc := absurd hc List.not_mem_nil

/-- One node of the second pass: it goes, or it becomes the entry of its directory. -/
theorem linkStep_cases {byView : Table Str ℕ} {nodes nodes' : Table ℕ Node} {ino : ℕ}
    (h : linkStep byView nodes ino = .ok nodes') : ∃ node, nodes.get? ino = some node ∧
      ((nodes' = (nodes.deleteWhere fun i _ => i = ino) ∧
        ∀ parent, byView.get? (parentOf node.view) = some parent → ∃ p, nodes.get? parent = some p ∧
        p.attr.kind ≠ .dir) ∨
      ∃ parent p, byView.get? (parentOf node.view) = some parent ∧ nodes.get? parent = some p ∧
        p.attr.kind = .dir ∧
        nodes' = (nodes.update ino fun n => { n with parent := parent }).update parent fun n =>
          { n with children := n.children.put (fileName node.view) ino }) := by
  unfold linkStep at h
  rcases hnode : nodes.get? ino with _ | node
  · rw [hnode] at h
    cases h
  rw [hnode] at h
  dsimp only at h
  refine ⟨node, rfl, ?_⟩
  -- The parent is not among the nodes, it is no directory, or it gets the node as a child.
  rcases hview : byView.get? (parentOf node.view) with _ | parent
  · rw [hview] at h
    refine Or.inl ⟨(Except.ok.inj h).symm, fun parent hparent => ?_⟩
    cases hparent
  rw [hview] at h
  dsimp only at h
  rcases hparent : nodes.get? parent with _ | p
  · rw [hparent] at h
    cases h
  rw [hparent] at h
  dsimp only at h
  split_ifs at h with hdir
  · exact Or.inr ⟨parent, p, rfl, hparent, hdir, (Except.ok.inj h).symm⟩
  · refine Or.inl ⟨(Except.ok.inj h).symm, fun parent' hparent' => ?_⟩
    obtain rfl := Option.some.inj hparent'
    exact ⟨p, hparent, hdir⟩

namespace Linked

variable {done : List ℕ} {nodes nodes' : Table ℕ Node} {ino : ℕ}

/-- A node that has not had its turn is there. -/
theorem get?_of_not_mem (hl : Linked st done nodes) {n : Node} (h : ino ∉ done)
    (hn : st.nodes.get? ino = some n) :
    ∃ m, nodes.get? ino = some m :=
  (hl.kept ino n hn).2 fun hi => absurd hi h

/-- The directory of a node, as the second pass finds it. -/
theorem under_iff (hl : Linked st done nodes) {node : Node} (h : nodes.get? ino = some node)
    {p : ℕ} {q : Node} (hview : st.byView.get? (parentOf node.view) = some p)
    (hq : nodes.get? p = some q) :
    st.Under ino p ↔ q.attr.kind = .dir := by
  obtain ⟨n, hn, hnview, -, -⟩ := hl.same ino node h
  obtain ⟨q', hq', -, -, hattr⟩ := hl.same p q hq
  rw [hnview] at hview
  rw [hattr]
  constructor
  · rintro ⟨n', q'', hn', hview', hq'', hdir⟩
    obtain rfl : n = n' := Option.some.inj (hn.symm.trans hn')
    obtain rfl : q' = q'' := Option.some.inj (hq'.symm.trans hq'')
    exact hdir
  · intro hdir
    exact ⟨n, q', hn, hview, hq', hdir⟩

/-- A node that belongs nowhere goes. -/
theorem cut (hl : Linked st done nodes) (hdone : ino ∉ done) (hnot : ∀ p, ¬ st.Under ino p) :
    Linked st (done ++ [ino]) (nodes.deleteWhere fun i _ => i = ino) := by
  have hget : ∀ i, (nodes.deleteWhere fun i _ => i = ino).get? i = if i = ino then none
    else nodes.get? i := by
    intro i
    have h := nodes.get?_deleteWhere_key (fun i => i = ino) i
    rw [h]
    simp
  have hback : ∀ i m, (nodes.deleteWhere fun i _ => i = ino).get? i = some m → i ≠ ino ∧
    nodes.get? i = some m := by
    intro i m h
    rw [hget] at h
    split_ifs at h with hi
    exact ⟨hi, h⟩
  -- The removed node was still to be linked and nothing is linked below it, so no entry points at
  -- it.
  refine ⟨?_, ?_, ?_, ?_⟩
  · intro i m h
    exact hl.same i m (hback i m h).2
  · intro i n hn
    rw [hget, List.mem_append, List.mem_singleton]
    by_cases hi : i = ino
    · subst hi
      rw [if_pos rfl]
      constructor
      · rintro ⟨m, hm⟩
        cases hm
      · intro h
        obtain ⟨p, hp⟩ := h (Or.inr rfl)
        exact absurd hp (hnot p)
    · rw [if_neg hi, hl.kept i n hn]
      simp [hi]
  · intro p m name c h hc
    obtain ⟨hmem, hunder, hname⟩ := hl.sound p m name c (hback p m h).2 hc
    exact ⟨List.mem_append_left _ hmem, hunder, hname⟩
  · intro c p n m hc hunder hn h
    rcases List.mem_append.1 hc with hc | hc
    · exact hl.full c p n m hc hunder hn (hback p m h).2
    · rw [List.mem_singleton.1 hc] at hunder
      exact absurd hunder (hnot p)

/-- A node becomes the entry of its directory. -/
theorem join (hl : Linked st done nodes) {node : Node} {p : ℕ} (h : nodes.get? ino = some node)
    (hunder : st.Under ino p) :
    Linked st (done ++ [ino]) ((nodes.update ino fun n => { n with parent := p }).update p fun n =>
      { n with children := n.children.put (fileName node.view) ino }) := by
  generalize hup : ((nodes.update ino fun n => { n with parent := p }).update p fun n =>
    { n with children := n.children.put (fileName node.view) ino }) = up
  have hget : ∀ i, up.get? i = (nodes.get? i).map fun n =>
      { n with
        parent := if i = ino then p else n.parent
        children := if i = p then n.children.put (fileName node.view) ino else n.children } := by
    intro i
    rw [← hup, Table.get?_update_eq_map, Table.get?_update_eq_map, Option.map_map]
    congr 1
    funext n
    dsimp only [Function.comp]
    split_ifs <;> rfl
  have hback : ∀ i m, up.get? i = some m → ∃ n, nodes.get? i = some n ∧ m.view = n.view ∧
      m.dbPath = n.dbPath ∧
      m.attr = n.attr ∧ m.children = if i = p then n.children.put (fileName node.view) ino
      else n.children := by
    intro i m hm
    rw [hget, Option.map_eq_some_iff] at hm
    obtain ⟨n, hn, rfl⟩ := hm
    exact ⟨n, hn, rfl, rfl, rfl, rfl⟩
  obtain ⟨node', hnode', hview, -, -⟩ := hl.same ino node h
  have hname : ∀ n, st.nodes.get? ino = some n → fileName n.view = fileName node.view := by
    intro n hn
    rw [hn] at hnode'
    rw [Option.some.inj hnode', hview]
  -- Two nodes change: `ino` gets its parent, and the parent its entry.
  refine ⟨?_, ?_, ?_, ?_⟩
  · intro i m hm
    obtain ⟨n, hn, hview, hpath, hattr, -⟩ := hback i m hm
    obtain ⟨b, hb, hview', hpath', hattr'⟩ := hl.same i n hn
    exact ⟨b, hb, hview.trans hview', hpath.trans hpath', hattr.trans hattr'⟩
  · intro i n hn
    have hthere : (∃ m, up.get? i = some m) ↔ ∃ m, nodes.get? i = some m := by
      rw [hget, ← Option.isSome_iff_exists, ← Option.isSome_iff_exists, Option.isSome_map]
    rw [hthere, hl.kept i n hn, List.mem_append, List.mem_singleton]
    constructor
    · rintro hi (hmem | rfl)
      · exact hi hmem
      · exact ⟨p, hunder⟩
    · intro hi hmem
      exact hi (Or.inl hmem)
  · intro i m name c hm hc
    obtain ⟨n, hn, -, -, -, hchildren⟩ := hback i m hm
    rw [hchildren] at hc
    split_ifs at hc with hi
    · rw [Table.get?_put] at hc
      split_ifs at hc with hfile
      · obtain rfl := Option.some.inj hc
        exact ⟨by simp, hi ▸ hunder, node', hnode', (hname _ hnode').trans hfile.symm⟩
      · obtain ⟨hmem, hrest⟩ := hl.sound i n name c hn hc
        exact ⟨List.mem_append_left _ hmem, hrest⟩
    · obtain ⟨hmem, hrest⟩ := hl.sound i n name c hn hc
      exact ⟨List.mem_append_left _ hmem, hrest⟩
  · intro c i b m hc hci hb hm
    obtain ⟨n, hn, -, -, -, hchildren⟩ := hback i m hm
    rw [hchildren]
    rcases List.mem_append.1 hc with hc | hc
    · obtain ⟨c', hc'⟩ := hl.full c i b n hc hci hb hn
      split_ifs with hi
      · rw [Table.get?_put]
        split_ifs
        · exact ⟨ino, rfl⟩
        · exact ⟨c', hc'⟩
      · exact ⟨c', hc'⟩
    · obtain rfl := List.mem_singleton.1 hc
      rw [if_pos (hci.unique hunder), hname b hb, Table.get?_put, if_pos rfl]
      exact ⟨c, rfl⟩

/-- Linking a node puts it into its parent's children, or cuts it off. -/
theorem step (hl : Linked st done nodes) (hdone : ino ∉ done)
    (h : linkStep st.byView nodes ino = .ok nodes') :
    Linked st (done ++ [ino]) nodes' := by
  obtain ⟨node, hnode, ⟨rfl, hnot⟩ | ⟨p, q, hview, hq, hdir, rfl⟩⟩ := linkStep_cases h
  · refine hl.cut hdone fun p hp => ?_
    obtain ⟨n, -, hn, hview, -, -⟩ := id hp
    obtain ⟨n', hn', hnview, -, -⟩ := hl.same ino node hnode
    obtain rfl : n = n' := Option.some.inj (hn.symm.trans hn')
    rw [← hnview] at hview
    obtain ⟨q, hq, hdir⟩ := hnot p hview
    exact hdir ((hl.under_iff hnode hview hq).1 hp)
  · exact hl.join hnode ((hl.under_iff hnode hview hq).2 hdir)

/-- By induction on the order, every node is linked or cut off. -/
theorem run (hl : Linked st done nodes) {order : List ℕ} (hnodup : (done ++ order).Nodup)
    (h : linkAll st.byView order nodes = .ok nodes') : Linked st (done ++ order) nodes' := by
  induction order generalizing done nodes with
  | nil =>
    obtain rfl := Except.ok.inj h
    rwa [List.append_nil]
  | cons ino order ih =>
    rw [linkAll] at h
    rcases hstep : linkStep st.byView nodes ino with e | next
    · rw [hstep] at h
      cases h
    rw [hstep] at h
    have hdone : ino ∉ done :=
      fun hmem => (List.nodup_append.1 hnodup).2.2 ino hmem ino (by simp) rfl
    rw [List.append_cons] at hnodup ⊢
    exact ih (hl.step hdone hstep) hnodup h

/-- Tables of the same nodes have the same nodes left. -/
theorem get?_iff {done' : List ℕ} (hl : Linked st done nodes) (hl' : Linked st done' nodes')
    (hdone : ∀ i, i ∈ done ↔ i ∈ done') (i : ℕ) :
    (∃ m, nodes.get? i = some m) → ∃ m, nodes'.get? i = some m := by
  rintro ⟨m, hm⟩
  obtain ⟨n, hn, -⟩ := hl.same i m hm
  have hkept := (hl.kept i n hn).1 ⟨m, hm⟩
  exact (hl'.kept i n hn).2 fun hi => hkept ((hdone i).2 hi)

/-- Every entry of a directory is a node. -/
theorem has_child (hl : Linked st done nodes) {p c : ℕ} {m : Node} {name : Str}
    (hm : nodes.get? p = some m) (hc : m.children.get? name = some c) : nodes.has c = true := by
  obtain ⟨-, hunder, n, hn, -⟩ := hl.sound p m name c hm hc
  exact Table.has_eq_true.2 ((hl.kept c n hn).2 fun _ => ⟨p, hunder⟩)

end Linked

/-! ## Panics -/

/-- What lies above a node, beside the root, belongs into a directory. -/
def Rooted (st : Built) : Prop := ∀ i n p, i ≠ rootIno → st.nodes.get? i = some n →
  st.byView.get? (parentOf n.view) = some p → p ≠ rootIno → ∃ q, st.Under p q

/-- Linking a node fails only by a panic. -/
theorem linkStep_error {byView : Table Str ℕ} {nodes : Table ℕ Node} {ino : ℕ} {e : RebuildErr}
    (h : linkStep byView nodes ino = .error e) : e = .panicked := by
  unfold linkStep at h
  split at h
  · exact (Except.error.inj h).symm
  · split at h
    · cases h
    · split at h
      · exact (Except.error.inj h).symm
      · split_ifs at h

/-- The second pass does not fail otherwise. -/
theorem linkAll_ne_panicked {byView : Table Str ℕ} {nodes : Table ℕ Node} {order : List ℕ} :
    linkAll byView order nodes ≠ .error .panicked ↔ ∃ nodes',
    linkAll byView order nodes = .ok nodes' := by
  constructor
  · intro h
    induction order generalizing nodes with
    | nil => exact ⟨nodes, rfl⟩
    | cons ino order ih =>
      rw [linkAll] at h ⊢
      rcases hstep : linkStep byView nodes ino with e | next
      · rw [hstep, linkStep_error hstep] at h
        exact absurd rfl h
      · rw [hstep] at h
        exact ih h
  · rintro ⟨nodes', h⟩ h'
    rw [h] at h'
    cases h'

/-- One node, when the directories above are there. -/
theorem Rooted.linkStep_ok (hrooted : st.Rooted) {done : List ℕ} {nodes : Table ℕ Node} {ino : ℕ}
    {n : Node} (hst : st.Good) (hl : Linked st done nodes) (hroot : rootIno ∉ done)
    (hdone : ino ∉ done) (hino : ino ≠ rootIno) (hn : st.nodes.get? ino = some n) :
    ∃ nodes', linkStep st.byView nodes ino = .ok nodes' := by
  obtain ⟨node, hnode⟩ := hl.get?_of_not_mem hdone hn
  obtain ⟨n', hn', hview, -, -⟩ := hl.same ino node hnode
  obtain rfl : n = n' := Option.some.inj (hn.symm.trans hn')
  unfold linkStep
  rw [hnode]
  dsimp only
  rcases hp : st.byView.get? (parentOf node.view) with _ | p
  · exact ⟨_, rfl⟩
  -- The parent is still among the nodes: it would have been removed only if it belonged into no
  -- directory.
  have hthere : ∃ q, nodes.get? p = some q := by
    obtain ⟨q, hq, -⟩ := hst.exists_node hp
    by_cases hproot : p = rootIno
    · exact hl.get?_of_not_mem (hproot ▸ hroot) hq
    · rw [hview] at hp
      exact (hl.kept p q hq).2 fun _ => hrooted ino n p hino hn hp hproot
  obtain ⟨q, hq⟩ := hthere
  dsimp only
  rw [hq]
  dsimp only
  split_ifs
  · exact ⟨_, rfl⟩
  · exact ⟨_, rfl⟩

/-- When every node has its parent, linking succeeds in any order. -/
theorem Rooted.linkAll_ok (hrooted : st.Rooted) (hst : st.Good) {done order : List ℕ}
    {nodes : Table ℕ Node} (hl : Linked st done nodes) (hroot : rootIno ∉ done)
    (hnodup : (done ++ order).Nodup)
    (horder : ∀ i ∈ order, i ≠ rootIno ∧ ∃ n, st.nodes.get? i = some n) :
    ∃ nodes', linkAll st.byView order nodes = .ok nodes' := by
  induction order generalizing done nodes with
  | nil => exact ⟨nodes, rfl⟩
  | cons ino order ih =>
    obtain ⟨hino, n, hn⟩ := horder ino (by simp)
    have hdone : ino ∉ done :=
      fun hmem => (List.nodup_append.1 hnodup).2.2 ino hmem ino (by simp) rfl
    obtain ⟨next, hstep⟩ := hrooted.linkStep_ok hst hl hroot hdone hino hn
    rw [linkAll, hstep]
    refine ih (hl.step hdone hstep) ?_ (by rwa [← List.append_cons]) fun i hi =>
      horder i (by simp [hi])
    rw [List.mem_append, List.mem_singleton]
    exact not_or.2 ⟨hroot, hino.symm⟩

/-- When a node has its turn after the directory above has gone, the pass panics. -/
theorem Good.linkAll_panicked (hst : st.Good) {i p : ℕ} {n : Node} (hi : i ≠ rootIno)
    (hn : st.nodes.get? i = some n) (hp : st.byView.get? (parentOf n.view) = some p)
    (hnot : ∀ q, ¬ st.Under p q) (rest : List ℕ) :
    linkAll st.byView (p :: i :: rest) st.nodes = .error .panicked := by
  obtain ⟨q, hq, -⟩ := hst.exists_node hp
  have hne : i ≠ p := by
    rintro rfl
    have hlt := hst.length_parent_lt hi hn hp hq
    rw [Option.some.inj (hn.symm.trans hq)] at hlt
    exact lt_irrefl _ hlt
  rw [linkAll]
  rcases hstep : linkStep st.byView st.nodes p with e | next
  · rw [linkStep_error hstep]
  have hl := hst.linked_nil.step List.not_mem_nil hstep
  -- The first step removes `p`, and the second looks its parent `p` up and does not find it.
  have hgone : next.get? p = none := by
    rcases hnext : next.get? p with _ | m
    · rfl
    · obtain ⟨q', hunder⟩ := (hl.kept p q hq).1 ⟨m, hnext⟩ (by simp)
      exact absurd hunder (hnot q')
  obtain ⟨node, hnode⟩ := hl.get?_of_not_mem (by simpa using hne) hn
  obtain ⟨n', hn', hview, -, -⟩ := hl.same i node hnode
  obtain rfl : n = n' := Option.some.inj (hn.symm.trans hn')
  have hpanic : linkStep st.byView next i = .error .panicked := by
    unfold linkStep
    rw [hnode]
    dsimp only
    rw [hview, hp]
    dsimp only
    rw [hgone]
  dsimp only
  rw [linkAll, hpanic]

/-! ## Orders -/

/-- Two nodes of one directory have two names. -/
def Named (st : Built) : Prop := ∀ i j n m p, i ≠ rootIno → j ≠ rootIno → st.nodes.get? i = some n →
  st.nodes.get? j = some m → st.Under i p → st.Under j p → fileName n.view = fileName m.view → i = j

/-- With two names the entries do not depend on the order. -/
theorem Named.reached (hnamed : st.Named) {done done' : List ℕ} {nodes nodes' : Table ℕ Node}
    (hl : Linked st done nodes) (hl' : Linked st done' nodes') (hdone : ∀ i, i ∈ done ↔ i ∈ done')
    (hroot : rootIno ∉ done) {i : ℕ} (h : Reached nodes i) : Reached nodes' i := by
  induction h with
  | root => exact Reached.root
  | @child p c m name hp hm hc ih =>
    obtain ⟨hmem, hunder, n, hn, hname⟩ := hl.sound p m name c hm hc
    obtain ⟨m', hm'⟩ := hl.get?_iff hl' hdone p ⟨m, hm⟩
    obtain ⟨c', hc'⟩ := hl'.full c p n m' ((hdone c).1 hmem) hunder hn hm'
    obtain ⟨hmem', hunder', n', hn', hname'⟩ := hl'.sound p m' _ c' hm' hc'
    have hcroot : c ≠ rootIno := fun h => hroot (h ▸ hmem)
    have hcroot' : c' ≠ rootIno := fun h => hroot (h ▸ (hdone c').2 hmem')
    obtain rfl := hnamed c c' n n' p hcroot hcroot' hn hn' hunder hunder' hname'.symm
    exact ih.child hm' hc'

/-- What the linked nodes show depends on which have been linked, not on their order. -/
theorem Named.shows (hnamed : st.Named) {done done' : List ℕ} {nodes nodes' : Table ℕ Node}
    (hl : Linked st done nodes) (hl' : Linked st done' nodes') (hdone : ∀ i, i ∈ done ↔ i ∈ done')
    (hroot : rootIno ∉ done) {e : Str × Str × Kind} (h : Shows nodes e) : Shows nodes' e := by
  obtain ⟨i, m, hreached, hm, rfl⟩ := h
  obtain ⟨m', hm'⟩ := hl.get?_iff hl' hdone i ⟨m, hm⟩
  obtain ⟨n, hn, hview, hpath, hattr⟩ := hl.same i m hm
  obtain ⟨n', hn', hview', hpath', hattr'⟩ := hl'.same i m' hm'
  obtain rfl : n = n' := Option.some.inj (hn.symm.trans hn')
  refine ⟨i, m', hnamed.reached hl hl' hdone hroot hreached, hm', ?_⟩
  rw [hview, hview', hpath, hpath', hattr, hattr']

/-- The second pass up to the last node, and the last node. -/
theorem linkAll_concat {byView : Table Str ℕ} {order : List ℕ} {ino : ℕ}
    {nodes nodes' : Table ℕ Node} (h : linkAll byView (order ++ [ino]) nodes = .ok nodes') :
    ∃ mid, linkAll byView order nodes = .ok mid ∧ linkStep byView mid ino = .ok nodes' := by
  induction order generalizing nodes with
  | nil =>
    rw [List.nil_append, linkAll] at h
    rcases hstep : linkStep byView nodes ino with e | next
    · rw [hstep] at h
      cases h
    · rw [hstep] at h
      exact ⟨nodes, rfl, hstep.trans h⟩
  | cons i order ih =>
    rw [List.cons_append, linkAll] at h
    rcases hstep : linkStep byView nodes i with e | next
    · rw [hstep] at h
      cases h
    · rw [hstep] at h
      obtain ⟨mid, hmid, hlast⟩ := ih h
      exact ⟨mid, by rw [linkAll, hstep]; exact hmid, hlast⟩

/-- The node that comes last is an entry of its directory. -/
theorem Linked.last {done : List ℕ} {nodes nodes' : Table ℕ Node} {ino p : ℕ}
    (hl : Linked st done nodes) (hunder : st.Under ino p)
    (h : linkStep st.byView nodes ino = .ok nodes') :
    ∃ m name, nodes'.get? p = some m ∧ m.children.get? name = some ino := by
  obtain ⟨n, q, hn, hview, -, -⟩ := id hunder
  obtain ⟨node, hnode, ⟨rfl, hnot⟩ | ⟨p', q', hview', hq', -, rfl⟩⟩ := linkStep_cases h
  · obtain ⟨n', hn', hnview, -, -⟩ := hl.same ino node hnode
    obtain rfl : n = n' := Option.some.inj (hn.symm.trans hn')
    rw [← hnview] at hview
    obtain ⟨q', hq', hdir⟩ := hnot p hview
    exact absurd ((hl.under_iff hnode hview hq').1 hunder) hdir
  · obtain ⟨n', hn', hnview, -, -⟩ := hl.same ino node hnode
    obtain rfl : n = n' := Option.some.inj (hn.symm.trans hn')
    rw [hnview, hview] at hview'
    obtain rfl := Option.some.inj hview'
    rw [Table.get?_update_eq_map, Table.get?_update_eq_map, hq', Option.map_some, Option.map_some,
      if_pos rfl]
    exact ⟨_, fileName node.view, rfl, by rw [Table.get?_put, if_pos rfl]⟩

/-- A node that is reached is an entry of the directory into which it belongs. -/
theorem Linked.entry_of_reached {done : List ℕ} {nodes : Table ℕ Node} {c p : ℕ} {n : Node}
    (hl : Linked st done nodes) (hc : c ≠ rootIno) (hunder : st.Under c p)
    (hn : st.nodes.get? c = some n) (h : Reached nodes c) :
    ∃ m, nodes.get? p = some m ∧ m.children.get? (fileName n.view) = some c := by
  cases h with
  | root => exact absurd rfl hc
  | @child p' _ m name hp' hm hchild =>
    obtain ⟨-, hunder', n', hn', hname⟩ := hl.sound p' m name c hm hchild
    obtain rfl := hunder.unique hunder'
    obtain rfl : n = n' := Option.some.inj (hn.symm.trans hn')
    exact ⟨m, hm, hname ▸ hchild⟩

/-- When the entries do not depend on the order, every node that belongs into a directory is reached
in every order. The induction is on the length of the view path: in the order with the node at the
end it is an entry, and its directory is reached in that order. -/
theorem Rooted.reached (hrooted : st.Rooted) (hst : st.Good) {inos : List ℕ} (hnodup : inos.Nodup)
    (hinos : ∀ i, i ∈ inos ↔ i ≠ rootIno ∧ ∃ n, st.nodes.get? i = some n)
    (hsame : ∀ order order' nodes nodes', order.Perm inos → order'.Perm inos →
      linkAll st.byView order st.nodes = .ok nodes →
      linkAll st.byView order' st.nodes = .ok nodes' → ∀ e, Shows nodes e ↔ Shows nodes' e)
    (len : ℕ) :
    ∀ c p n, c ≠ rootIno → st.Under c p → st.nodes.get? c = some n → n.view.length = len →
      ∀ order nodes, order.Perm inos → linkAll st.byView order st.nodes = .ok nodes →
      Reached nodes c := by
  induction len using Nat.strong_induction_on with
  | _ len ih =>
    intro c p n hc hunder hn hlen order nodes horder hrun
    obtain ⟨n', q, hn', hview, hq, -⟩ := id hunder
    obtain rfl : n = n' := Option.some.inj (hn.symm.trans hn')
    -- the order with the node at the end
    have hmem : c ∈ inos := (hinos c).2 ⟨hc, n, hn⟩
    have hperm : (inos.erase c ++ [c]).Perm inos :=
      List.perm_append_comm.trans (List.perm_cons_erase hmem).symm
    obtain ⟨nodes', hrun'⟩ : ∃ nodes',
      linkAll st.byView (inos.erase c ++ [c]) st.nodes = .ok nodes' :=
      hrooted.linkAll_ok hst hst.linked_nil List.not_mem_nil
        (by simpa using hperm.nodup_iff.2 hnodup) fun i hi =>
        (hinos i).1 (hperm.mem_iff.1 hi)
    obtain ⟨mid, hmid, hlast⟩ := linkAll_concat hrun'
    have hl := hst.linked_nil.run (by simpa using hnodup.erase c) hmid
    obtain ⟨m, name, hm, hchild⟩ := hl.last hunder hlast
    -- its directory is reached
    have hp : Reached nodes' p := by
      by_cases hproot : p = rootIno
      · rw [hproot]
        exact Reached.root
      · obtain ⟨r, hr⟩ := hrooted c n p hc hn hview hproot
        have hlt := hst.length_parent_lt hc hn hview hq
        exact ih q.view.length (hlen ▸ hlt) p r q hproot hr hq rfl _ nodes' hperm hrun'
    have hreached := hp.child hm hchild
    have hl' := hst.linked_nil.run (by simpa using hperm.nodup_iff.2 hnodup) hrun'
    obtain ⟨m', hm'⟩ := Table.has_eq_true.1 (hl'.has_child hm hchild)
    have hshows :=
      (hsame _ order nodes' nodes hperm horder hrun' hrun _).1 ⟨c, m', hreached, hm', rfl⟩
    obtain ⟨i, k, hi, hk, he⟩ := hshows
    have hl'' := hst.linked_nil.run (by simpa using horder.nodup_iff.2 hnodup) hrun
    obtain ⟨a, ha, hview', -, -⟩ := hl'.same c m' hm'
    obtain ⟨b, hb, hview'', -, -⟩ := hl''.same i k hk
    have heq : a.view = b.view := by
      rw [← hview', ← hview'']
      exact (Prod.mk.inj he).1
    rw [hst.view_inj ha hb heq]
    exact hi

/-- The second pass does what it should exactly when nothing lies below what it removes and no two
entries of a directory have one name. -/
theorem Good.linkAll_iff (hst : st.Good) {inos : List ℕ} (hnodup : inos.Nodup)
    (hinos : ∀ i, i ∈ inos ↔ i ≠ rootIno ∧ ∃ n, st.nodes.get? i = some n) :
    ((∀ order, order.Perm inos → linkAll st.byView order st.nodes ≠ .error .panicked) ∧
      ∀ order order' nodes nodes', order.Perm inos → order'.Perm inos →
        linkAll st.byView order st.nodes = .ok nodes →
        linkAll st.byView order' st.nodes = .ok nodes' → ∀ e, Shows nodes e ↔ Shows nodes' e) ↔
      st.Rooted ∧ st.Named := by
  have hlinked : ∀ order nodes, order.Perm inos → linkAll st.byView order st.nodes = .ok nodes →
      Linked st ([] ++ order) nodes := fun order nodes horder hrun =>
    hst.linked_nil.run (by simpa using horder.nodup_iff.2 hnodup) hrun
  have hok : st.Rooted → ∀ order, order.Perm inos → ∃ nodes,
    linkAll st.byView order st.nodes = .ok nodes :=
    fun hrooted order horder => hrooted.linkAll_ok hst hst.linked_nil List.not_mem_nil
      (by simpa using horder.nodup_iff.2 hnodup) fun i hi => (hinos i).1 (horder.mem_iff.1 hi)
  -- Where a parent belongs into no directory, the order that takes it before its child panics. Two
  -- nodes of one name are both reached in every order, so the entry of the name is both of them.
  constructor
  · rintro ⟨htotal, hsame⟩
    have hrooted : st.Rooted := by
      intro i n p hi hn hp hproot
      by_contra hnot
      push Not at hnot
      obtain ⟨q, hq, -⟩ := hst.exists_node hp
      have hne : i ≠ p := by
        rintro rfl
        have hlt := hst.length_parent_lt hi hn hp hq
        rw [Option.some.inj (hn.symm.trans hq)] at hlt
        exact lt_irrefl _ hlt
      have hpmem : p ∈ inos := (hinos p).2 ⟨hproot, q, hq⟩
      have himem : i ∈ inos.erase p := (List.mem_erase_of_ne hne).2 ((hinos i).2 ⟨hi, n, hn⟩)
      have hperm : (p :: i :: (inos.erase p).erase i).Perm inos :=
        ((List.perm_cons_erase himem).symm.cons p).trans (List.perm_cons_erase hpmem).symm
      exact htotal _ hperm (hst.linkAll_panicked hi hn hp hnot _)
    refine ⟨hrooted, ?_⟩
    intro i j n m p hi hj hn hm hip hjp hname
    obtain ⟨nodes, hrun⟩ := hok hrooted inos (List.Perm.refl inos)
    have hl := hlinked inos nodes (List.Perm.refl inos) hrun
    have hreached := hrooted.reached hst hnodup hinos hsame
    obtain ⟨k, hk, hki⟩ :=
      hl.entry_of_reached hi hip hn
      (hreached _ i p n hi hip hn rfl inos nodes (List.Perm.refl inos) hrun)
    obtain ⟨k', hk', hkj⟩ :=
      hl.entry_of_reached hj hjp hm
      (hreached _ j p m hj hjp hm rfl inos nodes (List.Perm.refl inos) hrun)
    obtain rfl : k = k' := Option.some.inj (hk.symm.trans hk')
    rw [hname, hkj] at hki
    exact (Option.some.inj hki).symm
  · rintro ⟨hrooted, hnamed⟩
    refine ⟨fun order horder => linkAll_ne_panicked.2 (hok hrooted order horder), ?_⟩
    intro order order' nodes nodes' horder horder' hrun hrun' e
    have hmem : ∀ i, i ∈ [] ++ order ↔ i ∈ [] ++ order' :=
      fun i => (horder.trans horder'.symm).mem_iff
    have hroot : ∀ o : List ℕ, o.Perm inos → rootIno ∉ [] ++ o := fun o ho hr =>
      ((hinos rootIno).1 (ho.mem_iff.1 hr)).1 rfl
    constructor
    · exact hnamed.shows (hlinked order nodes horder hrun)
        (hlinked order' nodes' horder' hrun') hmem (hroot order horder)
    · exact hnamed.shows (hlinked order' nodes' horder' hrun') (hlinked order nodes horder hrun)
        (fun i => (hmem i).symm)
        (hroot order' horder')

/-! ## The rows -/

omit [DecidableEq K] in
/-- The conditions on the nodes are those on the rows. -/
theorem fits_iff (fs : Table Str (FsRow K)) (links : List (Str × Str)) :
    Fits fs links ↔ (build fs links).Rooted ∧ (build fs links).Named := by
  obtain ⟨hst, hkinds⟩ := good_build fs links
  generalize build fs links = st at hst hkinds
  have hdir : ∀ i n, st.nodes.get? i = some n →
    (kindAt fs links (parentOf n.view) = some .dir ↔ ∃ p, st.Under i p) := by
    intro i n hn
    rw [← hkinds, hst.kindOf_eq_some]
    -- Both sides speak of the same tree, once by paths and kinds and once by nodes; `hdir` and
    -- `hsome` translate.
    constructor
    · rintro ⟨p, q, hq, hview, hdir⟩
      exact ⟨p, n, q, hn, (hst.byView_iff _ p).2 ⟨q, hq, hview⟩, hq, hdir⟩
    · rintro ⟨p, n', q, hn', hview, hq, hdir⟩
      obtain rfl : n = n' := Option.some.inj (hn.symm.trans hn')
      obtain ⟨q', hq', hview'⟩ := hst.exists_node hview
      exact ⟨p, q', hq', hview', by rw [Option.some.inj (hq'.symm.trans hq), hdir]⟩
  have hsome : ∀ v, (kindAt fs links v).isSome ↔ ∃ i n, st.nodes.get? i = some n ∧ n.view = v := by
    intro v
    rw [← hkinds, hst.kindOf_isSome]
  constructor
  · rintro ⟨hparents, hnames⟩
    constructor
    · intro i n p hi hn hp hproot
      obtain ⟨q, hq, hview⟩ := hst.exists_node hp
      refine (hdir p q hq).1 ?_
      rw [hview]
      refine hparents n.view ?_ ((hsome _).2 ⟨i, n, hn, rfl⟩) ?_ ((hsome _).2 ⟨p, q, hq, hview⟩)
      · exact fun h => hi ((hst.view_eq_root hn).1 h)
      · rw [← hview]
        exact fun h => hproot ((hst.view_eq_root hq).1 h)
    · intro i j n m p hi hj hn hm hip hjp hname
      obtain ⟨n', -, hn', hview, -, -⟩ := id hip
      obtain ⟨m', -, hm', hview', -, -⟩ := id hjp
      obtain rfl : n = n' := Option.some.inj (hn.symm.trans hn')
      obtain rfl : m = m' := Option.some.inj (hm.symm.trans hm')
      obtain ⟨q, hq, hqview⟩ := hst.exists_node hview
      obtain ⟨q', hq', hqview'⟩ := hst.exists_node hview'
      have hparent : parentOf n.view = parentOf m.view := by
        rw [← hqview, ← hqview', Option.some.inj (hq.symm.trans hq')]
      refine hst.view_inj hn hm (hnames n.view m.view ?_ ?_ ((hsome _).2 ⟨i, n, hn, rfl⟩)
        ((hsome _).2 ⟨j, m, hm, rfl⟩)
        hparent ((hdir i n hn).2 ⟨p, hip⟩) hname)
      · exact fun h => hi ((hst.view_eq_root hn).1 h)
      · exact fun h => hj ((hst.view_eq_root hm).1 h)
  · rintro ⟨hrooted, hnamed⟩
    constructor
    · intro v hv hvsome hparent hpsome
      obtain ⟨i, n, hn, rfl⟩ := (hsome v).1 hvsome
      obtain ⟨p, q, hq, hview⟩ := (hsome _).1 hpsome
      rw [← hview] at hparent ⊢
      refine (hdir p q hq).2 (hrooted i n p ?_ hn ((hst.byView_iff _ p).2 ⟨q, hq, hview⟩) ?_)
      · exact fun h => hv ((hst.view_eq_root hn).2 h)
      · exact fun h => hparent ((hst.view_eq_root hq).2 h)
    · intro v w hv hw hvsome hwsome hparent hdirs hname
      obtain ⟨i, n, hn, rfl⟩ := (hsome v).1 hvsome
      obtain ⟨j, m, hm, rfl⟩ := (hsome w).1 hwsome
      obtain ⟨p, hp⟩ := (hdir i n hn).1 hdirs
      obtain ⟨p', hp'⟩ := (hdir j m hm).1 (hparent ▸ hdirs)
      have hpp : p = p' := by
        obtain ⟨n', -, hn', hview, -, -⟩ := hp
        obtain ⟨m', -, hm', hview', -, -⟩ := hp'
        rw [Option.some.inj (hn'.symm.trans hn), hparent] at hview
        rw [Option.some.inj (hm'.symm.trans hm), hview] at hview'
        exact Option.some.inj hview'
      subst hpp
      rw [hnamed i j n m p (fun h => hv ((hst.view_eq_root hn).2 h))
        (fun h => hw ((hst.view_eq_root hm).2 h)) hn hm hp hp'
        hname] at hn
      rw [Option.some.inj (hn.symm.trans hm)]

end Built

/-- Building the tree of a mount does not panic and comes to one tree in every order exactly when a
link has no target (an error), or no entry lies below one that is in no directory and the entries of
a directory differ in their names. -/
theorem mounts_iff {K : Type} [DecidableEq K] (fs : Table Str (FsRow K)) :
    Mounts fs ↔ linkRows fs = none ∨ ∃ links, linkRows fs = some links ∧ Fits fs links := by
  rcases hlinks : linkRows fs with _ | links
  · refine iff_of_true ⟨?_, ?_, ?_⟩ (Or.inl rfl)
    · intro order horder h
      rw [rebuild, hlinks] at h
      cases h
    · intro order nodes horder h
      rw [rebuild, hlinks] at h
      cases h
    · intro order order' nodes nodes' horder horder' h
      rw [rebuild, hlinks] at h
      cases h
  · have hrebuild : ∀ order, rebuild fs order = linkAll (build fs links).byView order
      (build fs links).nodes := by
      intro order
      rw [rebuild, hlinks]
    obtain ⟨hst, -⟩ := Built.good_build fs links
    have hnodup : (inos fs).Nodup := by
      rw [inos, hlinks]
      exact (build fs links).nodes.nodup.filter _
    have hinos : ∀ i, i ∈ inos fs ↔ i ≠ rootIno ∧ ∃ n, (build fs links).nodes.get? i = some n := by
      intro i
      rw [inos, hlinks]
      dsimp only
      rw [List.mem_filter, Table.mem_keys_iff, decide_eq_true_eq, and_comm]
    -- A rebuild links the nodes in the map's order, so the mount is safe iff every order of the
    -- linking is.
    have hiff : Mounts fs ↔ (build fs links).Rooted ∧ (build fs links).Named := by
      rw [← hst.linkAll_iff hnodup hinos]
      constructor
      · rintro ⟨htotal, -, hsame⟩
        simp only [hrebuild] at htotal hsame
        exact ⟨htotal, hsame⟩
      · rintro ⟨htotal, hsame⟩
        refine ⟨?_, ?_, ?_⟩
        · simpa only [hrebuild] using htotal
        · intro order nodes horder hrun i n name c hn hc
          rw [hrebuild] at hrun
          have hl := hst.linked_nil.run (by simpa using horder.nodup_iff.2 hnodup) hrun
          exact hl.has_child hn hc
        · simpa only [hrebuild] using hsame
    rw [hiff, ← Built.fits_iff]
    simp

/-- A row without content. -/
def bareRow (kind : Kind) (mode : ℤ) : FsRow Unit :=
  { kind := kind
    mode := mode
    mtime := 0
    mtimeNs := 0
    size := 0
    linkTarget := none
    hash := .null
    content := none
    compressed := 0 }

/-- A file, a directory below it, and a file in there. -/
def belowFile : Table Str (FsRow Unit) where
  rows :=
    [("/f".toList, bareRow .file 0o644), ("/f/x".toList, bareRow .dir 0o755),
      ("/f/x/y".toList, bareRow .file 0o644)]
  nodup := by decide

/-- The directory goes, because what is above it is a file, and then the file in it finds no
directory. -/
theorem not_mounts_belowFile : ¬ ∀ fs : Table Str (FsRow Unit), Mounts fs := by
  intro h
  have hinos : inos belowFile = [2, 3, 4] := by decide +kernel
  refine (h belowFile).total [3, 4, 2] ?_ ?_
  · rw [hinos]
    decide
  · have hrun : (match rebuild belowFile [3, 4, 2] with | .error e => some e | .ok _ => none) = some
      .panicked := by decide +kernel
    split at hrun
    · next e he => rw [he, Option.some.inj hrun]
    · cases hrun

end Build

/-! ## Listings -/

/-- A listing does not panic when the entries of the directory are nodes. -/
theorem readdir_ne_panicked {nodes : Table ℕ Node} {ino : ℕ}
    (h : ∀ n name c, nodes.get? ino = some n → n.children.get? name = some c → nodes.has c = true)
    (offset room : ℕ) :
    readdir nodes ino offset room ≠ .panicked := by
  unfold readdir
  rcases hn : nodes.get? ino with _ | n
  · intro hlisting
    cases hlisting
  dsimp only
  split_ifs
  · intro hlisting
    cases hlisting
  -- Every entry has its node, so every entry has a kind and none is missing.
  have hentries : ∀ es : List (ℕ × Option Kind × Str), (∀ e ∈ es, ∃ k, e.2.1 = some k) →
      ∃ bs, (es.mapM fun e => e.2.1.map fun kind => (e.1, kind, e.2.2)) = some bs := by
    intro es hes
    induction es with
    | nil => exact ⟨[], rfl⟩
    | cons e es ih =>
      obtain ⟨k, hk⟩ := hes e (by simp)
      obtain ⟨bs, hbs⟩ := ih fun e' he' => hes e' (by simp [he'])
      exact ⟨(e.1, k, e.2.2) :: bs, by rw [List.mapM_cons, hbs, hk]; rfl⟩
  generalize hall :
    ([(ino, some .dir, ".".toList), (n.parent, some .dir, "..".toList)] : List
      (ℕ × Option Kind × Str)) ++ _ = all
  have hkinds : ∀ e ∈ all, ∃ k, e.2.1 = some k := by
    intro e he
    rw [← hall, List.mem_append] at he
    rcases he with he | he
    · rcases List.mem_cons.1 he with rfl | he
      · exact ⟨.dir, rfl⟩
      · rw [List.mem_singleton.1 he]
        exact ⟨.dir, rfl⟩
    · obtain ⟨c, hc, rfl⟩ := List.mem_map.1 he
      rw [List.mem_insertionSort] at hc
      obtain ⟨m, hm⟩ := Table.has_eq_true.1 (h n c.1 c.2 hn (Table.get?_eq_some_iff.2 hc))
      exact ⟨m.attr.kind, by rw [hm]; rfl⟩
  obtain ⟨bs, hbs⟩ :=
    hentries (all.take (offset + room + 1)) fun e he => hkinds e (List.mem_of_mem_take he)
  rw [hbs]
  intro hlisting
  cases hlisting

end Dbvm.VmFuse
