import Dbvm.FuseRequests
import Dbvm.Lib.Wp

/-!
# The node table of a mount stays a tree

The handlers of a mount index the node table and unwrap what they find, and they go over the nodes
below an entry in loops that have no bound of their own. `Tree` is what they rely on: every entry of
a directory is a node that names this directory as the one above it, its view path goes on from the
directory's with its name at the end, and the numbers that come are free. `Listed` says that every
node is an entry of the directory it names.

Every request keeps both, whatever the database answers, and so no request of a run panics and every
node can be reached from the root (`mount_never_panics`). Each change of the table is one of four:
new attributes (`Tree.retouch`), a new entry (`Tree.add`), an entry that goes with all that is below
it (`Tree.remove`), and an entry that moves with all that is below it (`Tree.move`).
-/

namespace Dbvm.VmFuse

open Dbvm Lib Lib.Prog Lib.Forest

/-! ## Texts -/

/-- What is in front of the slash and the name in the paths of a directory's entries. -/
def stem (dir : Str) : Str := if dir = root then [] else dir

/-- Joining puts one slash between. -/
theorem join_eq (dir name : Str) : join dir name = stem dir ++ '/' :: name := by
  unfold join stem
  split_ifs <;> rfl

/-- A path other than the root is its own stem. -/
theorem stem_of_length {v : Str} (h : 1 < v.length) : stem v = v := by
  rw [stem, if_neg]
  rintro rfl
  exact absurd h (by decide)

/-- The stem is shorter by at most the root's slash. -/
theorem length_le_stem (v : Str) : v.length ≤ (stem v).length + 1 := by
  unfold stem
  split_ifs with h
  · rw [h]
    decide
  · omega

/-- The file name is what comes after the last slash. -/
theorem fileName_append {s name : Str} (h : '/' ∉ name) : fileName (s ++ '/' :: name) = name := by
  have hone : name.splitOn '/' = [name] := by
    refine List.splitOnP_eq_singleton fun c hc => ?_
    simpa using fun heq : c = '/' => h (heq ▸ hc)
  have hsplit : (s ++ '/' :: name).splitOn '/' = s.splitOn '/' ++ [name] := by
    rw [← hone]
    exact List.splitOnP_append_cons s name (by simp)
  rw [fileName, hsplit, List.getLast?_concat, Option.getD_some]

/-- The names that are taken are those that can stand in a path. -/
theorem refusesName_eq_false {name : Str} : refusesName name = false ↔ IsName name := by
  unfold refusesName
  simp only [Bool.or_eq_false_iff, decide_eq_false_iff_not]
  constructor
  · rintro ⟨⟨⟨hne, hslash⟩, hdot⟩, hdotdot⟩
    exact ⟨hne, hslash, hdot, hdotdot⟩
  · intro h
    exact ⟨⟨⟨h.ne_nil, h.no_slash⟩, h.ne_dot⟩, h.ne_dotdot⟩

/-- Dropping the bytes of a prefix leaves the rest. -/
theorem dropBytes_append (u r : Str) : dropBytes u.bytes.length (u ++ r) = some r := by
  induction u with
  | nil =>
    rw [List.nil_append]
    cases r <;> rfl
  | cons c u ih =>
    have hlen : (Str.bytes (c :: u)).length = c.utf8Size + (Str.bytes u).length := by
      rw [Str.bytes, List.flatMap_cons, List.length_append, String.length_utf8EncodeChar]
      rfl
    have hpos : 0 < c.utf8Size := Char.utf8Size_pos c
    obtain ⟨n, hn⟩ : ∃ n, (Str.bytes (c :: u)).length = n + 1 :=
      ⟨_, (Nat.succ_pred_eq_of_pos (by omega)).symm⟩
    rw [hn, List.cons_append, dropBytes, if_pos (by omega)]
    have hrest : n + 1 - c.utf8Size = (Str.bytes u).length := by omega
    rw [hrest, ih]

/-! ## The tree -/

/-- What the handlers rely on. -/
structure Tree (nodes : Table ℕ Node) (next : ℕ) : Prop where
  /-- The root is a directory. -/
  top : ∃ n, nodes.get? rootIno = some n ∧ n.view = root ∧ n.attr.kind = .dir
  /-- An entry lies in a directory, its node names the directory, and its view path goes on from the
  directory's. -/
  kid : ∀ p n x c, nodes.get? p = some n → n.children.get? x = some c → n.attr.kind = .dir ∧
    IsName x ∧
    ∃ m, nodes.get? c = some m ∧ m.parent = p ∧ ∃ mid, m.view = stem n.view ++ mid ++ '/' :: x
  /-- The numbers that come are free. -/
  fresh : ∀ i n, nodes.get? i = some n → i < next

/-- Every node but the root is an entry of the directory it names. -/
def Listed (nodes : Table ℕ Node) : Prop :=
  ∀ i n, nodes.get? i = some n → i ≠ rootIno → ∃ p x, nodes.get? n.parent = some p ∧
  p.children.get? x = some i

/-- The inodes below a directory are those of its names. -/
theorem mem_childInos {n : Node} {c : ℕ} : c ∈ childInos n ↔ ∃ x, n.children.get? x = some c := by
  unfold childInos
  rw [List.mem_map]
  constructor
  · rintro ⟨r, hr, rfl⟩
    rw [List.mem_insertionSort] at hr
    exact ⟨r.1, Table.get?_eq_some_iff.2 hr⟩
  · rintro ⟨x, hx⟩
    exact ⟨(x, c), (List.mem_insertionSort _).2 (Table.get?_eq_some_iff.1 hx), rfl⟩

/-- A step of a walk goes from a directory to one of its entries. -/
theorem mem_next_iff {nodes : Table ℕ Node} {p c : ℕ} :
    c ∈ next childInos nodes p ↔ ∃ n x, nodes.get? p = some n ∧ n.children.get? x = some c := by
  rw [mem_next]
  constructor
  · rintro ⟨n, hn, hc⟩
    obtain ⟨x, hx⟩ := mem_childInos.1 hc
    exact ⟨n, x, hn, hx⟩
  · rintro ⟨n, x, hn, hx⟩
    exact ⟨n, hn, mem_childInos.2 ⟨x, hx⟩⟩

namespace Tree

variable {nodes : Table ℕ Node} {nxt : ℕ} (h : Tree nodes nxt)

include h

/-- Every entry has its node. -/
theorem exists_node {p c : ℕ} {n : Node} {x : Str} (hp : nodes.get? p = some n)
    (hx : n.children.get? x = some c) :
    ∃ m, nodes.get? c = some m := by
  obtain ⟨-, -, m, hm, -⟩ := h.kid p n x c hp hx
  exact ⟨m, hm⟩

/-- An entry names its directory. -/
theorem parent_eq {p c : ℕ} {n m : Node} {x : Str} (hp : nodes.get? p = some n)
    (hx : n.children.get? x = some c) (hc : nodes.get? c = some m) : m.parent = p := by
  obtain ⟨-, -, m', hm', hparent, -⟩ := h.kid p n x c hp hx
  rw [hc] at hm'
  rw [Option.some.inj hm', hparent]

/-- The name of an entry is that of its view path. -/
theorem name_eq {p c : ℕ} {n m : Node} {x : Str} (hp : nodes.get? p = some n)
    (hx : n.children.get? x = some c) (hc : nodes.get? c = some m) : fileName m.view = x := by
  obtain ⟨-, hname, m', hm', -, mid, hview⟩ := h.kid p n x c hp hx
  rw [hc] at hm'
  rw [Option.some.inj hm', hview]
  exact fileName_append hname.no_slash

/-- A view path is longer than that of its directory. -/
theorem length_lt {p c : ℕ} {n m : Node} {x : Str} (hp : nodes.get? p = some n)
    (hx : n.children.get? x = some c) (hc : nodes.get? c = some m) :
    n.view.length < m.view.length ∧ 1 < m.view.length := by
  obtain ⟨-, hname, m', hm', -, mid, hview⟩ := h.kid p n x c hp hx
  rw [hc] at hm'
  have hlen := congrArg List.length hview
  rw [← Option.some.inj hm', List.length_append, List.length_append, List.length_cons] at hlen
  have hpos : 0 < x.length := List.length_pos_iff.2 hname.ne_nil
  have hstem := length_le_stem n.view
  omega

/-- The root is no entry. -/
theorem kid_ne_root {p c : ℕ} {n : Node} {x : Str} (hp : nodes.get? p = some n)
    (hx : n.children.get? x = some c) :
    c ≠ rootIno := by
  rintro rfl
  obtain ⟨m, hm, hview, -⟩ := h.top
  have hlen := (h.length_lt hp hx hm).2
  rw [hview] at hlen
  exact absurd hlen (by decide)

/-- No entry has two names. -/
theorem name_unique {p c : ℕ} {n : Node} {x y : Str} (hp : nodes.get? p = some n)
    (hx : n.children.get? x = some c) (hy : n.children.get? y = some c) : x = y := by
  obtain ⟨m, hm⟩ := h.exists_node hp hx
  rw [← h.name_eq hp hx hm, h.name_eq hp hy hm]

/-- No node is an entry of two directories. -/
theorem parent_unique {p q c : ℕ} (hp : c ∈ next childInos nodes p)
    (hq : c ∈ next childInos nodes q) : p = q := by
  obtain ⟨n, x, hn, hx⟩ := mem_next_iff.1 hp
  obtain ⟨k, y, hk, hy⟩ := mem_next_iff.1 hq
  obtain ⟨m, hm⟩ := h.exists_node hn hx
  rw [← h.parent_eq hn hx hm, h.parent_eq hk hy hm]

/-- What is below a node is a node with a view path that is no shorter. -/
theorem of_reach {a c : ℕ} {n : Node} (ha : nodes.get? a = some n)
    (hr : Reach childInos nodes a c) :
    ∃ m, nodes.get? c = some m ∧ n.view.length ≤ m.view.length := by
  induction hr with
  | refl => exact ⟨n, ha, le_refl _⟩
  | @tail p c _ hc ih =>
    obtain ⟨k, hk, hle⟩ := ih
    obtain ⟨k', x, hk', hx⟩ := mem_next_iff.1 hc
    obtain rfl : k = k' := Option.some.inj (hk.symm.trans hk')
    obtain ⟨m, hm⟩ := h.exists_node hk hx
    exact ⟨m, hm, hle.trans (h.length_lt hk hx hm).1.le⟩

/-- The table branches downwards. -/
theorem branching : Branching (next childInos nodes) where
  parent p q c hp hq := h.parent_unique hp hq
  forth p c hc hback := by
    obtain ⟨n, x, hn, hx⟩ := mem_next_iff.1 hc
    obtain ⟨m, hm⟩ := h.exists_node hn hx
    obtain ⟨n', hn', hle⟩ := h.of_reach hm hback
    have hlt := (h.length_lt hn hx hm).1
    rw [Option.some.inj (hn.symm.trans hn')] at hlt
    omega
  once p := by
    unfold next
    rcases hn : nodes.get? p with _ | n
    · exact List.nodup_nil
    rw [Option.map_some, Option.getD_some, childInos]
    have hrows : (n.children.rows.insertionSort fun a b => a.1 ≤ b.1).Nodup :=
      (List.perm_insertionSort _ _).nodup_iff.2 (List.Nodup.of_map _ n.children.nodup)
    refine hrows.map_on ?_
    intro r hr r' hr' heq
    rw [List.mem_insertionSort] at hr hr'
    have hr₂ : n.children.get? r.1 = some r.2 := Table.get?_eq_some_iff.2 hr
    have hr₂' : n.children.get? r'.1 = some r.2 := by
      rw [heq]
      exact Table.get?_eq_some_iff.2 hr'
    exact Prod.ext (h.name_unique hn hr₂ hr₂') heq

/-- Below an entry there is nothing above it. -/
theorem not_reach_parent {p c : ℕ} {n : Node} {x : Str} (hp : nodes.get? p = some n)
    (hx : n.children.get? x = some c) :
    ¬ Reach childInos nodes c p := h.branching.forth p c (mem_next_iff.2 ⟨n, x, hp, hx⟩)

/-- Below an entry there is no root. -/
theorem not_reach_root {p c : ℕ} {n : Node} {x : Str} (hp : nodes.get? p = some n)
    (hx : n.children.get? x = some c) :
    ¬ Reach childInos nodes c rootIno := by
  intro hr
  rcases hr.cases_tail with heq | ⟨q, -, hq⟩
  · exact h.kid_ne_root hp hx heq.symm
  · obtain ⟨k, y, hk, hy⟩ := mem_next_iff.1 hq
    exact h.kid_ne_root hk hy rfl

/-- What is below `a` and no start of a walk has the directory it lies in below `a`. -/
theorem reach_parent {a q c : ℕ} {n : Node} {x : Str} (hr : Reach childInos nodes a c) (hne : c ≠ a)
    (hq : nodes.get? q = some n) (hx : n.children.get? x = some c) : Reach childInos nodes a q := by
  rcases hr.cases_tail with heq | ⟨p, hp, hc⟩
  · exact absurd heq hne
  · rwa [h.parent_unique (mem_next_iff.2 ⟨n, x, hq, hx⟩) hc]

/-- `subtree` comes to an end and lists what is below the node, each number once. -/
theorem subtree_spec {ino : ℕ} {n : Node} (hn : nodes.get? ino = some n) :
    ∃ l, subtree nodes ino = some l ∧ l.Nodup ∧ ∀ x, x ∈ l ↔ Reach childInos nodes ino x := by
  have hU : ∀ x, Reach childInos nodes ino x → x ∈ nodes.rows.map Prod.fst := by
    intro x hx
    obtain ⟨m, hm, -⟩ := h.of_reach hn hx
    exact Table.mem_keys_iff.2 ⟨m, hm⟩
  have hspec := collect_spec h.branching hU
  rwa [List.length_map] at hspec

/-- Every node of a table whose nodes are listed is reached. The induction is on the length of the
view path. -/
theorem reached (hl : Listed nodes) (len : ℕ) :
    ∀ i n, nodes.get? i = some n → n.view.length = len → Reached nodes i := by
  induction len using Nat.strong_induction_on with
  | _ len ih =>
    intro i n hn hlen
    by_cases hi : i = rootIno
    · rw [hi]
      exact Reached.root
    · obtain ⟨p, x, hp, hx⟩ := hl i n hn hi
      have hlt := (h.length_lt hp hx hn).1
      exact (ih p.view.length (by omega) n.parent p hp rfl).child hp hx

end Tree

/-! ## The changes -/

namespace Tree

variable {nodes nodes' : Table ℕ Node} {nxt : ℕ} {p ino : ℕ} {n node : Node} {x : Str}

/-- New attributes of the same kind keep the table a tree. -/
theorem retouch (h : Tree nodes nxt) (hl : Listed nodes) (i : ℕ) {f : Attr → Attr}
    (hf : ∀ a, (f a).kind = a.kind) :
    Tree (nodes.update i fun n => { n with attr := f n.attr }) nxt ∧
      Listed (nodes.update i fun n => { n with attr := f n.attr }) := by
  have hget : ∀ j, (nodes.update i fun n => { n with attr := f n.attr }).get? j =
      (nodes.get? j).map fun n => if j = i then { n with attr := f n.attr } else n :=
    fun j => Table.get?_update_eq_map nodes i j _
  have hback : ∀ j m, (nodes.update i fun n => { n with attr := f n.attr }).get? j = some m →
      ∃ n, nodes.get? j = some n ∧
      m.view = n.view ∧ m.parent = n.parent ∧ m.children = n.children ∧
      m.attr.kind = n.attr.kind := by
    intro j m hm
    rw [hget, Option.map_eq_some_iff] at hm
    obtain ⟨n, hn, rfl⟩ := hm
    refine ⟨n, hn, ?_⟩
    split_ifs
    · exact ⟨rfl, rfl, rfl, hf _⟩
    · exact ⟨rfl, rfl, rfl, rfl⟩
  have hforth : ∀ j n, nodes.get? j = some n →
      ∃ m, (nodes.update i fun n => { n with attr := f n.attr }).get? j = some m ∧
      m.view = n.view ∧ m.parent = n.parent ∧ m.children = n.children ∧
      m.attr.kind = n.attr.kind := by
    intro j n hn
    refine ⟨if j = i then { n with attr := f n.attr } else n, by rw [hget, hn, Option.map_some], ?_⟩
    split_ifs
    · exact ⟨rfl, rfl, rfl, hf _⟩
    · exact ⟨rfl, rfl, rfl, rfl⟩
  -- Attributes other than the kind are no part of the tree.
  refine ⟨⟨?_, ?_, ?_⟩, ?_⟩
  · obtain ⟨n, hn, hview, hkind⟩ := h.top
    obtain ⟨m, hm, hmview, -, -, hmkind⟩ := hforth _ n hn
    exact ⟨m, hm, hmview.trans hview, hmkind.trans hkind⟩
  · intro p m x c hm hc
    obtain ⟨n, hn, hview, -, hchildren, hkind⟩ := hback p m hm
    rw [hchildren] at hc
    obtain ⟨hdir, hname, k, hk, hparent, mid, hkview⟩ := h.kid p n x c hn hc
    obtain ⟨k', hk', hk'view, hk'parent, -, -⟩ := hforth c k hk
    refine ⟨hkind.trans hdir, hname, k', hk', hk'parent.trans hparent, mid, ?_⟩
    rw [hk'view, hkview, hview]
  · intro j m hm
    obtain ⟨n, hn, -⟩ := hback j m hm
    exact h.fresh j n hn
  · intro j m hm hj
    obtain ⟨n, hn, -, hparent, -, -⟩ := hback j m hm
    obtain ⟨p, x, hp, hx⟩ := hl j n hn hj
    obtain ⟨p', hp', -, -, hchildren, -⟩ := hforth _ p hp
    exact ⟨p', x, by rw [hparent, hp'], by rw [hchildren, hx]⟩

/-- The table with a new entry. -/
def added (nodes : Table ℕ Node) (nxt p : ℕ) (name : Str) (m : Node) : Table ℕ Node :=
  (nodes.update p fun n => { n with children := n.children.put name nxt }).put nxt m

/-- A new node is listed in its parent; the others stay. -/
theorem get?_added (nodes : Table ℕ Node) (nxt p : ℕ) (name : Str) (m : Node) (j : ℕ) :
    (added nodes nxt p name m).get? j = if j = nxt then some m else
      (nodes.get? j).map fun k => if j = p then { k with children := k.children.put name nxt }
      else k := by
  rw [added, Table.get?_put, Table.get?_update_eq_map]

/-- A new entry keeps the table a tree. -/
theorem add (h : Tree nodes nxt) (hl : Listed nodes) {m : Node} {name : Str}
    (hp : nodes.get? p = some n) (hdir : n.attr.kind = .dir) (hname : IsName name)
    (hfree : n.children.get? name = none) (hview : m.view = join n.view name)
    (hparent : m.parent = p) (hbare : m.children = Table.empty) :
    Tree (added nodes nxt p name m) (nxt + 1) ∧ Listed (added nodes nxt p name m) := by
  have hpne : p ≠ nxt := (h.fresh p n hp).ne
  have hget := get?_added nodes nxt p name m
  have hold : ∀ j k, nodes.get? j = some k → (added nodes nxt p name m).get? j =
      some (if j = p then { k with children := k.children.put name nxt } else k) := by
    intro j k hk
    rw [hget, if_neg (h.fresh j k hk).ne, hk, Option.map_some]
  have hnew : (added nodes nxt p name m).get? nxt = some m := by rw [hget, if_pos rfl]
  have hback : ∀ j k, (added nodes nxt p name m).get? j = some k → (j = nxt ∧ k = m) ∨
      ∃ k₀, nodes.get? j = some k₀ ∧ k.view = k₀.view ∧ k.parent = k₀.parent ∧ k.attr = k₀.attr ∧
        k.children = if j = p then k₀.children.put name nxt else k₀.children := by
    intro j k hk
    rw [hget] at hk
    by_cases hj : j = nxt
    · rw [if_pos hj] at hk
      exact Or.inl ⟨hj, (Option.some.inj hk).symm⟩
    · rw [if_neg hj, Option.map_eq_some_iff] at hk
      obtain ⟨k₀, hk₀, rfl⟩ := hk
      refine Or.inr ⟨k₀, hk₀, ?_⟩
      split_ifs
      · exact ⟨rfl, rfl, rfl, rfl⟩
      · exact ⟨rfl, rfl, rfl, rfl⟩
  -- The new node has no entries and one name; the others keep theirs.
  refine ⟨⟨?_, ?_, ?_⟩, ?_⟩
  · obtain ⟨r, hr, hrview, hrkind⟩ := h.top
    refine ⟨_, hold _ r hr, ?_, ?_⟩
    · split_ifs <;> exact hrview
    · split_ifs <;> exact hrkind
  · intro q k y c hk hc
    rcases hback q k hk with ⟨rfl, rfl⟩ | ⟨k₀, hk₀, hkview, -, hkattr, hkchildren⟩
    · rw [hbare, Table.get?_empty] at hc
      cases hc
    have hsame : k₀.children.get? y = some c → k.attr.kind = .dir ∧ IsName y ∧
        ∃ m', (added nodes nxt p name m).get? c = some m' ∧ m'.parent = q ∧
        ∃ mid, m'.view = stem k.view ++ mid ++ '/' :: y := by
      intro hc₀
      obtain ⟨hkdir, hy, e, he, heparent, mid, heview⟩ := h.kid q k₀ y c hk₀ hc₀
      refine ⟨by rw [hkattr, hkdir], hy, _, hold c e he, ?_, mid, ?_⟩
      · split_ifs <;> exact heparent
      · rw [hkview, ← heview]
        split_ifs <;> rfl
    rw [hkchildren] at hc
    split_ifs at hc with hq
    · rw [Table.get?_put] at hc
      split_ifs at hc with hy
      · -- the new entry
        subst hq
        obtain rfl : k₀ = n := Option.some.inj (hk₀.symm.trans hp)
        rw [← Option.some.inj hc, hy]
        refine ⟨by rw [hkattr, hdir], hname, m, hnew, hparent, [], ?_⟩
        rw [hview, join_eq, hkview, List.append_nil]
      · exact hsame hc
    · exact hsame hc
  · intro j k hk
    rcases hback j k hk with ⟨rfl, -⟩ | ⟨k₀, hk₀, -⟩
    · omega
    · have := h.fresh j k₀ hk₀
      omega
  · intro j k hk hj
    rcases hback j k hk with ⟨rfl, rfl⟩ | ⟨k₀, hk₀, -, hkparent, -, -⟩
    · refine ⟨_, name, by rw [hparent]; exact hold p n hp, ?_⟩
      rw [if_pos rfl]
      exact (Table.get?_put _ _ _ _).trans (if_pos rfl)
    · obtain ⟨q, y, hq, hy⟩ := hl j k₀ hk₀ hj
      refine ⟨_, y, by rw [hkparent]; exact hold _ q hq, ?_⟩
      split_ifs with hkp
      · show (q.children.put name nxt).get? y = some j
        rw [Table.get?_put, if_neg, hy]
        rintro rfl
        rw [hkp, hp] at hq
        rw [Option.some.inj hq, hy] at hfree
        cases hfree
      · exact hy

/-- The nodes after an entry has gone: what is below it goes too, and its directory loses its name.
-/
theorem get?_removeNode (h : Tree nodes nxt) (hp : nodes.get? p = some n)
    (hx : n.children.get? x = some ino) (j : ℕ) :
    (Reach childInos nodes ino j → (removeNode nodes ino).get? j = none) ∧
      (¬ Reach childInos nodes ino j → (removeNode nodes ino).get? j =
        (nodes.get? j).map fun k => if j = p then { k with children := without k.children x }
        else k) := by
  obtain ⟨node, hnode⟩ := h.exists_node hp hx
  have hup := h.not_reach_parent hp hx
  have heq : removeNode nodes ino = prune childInos
      ((without nodes ino).update p fun k => { k with children := without k.children x })
        (childInos node).reverse := by
    rw [removeNode, hnode]
    dsimp only
    rw [h.parent_eq hp hx hnode, h.name_eq hp hx hnode]
  rw [heq]
  generalize htable :
    ((without nodes ino).update p fun k => { k with children := without k.children x }) = t
  have hget : ∀ i, t.get? i = if i = ino then none else
      (nodes.get? i).map fun k => if i = p then { k with children := without k.children x }
        else k := by
    intro i
    rw [← htable, Table.get?_update_eq_map, get?_without]
    by_cases hi : i = ino
    · rw [if_pos hi, if_pos hi, Option.map_none]
    · rw [if_neg hi, if_neg hi]
  -- walks in the smaller table are walks in the table
  have hsub : ∀ {a b}, Reach childInos t a b → Reach childInos nodes a b := by
    intro a b hr
    refine Relation.ReflTransGen.mono (fun q c hc => ?_) a b hr
    obtain ⟨k, y, hk, hy⟩ := mem_next_iff.1 hc
    rw [hget] at hk
    by_cases hqi : q = ino
    · rw [if_pos hqi] at hk
      cases hk
    rw [if_neg hqi, Option.map_eq_some_iff] at hk
    obtain ⟨k₀, hk₀, rfl⟩ := hk
    split_ifs at hy
    · rw [get?_without] at hy
      split_ifs at hy
      exact mem_next_iff.2 ⟨k₀, y, hk₀, hy⟩
    · exact mem_next_iff.2 ⟨k₀, y, hk₀, hy⟩
  have hkids : ∀ c, c ∈ (childInos node).reverse ↔ c ∈ next childInos nodes ino := by
    intro c
    rw [List.mem_reverse, mem_next, hnode]
    simp
  -- what is below the entry is reached from its own entries
  have hbelow : ∀ i, Reach childInos nodes ino i → i ≠ ino → ∃ c ∈ (childInos node).reverse,
    Reach childInos t c i := by
    intro i hr
    induction hr with
    | refl => exact fun hne => absurd rfl hne
    | @tail q c hq hc ih =>
      intro _
      by_cases hqi : q = ino
      · subst hqi
        exact ⟨c, (hkids c).2 hc, Relation.ReflTransGen.refl⟩
      · obtain ⟨d, hd, hwalk⟩ := ih hqi
        obtain ⟨k, y, hk, hy⟩ := mem_next_iff.1 hc
        have hqp : q ≠ p := fun heq' => hup (heq' ▸ hq)
        exact ⟨d, hd,
          hwalk.tail
          (mem_next_iff.2 ⟨k, y, by rw [hget, if_neg hqi, hk, Option.map_some, if_neg hqp], hy⟩)⟩
  constructor
  · intro hr
    by_cases hj : j = ino
    · by_cases hmore : ∃ c ∈ (childInos node).reverse, Reach childInos t c j
      · exact (get?_prune childInos t _ j).1 hmore
      · rw [(get?_prune childInos t _ j).2 hmore, hget, if_pos hj]
    · exact (get?_prune childInos t _ j).1 (hbelow j hr hj)
  · intro hnot
    have hj : j ≠ ino := fun heq' => hnot (heq' ▸ Relation.ReflTransGen.refl)
    rw [(get?_prune childInos t _ j).2, hget, if_neg hj]
    rintro ⟨c, hc, hwalk⟩
    exact hnot (Relation.ReflTransGen.head ((hkids c).1 hc) (hsub hwalk))

/-- An entry goes with all that is below it. -/
theorem remove (h : Tree nodes nxt) (hl : Listed nodes) (hp : nodes.get? p = some n)
    (hx : n.children.get? x = some ino) :
    Tree (removeNode nodes ino) nxt ∧ Listed (removeNode nodes ino) := by
  have hback : ∀ j m, (removeNode nodes ino).get? j = some m → ¬ Reach childInos nodes ino j ∧
      ∃ k, nodes.get? j = some k ∧ m = if j = p then { k with children := without k.children x }
      else k := by
    intro j m hm
    by_cases hr : Reach childInos nodes ino j
    · rw [(h.get?_removeNode hp hx j).1 hr] at hm
      cases hm
    · rw [(h.get?_removeNode hp hx j).2 hr, Option.map_eq_some_iff] at hm
      obtain ⟨k, hk, rfl⟩ := hm
      exact ⟨hr, k, hk, rfl⟩
  have hforth : ∀ j k, nodes.get? j = some k → ¬ Reach childInos nodes ino j →
      (removeNode nodes ino).get? j =
      some (if j = p then { k with children := without k.children x } else k) := by
    intro j k hk hr
    rw [(h.get?_removeNode hp hx j).2 hr, hk, Option.map_some]
  -- What cannot be reached from `ino` stays, and its directory loses the name.
  refine ⟨⟨?_, ?_, ?_⟩, ?_⟩
  · obtain ⟨r, hr, hview, hkind⟩ := h.top
    refine ⟨_, hforth _ r hr (h.not_reach_root hp hx), ?_, ?_⟩
    · split_ifs <;> exact hview
    · split_ifs <;> exact hkind
  · intro q m y c hm hc
    obtain ⟨hq, k, hk, rfl⟩ := hback q m hm
    have hc₀ : k.children.get? y = some c ∧ (q = p → y ≠ x) := by
      split_ifs at hc with hqp
      · rw [get?_without] at hc
        split_ifs at hc with hy
        exact ⟨hc, fun _ => hy⟩
      · exact ⟨hc, fun heq => absurd heq hqp⟩
    obtain ⟨hdir, hname, e, he, hparent, mid, hview⟩ := h.kid q k y c hk hc₀.1
    have hce : c ≠ ino := by
      rintro rfl
      have hqp : q = p := h.parent_unique (mem_next_iff.2 ⟨k, y, hk, hc₀.1⟩)
        (mem_next_iff.2 ⟨n, x, hp, hx⟩)
      subst hqp
      obtain rfl : k = n := Option.some.inj (hk.symm.trans hp)
      exact hc₀.2 rfl (h.name_unique hk hc₀.1 hx)
    have hnot : ¬ Reach childInos nodes ino c := fun hr => hq (h.reach_parent hr hce hk hc₀.1)
    refine ⟨?_, hname, _, hforth c e he hnot, ?_, mid, ?_⟩
    · split_ifs <;> exact hdir
    · split_ifs <;> exact hparent
    · have hkview : (if q = p then { k with children := without k.children x } else k).view =
        k.view := by split_ifs <;> rfl
      rw [hkview, ← hview]
      split_ifs <;> rfl
  · intro j m hm
    obtain ⟨-, k, hk, -⟩ := hback j m hm
    exact h.fresh j k hk
  · intro j m hm hj
    obtain ⟨hr, k, hk, rfl⟩ := hback j m hm
    obtain ⟨q, y, hq, hy⟩ := hl j k hk hj
    have hji : j ≠ ino := fun heq => hr (heq ▸ Relation.ReflTransGen.refl)
    have hnot : ¬ Reach childInos nodes ino k.parent := fun hr' =>
      hr (hr'.tail (mem_next_iff.2 ⟨q, y, hq, hy⟩))
    have hparent : (if j = p then { k with children := without k.children x } else k).parent =
      k.parent := by
      split_ifs <;> rfl
    rw [hparent]
    refine ⟨_, y, hforth _ q hq hnot, ?_⟩
    split_ifs with hkp
    · show (without q.children x).get? y = some j
      rw [get?_without, if_neg, hy]
      rintro rfl
      rw [hkp, hp] at hq
      rw [← Option.some.inj hq, hx] at hy
      exact hji (Option.some.inj hy).symm
    · exact hy

end Tree

namespace Tree

variable {nodes : Table ℕ Node} {nxt : ℕ} {p ino a : ℕ} {n node : Node} {x : Str}

/-- Below an entry the view paths go on from its own. -/
theorem view_of_reach (h : Tree nodes nxt) (hnode : nodes.get? ino = some node)
    (hlong : 1 < node.view.length) {i : ℕ} (hr : Reach childInos nodes ino i) :
    ∃ k rel, nodes.get? i = some k ∧ k.view = node.view ++ rel := by
  induction hr with
  | refl => exact ⟨node, [], hnode, (List.append_nil _).symm⟩
  | @tail q c _ hc ih =>
    obtain ⟨k, rel, hk, hview⟩ := ih
    obtain ⟨k', y, hk', hy⟩ := mem_next_iff.1 hc
    obtain rfl : k = k' := Option.some.inj (hk.symm.trans hk')
    obtain ⟨-, -, m, hm, -, mid, hmview⟩ := h.kid q k y c hk hy
    have hklong : 1 < k.view.length := by
      rw [hview, List.length_append]
      omega
    refine ⟨m, rel ++ mid ++ '/' :: y, hm, ?_⟩
    rw [hmview, stem_of_length hklong, hview]
    simp

/-- What is no directory has no entries. -/
theorem bare_of_kind (h : Tree nodes nxt) (hnode : nodes.get? ino = some node)
    (hkind : node.attr.kind ≠ .dir) (y : Str) :
    node.children.get? y = none := by
  rcases hy : node.children.get? y with _ | c
  · rfl
  · exact absurd (h.kid ino node y c hnode hy).1 hkind

/-- Below a node without entries there is nothing. -/
theorem eq_of_reach_bare (hnode : nodes.get? ino = some node)
    (hbare : ∀ y, node.children.get? y = none) {j : ℕ} (hr : Reach childInos nodes ino j) :
    j = ino := by
  rcases hr.cases_head with heq | ⟨c, hc, -⟩
  · exact heq.symm
  · obtain ⟨k, y, hk, hy⟩ := mem_next_iff.1 hc
    obtain rfl : k = node := Option.some.inj (hk.symm.trans hnode)
    rw [hbare y] at hy
    cases hy

/-- The nodes after an entry without entries of its own has gone. -/
theorem get?_removeBare (h : Tree nodes nxt) (hp : nodes.get? p = some n)
    (hx : n.children.get? x = some ino) (hnode : nodes.get? ino = some node)
    (hbare : ∀ y, node.children.get? y = none) {j : ℕ} (hj : j ≠ ino) :
    (removeNode nodes ino).get? j =
      (nodes.get? j).map fun k => if j = p then { k with children := without k.children x }
      else k :=
  (h.get?_removeNode hp hx j).2 fun hr => hj (eq_of_reach_bare hnode hbare hr)

/-- What is below a node beside the directory of such an entry stays below it. -/
theorem reach_removeBare (h : Tree nodes nxt) (hp : nodes.get? p = some n)
    (hx : n.children.get? x = some ino) (hnode : nodes.get? ino = some node)
    (hbare : ∀ y, node.children.get? y = none) (hnot : ¬ Reach childInos nodes a p) (ha : a ≠ ino)
    (j : ℕ) : Reach childInos (removeNode nodes ino) a j ↔ Reach childInos nodes a j := by
  -- The node has no entries, so no way leads through it.
  constructor
  · intro hr
    refine Relation.ReflTransGen.mono (fun q c hc => ?_) a j hr
    obtain ⟨k, y, hk, hy⟩ := mem_next_iff.1 hc
    by_cases hq : q = ino
    · rw [hq, (h.get?_removeNode hp hx ino).1 Relation.ReflTransGen.refl] at hk
      cases hk
    rw [h.get?_removeBare hp hx hnode hbare hq, Option.map_eq_some_iff] at hk
    obtain ⟨k₀, hk₀, rfl⟩ := hk
    split_ifs at hy
    · rw [get?_without] at hy
      split_ifs at hy
      exact mem_next_iff.2 ⟨k₀, y, hk₀, hy⟩
    · exact mem_next_iff.2 ⟨k₀, y, hk₀, hy⟩
  · intro hr
    induction hr with
    | refl => exact Relation.ReflTransGen.refl
    | @tail q c hq hc ih =>
      obtain ⟨k, y, hk, hy⟩ := mem_next_iff.1 hc
      have hqp : q ≠ p := fun heq => hnot (heq ▸ hq)
      have hqi : q ≠ ino := by
        rintro rfl
        exact hnot (h.reach_parent hq ha.symm hp hx)
      refine ih.tail (mem_next_iff.2 ⟨k, y, ?_, hy⟩)
      rw [h.get?_removeBare hp hx hnode hbare hqi, hk, Option.map_some, if_neg hqp]

/-- The moves of `rename` are there for all nodes below an entry. -/
theorem exists_moves (h : Tree nodes nxt) (hnode : nodes.get? ino = some node)
    (hlong : 1 < node.view.length) (newDb newView : Str) :
    ∀ l : List ℕ, (∀ i ∈ l, Reach childInos nodes ino i) →
      ∃ moves, l.mapM (moveOf nodes node.view newDb newView) = some moves ∧ moves.map Move.ino = l ∧
        ∀ m ∈ moves, ∃ k rel, nodes.get? m.ino = some k ∧ k.view = node.view ++ rel ∧
          m.oldDb = k.dbPath ∧
          m.newDb = newDb ++ rel ∧ m.newView = newView ++ rel := by
  intro l
  -- By induction on the nodes: each has a path that begins with that of the moved one.
  induction l with
  | nil => exact fun _ => ⟨[], rfl, rfl, fun m hm => absurd hm List.not_mem_nil⟩
  | cons i l ih =>
    intro hl
    obtain ⟨moves, hmoves, hinos, hall⟩ := ih fun j hj => hl j (List.mem_cons_of_mem _ hj)
    obtain ⟨k, rel, hk, hview⟩ := h.view_of_reach hnode hlong (hl i List.mem_cons_self)
    have hmove : moveOf nodes node.view newDb newView i = some ⟨i, k.dbPath, newDb ++ rel,
      newView ++ rel⟩ := by
      unfold moveOf
      rw [hk, Option.bind_eq_bind, Option.bind_some, hview, dropBytes_append]
      rfl
    refine ⟨⟨i, k.dbPath, newDb ++ rel, newView ++ rel⟩ :: moves,
      ?_, by rw [List.map_cons, hinos], ?_⟩
    · rw [List.mapM_cons, hmove, hmoves]
      rfl
    · intro m hm
      rcases List.mem_cons.1 hm with rfl | hm
      · exact ⟨k, rel, hk, hview, rfl, rfl, rfl⟩
      · exact hall m hm

end Tree

/-! ## Moves -/

/-- The paths of the moved nodes are written. -/
def applyMoves (nodes : Table ℕ Node) (moves : List Move) : Table ℕ Node :=
  moves.foldl (fun t m => t.update m.ino fun n => { n with dbPath := m.newDb, view := m.newView })
  nodes

/-- The table after a move: the old directory loses the name, the new one gets it, and the nodes get
their paths. -/
def movedNodes (nodes : Table ℕ Node) (ino p : ℕ) (x : Str) (newparent : ℕ) (newName : Str)
    (moves : List Move) :
    Table ℕ Node :=
  applyMoves
    (((nodes.update p fun n => { n with children := without n.children x }).update
      newparent fun n =>
    { n with children := n.children.put newName ino }).update ino fun n => { n with parent :=
    newparent }) moves

/-- A move changes the path of its node; the others stay. -/
theorem get?_applyMoves {moves : List Move} :
    ∀ {nodes : Table ℕ Node} {j : ℕ}, (moves.map Move.ino).Nodup →
    (j ∉ moves.map Move.ino → (applyMoves nodes moves).get? j = nodes.get? j) ∧
      ∀ m ∈ moves, m.ino = j → (applyMoves nodes moves).get? j =
        (nodes.get? j).map fun n => { n with dbPath := m.newDb, view := m.newView } := by
  -- By induction on the moves: the numbers differ, so each node is moved once at most.
  induction moves with
  | nil => exact fun _ => ⟨fun _ => rfl, fun m hm => absurd hm List.not_mem_nil⟩
  | cons m moves ih =>
    intro nodes j hnodup
    rw [List.map_cons, List.nodup_cons] at hnodup
    have ih' :=
      @ih (nodes.update m.ino fun n => { n with dbPath := m.newDb, view := m.newView }) j hnodup.2
    have hget :=
      nodes.get?_update_eq_map m.ino j fun n => { n with dbPath := m.newDb, view := m.newView }
    constructor
    · intro hj
      rw [List.map_cons, List.mem_cons, not_or] at hj
      refine (ih'.1 hj.2).trans ?_
      simp only [hget, if_neg hj.1, Option.map_id']
    · intro m' hm' hj
      rcases List.mem_cons.1 hm' with rfl | hm'
      · refine (ih'.1 (hj ▸ hnodup.1)).trans ?_
        simp only [hget, if_pos hj.symm]
      · have hne : j ≠ m.ino := by
          rintro rfl
          exact hnodup.1 (hj ▸ List.mem_map_of_mem hm')
        refine (ih'.2 m' hm' hj).trans ?_
        simp only [hget, if_neg hne, Option.map_id']

/-- What a list of moves must say about the nodes below an entry `ino` with the node `node`: each of
them once, with what follows in its view path behind the new one. -/
structure MovesBelow (nodes : Table ℕ Node) (ino : ℕ) (node : Node) (newView : Str)
    (moves : List Move) : Prop where
  /-- Each node once. -/
  nodup : (moves.map Move.ino).Nodup
  /-- The nodes. -/
  mem_iff : ∀ i, i ∈ moves.map Move.ino ↔ Reach childInos nodes ino i
  /-- The view paths. -/
  view : ∀ m ∈ moves, ∃ k rel, nodes.get? m.ino = some k ∧ k.view = node.view ++ rel ∧
    m.newView = newView ++ rel

namespace Tree

variable {nodes : Table ℕ Node} {nxt : ℕ} {p ino newparent : ℕ} {n node np : Node} {x newName : Str}
  {moves : List Move}

/-- The node after a move: what it has in front of it, and its entries. -/
theorem get?_movedNodes (p newparent : ℕ) (x : Str)
    (hm : MovesBelow nodes ino node (join np.view newName) moves) {j : ℕ} {k : Node}
    (hk : nodes.get? j = some k) :
    ∃ k', (movedNodes nodes ino p x newparent newName moves).get? j = some k' ∧
      k'.attr = k.attr ∧ (k'.parent = if j = ino then newparent else k.parent) ∧
      (∀ y, k'.children.get? y = if j = newparent ∧ y = newName then some ino else if j = p ∧
        y = x then none
        else k.children.get? y) ∧
      (¬ Reach childInos nodes ino j → k'.view = k.view) ∧
      ∀ rel, Reach childInos nodes ino j → k.view = node.view ++ rel →
      k'.view = join np.view newName ++ rel := by
  generalize hbase :
    (((nodes.update p fun n => { n with children := without n.children x }).update
      newparent fun n =>
    { n with children := n.children.put newName ino }).update ino fun n => { n with parent :=
    newparent }) = base
  -- First the entries of the two directories change, and the parent of what moves; the paths come
  -- after.
  obtain ⟨k₁, hk₁, hattr, hparent, hchildren, hview⟩ : ∃ k₁, base.get? j = some k₁ ∧
      k₁.attr = k.attr ∧
      (k₁.parent = if j = ino then newparent else k.parent) ∧
      (∀ y, k₁.children.get? y = if j = newparent ∧ y = newName then some ino else if j = p ∧
        y = x then none
        else k.children.get? y) ∧ k₁.view = k.view := by
    rw [← hbase]
    simp only [Table.get?_update_eq_map, hk, Option.map_some]
    refine ⟨_, rfl, ?_, ?_, ?_, ?_⟩
    · split_ifs <;> rfl
    · split_ifs <;> rfl
    · intro y
      have hfirst : (if j = p then { k with children := without k.children x } else k).children.get?
          y =
          if j = p ∧ y = x then none else k.children.get? y := by
        by_cases hj : j = p
        · simp only [hj, if_true, true_and, get?_without]
        · simp only [hj, if_false, false_and]
      generalize (if j = p then { k with children := without k.children x } else k) = k₀ at hfirst ⊢
      have hsecond :
          (if j = newparent then { k₀ with children := k₀.children.put newName ino }
            else k₀).children.get? y =
          if j = newparent ∧ y = newName then some ino else k₀.children.get? y := by
        by_cases hj : j = newparent
        · simp only [hj, if_true, true_and, Table.get?_put]
        · simp only [hj, if_false, false_and]
      generalize (if j = newparent then { k₀ with children := k₀.children.put newName ino }
        else k₀) = k₁ at hsecond ⊢
      have hthird : (if j = ino then { k₁ with parent := newparent } else k₁).children =
        k₁.children := by split_ifs <;> rfl
      rw [hthird, hsecond, hfirst]
    · split_ifs <;> rfl
  have hout := @get?_applyMoves moves base j hm.nodup
  by_cases hr : Reach childInos nodes ino j
  · obtain ⟨m, hmem, hmj⟩ := List.mem_map.1 ((hm.mem_iff j).2 hr)
    refine ⟨{ k₁ with dbPath := m.newDb, view := m.newView }, ?_, hattr, hparent, hchildren,
      fun hnot => absurd hr hnot, ?_⟩
    · rw [movedNodes, hbase, hout.2 m hmem hmj, hk₁, Option.map_some]
    · intro rel _ hrel
      obtain ⟨k₂, rel₂, hk₂, hview₂, hnew⟩ := hm.view m hmem
      rw [hmj, hk] at hk₂
      rw [← Option.some.inj hk₂, hrel] at hview₂
      rw [List.append_cancel_left hview₂]
      exact hnew
  · refine ⟨k₁, ?_, hattr, hparent, hchildren, fun _ => hview, fun rel h' => absurd h' hr⟩
    rw [movedNodes, hbase, hout.1 fun hmem => hr ((hm.mem_iff j).1 hmem), hk₁]

/-- A move gives new row paths to the nodes below what was moved, and to no other. -/
theorem dbPath_movedNodes (p newparent : ℕ) (x : Str)
    (hm : MovesBelow nodes ino node (join np.view newName) moves) {j : ℕ} {k k' : Node}
    (hk : nodes.get? j = some k)
    (hk' : (movedNodes nodes ino p x newparent newName moves).get? j = some k') :
    (¬ Reach childInos nodes ino j → k'.dbPath = k.dbPath) ∧ ∀ m ∈ moves, m.ino = j →
    k'.dbPath = m.newDb := by
  unfold movedNodes at hk'
  generalize hbase :
    (((nodes.update p fun n => { n with children := without n.children x }).update
      newparent fun n =>
    { n with children := n.children.put newName ino }).update ino fun n => { n with parent :=
    newparent }) = base at hk'
  have hget : (base.get? j).map Node.dbPath = some k.dbPath := by
    rw [← hbase]
    simp only [Table.get?_update_eq_map, hk, Option.map_some]
    split_ifs <;> rfl
  obtain ⟨hstay, hmove⟩ := @get?_applyMoves moves base j hm.nodup
  constructor
  · intro hr
    rw [hstay fun hmem => hr ((hm.mem_iff j).1 hmem)] at hk'
    rw [hk'] at hget
    exact Option.some.inj hget
  · intro m hmem hino
    rw [hmove m hmem hino, Option.map_eq_some_iff] at hk'
    obtain ⟨k₁, -, rfl⟩ := hk'
    rfl

/-- A move makes no node. -/
theorem movedNodes_none (hm : MovesBelow nodes ino node (join np.view newName) moves)
    (p newparent : ℕ) (x : Str) {j : ℕ} (hj : nodes.get? j = none) :
    (movedNodes nodes ino p x newparent newName moves).get? j = none := by
  have hout := fun (t : Table ℕ Node) => @get?_applyMoves moves t j hm.nodup
  have hnot : j ∉ moves.map Move.ino := by
    intro hmem
    obtain ⟨m, hmv, heq⟩ := List.mem_map.1 hmem
    obtain ⟨k, -, hk, -⟩ := hm.view m hmv
    rw [heq, hj] at hk
    cases hk
  rw [movedNodes, (hout _).1 hnot]
  simp only [Table.get?_update_eq_map, hj, Option.map_none]

/-- An entry moves with all that is below it into a directory that is not below it, under a name
that is free there. -/
theorem move (h : Tree nodes nxt) (hl : Listed nodes) (hp : nodes.get? p = some n)
    (hx : n.children.get? x = some ino) (hnode : nodes.get? ino = some node)
    (hnp : nodes.get? newparent = some np) (hdir : np.attr.kind = .dir) (hname : IsName newName)
    (hfree : np.children.get? newName = none) (hnot : ¬ Reach childInos nodes ino newparent)
    (hm : MovesBelow nodes ino node (join np.view newName) moves) :
    Tree (movedNodes nodes ino p x newparent newName moves) nxt ∧
      Listed (movedNodes nodes ino p x newparent newName moves) := by
  have hforth : ∀ {j k}, nodes.get? j = some k → _ := fun hk => get?_movedNodes p newparent x hm hk
  have hback : ∀ j k', (movedNodes nodes ino p x newparent newName moves).get? j = some k' →
    ∃ k, nodes.get? j = some k := by
    intro j k' hk'
    rcases hk : nodes.get? j with _ | k
    · rw [movedNodes_none hm p newparent x hk] at hk'
      cases hk'
    · exact ⟨k, rfl⟩
  have hself : Reach childInos nodes ino ino := Relation.ReflTransGen.refl
  have honly : ∀ {q k y}, nodes.get? q = some k → k.children.get? y = some ino → q = p ∧ y = x := by
    intro q k y hq hy
    obtain rfl : q = p :=
      h.parent_unique (mem_next_iff.2 ⟨k, y, hq, hy⟩) (mem_next_iff.2 ⟨n, x, hp, hx⟩)
    obtain rfl : k = n := Option.some.inj (hq.symm.trans hp)
    exact ⟨rfl, h.name_unique hq hy hx⟩
  -- Every node keeps its entries but those of the two directories; the view paths below `ino` get
  -- the new directory in front.
  refine ⟨⟨?_, ?_, ?_⟩, ?_⟩
  · obtain ⟨r, hr, hview, hkind⟩ := h.top
    obtain ⟨r', hr', hattr, -, -, hsame, -⟩ := hforth hr
    exact ⟨r', hr', (hsame (h.not_reach_root hp hx)).trans hview, by rw [hattr, hkind]⟩
  · intro q k' y c hk' hc
    obtain ⟨k, hk⟩ := hback q k' hk'
    obtain ⟨k'', hk'', hattr, -, hchildren, hsame, hmoved⟩ := hforth hk
    obtain rfl : k' = k'' := Option.some.inj (hk'.symm.trans hk'')
    rw [hchildren] at hc
    by_cases hnew : q = newparent ∧ y = newName
    · -- the entry under its new name
      rw [if_pos hnew] at hc
      obtain rfl := Option.some.inj hc
      obtain ⟨rfl, rfl⟩ := hnew
      obtain rfl : k = np := Option.some.inj (hk.symm.trans hnp)
      obtain ⟨m', hm', -, hparent, -, -, hview⟩ := hforth hnode
      rw [if_pos rfl] at hparent
      refine ⟨by rw [hattr, hdir], hname, m', hm', hparent, [], ?_⟩
      rw [hview [] hself (List.append_nil _).symm, hsame hnot, join_eq, List.append_nil,
        List.append_nil]
    · -- an entry that stays with its directory
      rw [if_neg hnew] at hc
      by_cases hold : q = p ∧ y = x
      · rw [if_pos hold] at hc
        cases hc
      rw [if_neg hold] at hc
      obtain ⟨hkdir, hy, m, hmc, hparent, mid, hview⟩ := h.kid q k y c hk hc
      have hci : c ≠ ino := by
        rintro rfl
        exact hold (honly hk hc)
      obtain ⟨m', hm', -, hparent', -, hsame', hmoved'⟩ := hforth hmc
      rw [if_neg hci] at hparent'
      refine ⟨by rw [hattr, hkdir], hy, m', hm', hparent'.trans hparent, mid, ?_⟩
      have hstep : c ∈ next childInos nodes q := mem_next_iff.2 ⟨k, y, hk, hc⟩
      by_cases hr : Reach childInos nodes ino q
      · obtain ⟨mv, hmv, hmvq⟩ := List.mem_map.1 ((hm.mem_iff q).2 hr)
        obtain ⟨k₂, rel, hk₂, hrel, -⟩ := hm.view mv hmv
        rw [hmvq, hk] at hk₂
        obtain rfl := Option.some.inj hk₂
        have hlong : 1 < k.view.length := by
          have hnodelen := (h.length_lt hp hx hnode).2
          rw [hrel, List.length_append]
          omega
        have hnewlong : 1 < (join np.view newName ++ rel).length := by
          have hpos : 0 < newName.length := List.length_pos_iff.2 hname.ne_nil
          rw [join_eq, List.length_append, List.length_append, List.length_cons]
          omega
        rw [stem_of_length hlong, hrel] at hview
        rw [hmoved' (rel ++ mid ++ '/' :: y) (hr.tail hstep) (by rw [hview]; simp),
          hmoved rel hr hrel,
          stem_of_length hnewlong]
        simp
      · have hrc : ¬ Reach childInos nodes ino c := fun hr' => hr (h.reach_parent hr' hci hk hc)
        rw [hsame' hrc, hsame hr, hview]
  · intro j k' hk'
    obtain ⟨k, hk⟩ := hback j k' hk'
    exact h.fresh j k hk
  · intro j k' hk' hj
    obtain ⟨k, hk⟩ := hback j k' hk'
    obtain ⟨k'', hk'', -, hparent, -, -, -⟩ := hforth hk
    obtain rfl : k' = k'' := Option.some.inj (hk'.symm.trans hk'')
    by_cases hji : j = ino
    · obtain ⟨np', hnp', -, -, hchildren, -, -⟩ := hforth hnp
      rw [if_pos hji] at hparent
      exact ⟨np', newName, by rw [hparent, hnp'], by rw [hchildren, if_pos ⟨rfl, rfl⟩, hji]⟩
    · rw [if_neg hji] at hparent
      obtain ⟨q, y, hq, hy⟩ := hl j k hk hj
      obtain ⟨q', hq', -, -, hchildren, -, -⟩ := hforth hq
      refine ⟨q', y, by rw [hparent, hq'], ?_⟩
      rw [hchildren, if_neg, if_neg, hy]
      · rintro ⟨hkp, rfl⟩
        rw [hkp, hp] at hq
        rw [← Option.some.inj hq, hx] at hy
        exact hji (Option.some.inj hy).symm
      · rintro ⟨hkn, rfl⟩
        rw [hkn, hnp] at hq
        rw [← Option.some.inj hq, hfree] at hy
        cases hy

end Tree

end Dbvm.VmFuse
