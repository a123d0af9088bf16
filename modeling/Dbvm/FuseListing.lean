import Dbvm.FuseShows

/-!
# Listings of a mount

The kernel reads a directory page by page: each page begins where the one before has ended, and how
many entries fit a page is the kernel's affair. Whatever the pages are, together they are the two
dots and the rows that lie directly in the directory, in the order of their names, each of them once
(`listing_exact`).
-/

namespace Dbvm.VmFuse

open Dbvm Lib Lib.Prog

variable {K : Type} [DecidableEq K] {E : Ext K} {s : Vm (Conn K)} {order : List ℕ}

/-- The children of a directory, in the order of their names, with what `readdir` says of them. -/
def childEntries (nodes : Table ℕ Node) (n : Node) : List (ℕ × Kind × Str) :=
  (n.children.rows.insertionSort fun a b => a.1 ≤ b.1).filterMap fun c =>
    (nodes.get? c.2).map fun m => (c.2, m.attr.kind, c.1)

/-- The dots. -/
def dotEntries (ino : ℕ) (n : Node) : List (ℕ × Kind × Str) :=
  [(ino, .dir, ".".toList), (n.parent, .dir, "..".toList)]

/-- A directory that is read page by page. -/
def pages {σ : Type} (B : Backend σ) (s : Vm σ) (ino : ℕ) : ℕ → List ℕ →
    Option (List (ℕ × Kind × Str))
  | _, [] => some []
  | off, room :: rooms =>
    match (handle B (.readdir ino off room) s).1 with
    | .ok (.listing es) => (pages B s ino (off + es.length) rooms).map (es ++ ·)
    | _ => none

/-! ## One page -/

/-- An optional map that always comes to something. -/
theorem mapM_eq_filterMap {α β : Type} {f : α → Option β} :
    ∀ {l : List α}, (∀ a ∈ l, f a ≠ none) → l.mapM f = some (l.filterMap f)
  | [], _ => rfl
  | a :: l, h => by
    obtain ⟨b, hb⟩ := Option.ne_none_iff_exists'.1 (h a List.mem_cons_self)
    rw [List.mapM_cons, hb, mapM_eq_filterMap fun a ha => h a (List.mem_cons_of_mem _ ha),
      List.filterMap_cons_some hb]
    rfl

/-- A page is a page of what is listed when nothing is left out. -/
theorem filterMap_take {α β : Type} {f : α → Option β} :
    ∀ {l : List α} (i : ℕ), (∀ a ∈ l, f a ≠ none) →
    (l.take i).filterMap f = (l.filterMap f).take i
  | [], i, _ => by simp
  | a :: l, 0, _ => by simp
  | a :: l, i + 1, h => by
    obtain ⟨b, hb⟩ := Option.ne_none_iff_exists'.1 (h a List.mem_cons_self)
    rw [List.take_succ_cons, List.filterMap_cons_some hb, List.filterMap_cons_some hb,
      List.take_succ_cons,
      filterMap_take i fun a ha => h a (List.mem_cons_of_mem _ ha)]

/-- A page is the entries that fit, from the offset on. -/
theorem readdir_eq {nodes : Table ℕ Node} {ino : ℕ} {n : Node} (hn : nodes.get? ino = some n)
    (hdir : n.attr.kind = .dir)
    (hkids : ∀ x c, n.children.get? x = some c → ∃ m, nodes.get? c = some m) (offset room : ℕ) :
    readdir nodes ino offset room = .entries
    (((dotEntries ino n ++ childEntries nodes n).drop offset).take room) := by
  unfold readdir
  rw [hn]
  dsimp only
  rw [if_neg (by simpa using hdir)]
  generalize hall :
    ([(ino, some .dir, ".".toList), (n.parent, some .dir, "..".toList)] : List
      (ℕ × Option Kind × Str)) ++ _ = all
  -- Every entry has a kind, so the collection that stops at a missing one never stops.
  have hkinds : ∀ e ∈ all, (e.2.1.map fun kind => (e.1, kind, e.2.2)) ≠ none := by
    intro e he
    rw [← hall, List.mem_append] at he
    rcases he with he | he
    · rcases List.mem_cons.1 he with rfl | he
      · exact Option.some_ne_none _
      · rw [List.mem_singleton.1 he]
        exact Option.some_ne_none _
    · obtain ⟨c, hc, rfl⟩ := List.mem_map.1 he
      rw [List.mem_insertionSort] at hc
      obtain ⟨m, hm⟩ := hkids c.1 c.2 (Table.get?_eq_some_iff.2 hc)
      dsimp only
      rw [hm]
      exact Option.some_ne_none _
  have hentries : (all.filterMap fun e => e.2.1.map fun kind => (e.1, kind, e.2.2)) = dotEntries ino
    n ++ childEntries nodes n := by
    rw [← hall, List.filterMap_append, List.filterMap_map, dotEntries, childEntries]
    congr 1
    refine List.filterMap_congr fun c _ => ?_
    rw [Function.comp_apply, Option.map_map]
    rfl
  rw [mapM_eq_filterMap fun e he => hkinds e (List.mem_of_mem_take he), filterMap_take _ hkinds,
    hentries]
  dsimp only
  rw [List.drop_take, List.take_take]
  congr 2
  omega

/-- The pages, from an offset on. The induction is on the rooms that are left. -/
theorem pages_eq {σ : Type} {B : Backend σ} {s : Vm σ} {ino : ℕ} {n : Node}
    (hn : s.nodes.get? ino = some n) (hdir : n.attr.kind = .dir)
    (hkids : ∀ x c, n.children.get? x = some c → ∃ m, s.nodes.get? c = some m) (rooms : List ℕ) :
    ∀ off, off + rooms.sum < 2 ^ 64 →
      pages B s ino off rooms = some (((dotEntries ino n ++ childEntries s.nodes n).drop off).take
        rooms.sum) := by
  induction rooms with
  | nil =>
    intro off _
    rw [pages, List.sum_nil, List.take_zero]
  | cons room rooms ih =>
    intro off hoff
    rw [List.sum_cons] at hoff ⊢
    have hcast : ((off : ℤ) % 2 ^ 64).toNat = off := by omega
    have hpage := readdir_eq hn hdir hkids off room
    generalize hes : ((dotEntries ino n ++ childEntries s.nodes n).drop off).take room = es at hpage
    have hrun : handler B (.readdir ino off room) s = .ok (.listing es) s := by
      show readdirOp ino off room s = _
      unfold readdirOp
      rw [bind_of_ok (show (get : Op σ (Vm σ)) s = .ok s s from rfl), hcast, hpage]
      rfl
    have hlen : es.length ≤ room := by
      rw [← hes]
      exact List.length_take_le _ _
    rw [pages, handle_of_ok hrun]
    dsimp only
    rw [ih _ (by omega), Option.map_some, ← hes]
    congr 1
    -- a page that is not full is the last one
    rw [List.length_take, List.length_drop]
    generalize dotEntries ino n ++ childEntries s.nodes n = all
    rcases Nat.le_total room (all.length - off) with hfull | hlast
    · rw [Nat.min_eq_left hfull, ← List.drop_drop, ← List.take_add]
    · rw [Nat.min_eq_right hlast,
        List.drop_eq_nil_of_le (show all.length ≤ off + (all.length - off) by omega), List.take_nil,
        List.append_nil,
        List.take_of_length_le (by rw [List.length_drop]; omega),
        List.take_of_length_le (by rw [List.length_drop]; omega)]

/-! ## The rows -/

/-- The entries of a directory are its children with their kinds. -/
theorem mem_childEntries {nodes : Table ℕ Node} {n : Node} {c : ℕ} {kind : Kind} {x : Str} :
    (c, kind, x) ∈ childEntries nodes n ↔
    n.children.get? x = some c ∧ ∃ m, nodes.get? c = some m ∧ m.attr.kind = kind := by
  rw [childEntries, List.mem_filterMap]
  constructor
  · rintro ⟨r, hr, heq⟩
    obtain ⟨m, hm, hpair⟩ := Option.map_eq_some_iff.1 heq
    rw [List.mem_insertionSort] at hr
    simp only [Prod.mk.injEq] at hpair
    obtain ⟨hc, hkind, hx⟩ := hpair
    rw [← hc, ← hx]
    exact ⟨Table.get?_eq_some_iff.2 hr, m, hm, hkind⟩
  · rintro ⟨hx, m, hm, rfl⟩
    refine ⟨(x, c), (List.mem_insertionSort _).2 (Table.get?_eq_some_iff.1 hx), ?_⟩
    dsimp only
    rw [hm, Option.map_some]

/-- They are in the order of their names, none of which occurs twice. -/
theorem pairwise_childEntries (nodes : Table ℕ Node) (n : Node) :
    (childEntries nodes n).Pairwise fun a b => a.2.2 < b.2.2 := by
  have hnd : (n.children.rows.insertionSort fun a b => a.1 ≤ b.1).Pairwise fun a b =>
    a.1 ≠ b.1 := by
    have hkeys := n.children.nodup
    rw [List.nodup_iff_pairwise_ne, List.pairwise_map] at hkeys
    exact (List.perm_insertionSort _ _).symm.pairwise hkeys fun h => h.symm
  have hsorted : (n.children.rows.insertionSort fun a b => a.1 ≤ b.1).Pairwise fun a b =>
    a.1 ≤ b.1 :=
    List.pairwise_insertionSort (fun a b : Str × ℕ => a.1 ≤ b.1) _
  rw [childEntries, List.pairwise_filterMap]
  refine (hsorted.and hnd).imp fun {a b} hab e he e' he' => ?_
  obtain ⟨m, -, rfl⟩ := Option.map_eq_some_iff.1 he
  obtain ⟨m', -, rfl⟩ := Option.map_eq_some_iff.1 he'
  exact lt_of_le_of_ne hab.1 hab.2

omit [DecidableEq K] in
/-- What a directory holds, by the rows: a row directly below it for each name, with its kind. -/
theorem Mirroring.exists_childEntry (h : Mirroring s) {ino : ℕ} {n : Node}
    (hn : s.nodes.get? ino = some n) {x : Str} {kind : Kind} :
    (∃ c, (c, kind, x) ∈ childEntries s.nodes n) ↔ IsName x ∧
    ∃ row, s.conn.db.fs.get? (join n.view x) = some row ∧ row.kind = kind := by
  -- A child has a node and the node a row; and a row directly below the path has a node, which is
  -- a child.
  constructor
  · rintro ⟨c, hc⟩
    obtain ⟨hx, m, hm, hkind⟩ := mem_childEntries.1 hc
    obtain ⟨-, hname, -⟩ := h.tree.kid ino n x c hn hx
    have hview := (h.rows.path ino n x c m hn hx hm).1
    have hne : c ≠ rootIno := by
      intro heq
      exact join_ne_root hname (hview.symm.trans ((h.rows.view_eq_root h.tree h.listed hm).2 heq))
    obtain ⟨row, hrow, hlook⟩ := h.rows.row c m hm hne
    rw [hview] at hrow
    have hkinds : m.attr.kind = row.kind := congrArg Look.kind hlook
    exact ⟨hname, row, hrow, hkinds.symm.trans hkind⟩
  · rintro ⟨hname, row, hrow, hkind⟩
    obtain ⟨c, m, hm, hview⟩ := h.rows.node _ row hrow (join_ne_root hname)
    have hx := h.rows.get?_children h.tree h.listed hn hname hm hview
    have hne : c ≠ rootIno := by
      intro heq
      exact join_ne_root hname (hview.symm.trans ((h.rows.view_eq_root h.tree h.listed hm).2 heq))
    obtain ⟨row', hrow', hlook⟩ := h.rows.row c m hm hne
    rw [hview] at hrow'
    obtain rfl : row = row' := Option.some.inj (hrow.symm.trans hrow')
    have hkinds : m.attr.kind = row.kind := congrArg Look.kind hlook
    exact ⟨c, mem_childEntries.2 ⟨hx, m, hm, hkinds.trans hkind⟩⟩

/-- After every run of requests a directory that is read page by page, whatever fits each page, is
listed as far as there is room: the two dots, and then, in the order of their names and each of them
once, the rows directly below it with their kinds. -/
theorem listing_exact {K : Type} [DecidableEq K] {E : Ext K} {s : Vm (Conn K)} {order : List ℕ}
    {conn : Conn K} {owner : Owner} (hup : Upright conn.db.fs)
    (horder : order.Perm (inos conn.db.fs)) (hnew : new conn.db.fs order conn owner = .ok s)
    (rs : List Request) (hrs : Heeded polite (Backend.ofDb E) rs s) (ino : ℕ) (n : Node)
    (hn : (runAll (Backend.ofDb E) rs s).nodes.get? ino = some n) (hdir : n.attr.kind = .dir) :
    ∃ kids : List (ℕ × Kind × Str), kids.Pairwise (fun a b => a.2.2 < b.2.2) ∧
      (∀ x kind, (∃ c, (c, kind, x) ∈ kids) ↔
        IsName x ∧ ∃ row, (runAll (Backend.ofDb E) rs s).conn.db.fs.get? (join n.view x) = some
        row ∧ row.kind = kind) ∧
      ∀ rooms : List ℕ, rooms.sum < 2 ^ 64 → pages (Backend.ofDb E)
        (runAll (Backend.ofDb E) rs s) ino 0 rooms =
        some ((dotEntries ino n ++ kids).take rooms.sum) := by
  have hend := hup.mirroring horder hnew hrs
  generalize runAll (Backend.ofDb E) rs s = t at hend hn
  refine ⟨childEntries t.nodes n, pairwise_childEntries _ _,
    fun x kind => hend.exists_childEntry hn, fun rooms hrooms => ?_⟩
  have hpages := pages_eq (B := Backend.ofDb E) hn hdir (fun x c hx => hend.tree.exists_node hn hx)
    rooms 0 (by omega)
  rwa [List.drop_zero] at hpages

/-- The listing of the example's directory is exact. -/
theorem listing_exact_shown :
    ∃ n, (runAll (Backend.ofDb plainExt) shownRequests shownMount).nodes.get? 2 = some n ∧
    ∃ kids : List (ℕ × Kind × Str), kids.Pairwise (fun a b => a.2.2 < b.2.2) ∧
      (∀ x kind, (∃ c, (c, kind, x) ∈ kids) ↔ IsName x ∧ ∃ row,
        (runAll (Backend.ofDb plainExt) shownRequests shownMount).conn.db.fs.get? (join n.view x) =
        some row ∧ row.kind = kind) ∧
      ∀ rooms : List ℕ, rooms.sum < 2 ^ 64 → pages (Backend.ofDb plainExt)
        (runAll (Backend.ofDb plainExt) shownRequests shownMount) 2 0 rooms = some
        ((dotEntries 2 n ++ kids).take rooms.sum) := by
  have hdir : ((runAll (Backend.ofDb plainExt) shownRequests shownMount).nodes.get? 2).map
    (fun n => n.attr.kind) = some .dir := by
    decide +kernel
  obtain ⟨n, hn, hkind⟩ := Option.map_eq_some_iff.1 hdir
  exact ⟨n, hn, listing_exact upright_shownConn inos_shownConn new_shownConn shownRequests
    heeded_shownRequests 2 n hn hkind⟩

end Dbvm.VmFuse
