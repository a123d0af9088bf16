import Dbvm.EntryOps
import Dbvm.FuseShows
import Dbvm.Inject

/-!
# A rename through the mount moves a subtree

`fuse_rename` moves one row after the other, those of the nodes of a subtree. In a database whose
chunks all have rows (`Tidy`, which the requests of a mount keep, `stays_tidy`) the rows and the
chunks at and below the old path are at and below the new one afterwards, nothing is left where they
were, and every other path is as it was, but for what has been replaced (`rename_moves_subtree`).
-/

namespace Dbvm.VmFuse

open Dbvm Lib Lib.Prog Lib.Forest Lib.Moves

variable {K : Type} [DecidableEq K] {E : Ext K} {fs : Table Str (FsRow K)} {s : Vm (Conn K)}
  {order : List ℕ}

/-! ## Chunks have rows -/

/-- Every entry has it. -/
def anyEntry : EntryProp K := fun _ _ _ => True

/-- What holds of any entry is kept by every operation. -/
theorem anyEntry_rules (E : Ext K) : EntryRules E (anyEntry (K := K)) anyEntry where
  node _ _ _ _ _ _ _ := trivial
  finalized _ _ _ _ _ _ _ _ := trivial

omit [DecidableEq K] in
/-- The invariant without a property is that the tables are tidy. -/
theorem entryInv_any {db : Db K} : EntryInv anyEntry anyEntry db ↔ Tidy db :=
  ⟨fun h => h.toTidy, fun h => ⟨h, fun _ _ _ _ => trivial, fun _ _ _ _ => trivial,
    fun _ _ _ _ => trivial,
    fun _ _ _ _ => trivial⟩⟩

/-- A program that fails has kept what it keeps. -/
theorem Keeps.of_error {ε σ α : Type} {I : σ → Prop} {x : EStateM ε σ α} {e : ε} {t t' : σ}
    (h : Keeps I x) (ht : I t) (hx : x t = .error e t') : I t' := by
  have hend := h t ht
  unfold endState at hend
  rw [hx] at hend
  exact hend

omit [DecidableEq K] in
/-- Any entry may move. -/
theorem mayMove_any :
    ∀ (moves : List (Str × Str)) (db : Db K), InTurn moveEntry (MayMove anyEntry anyEntry) moves db
  | [], _ => trivial
  | _ :: moves, _ => ⟨fun _ _ => ⟨fun _ _ => trivial, fun _ _ => trivial⟩,
      fun db' _ => mayMove_any moves db'⟩

/-- What every request to the database keeps stays in the runs of a mount, whatever the kernel asks
for. -/
theorem stays_db {P : Conn K → Prop} (M : Manners) (hrun : ∀ a, Keeps P ((Backend.ofDb E).run a))
    (hread : ∀ path off len, Keeps P ((Backend.ofDb E).read path off len))
    (hfinalize : Keeps P (Backend.ofDb E).finalize) :
    Stays (Backend.ofDb E) M fun s => Whole s ∧ P s.conn where
  whole s h := h.1
  failed s c h hc := by
    refine ⟨h.1.conn c, ?_⟩
    rcases hc with ⟨a, e, -, hx⟩ | ⟨path, off, len, e, hx⟩
    · exact Keeps.of_error (hrun a) h.2 hx
    · exact Keeps.of_error (hread path off len) h.2 hx
  read s path off len b c h hx := ⟨h.1.conn c, (hread path off len).triple _ _ _ h.2 hx⟩
  finalize s h := ⟨h.1.conn _, hfinalize _ h.2⟩
  made s parent p x e now c h hp hdir hname hM hfree hperm hx :=
    ⟨(stays_whole (Backend.ofDb E) M).made s parent p x e now c h.1 hp hdir hname hM hfree hperm hx,
      (hrun _).triple _ _ _ h.2 hx⟩
  dropped s parent p x ino n c h hp hchild hn hbare hx :=
    ⟨(stays_whole (Backend.ofDb E) M).dropped s parent p x ino n c h.1 hp hchild hn hbare hx,
      (hrun _).triple _ _ _ h.2 hx⟩
  renamed s ino newparent newN node np moves c nodes' h hM hf hmoves hx htree hlisted hnodes :=
    ⟨⟨htree, hlisted⟩, (hrun _).triple _ _ _ h.2 hx⟩
  edited s ino n e c h hn hheeds hx :=
    ⟨(stays_whole (Backend.ofDb E) M).edited s ino n e c h.1 hn hheeds hx,
      (hrun _).triple _ _ _ h.2 hx⟩
  touched s ino n t h hn := ⟨(stays_whole (Backend.ofDb E) M).touched s ino n t h.1 hn, h.2⟩

/-- Everything that writes or cuts a range of a file is done in one piece. -/
theorem keeps_range {P : Db K → Prop} {op : RangeOp K} {x : EStateM Err (Conn K) Unit}
    {c : Conn K} (hop : op.run E = withCache c.cache x) (h : P (endState (op.run E) c.db)) :
    P (endState x c).db := by
  rw [hop] at h
  unfold endState withCache at h
  unfold endState
  rcases hx : x c with ⟨a, c'⟩ | ⟨e, c'⟩
  · rw [show x ⟨c.db, c.cache⟩ = _ from hx] at h
    exact h
  · rw [show x ⟨c.db, c.cache⟩ = _ from hx] at h
    exact h

omit [DecidableEq K] in
/-- Any entry fits. -/
theorem anyEntry_fits {db : Db K} {p : Str} {m : FsMeta K} {c : ℕ → Option K} :
    Dbvm.Fits anyEntry anyEntry db p m c :=
  ⟨fun _ => trivial, fun _ => trivial⟩

/-- Every request of the mount to the database keeps what the tables owe each other. -/
theorem keeps_tidy (E : Ext K) (a : Ask) :
    Keeps (fun c : Conn K => Tidy c.db) ((Backend.ofDb E).run a) := by
  have R := anyEntry_rules E
  have hin : ∀ {x : Sql K Unit},
      (∀ db, EntryInv anyEntry anyEntry db → EntryInv anyEntry anyEntry (endState x db)) →
      Keeps (fun c : Conn K => Tidy c.db) (onDb x) :=
    fun h => Dbvm.Keeps.onDb fun db hdb => entryInv_any.1 (h db (entryInv_any.2 hdb))
  -- One case for each thing that a handler asks of the database.
  cases a <;> dsimp only [Backend.run, Backend.ofDb]
  case addBytes path mode now => exact hin fun db h => h.vmAddBytes R anyEntry_fits
  case addDir path mode now => exact hin fun db h => h.vmAddDir R fun _ => trivial
  case addSymlink path target now => exact hin fun db h => h.vmAddSymlink R fun _ => trivial
  case delete path => exact hin fun db h => EntryInv.keeps_deleteFs _ db h
  case setMode path mode => exact hin fun db h => h.updateFs (fun _ => rfl) fun _ _ => anyEntry_fits
  case setMtime path mtime => exact hin fun db h => h.updateFs (fun _ => rfl) fun _ _ =>
    anyEntry_fits
  case rename replaced moves => exact hin fun db h => h.fuseRename (mayMove_any moves _)
  case truncate path size now =>
    intro c hc
    have hop : (RangeOp.truncateDeferred path size now c.cache).Fits anyEntry c.db :=
      fun _ _ _ _ _ _ _ _ => trivial
    exact keeps_range rfl (entryInv_any.1 ((entryInv_any.2 hc).rangeOp R hop))
  case write path off data now =>
    intro c hc
    have hop : (RangeOp.writeDeferred path off data now c.cache).Fits anyEntry c.db :=
      fun _ _ _ _ _ _ _ _ => trivial
    exact keeps_range rfl (entryInv_any.1 ((entryInv_any.2 hc).rangeOp R hop))

/-- What the tables owe each other stays in the runs of a mount. -/
theorem stays_tidy (E : Ext K) (M : Manners) :
    Stays (Backend.ofDb E) M fun s => Whole s ∧ Tidy s.conn.db :=
  stays_db M (keeps_tidy E) (fun path off len => (readOnly_readRangeCached E path off len).keeps)
    (Dbvm.Keeps.onDb
      (Keeps.bind (fun db h =>
        entryInv_any.1 ((anyEntry_rules E).keeps_finalizeDirty db (entryInv_any.2 h)))
      fun _ => Keeps.pure _))

/-! ## Subtrees -/

/-- What a subtree moves: what was at and below the old path is at and below the new one, nothing is
where it was, and nothing else has changed. -/
structure SubtreeMoved (src dst : Str) (db db' : Db K) : Prop where
  /-- What comes. -/
  come : ∀ names, (∀ c ∈ names, IsName c) →
    db'.fs.get? (dst ++ ofNames names) = db.fs.get? (src ++ ofNames names) ∧
    db'.keysAt (dst ++ ofNames names) = db.keysAt (src ++ ofNames names)
  /-- What is left. -/
  gone : ∀ names, (∀ c ∈ names, IsName c) → db'.fs.get? (src ++ ofNames names) = none ∧
    db'.keysAt (src ++ ofNames names) = fun _ => none
  /-- Everything else. -/
  stay : ∀ q, (∀ names, (∀ c ∈ names, IsName c) → q ≠ src ++ ofNames names ∧
    q ≠ dst ++ ofNames names) →
    db'.fs.get? q = db.fs.get? q ∧ db'.keysAt q = db.keysAt q

namespace Mirrors

variable {nodes : Table ℕ Node} {nxt p ino newparent : ℕ} {n node np : Node} {x newName : Str}
  {moves : List Move}

omit [DecidableEq K] in
/-- A node whose path goes on from that of an entry is below it. The induction is on the names, from
the last one. -/
theorem reach_of_view (h : Mirrors nodes fs) (htree : Tree nodes nxt) (hlisted : Listed nodes)
    (hn : nodes.get? ino = some node) (hlong : 1 < node.view.length) {names : List Str} :
    ∀ {i : ℕ} {k : Node}, (∀ c ∈ names, IsName c) →
    nodes.get? i = some k → k.view = node.view ++ ofNames names → Reach childInos nodes ino i := by
  -- From the end of the path back: the parent of the node has the path without the last name.
  induction names using List.reverseRecOn with
  | nil =>
    intro i k _ hk hview
    rw [ofNames_nil, List.append_nil] at hview
    rw [h.eq_of_view htree hlisted hk hn hview]
  | append_singleton init last ih =>
    intro i k hnames hk hview
    have hinit : ∀ c ∈ init, IsName c := fun c hc => hnames c (List.mem_append_left _ hc)
    have hlast : IsName last := hnames last (by simp)
    have hlong' : 1 < (node.view ++ ofNames init).length := by
      rw [List.length_append]
      omega
    have hjoin : k.view = join (node.view ++ ofNames init) last := by
      rw [hview, join_eq, stem_of_length hlong', ofNames_append, ofNames_cons, ofNames_nil]
      simp
    have hi : i ≠ rootIno := by
      intro heq
      exact join_ne_root hlast (hjoin.symm.trans ((h.view_eq_root htree hlisted hk).2 heq))
    obtain ⟨q, y, hq, hy, -, hyname, hqview, -, -⟩ := h.exists_dir htree hlisted hk hi
    have hqne : q.view ≠ [] := (h.dbPath_eq htree hlisted hq).2.ne_nil
    have hdir : q.view = node.view ++ ofNames init := by
      rw [← parentOf_join hyname hqne, ← hqview, hjoin,
        parentOf_join hlast (List.ne_nil_of_length_pos (by omega))]
    exact (ih hinit hq hdir).tail (mem_next_iff.2 ⟨q, y, hq, hy⟩)

omit [DecidableEq K] in
/-- Nothing is at or below both the entry and its new name. -/
theorem subtrees_apart (h : Mirrors nodes fs) (htree : Tree nodes nxt) (hlisted : Listed nodes)
    (hf : Found nodes ino newparent newName node np moves)
    (hfree : np.children.get? newName = none) {names names' : List Str}
    (hnames : ∀ c ∈ names, IsName c) (hnames' : ∀ c ∈ names', IsName c) :
    node.view ++ ofNames names ≠ join np.view newName ++ ofNames names' := by
  intro heq
  obtain ⟨p, x, n, hp, hx⟩ := hf.entry
  have hlong := (htree.length_lt hp hx hf.isNode).2
  have hne : ino ≠ rootIno := fun hi => htree.not_reach_root hp hx (hi ▸ Relation.ReflTransGen.refl)
  obtain ⟨row, hrow, -⟩ := h.row ino node hf.isNode hne
  -- both paths as names
  obtain ⟨ss, hss, hsrc⟩ : ∃ ss, (∀ c ∈ ss, IsName c) ∧ node.view = ofNames ss := by
    rcases (h.dbPath_eq htree hlisted hf.isNode).2.shape with hroot | ⟨ss, -, hss, hview⟩
    · exact absurd ((h.view_eq_root htree hlisted hf.isNode).1 hroot) hne
    · exact ⟨ss, hss, hview⟩
  obtain ⟨ts, hts, hdir⟩ : ∃ ts, (∀ c ∈ ts, IsName c) ∧ np.view = pathOf ts := by
    rcases (h.dbPath_eq htree hlisted hf.newDir.1).2.shape with hroot | ⟨ts, htsne, hts, hview⟩
    · exact ⟨[], by simp, hroot⟩
    · exact ⟨ts, hts, by rw [hview, pathOf, if_neg htsne]⟩
  have hts' : ∀ c ∈ ts ++ [newName], IsName c := by
    intro c hc
    rcases List.mem_append.1 hc with hc | hc
    · exact hts c hc
    · rw [List.mem_singleton.1 hc]
      exact hf.name
  have hclear : ∀ cs, (∀ c ∈ cs, IsName c) → node.view ≠ join np.view newName ++ ofNames cs := by
    intro cs hcs hview
    rw [hview, h.no_row htree hlisted hf.newDir.1 hf.name hfree hcs] at hrow
    cases hrow
  rw [hsrc, hdir, join_pathOf hts, ← ofNames_append, ← ofNames_append] at heq
  have hlist := ofNames_inj (fun c hc => (List.mem_append.1 hc).elim (hss c) (hnames c))
    (fun c hc => (List.mem_append.1 hc).elim (hts' c) (hnames' c)) heq
  rcases List.append_eq_append_iff.1 hlist with ⟨cs, htscs, -⟩ | ⟨cs, hsscs, -⟩
  · -- the new name would be the entry or below it
    obtain rfl | ⟨init, last, rfl⟩ := cs.eq_nil_or_concat
    · refine hclear [] (by simp) ?_
      rw [List.append_nil] at htscs
      rw [hsrc, hdir, join_pathOf hts, htscs, ofNames_nil, List.append_nil]
    · rw [List.concat_eq_append, ← List.append_assoc] at htscs
      obtain ⟨htseq, -⟩ := List.append_inj' htscs rfl
      have hinit : ∀ c ∈ init, IsName c := fun c hc => hts c (htseq ▸ List.mem_append_right _ hc)
      refine hf.outside (h.reach_of_view htree hlisted hf.isNode hlong hinit hf.newDir.1 ?_)
      have htsne : ts ≠ [] := by
        rintro rfl
        have hssnil := (List.append_eq_nil_iff.1 htseq.symm).1
        rw [hsrc, hssnil, ofNames_nil] at hlong
        simp at hlong
      rw [hdir, pathOf, if_neg htsne, htseq, ofNames_append, hsrc]
  · -- the entry would be below the new name
    refine hclear cs (fun c hc => hss c (hsscs ▸ List.mem_append_right _ hc)) ?_
    rw [hdir, join_pathOf hts, ← ofNames_append, ← hsscs, hsrc]

omit [DecidableEq K] in
/-- The moves of a rename, for anything that is only where there are rows. -/
theorem moveAll_subtree {α : Type} {e : α} {f : Str → α} {db : Db K} (h : Mirrors nodes db.fs)
    (htree : Tree nodes nxt) (hlisted : Listed nodes)
    (hf : Found nodes ino newparent newName node np moves) (hp : nodes.get? p = some n)
    (hx : n.children.get? x = some ino) (hfree : np.children.get? newName = none)
    (hpaths : MovesPaths node np newName moves) (hempty : ∀ q, db.fs.get? q = none → f q = e)
    {ms : List (Str × Str)} (hms : ms = moves.map fun m => (m.oldDb, m.newDb)) :
    (∀ names, (∀ c ∈ names, IsName c) → moveAll e f ms (join np.view newName ++ ofNames names) = f
      (node.view ++ ofNames names)) ∧
    (∀ names, (∀ c ∈ names, IsName c) → moveAll e f ms (node.view ++ ofNames names) = e) ∧
    ∀ q, (∀ names, (∀ c ∈ names, IsName c) → q ≠ node.view ++ ofNames names ∧
      q ≠ join np.view newName ++ ofNames names) →
      moveAll e f ms q = f q := by
  have happart := h.apart htree hlisted hf hp hx hfree hpaths
  rw [← hms] at happart
  have hlong := (htree.length_lt hp hx hf.isNode).2
  obtain ⟨hcome, hgo, hstay⟩ := moveAll_spec (e := e) (f := f) happart
  -- what the moves are
  have hmove : ∀ m ∈ ms, ∃ names row, (∀ c ∈ names, IsName c) ∧ m.1 = node.view ++ ofNames names ∧
      m.2 = join np.view newName ++ ofNames names ∧ db.fs.get? m.1 = some row := by
    intro a ha
    rw [hms] at ha
    obtain ⟨m, hm, rfl⟩ := List.mem_map.1 ha
    obtain ⟨k, names, row, hk, hnames, hold, hview, hnew, hrow⟩ :=
      h.exists_row htree hf hp hx hpaths m hm
    exact ⟨names, row, hnames, hold.trans hview, hnew, hrow⟩
  -- a row below the entry is moved
  have hmoved : ∀ names, (∀ c ∈ names, IsName c) →
      ∀ row, db.fs.get? (node.view ++ ofNames names) = some row →
      (node.view ++ ofNames names, join np.view newName ++ ofNames names) ∈ ms := by
    intro names hnames row hrow
    have hne : node.view ++ ofNames names ≠ root := by
      intro heq
      have hlen := congrArg List.length heq
      rw [List.length_append] at hlen
      simp only [root, List.length_singleton] at hlen
      omega
    obtain ⟨i, k, hk, hview⟩ := h.node _ row hrow hne
    have hreach := h.reach_of_view htree hlisted hf.isNode hlong hnames hk hview
    obtain ⟨k', names', m, hk', -, hview', hm, -, hold, hnew⟩ :=
      h.exists_move htree hf hlong hpaths hreach
    obtain rfl : k = k' := Option.some.inj (hk.symm.trans hk')
    rw [hms]
    refine List.mem_map.2 ⟨m, hm, ?_⟩
    rw [hold, hview, hnew, List.append_cancel_left (hview'.symm.trans hview)]
  refine ⟨?_, ?_, ?_⟩
  · intro names hnames
    rcases hrow : db.fs.get? (node.view ++ ofNames names) with _ | row
    · have hnone := h.no_row htree hlisted hf.newDir.1 hf.name hfree hnames
      rw [hempty _ hrow, hstay, hempty _ hnone]
      intro m hm
      obtain ⟨names', row, -, hold, hnew, hthere⟩ := hmove m hm
      constructor
      · intro heq
        rw [← heq, hnone] at hthere
        cases hthere
      · intro heq
        rw [hnew] at heq
        rw [hold, ← List.append_cancel_left heq, hrow] at hthere
        cases hthere
    · exact hcome _ (hmoved names hnames row hrow)
  · intro names hnames
    rcases hrow : db.fs.get? (node.view ++ ofNames names) with _ | row
    · rw [hstay, hempty _ hrow]
      intro m hm
      obtain ⟨names', row, hnames', hold, hnew, hthere⟩ := hmove m hm
      constructor
      · intro heq
        rw [← heq, hrow] at hthere
        cases hthere
      · rw [hnew]
        exact h.subtrees_apart htree hlisted hf hfree hnames hnames'
    · exact hgo _ (hmoved names hnames row hrow)
  · intro q hq
    refine hstay q fun m hm => ?_
    obtain ⟨names, row, hnames, hold, hnew, -⟩ := hmove m hm
    rw [hold, hnew]
    exact hq names hnames

end Mirrors

/-- What the database has done for a rename. -/
theorem Mirroring.moved (h : Mirroring s) (htidy : Tidy s.conn.db) {ino newparent : ℕ}
    {newN : Str} {node np : Node} {moves : List Move} {db' : Db K} {u : Unit}
    (hf : Found s.nodes ino newparent newN node np moves)
    (hmoves : ∀ m ∈ moves, ∃ k rel, s.nodes.get? m.ino = some k ∧ k.view = node.view ++ rel ∧
      m.oldDb = k.dbPath ∧
      m.newDb = join np.dbPath newN ++ rel ∧ m.newView = join np.view newN ++ rel)
    (hx : fuseRename (((np.children.get? newN).bind s.nodes.get?).map fun rn => rn.dbPath)
      (moves.map fun m => (m.oldDb, m.newDb)) s.conn.db = .ok u db') :
    SubtreeMoved node.view (join np.view newN) s.conn.db db' := by
  obtain ⟨db, hdb, hdel, hrun⟩ := h.replace hf hx
  obtain ⟨np', htree', hlisted', hfree, hview, hf'⟩ := hf.replacedNodes h.tree h.listed
  obtain ⟨p, x, n, hp, hpx⟩ := hf'.entry
  have hpaths := h.movesPaths hf hview hmoves
  have htidy' : Tidy db := by
    rcases hdel with rfl | rfl
    · exact htidy
    · exact entryInv_any.1 ((entryInv_any.2 htidy).delFs _)
  -- what is replaced is at the new path only
  have hsame : ∀ q, q ≠ join np.view newN → db.fs.get? q = s.conn.db.fs.get? q ∧
    db.keysAt q = s.conn.db.keysAt q := by
    intro q hq
    rcases hdel with rfl | rfl
    · exact ⟨rfl, rfl⟩
    · refine ⟨by rw [Db.get?_delFs, if_neg (by simpa using hq)], ?_⟩
      funext i
      exact Db.get?_chunks_delFs i (by simpa using hq)
  obtain ⟨hrows, hchunks⟩ := movedAll_rows (hdb.apart htree' hlisted' hf' hp hpx hfree hpaths) (by
    intro a ha
    obtain ⟨m, hm, rfl⟩ := List.mem_map.1 ha
    obtain ⟨-, -, row, -, -, -, -, -, hrow⟩ := hdb.exists_row htree' hf' hp hpx hpaths m hm
    dsimp only
    rw [hrow]
    exact Option.some_ne_none _) hrun
  have hkeys :
    db'.keysAt = moveAll (fun _ => none) db.keysAt (moves.map fun m => (m.oldDb, m.newDb)) :=
    hchunks fun q i hq => htidy'.rows q i hq
  obtain ⟨hcome, hgo, hstay⟩ :=
    hdb.moveAll_subtree htree' hlisted' hf' hp hpx hfree hpaths (fun _ hq => hq) rfl
  obtain ⟨hcome', hgo', hstay'⟩ := hdb.moveAll_subtree htree' hlisted' hf' hp hpx hfree hpaths
    (e := fun _ => none) (f := db.keysAt) (fun q hq => funext fun i => htidy'.rows q i hq) rfl
  rw [← hrows] at hcome hgo hstay
  rw [← hkeys] at hcome' hgo' hstay'
  rw [hview] at hcome hstay hcome' hstay'
  have hsrc : ∀ names, (∀ c ∈ names, IsName c) →
    node.view ++ ofNames names ≠ join np.view newN := by
    intro names hnames heq
    have hnil : ∀ c ∈ ([] : List Str), IsName c := by simp
    refine hdb.subtrees_apart htree' hlisted' hf' hfree hnames hnil ?_
    rw [heq, hview, ofNames_nil, List.append_nil]
  refine ⟨fun names hnames => ?_, fun names hnames => ⟨hgo names hnames, hgo' names hnames⟩,
    fun q hq => ?_⟩
  · obtain ⟨hfs, hch⟩ := hsame _ (hsrc names hnames)
    exact ⟨(hcome names hnames).trans hfs, (hcome' names hnames).trans hch⟩
  · have hne : q ≠ join np.view newN := by
      have hnil := (hq [] (by simp)).2
      rwa [ofNames_nil, List.append_nil] at hnil
    obtain ⟨hfs, hch⟩ := hsame q hne
    exact ⟨(hstay q hq).trans hfs, (hstay' q hq).trans hch⟩

/-! ## Runs -/

/-- After every run of requests, a rename that is answered without an error has moved everything at
and below the old path, with its content, to the new one, when the two are different, and has done
nothing when they are the same. -/
theorem rename_moves_subtree {K : Type} [DecidableEq K] {E : Ext K} {s : Vm (Conn K)}
    {order : List ℕ} {conn : Conn K} {owner : Owner} (hup : Upright conn.db.fs)
    (htidy : Tidy conn.db) (horder : order.Perm (inos conn.db.fs))
    (hnew : new conn.db.fs order conn owner = .ok s) (rs : List Request)
    (hrs : Heeded polite (Backend.ofDb E) rs s) (parent newparent : ℕ) (name newname : Option Str)
    {reply : Reply} {s' : Vm (Conn K)}
    (hok : handle (Backend.ofDb E) (.rename parent name newparent newname)
      (runAll (Backend.ofDb E) rs s) = (.ok reply, s')) :
    ∃ p np x y, (runAll (Backend.ofDb E) rs s).nodes.get? parent = some p ∧
      (runAll (Backend.ofDb E) rs s).nodes.get? newparent = some np ∧ name = some x ∧
      newname = some y ∧
      if join p.view x = join np.view y then s' = runAll (Backend.ofDb E) rs s
      else SubtreeMoved (join p.view x) (join np.view y)
      (runAll (Backend.ofDb E) rs s).conn.db s'.conn.db := by
  have hend := hup.mirroring horder hnew hrs
  have htidy' : Tidy (runAll (Backend.ofDb E) rs s).conn.db := by
    obtain ⟨s₀, hnew₀, hconn, hwhole, -⟩ := hup.mirrors horder conn owner
    obtain rfl : s = s₀ := Except.ok.inj (hnew.symm.trans hnew₀)
    exact ((stays_tidy E polite).runAll rs s ⟨hwhole, hconn ▸ htidy⟩ hrs).2
  generalize runAll (Backend.ofDb E) rs s = t at hend htidy' hok
  -- what the handler does, by its rule
  have hwp : Wp (rename (Backend.ofDb E) parent name newparent newname)
      (fun _ s' => ∃ p np x y, t.nodes.get? parent = some p ∧
      t.nodes.get? newparent = some np ∧ name = some x ∧ newname = some y ∧
      if join p.view x = join np.view y then s' = t
        else SubtreeMoved (join p.view x) (join np.view y) t.conn.db s'.conn.db)
          (fun _ _ => True) t := by
    refine hend.toWhole.wp_rename (M := polite) ?_ (fun _ _ _ => trivial) (fun _ => trivial) ?_
    · intro ino np newN hchild hnp hname hnewN hentry
      obtain ⟨p, x, hp, hx, hpx⟩ := child_eq_some hchild
      obtain ⟨node, hnode⟩ := hend.tree.exists_node hp hpx
      refine ⟨p, np, x, newN, hp, hnp, hx, hname, ?_⟩
      have hview := (hend.rows.path parent p x ino node hp hpx hnode).1
      have hview' := (hend.rows.path newparent np newN ino node hnp hentry hnode).1
      rw [if_pos (hview.symm.trans hview')]
    · intro ino newN node np moves gone c nodes' hchild hname hf hmoves hgone hrun _ _ _
      obtain ⟨p, x, hp, hx, hpx⟩ := child_eq_some hchild
      have hview := (hend.rows.path parent p x ino node hp hpx hf.isNode).1
      refine ⟨p, np, x, newN, hp, hf.newDir.1, hx, hname, ?_⟩
      have hne : join p.view x ≠ join np.view newN := by
        intro heq
        have hentry :=
          hend.rows.get?_children hend.tree hend.listed hf.newDir.1 hf.name hf.isNode
          (hview.trans heq)
        exact hf.other hentry
      rw [if_neg hne, ← hview]
      dsimp only [Backend.run, Backend.ofDb] at hrun
      rw [hgone] at hrun
      exact hend.moved htidy' hf hmoves (onDb_eq_ok hrun)
  unfold handle handler at hok
  rcases hx : rename (Backend.ofDb E) parent name newparent newname t with ⟨r, t'⟩ | ⟨f, t'⟩
  · rw [Wp.of_ok hx] at hwp
    dsimp only at hok
    rw [hx] at hok
    cases hok
    exact hwp
  · dsimp only at hok
    rw [hx] at hok
    cases hok

/-- The tables of the example are tidy. -/
theorem tidy_shownConn : Tidy shownConn.db := by
  have hkeeps : Keeps Tidy (do
      vmAddDir "/d".toList 0o755 0 0
      vmAddBytes plainExt "/d/f".toList [1] 0o644 0 0 : Sql Bytes Unit) :=
    Keeps.bind
      (fun db h => entryInv_any.1 ((entryInv_any.2 h).vmAddDir (anyEntry_rules plainExt) fun _ =>
        trivial)) fun _ db h =>
      entryInv_any.1 ((entryInv_any.2 h).vmAddBytes (anyEntry_rules plainExt) anyEntry_fits)
  exact hkeeps _ (tidy_initDb 0)

/-- Whether a request that has no other answer has succeeded. -/
def isDone : Except Fail Reply → Bool
  | .ok .ok => true
  | _ => false

/-- A reply that is done is done. -/
theorem eq_ok_of_isDone {reply : Except Fail Reply} (h : isDone reply = true) :
    reply = .ok .ok := by
  unfold isDone at h
  split at h
  · rfl
  · cases h

/-- The rename of the example succeeds. -/
theorem handle_rename_shown :
    (handle (Backend.ofDb plainExt) (.rename rootIno (some "e".toList) rootIno (some "g".toList))
    (runAll (Backend.ofDb plainExt) shownRequests shownMount)).1 = .ok .ok :=
  eq_ok_of_isDone (by decide +kernel)

/-- The rename of the example moves the subtree of a directory. -/
theorem rename_moves_subtree_shown :
    ∃ p np x y, (runAll (Backend.ofDb plainExt) shownRequests shownMount).nodes.get?
      rootIno = some p ∧
      (runAll (Backend.ofDb plainExt) shownRequests shownMount).nodes.get? rootIno = some np ∧
      some "e".toList = some x ∧ some "g".toList = some y ∧
      if join p.view x = join np.view y then
        (handle (Backend.ofDb plainExt)
          (.rename rootIno (some "e".toList) rootIno (some "g".toList))
          (runAll (Backend.ofDb plainExt) shownRequests shownMount)).2 =
            runAll (Backend.ofDb plainExt) shownRequests shownMount
      else SubtreeMoved (join p.view x) (join np.view y)
        (runAll (Backend.ofDb plainExt) shownRequests shownMount).conn.db
        (handle (Backend.ofDb plainExt)
          (.rename rootIno (some "e".toList) rootIno (some "g".toList))
          (runAll (Backend.ofDb plainExt) shownRequests shownMount)).2.conn.db :=
  rename_moves_subtree upright_shownConn tidy_shownConn inos_shownConn new_shownConn shownRequests
  heeded_shownRequests
    rootIno rootIno (some "e".toList) (some "g".toList) (pair_eq handle_rename_shown)

end Dbvm.VmFuse
