import Dbvm.EntryInv
import Dbvm.Host.Copy
import Dbvm.Lib.Shape
import Dbvm.Overlay.Rows

/-!
# The shape of the tree

Every row but the root's should have a row at its parent path, and not the row of a regular file. A
write of one row keeps that when its parents are there or can be created (`Db.RoomFor`) and, for a
regular file, when nothing is below its path (`Lib.Bare`). `ensure_parent_dirs` checks neither:
`INSERT OR IGNORE` takes any row for a parent, and the upsert of a file does not look at the rows
below.
-/

namespace Dbvm

open Lib Lib.Chunks Lib.Prog Lib.Posix

variable {K : Type} [DecidableEq K] {E : Ext K} {db db' d d' : Db K} {p : Str} {u : Unit}

/-! ## Parents -/

/-- The path a row is below: its parent, the root's own for the root. -/
def parentOf (p : Str) : Str := (pathParent p).getD root

/-- The only kind that nothing may be below. -/
def FileKind (kind : Kind) : Prop := kind = .file

/-- The kind of the row at a path. -/
def Db.kindAt (db : Db K) (p : Str) : Option Kind := (db.fs.get? p).map fun row => row.kind

/-- Every row but the root's has a row at its parent path that is a directory or a link. -/
def Db.TreeShaped (db : Db K) : Prop := Shaped parentOf root FileKind db.kindAt

/-- There is a directory or a link at the path. -/
abbrev Db.HoldsEntries (db : Db K) (p : Str) : Prop := Carries FileKind db.kindAt p

/-- There is no row below the path. -/
abbrev Db.NothingBelow (db : Db K) (p : Str) : Prop := Bare parentOf root db.kindAt p

omit [DecidableEq K] in
/-- The kind at a path is that of its row. -/
theorem Db.kindAt_of_get? {row : FsRow K} (h : db.fs.get? p = some row) :
    db.kindAt p = some row.kind := by
  rw [kindAt, h]
  rfl

omit [DecidableEq K] in
/-- The kind at a path depends on its row only. -/
theorem Db.kindAt_congr (h : db'.fs.get? p = db.fs.get? p) : db'.kindAt p = db.kindAt p := by
  rw [kindAt, kindAt, h]

omit [DecidableEq K] in
/-- Only the kinds of the rows decide whether the tree is shaped. -/
theorem Db.TreeShaped.of_kinds (h : db.TreeShaped) (hk : db'.kindAt = db.kindAt) :
    db'.TreeShaped := by
  unfold Db.TreeShaped
  rw [hk]
  exact h

omit [DecidableEq K] in
/-- Only the rows of `vm_fs` decide whether the tree is shaped. -/
theorem Db.TreeShaped.of_fs (h : db.TreeShaped) (hfs : db'.fs = db.fs) : db'.TreeShaped := by
  refine h.of_kinds (funext fun q => ?_)
  exact Db.kindAt_congr (by rw [hfs])

omit [DecidableEq K] in
/-- What holds entries is a row that is no file. -/
theorem Db.holdsEntries_iff :
    db.HoldsEntries p ↔ ∃ row, db.fs.get? p = some row ∧ row.kind ≠ .file := by
  constructor
  · rintro ⟨k, hk, hne⟩
    obtain ⟨row, hrow, rfl⟩ := Option.map_eq_some_iff.1 hk
    exact ⟨row, hrow, hne⟩
  · rintro ⟨row, hrow, hne⟩
    exact ⟨row.kind, Db.kindAt_of_get? hrow, hne⟩

/-- One more name makes one more prefix: the path before it. -/
theorem slashPrefixes_concat {c : Str} (hc : '/' ∉ c) : ∀ s : Str,
    slashPrefixes (s ++ '/' :: c) = slashPrefixes s ++ [s]
  | [] => by
    have hnone : slashPrefixes c = [] := by
      have := slashPrefixes_append hc []
      rwa [List.append_nil] at this
    show slashPrefixes ('/' :: c) = [] ++ [[]]
    rw [slashPrefixes.eq_2, hnone]
    rfl
  | a :: s => by
    rw [List.cons_append, slashPrefixes, slashPrefixes_concat hc s, slashPrefixes, List.map_append]
    simp

/-- The parent of a path with one more name. -/
theorem parentOf_concat {cur c : Str} (hc : '/' ∉ c) (hne : c ≠ []) :
    parentOf (cur ++ '/' :: c) = if cur = [] then root else cur := by
  have hroot : cur ++ '/' :: c ≠ root := by
    intro h
    have hlen := congrArg List.length h
    rw [List.length_append, List.length_cons] at hlen
    have hpos : 0 < c.length := List.length_pos_iff.2 hne
    have hone : root.length = 1 := rfl
    omega
  rw [parentOf, pathParent, if_neg hroot, Option.getD_some, ancestors, slashPrefixes_concat hc,
    List.filter_append,
    List.reverse_append]
  by_cases hcur : cur = []
  · rw [hcur]
    rfl
  · rw [if_neg hcur, List.filter_singleton, decide_eq_true hcur]
    rfl

/-- Each of the parents that are created is below the one before. -/
theorem chain_dirChain : ∀ {cs : List Str} {cur : Str}, (∀ c ∈ cs, '/' ∉ c ∧ c ≠ []) → cur ≠ [] →
    Chain parentOf cur (dirChain cur cs)
  | [], _, _, _ => trivial
  | c :: cs, cur, hcs, hcur => by
    have hc := hcs c List.mem_cons_self
    refine ⟨?_, chain_dirChain (fun c' hc' => hcs c' (List.mem_cons_of_mem _ hc')) (by simp)⟩
    rw [parentOf_concat hc.1 hc.2, if_neg hcur]

/-- The directories that `ensure_parent_dirs` makes are a chain from the root. -/
theorem chain_parentDirs (vmPath : Str) : Chain parentOf root (parentDirs vmPath) := by
  unfold parentDirs
  dsimp only
  split_ifs
  · trivial
  · have hcs :
      ∀ c ∈ (((pathParent (normalizeVmPath vmPath)).getD root).splitOn '/').filter (· ≠ []),
        '/' ∉ c ∧ c ≠ [] := by
      intro c hc
      rw [List.mem_filter] at hc
      exact ⟨not_mem_of_mem_splitOn hc.1, by simpa using hc.2⟩
    rcases hl : (((pathParent (normalizeVmPath vmPath)).getD root).splitOn '/').filter
      (· ≠ []) with _ | ⟨c, cs⟩
    · trivial
    · rw [hl] at hcs
      have hc := hcs c List.mem_cons_self
      refine ⟨?_, chain_dirChain (fun c' hc' => hcs c' (List.mem_cons_of_mem _ hc')) (by simp)⟩
      rw [parentOf_concat hc.1 hc.2, if_pos rfl]

/-- The parent of a path in normal form is the root or one of the parents that are created. -/
theorem parentOf_mem {p : Str} (h : Normal p) : parentOf p ∈ root :: parentDirs p := by
  unfold parentOf pathParent
  split_ifs
  · exact List.mem_cons_self
  · rcases hanc : ancestors p with _ | ⟨a, as⟩
    · exact List.mem_cons_self
    · refine List.mem_cons_of_mem _ ((mem_parentDirs h).2 ?_)
      rw [hanc]
      exact List.mem_cons_self

/-- The root has no parent directories. -/
theorem parentDirs_root : parentDirs root = [] := by decide

/-- A path is below its parent. -/
theorem below_parentOf {q : Str} (hq : q ≠ root) (hne : parentOf q ≠ root) :
    Below (parentOf q) q := by
  unfold parentOf pathParent at hne ⊢
  rw [if_neg hq, Option.getD_some] at hne ⊢
  rcases hanc : ancestors q with _ | ⟨a, as⟩
  · rw [hanc] at hne
    exact absurd rfl hne
  · exact (mem_ancestors.1 (by rw [hanc]; exact List.mem_cons_self)).2

/-- A parent is never the empty path. -/
theorem parentOf_ne_nil (q : Str) : parentOf q ≠ [] := by
  unfold parentOf pathParent
  split_ifs
  · exact List.cons_ne_nil _ _
  · rcases hanc : ancestors q with _ | ⟨a, as⟩
    · exact List.cons_ne_nil _ _
    · exact (mem_ancestors.1 (by rw [hanc]; exact List.mem_cons_self)).1

/-- The parent of a path is the root or one of its ancestors. -/
theorem parentOf_mem_ancestors (q : Str) : parentOf q = root ∨ parentOf q ∈ ancestors q := by
  by_cases hq : q = root
  · left
    rw [hq]
    rfl
  by_cases hne : parentOf q = root
  · exact Or.inl hne
  · exact Or.inr (mem_ancestors.2 ⟨parentOf_ne_nil q, below_parentOf hq hne⟩)

/-- So is the parent of an ancestor. -/
theorem parentOf_ancestor {p a : Str} (ha : a ∈ ancestors p) :
    parentOf a = root ∨ parentOf a ∈ ancestors p := by
  rcases parentOf_mem_ancestors a with hroot | hmem
  · exact Or.inl hroot
  · have hup := mem_ancestors.1 hmem
    exact Or.inr (mem_ancestors.2 ⟨hup.1, hup.2.trans (mem_ancestors.1 ha).2⟩)

/-- The parent of an absolute path is absolute. -/
theorem head?_parentOf {q : Str} (hq : q ≠ root) (h : q.head? = some '/') :
    (parentOf q).head? = some '/' := by
  by_cases hne : parentOf q = root
  · rw [hne]
    rfl
  · obtain ⟨rest, hrest⟩ := below_parentOf hq hne
    obtain ⟨c, cs, hcs⟩ := List.exists_cons_of_ne_nil (parentOf_ne_nil q)
    rw [← hrest, hcs] at h
    rw [hcs]
    exact h

/-- A parent is a shorter path. -/
theorem length_parentOf_lt {q : Str} (hq : q ≠ root) (hne : parentOf q ≠ root) :
    (parentOf q).length < q.length := by
  have hlen := (below_parentOf hq hne).length_le
  rw [List.length_append] at hlen
  have hone : ['/'].length = 1 := rfl
  omega

/-- No path but the root is its own parent. -/
theorem parentOf_ne {q : Str} (hq : q ≠ root) : parentOf q ≠ q := by
  intro h
  have hne : parentOf q ≠ root := by rwa [h]
  have hlt := length_parentOf_lt hq hne
  rw [h] at hlt
  exact Nat.lt_irrefl _ hlt

/-- The parents of a path are not below a path that is as long. -/
theorem parentOf_ne_of_mem {v n a : Str} (ha : a ∈ parentDirs v) (hne : a ≠ root) (hn : n ≠ root)
    (hlen : (normalizeVmPath v).length ≤ n.length) : parentOf a ≠ n := by
  intro h
  have hbelow : Below a (normalizeVmPath v) := (mem_ancestors.1 (mem_parentDirs_iff.1 ha)).2
  have hle := hbelow.length_le
  rw [List.length_append] at hle
  have hone : ['/'].length = 1 := rfl
  have hlt : (parentOf a).length < a.length := length_parentOf_lt hne (by rwa [h])
  rw [h] at hlt
  omega

/-- Normalising what is normalised does not make it longer. -/
theorem length_normalize_twice (v : Str) :
    (normalizeVmPath (normalizeVmPath v)).length ≤ (normalizeVmPath v).length := by
  rcases normalizeVmPath_shape v with hv | ⟨cs, hcs, hnames, hv⟩
  · rw [hv]
    exact Nat.le_of_eq (congrArg List.length (by decide))
  · rw [hv]
    rcases normal_or_shorter hcs hnames with hnormal | hlt
    · exact Nat.le_of_eq (congrArg List.length hnormal)
    · exact Nat.le_of_lt hlt

/-! ## One row -/

omit [DecidableEq K] in
/-- Writing a row that fits keeps the tree shaped. -/
theorem Db.TreeShaped.put {kind : Kind} (h : db.TreeShaped) (hp : db'.kindAt p = some kind)
    (hsame : ∀ q, q ≠ p → db'.fs.get? q = db.fs.get? q)
    (hup : p ≠ root → db'.HoldsEntries (parentOf p)) (hbare : kind = .file → db'.NothingBelow p) :
    db'.TreeShaped :=
  Shaped.put h hp (fun q hq => Db.kindAt_congr (hsame q hq)) hup hbare

/-- The parents of a path can be created: they are no files, and there is a root. -/
structure Db.ParentsFit (db : Db K) (p : Str) : Prop where
  /-- The root. -/
  top : parentDirs p ≠ [] → db.HoldsEntries root
  /-- The parents that are there. -/
  parents : ∀ a ∈ parentDirs p, ∀ row, db.fs.get? a = some row → row.kind ≠ .file

/-- What a path needs above it before its row is written: parents that can be created, and a parent
of its own among them or there already. -/
structure Db.RoomFor (db : Db K) (p : Str) : Prop extends Db.ParentsFit db p where
  /-- The parent of the row. -/
  above : p ≠ root → parentOf p ∈ parentDirs p ∨ db.HoldsEntries (parentOf p)

/-- A row of the kind can be written at the path. -/
def Db.Fits (db : Db K) (p : Str) (kind : Kind) : Prop :=
  db.RoomFor p ∧ (kind = .file → db.NothingBelow p)

omit [DecidableEq K] in
/-- Creating a chain of directories keeps the shape, wherever it stops. -/
theorem treeShaped_parents {now : ℤ} : ∀ {l : List Str} {q : Str} {d : Db K}, Chain parentOf q l →
    d.TreeShaped → (l ≠ [] → d.HoldsEntries q) →
      (∀ a ∈ l, ∀ row, d.fs.get? a = some row → row.kind ≠ .file) →
      (endState (l.forM fun a => insertFsIgnore a (dirRow 493 now)) d).TreeShaped
  | [], _, _, _, h, _, _ => h
  | a :: l, q, d, hchain, h, hq, hfiles => by
    rw [List.forM_eq_forM, List.forM_cons]
    refine endState_bind ?_ ?_
    · intro e d' hx
      rw [statement_error hx]
      exact h
    intro u d' hx
    -- Afterwards there is a directory or a link at `a`.
    have hnew : d'.TreeShaped ∧ d'.HoldsEntries a ∧
        ∀ b, b ≠ a → d'.fs.get? b = d.fs.get? b := by
      rcases insertFsIgnore_ok hx with ⟨hhas, rfl⟩ | ⟨hfree, rfl⟩
      · obtain ⟨row, hrow⟩ := Option.ne_none_iff_exists'.1 hhas
        exact ⟨h, Db.holdsEntries_iff.2 ⟨row, hrow, hfiles a List.mem_cons_self row hrow⟩,
          fun _ _ => rfl⟩
      · have hother : ∀ b, b ≠ a → (d.addFs a (dirRow 493 now)).fs.get? b = d.fs.get? b := by
          intro b hb
          rw [Db.get?_addFs _ hfree, if_neg hb]
        have hrow : (d.addFs a (dirRow 493 now)).fs.get? a = some (dirRow 493 now) := by
          rw [Db.get?_addFs _ hfree, if_pos rfl]
        refine ⟨h.put (Db.kindAt_of_get? hrow) hother (fun hne => ?_) (fun hk => by cases hk),
          Db.holdsEntries_iff.2 ⟨_, hrow, fun hk => by cases hk⟩, hother⟩
        rw [hchain.1]
        refine (hq (by simp)).congr (Db.kindAt_congr (hother q ?_))
        rintro rfl
        obtain ⟨row, hrow', -⟩ := Db.holdsEntries_iff.1 (hq (by simp))
        rw [hfree] at hrow'
        cases hrow'
    obtain ⟨hshape, hholds, hother⟩ := hnew
    refine treeShaped_parents hchain.2 hshape (fun _ => hholds) fun b hb row hrow => ?_
    by_cases hba : b = a
    · obtain ⟨row', hrow', hne⟩ := Db.holdsEntries_iff.1 hholds
      rw [← hba, hrow] at hrow'
      cases hrow'
      exact hne
    · rw [hother b hba] at hrow
      exact hfiles b (List.mem_cons_of_mem _ hb) row hrow

/-- Some of the paths `dirs` that had no row have become directories. -/
def Db.Grown (d : Db K) (dirs : List Str) (now : ℤ) (d' : Db K) : Prop := ∀ q, d'.fs.get? q =
  if q ∈ dirs ∧ d.fs.get? q = none then some (dirRow 493 now) else d.fs.get? q

section Grown

variable {dirs : List Str} {now : ℤ}

omit [DecidableEq K] in
/-- What held entries does so after directories were made. -/
theorem Db.Grown.holds (h : d.Grown dirs now d') (hp : d.HoldsEntries p) : d'.HoldsEntries p := by
  obtain ⟨row, hrow, -⟩ := Db.holdsEntries_iff.1 hp
  refine hp.congr (Db.kindAt_congr ?_)
  rw [h p, if_neg]
  rintro ⟨-, hnone⟩
  rw [hrow] at hnone
  cases hnone

omit [DecidableEq K] in
/-- What was no file is none after directories were made. -/
theorem Db.Grown.notFile (h : d.Grown dirs now d')
    (hp : ∀ row, d.fs.get? p = some row → row.kind ≠ .file) :
    ∀ row, d'.fs.get? p = some row → row.kind ≠ .file := by
  intro row hrow
  rw [h p] at hrow
  split_ifs at hrow
  · cases hrow
    exact fun hk => by cases hk
  · exact hp row hrow

omit [DecidableEq K] in
/-- Nothing comes below a path that is no parent of the new directories. -/
theorem Db.Grown.nothingBelow (h : d.Grown dirs now d') (hp : d.NothingBelow p)
    (hdirs : ∀ a ∈ dirs, a ≠ root → parentOf a ≠ p) : d'.NothingBelow p := by
  intro q hq hup
  have hnone : d.kindAt q = none := hp q hq hup
  rw [← hnone]
  refine Db.kindAt_congr ?_
  rw [h q, if_neg]
  rintro ⟨hmem, -⟩
  exact hdirs q hmem hq hup

omit [DecidableEq K] in
/-- A row that fits still does after directories were made. -/
theorem Db.Grown.fits {kind : Kind} (h : d.Grown dirs now d') (hp : d.Fits p kind)
    (hdirs : kind = .file → ∀ a ∈ dirs, a ≠ root → parentOf a ≠ p) : d'.Fits p kind where
  left :=
    { top := fun hne => h.holds (hp.1.top hne)
      parents := fun a ha => h.notFile (hp.1.parents a ha)
      above := fun hne => (hp.1.above hne).imp_right h.holds }
  right := fun hk => h.nothingBelow (hp.2 hk) (hdirs hk)

end Grown

omit [DecidableEq K] in
/-- The parents are created, or some of them. -/
theorem Db.ParentsFit.endState (h : d.ParentsFit p) (htree : d.TreeShaped) (now : ℤ) :
    (endState (ensureParentDirs p now) d).TreeShaped :=
  treeShaped_parents (chain_parentDirs p) htree h.top h.parents

omit [DecidableEq K] in
/-- `ensure_parent_dirs` keeps the tree shaped when the path's ancestors are no files. -/
theorem Db.ParentsFit.ensured (h : d.ParentsFit p) (htree : d.TreeShaped) {now : ℤ}
    (hx : ensureParentDirs p now d = .ok u d') : d'.TreeShaped := by
  have hend : d' = Lib.Prog.endState (ensureParentDirs p now) d := (endState_of_ok hx).symm
  rw [hend]
  exact h.endState htree now

omit [DecidableEq K] in
/-- The row of a path with room has something to stand on once the parents are created. -/
theorem Db.RoomFor.stands (h : d.RoomFor p) {now : ℤ} (hx : ensureParentDirs p now d = .ok u d')
    (hp : p ≠ root) : d'.HoldsEntries (parentOf p) := by
  have hgrown : d.Grown (parentDirs p) now d' := ensureParentDirs_rows hx
  rcases h.above hp with hmem | hthere
  · rcases hrow : d.fs.get? (parentOf p) with _ | row
    · refine Db.holdsEntries_iff.2 ⟨dirRow 493 now, ?_, fun hk => by cases hk⟩
      rw [hgrown, if_pos ⟨hmem, hrow⟩]
    · exact hgrown.holds (Db.holdsEntries_iff.2 ⟨row, hrow, h.parents _ hmem row hrow⟩)
  · exact hgrown.holds hthere

omit [DecidableEq K] in
/-- The row of a path is written, with its parent there. -/
theorem Db.TreeShaped.of_put {kind : Kind} {mode : ℤ} {size : ℕ} {link : Option Str}
    (h : d.TreeShaped) (hup : p ≠ root → d.HoldsEntries (parentOf p))
    (hbare : kind = .file → d.NothingBelow p) (hput : Put p kind mode size link d d') :
    d'.TreeShaped := by
  obtain ⟨row, hrow, hkind, -⟩ := hput.row
  have hp : d'.kindAt p = some kind := by rw [Db.kindAt_of_get? hrow, hkind]
  refine h.put hp hput.fs (fun hp => ?_) fun hk q hq hpar => ?_
  · exact (hup hp).congr (Db.kindAt_congr (hput.fs _ (parentOf_ne hp)))
  · rw [Db.kindAt_congr (hput.fs q ?_)]
    · exact hbare hk q hq hpar
    · rintro rfl
      exact parentOf_ne hq hpar

/-- A writer of one path: it fails and changes nothing, or the path has a row of the kind. -/
def Puts (p : Str) (kind : Kind) (x : Sql K Unit) : Prop :=
  ∀ d, endState x d = d ∨ ∃ mode size link, Put p kind mode size link d (endState x d)

omit [DecidableEq K] in
/-- A savepoint is a writer of the path when what runs in it is one. -/
theorem puts_of_savepoint {kind : Kind} {x : Sql K Unit}
    (h : ∀ d u d', inSavepoint x d = .ok u d' → ∃ mode size link, Put p kind mode size link d d') :
    Puts p kind (inSavepoint x) := by
  intro d
  unfold endState
  rcases hx : inSavepoint x d with ⟨v, d'⟩ | ⟨e, d'⟩
  · exact Or.inr (h d v d' hx)
  · exact Or.inl (Atomic.savepoint x d e d' hx)

/-- `fs_put_file` is a writer of its path. -/
theorem puts_fsPutFile (mode mtime : ℤ) (data : Bytes) :
    Puts p .file (fsPutFile E p mode mtime data) :=
  puts_of_savepoint fun _ _ _ hx => ⟨_, _, _, (fsPutFile_ok hx).1⟩

/-- `fs_put_node` is a writer of its path. -/
theorem puts_fsPutNode (kind : Kind) (mode mtime : ℤ) (link : Option Str) :
    Puts (K := K) p kind (fsPutNode p kind mode mtime link) :=
  puts_of_savepoint fun _ _ _ hx => ⟨_, _, _, (fsPutNode_ok hx).1⟩

omit [DecidableEq K] in
/-- A writer of one path keeps the shape when the parent is there. -/
theorem Puts.keeps {kind : Kind} {x : Sql K Unit} (hx : Puts p kind x) (h : d.TreeShaped)
    (hup : p ≠ root → d.HoldsEntries (parentOf p)) (hbare : kind = .file → d.NothingBelow p) :
    (endState x d).TreeShaped := by
  rcases hx d with hsame | ⟨mode, size, link, hput⟩
  · rw [hsame]
    exact h
  · exact h.of_put hup hbare hput

omit [DecidableEq K] in
/-- A writer behind `ensure_parent_dirs` keeps the tree shaped when the row fits. -/
theorem Puts.with_parents {kind : Kind} {x : Sql K Unit} {v : Str} (hx : Puts p kind x)
    (hp : normalizeVmPath v = p) (h : d.TreeShaped) (hfits : d.Fits p kind) (now : ℤ) :
    (endState (ensureParentDirs p now >>= fun _ => x) d).TreeShaped := by
  refine endState_bind ?_ ?_
  · intro e d' he
    have hend := hfits.1.toParentsFit.endState h now
    unfold endState at hend
    rw [he] at hend
    exact hend
  · intro _ d' hok
    have hgrown : d.Grown (parentDirs p) now d' := ensureParentDirs_rows hok
    refine hx.keeps (hfits.1.ensured h hok) (hfits.1.stands hok) fun hk => ?_
    refine hgrown.nothingBelow (hfits.2 hk) fun a ha hne => ?_
    by_cases hroot : p = root
    · rw [hroot, parentDirs_root] at ha
      cases ha
    · refine parentOf_ne_of_mem ha hne hroot ?_
      rw [← hp]
      exact length_normalize_twice v

omit [DecidableEq K] in
/-- So it does when more follows that keeps the tree shaped. -/
theorem Puts.with_parents_then {kind : Kind} {x rest : Sql K Unit} {v : Str} (hx : Puts p kind x)
    (hp : normalizeVmPath v = p) (h : d.TreeShaped) (hfits : d.Fits p kind) {now : ℤ}
    (hrest : ∀ d', (ensureParentDirs p now >>= fun _ => x) d = .ok () d' → d'.TreeShaped →
      (endState rest d').TreeShaped) :
    (endState (ensureParentDirs p now >>= fun _ => x >>= fun _ => rest) d).TreeShaped := by
  have hput := hx.with_parents hp h hfits now
  unfold endState at hput
  refine endState_bind ?_ ?_
  · intro e d' he
    rw [bind_of_error he] at hput
    exact hput
  · intro _ d₁ hok
    rw [bind_of_ok hok] at hput
    refine endState_bind ?_ ?_
    · intro e d' he
      rw [he] at hput
      exact hput
    · intro v d' hrow
      rw [hrow] at hput
      exact hrest d' (by rw [bind_of_ok hok, hrow]) hput

/-! ## The operations that add one path -/

/-- `vm_add_bytes` keeps the tree shaped when a file fits at its path. -/
theorem treeShaped_vmAddBytes {vmPath : Str} (h : d.TreeShaped)
    (hfits : d.Fits (normalizeVmPath vmPath) .file) (data : Bytes) (mode mtime now : ℤ) :
    (endState (vmAddBytes E vmPath data mode mtime now) d).TreeShaped :=
  (puts_fsPutFile mode mtime data).with_parents rfl h hfits now

/-- `vm_add_dir` keeps the tree shaped when a directory fits at its path. -/
theorem treeShaped_vmAddDir {vmPath : Str} (h : d.TreeShaped)
    (hfits : d.Fits (normalizeVmPath vmPath) .dir) (mode mtime now : ℤ) :
    (endState (vmAddDir vmPath mode mtime now) d).TreeShaped :=
  (puts_fsPutNode .dir mode mtime none).with_parents rfl h hfits now

/-- `vm_add_symlink` keeps the tree shaped when a link fits at its path. -/
theorem treeShaped_vmAddSymlink {vmPath target : Str} (h : d.TreeShaped)
    (hfits : d.Fits (normalizeVmPath vmPath) .symlink) (now : ℤ) :
    (endState (vmAddSymlink vmPath target now) d).TreeShaped :=
  (puts_fsPutNode .symlink 0o777 now (some target)).with_parents rfl h hfits now

end Dbvm
