import Dbvm.Lib.FileOps
import Dbvm.Host.Copy
import Dbvm.Read

/-!
# The materialize

`vm_materialize_tree` (`src/vm/tree.rs`) writes the rows of a database to a directory of the host:
what has no row is removed, then come the directories, the links, each below the directory that its
parent leads to inside the VM, and the files, which several workers take in any order. A file whose
size and time are those of its row is left as it is, with whatever permission bits it has.

The directory may be new or one that was used before. What the writes come to is said for rows whose
places do not get in each other's way (`Db.Placeable`) and for a directory that has nothing in their
way (`Db.Reusable`): then every entry has the kind and the permission bits of its row
(`modesShown_materializeTree`).
-/

namespace Dbvm

open Lib Lib.Prog Lib.Posix

variable {K : Type} [DecidableEq K]

/-! ## The function -/

/-- Why a materialize fails. -/
inductive MaterializeErr where
  /-- The row of a link has no target. -/
  | noTarget
  /-- A call of the host has failed. -/
  | host (e : Errno)
  deriving DecidableEq

/-- The components of a path below the directory. -/
def comps (p : Str) : List Name := (p.splitOn '/').filter fun c => c ≠ [] ∧ c ≠ ['.']

/-- `let _ = …`: a call that fails leaves the tree as it is. -/
def attempted (fs : Fs) : Except Errno Fs → Fs
  | .ok fs' => fs'
  | .error _ => fs

/-- `?`. -/
def onHost {α : Type} (x : Except Errno α) : Except MaterializeErr α := x.mapError .host

/-- The permission bits of a new entry. -/
def masked (umask bits : ℕ) : ℕ := bits ^^^ (bits &&& umask)

/-- The permission bits that an entry has after `set_permissions` of a stored mode. -/
def chmodBits (mode : ℤ) : ℕ := (mode % 2 ^ 32).toNat % 4096

/-- A mode that a row of a kind may have: permission bits, and all of them for a link, which has no
others on the host. -/
def ModeFits (kind : Kind) (mode : ℤ) : Prop :=
  0 ≤ mode ∧ mode ≤ 0o7777 ∧ (kind = .symlink → mode = 0o777)

/-- Every stored mode is one that its row may have. -/
def Db.ModesHold (db : Db K) : Prop := ∀ p row, db.fs.get? p = some row → ModeFits row.kind row.mode

/-- `prune_scratch`: what has no row is removed, a directory with all that is in it. Reserved paths
are kept. -/
def Db.pruneScratch (db : Db K) (fs : Fs) (dest : Loc) : Fs :=
  let victims := (walk fs dest).filterMap fun e => e.bind fun r =>
    if isReservedVmPath (vmPathOf dest r.1) || db.fs.has (vmPathOf dest r.1) then none else some r.1
  fs.deleteWhere fun loc _ => victims.any fun v => v = loc || Loc.below v loc

/-- The directory before anything is written: it is made if it is not there, and what has no row is
removed. -/
def Db.cleared (db : Db K) (umask : ℕ) (fs : Fs) (dest : Loc) : Fs :=
  db.pruneScratch (if Fs.node fs dest = none then fs.insertIgnore dest
    (.dir (masked umask 0o777) true) else fs) dest

section Steps

variable (E : Ext K) (db : Db K) (umask : ℕ) (dest : Loc)

/-- A directory. -/
def materializeDir (fs : Fs) (r : Str × FsRow K) : Except MaterializeErr Fs := do
  let fs ← onHost (createDirAll fs dest (comps r.1) (masked umask 0o777))
  return attempted fs (chmod fs dest (comps r.1) (chmodBits r.2.mode))

/-- Whether there is a row at the path that is no link. -/
def Db.real (db : Db K) (p : Str) : Bool := (db.fs.get? p).any fun row => row.kind ≠ .symlink

/-- What is at a path is removed, unless it is a directory with entries. -/
def removeEntry (fs : Fs) (path : List Name) : Fs :=
  match look fs false dest path with
  | .ok _ =>
    let fs := attempted fs (removeFile fs dest path)
    attempted fs (removeDir fs dest path)
  | .error _ => fs

/-- A link. One whose place is taken by a real entry is an alias of that and is not written. -/
def Db.materializeLink (fs : Fs) (l : Str × Str) : Except MaterializeErr Fs :=
  let place := translatedLink l.1 db.links
  if place ≠ l.1 ∧ db.real (normalizeVmPath place) = true then .ok fs
  else do
    let fs := removeEntry dest fs (comps place)
    let fs ← onHost (createDirAll fs dest (comps place).dropLast (masked umask 0o777))
    return attempted fs (symlink fs dest (comps place) l.2)

/-- Whether a file is taken for current: its size is that of the row and its time differs by a
second at most. What is not a regular file is not. -/
def FsRow.keepsFile (row : FsRow K) : Node → Bool
  | .file data _ ns _ => data.length = row.size && 0 ≤ ns && |ns / 1000000000 - row.mtime| ≤ 1
  | _ => false

/-- A file. One that cannot be read is reported and left out. -/
def Db.materializeFile (fs : Fs) (r : Str × FsRow K) : Fs :=
  let path := comps r.1
  let current := match look fs true dest path with
    | .ok (_, node) => r.2.keepsFile node
    | .error _ => false
  if current then fs
  else
    match fileBytes E db r.1 with
    | .error _ => fs
    | .ok data =>
      let fs := attempted fs (createDirAll fs dest path.dropLast (masked umask 0o777))
      let fs := attempted fs (writeFile fs dest path data (masked umask 0o666) 0)
      let fs := attempted fs (chmod fs dest path (chmodBits r.2.mode))
      attempted fs (utimens fs dest path (r.2.mtime * 1000000000))

/-- The directories that are there at the end in any case. -/
def mountPoints : List Name := ["dev".toList, "proc".toList, "sys".toList, "tmp".toList]

/-- One of these. -/
def makeMountPoint (fs : Fs) (c : Name) : Fs :=
  attempted fs (createDirAll fs dest [c] (masked umask 0o777))

/-- The rows of a kind, shorter paths first. -/
def Db.rowsOf (kind : Kind) : List (Str × FsRow K) :=
  (db.fs.select fun _ row => row.kind = kind).insertionSort fun a b => pathBefore a.1 b.1

/-- The writes of `vm_materialize_tree`; `workers` is the order in which the files are taken. -/
def Db.materializeTree (workers : List (Str × FsRow K) → List (Str × FsRow K)) (fs : Fs) :
    Except MaterializeErr Fs := do
  let fs ← (db.rowsOf .dir).foldlM (materializeDir umask dest) (db.cleared umask fs dest)
  let links ← (db.rowsOf .symlink).mapM fun r =>
    match r.2.linkTarget with
    | some t => .ok (r.1, t)
    | none => .error MaterializeErr.noTarget
  let fs ← links.foldlM (db.materializeLink umask dest) fs
  let fs :=
    (workers (db.fs.select fun _ row => row.kind = .file)).foldl (db.materializeFile E umask dest)
    fs
  return mountPoints.foldl (makeMountPoint umask dest) fs

end Steps

/-- `vm_materialize_tree`: the hashes that are pending, then the writes. -/
def vmMaterializeTree (E : Ext K) (umask : ℕ)
    (workers : List (Str × FsRow K) → List (Str × FsRow K)) (fs : Fs)
    (dest : Loc) : Sql K (Except MaterializeErr Fs) := do
  let _ ← finalizeDirty E
  Prog.reads fun db => db.materializeTree E umask dest workers fs

/-- The writes see the database with its hashes computed, and change nothing in it. -/
theorem vmMaterializeTree_of_finalized {E : Ext K} {db db' : Db K} {n : ℕ}
    (hfin : finalizeDirty E db = .ok n db') (umask : ℕ)
    (workers : List (Str × FsRow K) → List (Str × FsRow K)) (fs : Fs) (dest : Loc) :
    vmMaterializeTree E umask workers fs dest db = .ok (db'.materializeTree E umask dest workers fs)
    db' := by
  unfold vmMaterializeTree
  rw [bind_of_ok hfin]
  rfl

/-! ## Places -/

/-- What a materialize puts at a path. -/
inductive Db.Puts (db : Db K) : Str → Kind → Prop where
  /-- A directory or a file. -/
  | row {p : Str} {row : FsRow K} (h : db.fs.get? p = some row) (hk : row.kind ≠ .symlink) :
      Puts db p row.kind
  /-- A link whose place is not taken. -/
  | link {q : Str} {row : FsRow K} (h : db.fs.get? q = some row) (hk : row.kind = .symlink)
      (hfree : translatedLink q db.links = q ∨
        db.real (normalizeVmPath (translatedLink q db.links)) = false) :
      Puts db (translatedLink q db.links) .symlink

/-- The places of the rows do not get in each other's way. -/
structure Db.Placeable (db : Db K) : Prop where
  /-- Links have targets. -/
  targets : ∀ p row, db.fs.get? p = some row → row.kind = .symlink → row.linkTarget.isSome
  /-- The root is a directory. -/
  top : ∀ kind, db.Puts root kind → kind = .dir
  /-- Every place is spelt by names, and no path on the way to it is another text for a row. -/
  named : ∀ p kind, db.Puts p kind → p ≠ root → ∃ cs, (∀ c ∈ cs, IsName c) ∧ cs ≠ [] ∧
    p = ofNames cs ∧
    ∀ ds, ds <+: cs → ds ≠ [] → Normal (ofNames ds)
  /-- What is above a place is a directory. -/
  nested : ∀ p kind q, db.Puts p kind → Below q p → q ≠ [] →
    (∀ kind', db.Puts q kind' → kind' = .dir) ∧ ∀ row, db.fs.get? q = some row → row.kind = .dir

/-- A file that a materialize leaves as it is: it is taken for current, or its row cannot be read.
-/
def Db.Leaves (E : Ext K) (db : Db K) (p : Str) (row : FsRow K) (node : Node) : Prop :=
  row.kind = .file ∧ (row.keepsFile node = true ∨ ∃ e, fileBytes E db p = .error e)

/-- What is below a directory goes with the rows, and the rows of `done` show their modes there. -/
structure Db.Laid (E : Ext K) (db : Db K) (dest : Loc) (done : Str → Prop) (fs : Fs) : Prop where
  /-- The tree. -/
  host : HostTree fs
  /-- The directory. -/
  top : ∃ mode listable, fs.get? dest = some (.dir mode listable)
  /-- What is at a place has the kind that is put there. -/
  kinds : ∀ cs kind node, (∀ c ∈ cs, IsName c) → cs ≠ [] → db.Puts (ofNames cs) kind →
    fs.get? (dest ++ cs) = some node → nodeKind node = some kind
  /-- What is above a place is a directory. -/
  above : ∀ cs es kind node, (∀ c ∈ cs ++ es, IsName c) → cs ≠ [] → es ≠ [] →
    db.Puts (ofNames (cs ++ es)) kind →
    fs.get? (dest ++ cs) = some node → ∃ mode listable, node = .dir mode listable
  /-- An entry that a sync compares with a row is at the place of the row. -/
  own : ∀ loc node row, Shown fs dest loc node → db.aliasOf dest loc node = none →
    db.fs.get? (vmPathOf dest loc) = some row →
    hostPath dest loc = vmPathOf dest loc ∧ db.Puts (vmPathOf dest loc) row.kind
  /-- Modes that are those of the rows. -/
  modes : ∀ cs row node, (∀ c ∈ cs, IsName c) → cs ≠ [] → db.fs.get? (ofNames cs) = some row →
    row.kind ≠ .symlink → fs.get? (dest ++ cs) = some node →
    done (ofNames cs) ∨ db.Leaves E (ofNames cs) row node → hostMode node = row.mode
  /-- Directories that have been made. -/
  made : ∀ cs row, (∀ c ∈ cs, IsName c) → cs ≠ [] → db.fs.get? (ofNames cs) = some row →
    row.kind = .dir →
    done (ofNames cs) → ∃ node, fs.get? (dest ++ cs) = some node

/-- The directory, once what has no row has been removed from it, has nothing in the way of the
rows, and a file that will be left as it is has the mode of its row. -/
def Db.Reusable (E : Ext K) (db : Db K) (umask : ℕ) (fs : Fs) (dest : Loc) : Prop :=
  db.Laid E dest (fun _ => False) (db.cleared umask fs dest)

/-- A sync of the directory compares no entry with a row of another kind or mode. -/
def Db.ModesShown (db : Db K) (fs : Fs) (dest : Loc) : Prop :=
  ∀ loc node row, Shown fs dest loc node → db.aliasOf dest loc node = none →
    db.fs.get? (vmPathOf dest loc) = some row → nodeKind node = some row.kind ∧
    hostMode node = row.mode

/-! ## Paths and locations -/

/-- A name is looked up by the kernel. -/
theorem IsName.real {c : Str} (h : IsName c) : Name.Real c := ⟨h.ne_nil, h.ne_dot, h.ne_dotdot⟩

/-- The components of a path of names are the names. -/
theorem comps_ofNames {cs : List Str} (h : ∀ c ∈ cs, IsName c) : comps (ofNames cs) = cs := by
  have hnames := filter_splitOn_ofNames h
  unfold comps
  have hboth : ((ofNames cs).splitOn '/').filter (fun c => decide (c ≠ [] ∧ c ≠ ['.'])) =
      (((ofNames cs).splitOn '/').filter fun c => decide (c ≠ [])).filter fun c =>
      decide (c ≠ ['.']) := by
    rw [List.filter_filter]
    refine List.filter_congr fun c _ => ?_
    rw [Bool.decide_and, Bool.and_comm]
  rw [hboth, hnames, List.filter_eq_self]
  exact fun c hc => by simpa using (h c hc).ne_dot

/-- The root has no components. -/
theorem comps_root : comps root = [] := by decide

/-! ## Places that are put -/

section Places

variable {E : Ext K} {db : Db K} {fs fs' : Fs} {dest loc : Loc} {cs : List Str} {kind : Kind}
  {done : Str → Prop}

/-- The path of an entry at the place that names spell, when the path is normal. -/
theorem vmPathOf_append (hfs : HostTree fs) {node : Node} (hne : cs ≠ [])
    (hnormal : Normal (ofNames cs)) (hnode : fs.get? (dest ++ cs) = some node) :
    vmPathOf dest (dest ++ cs) = ofNames cs ∧ hostPath dest (dest ++ cs) = ofNames cs := by
  have hpath : hostPath dest (dest ++ cs) = ofNames cs := by
    unfold hostPath
    rw [List.drop_left]
  refine ⟨?_, hpath⟩
  rw [vmPathOf_eq hfs hnode (Loc.below_iff.2 ⟨cs, hne, rfl⟩), hpath]
  exact hnormal

omit [DecidableEq K] in
/-- The path of a place consists of names. -/
theorem Db.Placeable.names (h : db.Placeable) (hputs : db.Puts (ofNames cs) kind)
    (hcs : ∀ c ∈ cs, IsName c) :
    ∀ ds, ds <+: cs → ds ≠ [] → Normal (ofNames ds) := by
  obtain ⟨cs', hcs', -, heq, hnormal⟩ := h.named _ _ hputs (ofNames_ne_root hcs)
  rwa [ofNames_inj hcs hcs' heq]

omit [DecidableEq K] in
/-- What is above a place is a directory. -/
theorem Db.Placeable.up (h : db.Placeable) {ds : List Str} (hputs : db.Puts (ofNames cs) kind)
    (hds : ds <+: cs) (hne : ds ≠ []) (hproper : ds ≠ cs) :
    (∀ kind', db.Puts (ofNames ds) kind' → kind' = .dir) ∧
      ∀ row, db.fs.get? (ofNames ds) = some row → row.kind = .dir := by
  obtain ⟨es, rfl⟩ := hds
  obtain ⟨c, es, rfl⟩ := List.exists_cons_of_ne_nil (l := es) (by rintro rfl; simp at hproper)
  exact h.nested _ _ _ hputs (below_of_names (c := c) ⟨es, by simp⟩) fun hnil =>
    hne (ofNames_eq_nil.1 hnil)

/-- Names at which directories may be made: no row and no place among them is of another kind. -/
structure Db.Dirs (db : Db K) (cs : List Str) : Prop where
  /-- Names. -/
  names : ∀ c ∈ cs, IsName c
  /-- Normal paths. -/
  normal : ∀ ds, ds <+: cs → ds ≠ [] → Normal (ofNames ds)
  /-- Places. -/
  puts : ∀ ds kind, ds <+: cs → ds ≠ [] → db.Puts (ofNames ds) kind → kind = .dir
  /-- Rows. -/
  rows : ∀ ds row, ds <+: cs → ds ≠ [] → db.fs.get? (ofNames ds) = some row → row.kind = .dir
  /-- Something is put at the last name or below it. -/
  used : cs ≠ [] → ∃ es kind, (∀ c ∈ cs ++ es, IsName c) ∧ db.Puts (ofNames (cs ++ es)) kind

omit [DecidableEq K] in
/-- All that leads to a place is a directory. -/
theorem Db.Placeable.dirs_up (h : db.Placeable) (hputs : db.Puts (ofNames cs) kind)
    (hcs : ∀ c ∈ cs, IsName c) (hne : cs ≠ []) : db.Dirs cs.dropLast := by
  have hproper : ∀ ds, ds <+: cs.dropLast → ds <+: cs ∧ ds ≠ cs := by
    refine fun ds hds => ⟨hds.trans (List.dropLast_prefix cs), ?_⟩
    rintro rfl
    have := hds.length_le
    rw [List.length_dropLast] at this
    have := List.length_pos_iff.2 hne
    omega
  refine ⟨fun c hc => hcs c (List.mem_of_mem_dropLast hc),
    fun ds hds => h.names hputs hcs ds (hproper ds hds).1,
    fun ds kind' hds hds0 => (h.up hputs (hproper ds hds).1 hds0 (hproper ds hds).2).1 kind',
    fun ds row hds hds0 => (h.up hputs (hproper ds hds).1 hds0 (hproper ds hds).2).2 row,
    fun _ => ?_⟩
  refine ⟨[cs.getLast hne], kind, ?_⟩
  rw [List.dropLast_concat_getLast]
  exact ⟨hcs, hputs⟩

omit [DecidableEq K] in
/-- The place of a directory that nothing else takes is a directory. -/
theorem Db.Placeable.dirs_self (h : db.Placeable) {row : FsRow K}
    (hrow : db.fs.get? (ofNames cs) = some row) (hkind : row.kind = .dir)
    (hputs : ∀ kind, db.Puts (ofNames cs) kind → kind = .dir) (hcs : ∀ c ∈ cs, IsName c)
    (hne : cs ≠ []) : db.Dirs cs := by
  have hput : db.Puts (ofNames cs) row.kind := .row hrow (by rw [hkind]; decide)
  refine ⟨hcs, h.names hput hcs, fun ds kind hds hds0 hk => ?_, fun ds row' hds hds0 hrow' => ?_,
    fun _ => ⟨[], row.kind, by simpa using hcs, by simpa using hput⟩⟩
  · rcases eq_or_ne ds cs with rfl | hproper
    · exact hputs kind hk
    · exact (h.up hput hds hds0 hproper).1 kind hk
  · rcases eq_or_ne ds cs with rfl | hproper
    · rw [hrow] at hrow'
      cases hrow'
      exact hkind
    · exact (h.up hput hds hds0 hproper).2 row' hrow'

omit [DecidableEq K] in
/-- One kind is put at a place: a link gives way to a real entry. -/
theorem Db.Placeable.kind_unique (h : db.Placeable) {row : FsRow K}
    (hrow : db.fs.get? (ofNames cs) = some row) (hkind : row.kind ≠ .symlink)
    (hcs : ∀ c ∈ cs, IsName c) (hne : cs ≠ []) (hputs : db.Puts (ofNames cs) kind) :
    kind = row.kind := by
  have hnormal : Normal (ofNames cs) := h.names (.row hrow hkind) hcs cs List.prefix_rfl hne
  generalize hp : ofNames cs = p at hrow hputs hnormal
  cases hputs with
  | row hrow' hk' =>
    rw [hrow] at hrow'
    cases hrow'
    rfl
  | link hrow' hk' hfree =>
    rename_i q row'
    rcases hfree with heq | hreal
    · rw [heq, hrow'] at hrow
      cases hrow
      exact absurd hk' hkind
    · unfold Db.real at hreal
      rw [show normalizeVmPath (translatedLink q db.links) = translatedLink q db.links from hnormal,
        hrow] at hreal
      simp [hkind] at hreal

/-! ## Steps -/

/-- An entry that is as it was is compared as it was. -/
theorem Shown.congr {node : Node} (h : Shown fs' dest loc node)
    (hsame : fs'.get? loc = fs.get? loc) :
    Shown fs dest loc node := ⟨hsame ▸ h.there, h.below, h.kind, h.free⟩

/-- The names of an entry that is made below the directory. -/
theorem Db.Laid.host_of (h : db.Laid E dest done fs)
    (hnew : ∀ loc node, fs'.get? loc = some node → (∃ old, fs.get? loc = some old) ∨
      ∃ cs, cs ≠ [] ∧ (∀ c ∈ cs, IsName c) ∧ loc = dest ++ cs) : HostTree fs' := by
  obtain ⟨mode, listable, htop⟩ := h.top
  constructor
  · intro loc node hnode
    rcases hnew loc node hnode with ⟨old, hold⟩ | ⟨cs, -, hcs, rfl⟩
    · exact h.host.names loc old hold
    · intro c hc
      rcases List.mem_append.1 hc with hc | hc
      · exact h.host.names dest _ htop c hc
      · exact hcs c hc
  · rcases hnode : fs'.get? [] with _ | node
    · rfl
    · rcases hnew [] node hnode with ⟨old, hold⟩ | ⟨cs, hne, -, hnil⟩
      · rw [h.host.root] at hold
        cases hold
      · exact absurd (List.append_eq_nil_iff.1 hnil.symm).2 hne

/-- The directory itself is not at a place below it. -/
theorem dest_ne_append (hne : cs ≠ []) : dest ≠ dest ++ cs := fun heq =>
  hne (List.self_eq_append_right.1 heq)

/-- Directories that are made where rows have directories, or nothing. -/
theorem Db.Laid.paved {umask : ℕ} (h : db.Laid E dest done fs) (hplace : db.Dirs cs)
    (hpaved : fs.Paved dest cs umask fs') : db.Laid E dest done fs' := by
  obtain ⟨mode, listable, htop⟩ := h.top
  have hhost : HostTree fs' := h.host_of fun loc node hnode => by
    rcases hpaved loc with hsame | ⟨-, -, ds, hds, hne, rfl⟩
    · exact Or.inl ⟨node, hsame ▸ hnode⟩
    · exact Or.inr ⟨ds, hne, fun c hc => hplace.names c (hds.subset hc), rfl⟩
  have hinj : ∀ {cs' ds : List Str}, dest ++ cs' = dest ++ ds → cs' = ds :=
    fun heq => List.append_cancel_left heq
  -- Directories that were missing are made on the way; what stood there stays.
  refine ⟨hhost, ?_, ?_, ?_, ?_, ?_, ?_⟩
  · rcases hpaved dest with hsame | ⟨hnone, -⟩
    · exact ⟨mode, listable, hsame.trans htop⟩
    · rw [htop] at hnone
      cases hnone
  · intro cs' kind node hcs' hne hputs hnode
    rcases hpaved (dest ++ cs') with hsame | ⟨-, hdir, ds, hds, hds0, hloc⟩
    · exact h.kinds cs' kind node hcs' hne hputs (hsame ▸ hnode)
    · rw [hdir] at hnode
      cases hnode
      rw [hinj hloc] at hputs
      rw [hplace.puts ds kind hds hds0 hputs]
      rfl
  · intro cs' es kind node hnames hne hes hputs hnode
    rcases hpaved (dest ++ cs') with hsame | ⟨-, hdir, -⟩
    · exact h.above cs' es kind node hnames hne hes hputs (hsame ▸ hnode)
    · rw [hdir] at hnode
      exact ⟨_, _, (Option.some.inj hnode).symm⟩
  · intro loc node row hshown halias hrow
    rcases hpaved loc with hsame | ⟨-, hdir, ds, hds, hds0, rfl⟩
    · exact h.own loc node row (hshown.congr hsame) halias hrow
    · obtain ⟨hvm, hhp⟩ := vmPathOf_append hhost hds0 (hplace.normal ds hds hds0) hdir
      rw [hvm] at hrow ⊢
      refine ⟨hhp, .row hrow ?_⟩
      rw [hplace.rows ds row hds hds0 hrow]
      decide
  · intro cs' row node hcs' hne hrow hkind hnode hdone
    rcases hpaved (dest ++ cs') with hsame | ⟨hnone, hdir, ds, hds, hds0, hloc⟩
    · exact h.modes cs' row node hcs' hne hrow hkind (hsame ▸ hnode) hdone
    · -- A directory that is done is there already, and a file is not where a directory is made.
      rw [hinj hloc] at hrow hdone hnone
      have hrowdir := hplace.rows ds row hds hds0 hrow
      rcases hdone with hdone | ⟨hfile, -⟩
      · obtain ⟨old, hold⟩ :=
          h.made ds row (fun c hc => hplace.names c (hds.subset hc)) hds0 hrow hrowdir hdone
        rw [hnone] at hold
        cases hold
      · rw [hrowdir] at hfile
        cases hfile
  · intro cs' row hcs' hne hrow hkind hdone
    obtain ⟨old, hold⟩ := h.made cs' row hcs' hne hrow hkind hdone
    rcases hpaved (dest ++ cs') with hsame | ⟨hnone, -⟩
    · exact ⟨old, hsame.trans hold⟩
    · rw [hnone] at hold
      cases hold

/-- An entry of the right kind, and for a file or a directory with the mode of its row, is written
at a place. -/
theorem Db.Laid.put (h : db.Laid E dest done fs) (hdb : db.Placeable) {node : Node}
    (hcs : ∀ c ∈ cs, IsName c) (hne : cs ≠ []) (hputs : db.Puts (ofNames cs) kind)
    (hkind : nodeKind node = some kind)
    (hunique : ∀ kind', db.Puts (ofNames cs) kind' → kind' = kind)
    (hown : db.aliasOf dest (dest ++ cs) node = none → ∀ row, db.fs.get? (ofNames cs) = some row →
      row.kind = kind)
    (hmode : ∀ row, db.fs.get? (ofNames cs) = some row → row.kind ≠ .symlink →
      hostMode node = row.mode)
    (hget : ∀ loc, fs'.get? loc = if loc = dest ++ cs then some node else fs.get? loc) :
    db.Laid E dest (fun p => done p ∨ p = ofNames cs) fs' := by
  obtain ⟨mode, listable, htop⟩ := h.top
  have hthere : fs'.get? (dest ++ cs) = some node := (hget _).trans (if_pos rfl)
  have hother : ∀ {loc : Loc}, loc ≠ dest ++ cs → fs'.get? loc = fs.get? loc := fun hloc =>
    (hget _).trans (if_neg hloc)
  have hhost : HostTree fs' := h.host_of fun loc node' hnode => by
    rcases eq_or_ne loc (dest ++ cs) with rfl | hloc
    · exact Or.inr ⟨cs, hne, hcs, rfl⟩
    · exact Or.inl ⟨node', hother hloc ▸ hnode⟩
  have hinj : ∀ {cs' : List Str}, cs' ≠ cs → dest ++ cs' ≠ dest ++ cs := fun hcs' heq =>
    hcs' (List.append_cancel_left heq)
  -- The new node is at its own place; whatever was laid elsewhere is untouched.
  refine ⟨hhost, ⟨mode, listable, (hother (dest_ne_append hne)).trans htop⟩, ?_, ?_, ?_, ?_, ?_⟩
  · intro cs' kind' node' hcs' hne' hputs' hnode
    rcases eq_or_ne cs' cs with rfl | hcs''
    · rw [hthere] at hnode
      cases hnode
      rw [hunique kind' hputs', hkind]
    · exact h.kinds cs' kind' node' hcs' hne' hputs' (hother (hinj hcs'') ▸ hnode)
  · intro cs' es kind' node' hnames hne' hes hputs' hnode
    rcases eq_or_ne cs' cs with rfl | hcs''
    · rw [hthere] at hnode
      cases hnode
      have hdir := (hdb.up hputs' (List.prefix_append cs' es) hne (by simpa using hes)).1 kind hputs
      rw [hdir] at hkind
      cases node with
      | dir m l => exact ⟨m, l, rfl⟩
      | _ => cases hkind
    · exact h.above cs' es kind' node' hnames hne' hes hputs' (hother (hinj hcs'') ▸ hnode)
  · intro loc node' row hshown halias hrow
    rcases eq_or_ne loc (dest ++ cs) with rfl | hloc
    · have hsame := hshown.there
      rw [hthere] at hsame
      cases hsame
      obtain ⟨hvm, hhp⟩ :=
        vmPathOf_append hhost hne (hdb.names hputs hcs cs List.prefix_rfl hne) hthere
      rw [hvm] at hrow ⊢
      rw [hown halias row hrow]
      exact ⟨hhp, hputs⟩
    · exact h.own loc node' row (hshown.congr (hother hloc)) halias hrow
  · intro cs' row node' hcs' hne' hrow hkind' hnode hdone
    rcases eq_or_ne cs' cs with rfl | hcs''
    · rw [hthere] at hnode
      cases hnode
      exact hmode row hrow hkind'
    · refine h.modes cs' row node' hcs' hne' hrow hkind' (hother (hinj hcs'') ▸ hnode)
        (hdone.imp_left ?_)
      exact fun hor => hor.resolve_right fun heq => hcs'' (ofNames_inj hcs' hcs heq)
  · intro cs' row hcs' hne' hrow hkind' hdone
    rcases eq_or_ne cs' cs with rfl | hcs''
    · exact ⟨node, hthere⟩
    · rw [hother (hinj hcs'')]
      exact h.made cs' row hcs' hne' hrow hkind' (hdone.resolve_right fun heq =>
        hcs'' (ofNames_inj hcs' hcs heq))

/-- The link at a place is removed. -/
theorem Db.Laid.unlink (h : db.Laid E dest done fs) (hne : cs ≠ [])
    (hdir : ∀ row, db.fs.get? (ofNames cs) = some row → row.kind ≠ .dir)
    (hget : ∀ loc, fs'.get? loc = if loc = dest ++ cs then none else fs.get? loc) :
    db.Laid E dest done fs' := by
  obtain ⟨mode, listable, htop⟩ := h.top
  have hsub : ∀ {loc : Loc} {node : Node}, fs'.get? loc = some node → fs.get? loc = some node := by
    intro loc node hnode
    rw [hget] at hnode
    split_ifs at hnode
    exact hnode
  refine ⟨h.host_of fun loc node hnode => Or.inl ⟨node, hsub hnode⟩,
    ⟨mode, listable, (hget _).trans ((if_neg (dest_ne_append hne)).trans htop)⟩,
    fun cs' kind node hcs' hne' hp hnode => h.kinds cs' kind node hcs' hne' hp (hsub hnode),
    fun cs' es kind node hnames hne' hes hp hnode => h.above cs' es kind node hnames hne' hes hp
    (hsub hnode),
    fun loc node row hshown => ?_,
    fun cs' row node hcs' hne' hrow hkind hnode => h.modes cs' row node hcs' hne' hrow hkind
    (hsub hnode),
    fun cs' row hcs' hne' hrow hkind hdone => ?_⟩
  · exact h.own loc node row ⟨hsub hshown.there, hshown.below, hshown.kind, hshown.free⟩
  · obtain ⟨node, hnode⟩ := h.made cs' row hcs' hne' hrow hkind hdone
    refine ⟨node, (hget _).trans ((if_neg fun heq => ?_).trans hnode)⟩
    rw [List.append_cancel_left heq] at hrow
    exact hdir row hrow hkind

/-- Permission bits are stored as they are. -/
theorem chmodBits_of_fits {mode : ℤ} (h : ModeFits kind mode) : (chmodBits mode : ℤ) = mode := by
  obtain ⟨hlow, hhigh, -⟩ := h
  unfold chmodBits
  omega

/-- An entry with the permission bits of a mode shows the mode. -/
theorem chmodBits_mod (mode : ℤ) : chmodBits mode % 4096 = chmodBits mode := by
  unfold chmodBits
  omega

/-- Nothing is in the way of a directory. -/
theorem Db.Laid.clear (h : db.Laid E dest done fs) (hplace : db.Dirs cs) : fs.Clear dest cs := by
  intro ds hds hne
  -- What stands on the way to a place was put there for the rows, so it is a directory.
  rcases hnode : fs.get? (dest ++ ds) with _ | node
  · exact Or.inl ((Fs.node_append hne).trans hnode)
  · refine Or.inr ?_
    have hcs : cs ≠ [] := by
      rintro rfl
      exact hne (List.prefix_nil.1 hds)
    obtain ⟨es, kind, hnames, hputs⟩ := hplace.used hcs
    obtain ⟨es', hes'⟩ := hds.trans (List.prefix_append cs es)
    have hdir : ∃ m l, node = .dir m l := by
      rcases eq_or_ne es' [] with rfl | hne'
      · -- The last directory is at a place itself.
        rw [List.append_nil] at hes'
        have hlen := hds.length_le
        rw [hes', List.length_append] at hlen
        have hes : es = [] := List.length_eq_zero_iff.1 (by omega)
        subst hes
        rw [List.append_nil] at hes' hnames hputs
        subst hes'
        have hkind := h.kinds _ kind node hnames hne hputs hnode
        rw [hplace.puts _ kind List.prefix_rfl hne hputs] at hkind
        cases node with
        | dir m l => exact ⟨m, l, rfl⟩
        | _ => cases hkind
      · exact h.above ds es' kind node (hes' ▸ hnames) hne hne' (hes' ▸ hputs) hnode
    obtain ⟨m, l, rfl⟩ := hdir
    exact ⟨m, l, (Fs.node_append hne).trans hnode⟩

/-- Making missing directories keeps what is laid. -/
theorem Db.Laid.createDirAll (h : db.Laid E dest done fs) (hplace : db.Dirs cs) (umask : ℕ) :
    ∃ fs', createDirAll fs dest cs umask = .ok fs' ∧ db.Laid E dest done fs' ∧
      ∀ ds, ds <+: cs → ds ≠ [] → fs'.DirAt (dest ++ ds) := by
  obtain ⟨fs', hrun, hpaved, hdirs⟩ :=
    createDirAll_clear umask (fun c hc => (hplace.names c hc).real)
    (h.clear hplace)
  exact ⟨fs', hrun, h.paved hplace hpaved, hdirs⟩

/-- Only what is done at places counts. -/
theorem Db.Laid.done_congr (h : db.Laid E dest done fs) {done' : Str → Prop}
    (hdone : ∀ cs, (∀ c ∈ cs, IsName c) → (done' (ofNames cs) → done (ofNames cs))) :
    db.Laid E dest done' fs :=
  ⟨h.host, h.top, h.kinds, h.above, h.own,
    fun cs row node hcs hne hrow hkind hnode hor => h.modes cs row node hcs hne hrow hkind hnode
      (hor.imp_left (hdone cs hcs)),
    fun cs row hcs hne hrow hkind hd => h.made cs row hcs hne hrow hkind (hdone cs hcs hd)⟩

/-- The permission bits of the top directory can be set and are no part of what is laid. -/
theorem Db.Laid.chmod_top (h : db.Laid E dest done fs) (mode : ℕ) :
    ∃ fs', chmod fs dest [] mode = .ok fs' ∧ db.Laid E dest done fs' := by
  obtain ⟨m, l, htop⟩ := h.top
  have hne : dest ≠ [] := by
    rintro rfl
    rw [h.host.root] at htop
    cases htop
  refine ⟨fs.update dest (Node.setMode mode), ?_, ?_⟩
  · have hlook : look fs true dest [] = .ok (dest, .dir m l) := by
      have hnode : Fs.node fs dest = some (.dir m l) := (Fs.node_of_ne hne).trans htop
      have hres : resolve fs true maxLinks dest [] = .ok dest := rfl
      unfold look
      rw [hres]
      dsimp only
      rw [hnode]
    unfold chmod change
    rw [hlook]
  -- Only the node of the directory itself changes, and the rows are all below it.
  · have hother : ∀ {cs : List Str}, cs ≠ [] →
        (fs.update dest (Node.setMode mode)).get? (dest ++ cs) = fs.get? (dest ++ cs) :=
        fun hcs => by
      rw [Table.get?_update, if_neg (dest_ne_append hcs).symm]
    refine ⟨h.host_of fun loc node hnode => Or.inl ?_, ⟨mode, l, ?_⟩,
      fun cs kind node hcs hne' hp hnode =>
      h.kinds cs kind node hcs hne' hp (hother hne' ▸ hnode),
      fun cs es kind node hnames hne' hes hp hnode =>
      h.above cs es kind node hnames hne' hes hp (hother hne' ▸ hnode),
      fun loc node row hshown => ?_,
      fun cs row node hcs hne' hrow hkind hnode => h.modes cs row node hcs hne' hrow hkind
      (hother hne' ▸ hnode),
      fun cs row hcs hne' hrow hkind hd => ?_⟩
    · rw [Table.get?_update] at hnode
      split_ifs at hnode with heq
      · exact ⟨_, heq ▸ htop⟩
      · exact ⟨node, hnode⟩
    · rw [Table.get?_update, if_pos rfl, htop]
      rfl
    · obtain ⟨ds, hds, rfl⟩ := Loc.below_iff.1 hshown.below
      exact h.own _ node row (hshown.congr (hother hds))
    · obtain ⟨node, hnode⟩ := h.made cs row hcs hne' hrow hkind hd
      exact ⟨node, (hother hne').trans hnode⟩

/-- Laying a directory adds it to what is laid. -/
theorem Db.Laid.materializeDir (h : db.Laid E dest done fs) (hdb : db.Placeable)
    (hmodes : db.ModesHold) (umask : ℕ) {p : Str} {row : FsRow K} (hrow : db.fs.get? p = some row)
    (hkind : row.kind = .dir) :
    ∃ fs', Dbvm.materializeDir umask dest fs (p, row) = .ok fs' ∧
    db.Laid E dest (fun q => done q ∨ q = p) fs' := by
  have hreal : row.kind ≠ .symlink := by rw [hkind]; decide
  -- The root is the destination itself, and only its permission bits are set.
  rcases eq_or_ne p root with rfl | hp
  · obtain ⟨fs', hrun, h'⟩ := h.chmod_top (chmodBits row.mode)
    refine ⟨fs', ?_, h'.done_congr fun cs hcs hor => hor.resolve_right (ofNames_ne_root hcs)⟩
    show Except.ok (attempted fs (chmod fs dest (comps root) (chmodBits row.mode))) = _
    rw [comps_root, hrun]
    rfl
  · obtain ⟨cs, hcs, hne, rfl, -⟩ := hdb.named p row.kind (.row hrow hreal) hp
    have hunique : ∀ kind, db.Puts (ofNames cs) kind → kind = .dir := fun kind hk =>
      (hdb.kind_unique hrow hreal hcs hne hk).trans hkind
    obtain ⟨fs₁, hrun, h₁, hdirs⟩ := h.createDirAll (hdb.dirs_self hrow hkind hunique hcs hne)
      (masked umask 0o777)
    obtain ⟨m, l, hdir⟩ := hdirs cs List.prefix_rfl hne
    rw [Fs.node_append hne] at hdir
    have hchmod : chmod fs₁ dest cs (chmodBits row.mode) =
        .ok (fs₁.update (dest ++ cs) (Node.setMode (chmodBits row.mode))) :=
      change_of_way _ hne (fun c hc => (hcs c hc).real)
      (fun ds hds hds0 _ => hdirs ds hds hds0) hdir
        fun t ht => by cases ht
    have hshow : hostMode (.dir (chmodBits row.mode) l) = row.mode := by
      rw [hostMode, chmodBits_mod, chmodBits_of_fits (hmodes _ _ hrow)]
    refine ⟨fs₁.update (dest ++ cs) (Node.setMode (chmodBits row.mode)), ?_, ?_⟩
    · unfold Dbvm.materializeDir
      rw [comps_ofNames hcs, hrun]
      show Except.ok (attempted fs₁ (chmod fs₁ dest cs (chmodBits row.mode))) = _
      rw [hchmod]
      rfl
    · have hnode : nodeKind (.dir (chmodBits row.mode) l) = some row.kind := by
        rw [hkind]
        rfl
      refine h₁.put hdb hcs hne (.row hrow hreal) hnode
        (fun kind hk => (hunique kind hk).trans hkind.symm)
        (fun _ row' hrow' => ?_) (fun row' hrow' _ => ?_) fun loc => ?_
      · rw [hrow] at hrow'
        cases hrow'
        rfl
      · rw [hrow] at hrow'
        cases hrow'
        exact hshow
      · rw [Table.get?_update]
        split_ifs with hloc
        · rw [hdir]
          rfl
        · rfl

/-- A proper initial segment does not reach the last element. -/
theorem prefix_dropLast {α : Type} {ds cs : List α} (hne : cs ≠ []) (hds : ds <+: cs)
    (hproper : ds ≠ cs) :
    ds <+: cs.dropLast := by
  rw [← List.dropLast_concat_getLast hne] at hds
  exact (List.prefix_concat_iff.1 hds).resolve_left fun heq =>
    hproper (heq.trans (List.dropLast_concat_getLast hne))

/-- A place above which a directory is missing is not found. -/
theorem Db.Laid.look_of_gap {follow : Bool} (h : db.Laid E dest done fs)
    (hup : db.Dirs cs.dropLast) (hne : cs ≠ []) (hcs : ∀ c ∈ cs, IsName c)
    (hgap : ¬ fs.Way dest cs) : look fs follow dest cs = .error .noent := by
  unfold look
  rw [resolve_of_gap (fun c hc => (hcs c hc).real) (fun ds hds hds0 hproper =>
    h.clear hup ds (prefix_dropLast hne hds hproper) hds0) hgap]

/-- What is at the place of a link is removed: it is a link. -/
theorem Db.Laid.removeEntry (h : db.Laid E dest done fs) (hne : cs ≠ []) (hcs : ∀ c ∈ cs, IsName c)
    (hputs : db.Puts (ofNames cs) .symlink) (hup : db.Dirs cs.dropLast)
    (hnotDir : ∀ row, db.fs.get? (ofNames cs) = some row → row.kind ≠ .dir) :
    ∃ fs₁, Dbvm.removeEntry dest fs cs = fs₁ ∧ db.Laid E dest done fs₁ := by
  have hreal : ∀ c ∈ cs, Name.Real c := fun c hc => (hcs c hc).real
  unfold Dbvm.removeEntry
  -- Where the way is there, nothing or a link is found at the end. Where it is not, the lookup
  -- fails and the removal is skipped.
  by_cases hway : fs.Way dest cs
  · rcases hnode : fs.get? (dest ++ cs) with _ | node
    · rw [look_of_free hne hreal hway hnode]
      exact ⟨fs, rfl, h⟩
    · have hlink := h.kinds cs _ node hcs hne hputs hnode
      cases node with
      | link t =>
        have hlook : look fs false dest cs = .ok (dest ++ cs, .link t) :=
          look_of_way hne hreal hway hnode fun hf => by cases hf
        have hremove : removeFile fs dest cs = .ok (fs.deleteWhere fun l _ => l = dest ++ cs) := by
          unfold removeFile
          rw [hlook]
        have hget : ∀ loc, (fs.deleteWhere fun l _ => decide (l = dest ++ cs)).get? loc =
            if loc = dest ++ cs then none else fs.get? loc := fun loc => by
          rw [Table.get?_deleteWhere_key fs fun l => decide (l = dest ++ cs)]
          simp only [decide_eq_true_eq]
        have hway' : Fs.Way (fs.deleteWhere fun l _ => decide (l = dest ++ cs)) dest cs := by
          intro ds hds hds0 hproper
          obtain ⟨m, l, hdir⟩ := hway ds hds hds0 hproper
          refine ⟨m, l, ?_⟩
          rw [Fs.node_append hds0] at hdir ⊢
          rw [hget, if_neg fun heq => hproper (List.append_cancel_left heq), hdir]
        have hgone : removeDir (fs.deleteWhere fun l _ => decide (l = dest ++ cs)) dest cs = .error
          .noent := by
          unfold removeDir
          rw [look_of_free hne hreal hway' ((hget _).trans (if_pos rfl))]
        refine ⟨fs.deleteWhere fun l _ => l = dest ++ cs, ?_, h.unlink hne hnotDir hget⟩
        rw [hlook, hremove]
        dsimp only [attempted]
        rw [hgone]
      | _ => cases hlink
  · rw [h.look_of_gap hup hne hcs hway]
    exact ⟨fs, rfl, h⟩

/-- Laying a link keeps the directories and files that are laid. -/
theorem Db.Laid.materializeLink (h : db.Laid E dest done fs) (hdb : db.Placeable) (umask : ℕ)
    {p : Str} {row : FsRow K} (hrow : db.fs.get? p = some row) (hkind : row.kind = .symlink)
    (t : Str) :
    ∃ fs', db.materializeLink umask dest fs (p, t) = .ok fs' ∧ db.Laid E dest done fs' := by
  unfold Db.materializeLink
  dsimp only
  split_ifs with htaken
  · exact ⟨fs, rfl, h⟩
  have hfree : translatedLink p db.links = p ∨
    db.real (normalizeVmPath (translatedLink p db.links)) = false := by
    rw [← Bool.not_eq_true]
    exact or_iff_not_imp_left.2 fun hne hreal => htaken ⟨hne, hreal⟩
  have hputs : db.Puts (translatedLink p db.links) .symlink := .link hrow hkind hfree
  have hplace : translatedLink p db.links ≠ root := fun heq => by
    have := hdb.top _ (heq ▸ hputs)
    cases this
  obtain ⟨cs, hcs, hne, hp, hnormal⟩ := hdb.named _ _ hputs hplace
  -- At the place is no file and no directory, neither in the table nor on the host.
  have hlinkRow : ∀ row', db.fs.get? (ofNames cs) = some row' → row'.kind = .symlink := by
    intro row' hrow'
    rcases hfree with heq | hreal
    · rw [← hp, heq, hrow] at hrow'
      cases hrow'
      exact hkind
    · rw [hp, show normalizeVmPath (ofNames cs) = ofNames cs from hnormal cs List.prefix_rfl
        hne] at hreal
      unfold Db.real at hreal
      rw [hrow'] at hreal
      simpa using hreal
  have hunique : ∀ kind, db.Puts (ofNames cs) kind → kind = .symlink := by
    intro kind hk
    generalize hq : ofNames cs = q at hk hlinkRow
    cases hk with
    | row hrow' hk' => exact hlinkRow _ hrow'
    | link => rfl
  rw [hp] at hputs ⊢
  rw [comps_ofNames hcs]
  have hreal : ∀ c ∈ cs, Name.Real c := fun c hc => (hcs c hc).real
  have hup : db.Dirs cs.dropLast := hdb.dirs_up hputs hcs hne
  have hnotDir : ∀ row', db.fs.get? (ofNames cs) = some row' → row'.kind ≠ .dir :=
    fun row' hrow' => by
    rw [hlinkRow row' hrow']
    decide
  obtain ⟨fs₁, hfs₁, h₁⟩ := h.removeEntry hne hcs hputs hup hnotDir
  rw [hfs₁]
  obtain ⟨fs₂, hrun, h₂, hdirs⟩ := h₁.createDirAll hup (masked umask 0o777)
  rw [hrun]
  have hway₂ : fs₂.Way dest cs :=
    fun ds hds hds0 hproper => hdirs ds (prefix_dropLast hne hds hproper) hds0
  rcases hnode : fs₂.get? (dest ++ cs) with _ | node
  · have hmake : symlink fs₂ dest cs t = .ok (fs₂.insertIgnore (dest ++ cs) (.link t)) :=
      make_of_way hne hreal hway₂ hnode
    refine ⟨fs₂.insertIgnore (dest ++ cs) (.link t), ?_, ?_⟩
    · show Except.ok (attempted fs₂ (symlink fs₂ dest cs t)) = _
      rw [hmake]
      rfl
    · have hput : db.Laid E dest _ (fs₂.insertIgnore (dest ++ cs) (.link t)) :=
        h₂.put hdb hcs hne hputs rfl hunique (fun _ => hlinkRow)
        (fun row' hrow' hk' => absurd (hlinkRow row' hrow') hk')
        fun loc => by rw [Table.get?_insertIgnore, hnode, Option.getD_none]
      exact hput.done_congr fun cs' _ => Or.inl
  · refine ⟨attempted fs₂ (symlink fs₂ dest cs t), rfl, ?_⟩
    have hthere : symlink fs₂ dest cs t = .error .exist := by
      unfold symlink make
      rw [resolve_of_way (fun hf => by cases hf) hreal hway₂]
      dsimp only
      rw [Fs.node_append hne, hnode]
    rw [hthere]
    exact h₂

/-- A file that is written has the bytes of its row, and its permission bits and time. -/
theorem writeFile_chmod_utimens (data : Bytes) (mode bits : ℕ) (ns : ℤ) (hne : cs ≠ [])
    (hreal : ∀ c ∈ cs, Name.Real c) (hway : fs.Way dest cs)
    (hfile : ∀ node, fs.get? (dest ++ cs) = some node → nodeKind node = some .file) :
    ∃ readable, let fs₁ := attempted fs (writeFile fs dest cs data mode 0)
      let fs₂ := attempted fs₁ (chmod fs₁ dest cs bits)
      ∀ loc, (attempted fs₂ (utimens fs₂ dest cs ns)).get? loc =
        if loc = dest ++ cs then some (.file data bits ns readable) else fs.get? loc := by
  -- The file is there after the write, whether it was before or not.
  obtain ⟨fs₁, mode', ns', readable, hwrite, hget₁⟩ : ∃ fs₁ mode' ns' readable,
      writeFile fs dest cs data mode 0 = .ok fs₁ ∧
        ∀ loc, fs₁.get? loc = if loc = dest ++ cs then some (.file data mode' ns' readable)
        else fs.get? loc := by
    have hres : (∀ t, fs.get? (dest ++ cs) ≠ some (.link t)) →
        resolve fs true maxLinks dest cs = .ok (dest ++ cs) := fun hlink =>
      resolve_of_way (fun _ t ht => hlink t ((Fs.node_append hne).symm.trans ht)) hreal hway
    rcases hnode : fs.get? (dest ++ cs) with _ | node
    · refine ⟨fs.insertIgnore (dest ++ cs) (.file data mode 0 true), mode, 0, true, ?_,
        fun loc => ?_⟩
      · unfold writeFile
        rw [hres fun t ht => by rw [hnode] at ht; cases ht]
        dsimp only
        rw [Fs.node_append hne, hnode]
      · rw [Table.get?_insertIgnore, hnode]
        rfl
    · have hkind := hfile node hnode
      cases node with
      | file data' mode' ns' readable =>
        refine ⟨fs.update (dest ++ cs) fun _ => .file data mode' 0 readable, mode', 0, readable, ?_,
          fun loc => ?_⟩
        · unfold writeFile
          rw [hres fun t ht => by rw [hnode] at ht; cases ht]
          dsimp only
          rw [Fs.node_append hne, hnode]
        · rw [Table.get?_update]
          split_ifs
          · rw [hnode]
            rfl
          · rfl
      | _ => cases hkind
  have hstay : ∀ {fs' : Fs} {node : Node},
      (∀ loc, fs'.get? loc = if loc = dest ++ cs then some node else fs.get? loc) →
      fs'.Way dest cs := by
    intro fs' node hget ds hds hds0 hproper
    obtain ⟨m, l, hdir⟩ := hway ds hds hds0 hproper
    refine ⟨m, l, ?_⟩
    rw [Fs.node_append hds0] at hdir ⊢
    rw [hget, if_neg fun heq => hproper (List.append_cancel_left heq), hdir]
  have hchange : ∀ {fs' : Fs} {node : Node} (f : Node → Node), (∀ t, node ≠ .link t) →
      (∀ loc, fs'.get? loc = if loc = dest ++ cs then some node else fs.get? loc) →
      ∀ loc, (attempted fs' (change fs' dest cs f)).get? loc =
        if loc = dest ++ cs then some (f node) else fs.get? loc := by
    intro fs' node f hlink hget loc
    have hnode : fs'.get? (dest ++ cs) = some node := (hget _).trans (if_pos rfl)
    rw [change_of_way f hne hreal (hstay hget) hnode hlink]
    show (fs'.update (dest ++ cs) f).get? loc = _
    rw [Table.get?_update]
    split_ifs with hloc
    · rw [hnode]
      rfl
    · rw [hget, if_neg hloc]
  refine ⟨readable, ?_⟩
  dsimp only
  rw [hwrite]
  exact hchange _ (fun t ht => by cases ht) (hchange _ (fun t ht => by cases ht) hget₁)

/-- Laying a file adds it to what is laid, whether it is written or skipped. -/
theorem Db.Laid.materializeFile (h : db.Laid E dest done fs) (hdb : db.Placeable)
    (hmodes : db.ModesHold) (umask : ℕ) {p : Str} {row : FsRow K} (hrow : db.fs.get? p = some row)
    (hkind : row.kind = .file) :
    db.Laid E dest (fun q => done q ∨ q = p) (db.materializeFile E umask dest fs (p, row)) := by
  have hreal : row.kind ≠ .symlink := by rw [hkind]; decide
  have hputs : db.Puts p row.kind := .row hrow hreal
  have hp : p ≠ root := by
    rintro rfl
    have := hdb.top _ hputs
    rw [hkind] at this
    cases this
  obtain ⟨cs, hcs, hne, rfl, -⟩ := hdb.named p _ hputs hp
  have hreal' : ∀ c ∈ cs, Name.Real c := fun c hc => (hcs c hc).real
  have hup : db.Dirs cs.dropLast := hdb.dirs_up hputs hcs hne
  have hunique : ∀ kind, db.Puts (ofNames cs) kind → kind = row.kind := fun kind hk =>
    hdb.kind_unique hrow hreal hcs hne hk
  -- A file that is left has the mode of its row.
  have hleft : (∀ node, fs.get? (dest ++ cs) = some node → db.Leaves E (ofNames cs) row node) →
      db.Laid E dest (fun q => done q ∨ q = ofNames cs) fs := fun hleaves =>
    ⟨h.host, h.top, h.kinds, h.above, h.own,
      fun cs' row' node hcs' hne' hrow' hkind' hnode hor => by
      rcases eq_or_ne cs' cs with rfl | hcs''
      · rw [hrow] at hrow'
        cases hrow'
        exact h.modes cs' row node hcs hne hrow hreal hnode (Or.inr (hleaves node hnode))
      · refine h.modes cs' row' node hcs' hne' hrow' hkind' hnode (hor.imp_left fun hd => ?_)
        exact hd.resolve_right fun heq => hcs'' (ofNames_inj hcs' hcs heq),
    fun cs' row' hcs' hne' hrow' hkind' hd => by
      refine h.made cs' row' hcs' hne' hrow' hkind' (hd.resolve_right fun heq => ?_)
      rw [heq, hrow] at hrow'
      cases hrow'
      rw [hkind] at hkind'
      cases hkind'⟩
  unfold Db.materializeFile
  dsimp only
  rw [comps_ofNames hcs]
  split_ifs with hcurrent
  · refine hleft fun node hnode => ⟨hkind, Or.inl ?_⟩
    have hfile := h.kinds cs _ node hcs hne hputs hnode
    by_cases hway : fs.Way dest cs
    · have hlook : look fs true dest cs = .ok (dest ++ cs, node) :=
        look_of_way hne hreal' hway hnode fun _ t ht => by
          rw [ht, hkind] at hfile
          cases hfile
      rw [hlook] at hcurrent
      exact hcurrent
    · rw [h.look_of_gap hup hne hcs hway] at hcurrent
      cases hcurrent
  · rcases hbytes : fileBytes E db (ofNames cs) with e | data
    · exact hleft fun node hnode => ⟨hkind, Or.inr ⟨e, hbytes⟩⟩
    · dsimp only
      obtain ⟨fs₁, hrun, h₁, hdirs⟩ := h.createDirAll hup (masked umask 0o777)
      rw [hrun]
      have hway : fs₁.Way dest cs := fun ds hds hds0 hproper =>
        hdirs ds (prefix_dropLast hne hds hproper) hds0
      obtain ⟨readable, hget⟩ := writeFile_chmod_utimens data (masked umask 0o666)
        (chmodBits row.mode) (row.mtime * 1000000000) hne hreal' hway
        fun node hnode => (h₁.kinds cs _ node hcs hne hputs hnode).trans (by rw [hkind])
      refine h₁.put hdb hcs hne hputs (by rw [hkind]; rfl) hunique (fun _ row' hrow' => ?_)
        (fun row' hrow' _ => ?_) hget
      · rw [hrow] at hrow'
        cases hrow'
        rfl
      · rw [hrow] at hrow'
        cases hrow'
        rw [hostMode, chmodBits_mod, chmodBits_of_fits (hmodes _ _ hrow)]

/-! ## The whole tree -/

/-- By induction on the rows, all directories are laid. -/
theorem Db.Laid.dirs (hdb : db.Placeable) (hmodes : db.ModesHold) (umask : ℕ) :
    ∀ {l : List (Str × FsRow K)} {done : Str → Prop} {fs : Fs}, db.Laid E dest done fs →
      (∀ r ∈ l, db.fs.get? r.1 = some r.2 ∧ r.2.kind = .dir) →
      ∃ fs', l.foldlM (Dbvm.materializeDir umask dest) fs = .ok fs' ∧
        db.Laid E dest (fun q => done q ∨ q ∈ l.map Prod.fst) fs'
  | [], done, fs, h, _ => ⟨fs, rfl, h.done_congr fun _ _ hor => by simpa using hor⟩
  | r :: l, done, fs, h, hl => by
    obtain ⟨fs₁, hrun, h₁⟩ :=
      h.materializeDir hdb hmodes umask (hl r List.mem_cons_self).1 (hl r List.mem_cons_self).2
    obtain ⟨fs₂, hrun₂, h₂⟩ :=
      Db.Laid.dirs hdb hmodes umask h₁ fun r' hr' => hl r' (List.mem_cons_of_mem _ hr')
    refine ⟨fs₂, ?_, h₂.done_congr fun cs _ hor => ?_⟩
    · rw [List.foldlM_cons, hrun]
      exact hrun₂
    · rwa [List.map_cons, List.mem_cons, ← or_assoc] at hor

/-- By induction on the rows, the links keep what is laid. -/
theorem Db.Laid.links (hdb : db.Placeable) (umask : ℕ) :
    ∀ {l : List (Str × Str)} {fs : Fs}, db.Laid E dest done fs →
      (∀ r ∈ l, ∃ row, db.fs.get? r.1 = some row ∧ row.kind = .symlink) →
      ∃ fs', l.foldlM (db.materializeLink umask dest) fs = .ok fs' ∧ db.Laid E dest done fs'
  | [], fs, h, _ => ⟨fs, rfl, h⟩
  | r :: l, fs, h, hl => by
    obtain ⟨row, hrow, hkind⟩ := hl r List.mem_cons_self
    obtain ⟨fs₁, hrun, h₁⟩ := h.materializeLink hdb umask hrow hkind r.2
    obtain ⟨fs₂, hrun₂, h₂⟩ :=
      Db.Laid.links hdb umask h₁ fun r' hr' => hl r' (List.mem_cons_of_mem _ hr')
    refine ⟨fs₂, ?_, h₂⟩
    rw [List.foldlM_cons, hrun]
    exact hrun₂

/-- By induction on the rows, all files are laid. -/
theorem Db.Laid.files (hdb : db.Placeable) (hmodes : db.ModesHold) (umask : ℕ) :
    ∀ {l : List (Str × FsRow K)} {done : Str → Prop} {fs : Fs}, db.Laid E dest done fs →
      (∀ r ∈ l, db.fs.get? r.1 = some r.2 ∧ r.2.kind = .file) →
      db.Laid E dest (fun q => done q ∨ q ∈ l.map Prod.fst)
      (l.foldl (db.materializeFile E umask dest) fs)
  | [], done, fs, h, _ => h.done_congr fun _ _ hor => by simpa using hor
  | r :: l, done, fs, h, hl => by
    have h₁ :=
      h.materializeFile hdb hmodes umask (hl r List.mem_cons_self).1 (hl r List.mem_cons_self).2
    refine (Db.Laid.files hdb hmodes umask h₁ fun r' hr' =>
      hl r' (List.mem_cons_of_mem _ hr')).done_congr
      fun cs _ hor => ?_
    rwa [List.map_cons, List.mem_cons, ← or_assoc] at hor

omit [DecidableEq K] in
/-- The rows of a kind are those rows of the table. -/
theorem mem_rowsOf {kind : Kind} {r : Str × FsRow K} :
    r ∈ db.rowsOf kind ↔ db.fs.get? r.1 = some r.2 ∧ r.2.kind = kind := by
  unfold Db.rowsOf Table.select
  rw [List.mem_insertionSort, List.mem_filter, decide_eq_true_iff, Table.get?_eq_some_iff]

omit [DecidableEq K] in
/-- In a tree that can be laid every link has a target. -/
theorem Db.Placeable.linkTargets (h : db.Placeable) : ∀ {l : List (Str × FsRow K)},
    (∀ r ∈ l, db.fs.get? r.1 = some r.2 ∧ r.2.kind = .symlink) →
    ∃ ls : List (Str × Str), (l.mapM fun r => match r.2.linkTarget with
        | some t => Except.ok (r.1, t)
        | none => .error MaterializeErr.noTarget) = .ok ls ∧
      ∀ r ∈ ls, ∃ row, db.fs.get? r.1 = some row ∧ row.kind = .symlink
  | [], _ => ⟨[], rfl, fun r hr => absurd hr List.not_mem_nil⟩
  | r :: l, hl => by
    obtain ⟨hrow, hkind⟩ := hl r List.mem_cons_self
    obtain ⟨t, ht⟩ := Option.isSome_iff_exists.1 (h.targets r.1 r.2 hrow hkind)
    obtain ⟨ls, hrun, hls⟩ := h.linkTargets fun r' hr' => hl r' (List.mem_cons_of_mem _ hr')
    refine ⟨(r.1, t) :: ls, ?_, List.forall_mem_cons.2 ⟨⟨r.2, hrow, hkind⟩, hls⟩⟩
    rw [List.mapM_cons, hrun, ht]
    rfl

/-- When every file and directory is done, the modes are shown. -/
theorem Db.Laid.modesShown (h : db.Laid E dest done fs) (hmodes : db.ModesHold)
    (hdone : ∀ p row, db.fs.get? p = some row → row.kind ≠ .symlink → done p) :
    db.ModesShown fs dest := by
  intro loc node row hshown halias hrow
  obtain ⟨hpath, hputs⟩ := h.own loc node row hshown halias hrow
  obtain ⟨cs, hne, rfl⟩ := Loc.below_iff.1 hshown.below
  have hcs : ∀ c ∈ cs, IsName c :=
    fun c hc => h.host.names _ node hshown.there c (List.mem_append_right _ hc)
  have hnames : hostPath dest (dest ++ cs) = ofNames cs := by
    unfold hostPath
    rw [List.drop_left]
  rw [← hpath, hnames] at hrow hputs
  have hkind := h.kinds cs row.kind node hcs hne hputs hshown.there
  refine ⟨hkind, ?_⟩
  by_cases hlink : row.kind = .symlink
  · rw [hlink] at hkind
    have hall := (hmodes _ row hrow).2.2 hlink
    cases node with
    | link t => exact hall.symm
    | _ => cases hkind
  · exact h.modes cs row node hcs hne hrow hlink hshown.there (Or.inl (hdone _ row hrow hlink))

omit [DecidableEq K] in
/-- A mount point is at a reserved path. -/
theorem Db.ModesShown.makeMountPoint (h : db.ModesShown fs dest) (umask : ℕ) {c : Name}
    (hc : c ∈ mountPoints) :
    db.ModesShown (Dbvm.makeMountPoint umask dest fs c) dest := by
  have hreal : ∀ x ∈ [c], Name.Real x := by
    rintro x hx
    rw [List.mem_singleton.1 hx]
    have hall : ∀ c ∈ mountPoints, c ≠ [] ∧ c ≠ ['.'] ∧ c ≠ ['.', '.'] := by decide
    exact hall c hc
  have hway : fs.Way dest [c] := fun ds hds hne hproper =>
    absurd (List.prefix_nil.1 (prefix_dropLast (by simp) hds hproper)) hne
  -- A mount point that is there is left alone; a new one has no row in the database.
  rcases hnode : fs.get? (dest ++ [c]) with _ | node
  · have hmake : Dbvm.makeMountPoint umask dest fs c =
        fs.insertIgnore (dest ++ [c]) (.dir (masked umask 0o777) true) := by
      have hmk : mkdir fs dest [c] (masked umask 0o777) =
          .ok (fs.insertIgnore (dest ++ [c]) (.dir (masked umask 0o777) true)) :=
        make_of_way (by simp) hreal hway hnode
      unfold Dbvm.makeMountPoint Posix.createDirAll
      rw [List.reverse_singleton, createDirAllRev, List.reverse_singleton, hmk]
      rfl
    rw [hmake]
    intro loc node row hshown
    rcases eq_or_ne loc (dest ++ [c]) with rfl | hloc
    · have hres : ∀ c ∈ mountPoints,
          isReservedVmPath
          (normalizeVmPath ('/' :: trimStartSlashes (List.intercalate ['/'] [c]))) = true := by
        decide
      have hfree := hshown.free
      unfold vmPathOf at hfree
      rw [List.drop_left, hres c hc] at hfree
      cases hfree
    · refine h loc node row (hshown.congr ?_)
      rw [Table.get?_insertIgnore, if_neg hloc]
  · have hsame : Dbvm.makeMountPoint umask dest fs c = fs := by
      have hmk : mkdir fs dest [c] (masked umask 0o777) = .error .exist := by
        unfold mkdir make
        rw [resolve_of_way (fun hf => by cases hf) hreal hway]
        dsimp only
        rw [Fs.node_append (by simp), hnode]
      unfold Dbvm.makeMountPoint Posix.createDirAll
      rw [List.reverse_singleton, createDirAllRev, List.reverse_singleton, hmk]
      dsimp only [orDir]
      split_ifs
      · rfl
      · rfl
    rw [hsame]
    exact h

/-- A materialize into a directory that is new, or has nothing in the way of the rows, leaves every
entry with the kind and the permission bits of its row. -/
theorem modesShown_materializeTree {umask : ℕ}
    {workers : List (Str × FsRow K) → List (Str × FsRow K)} (hdb : db.Placeable)
    (hmodes : db.ModesHold) (hworkers : ∀ l, (workers l).Perm l)
    (hreuse : db.Reusable E umask fs dest) :
    ∃ fs', db.materializeTree E umask dest workers fs = .ok fs' ∧ db.ModesShown fs' dest := by
  -- The phases in their order: directories, links, files. Each keeps what the earlier ones have
  -- laid.
  obtain ⟨fs₁, hdirs, h₁⟩ := Db.Laid.dirs hdb hmodes umask hreuse fun r hr => mem_rowsOf.1 hr
  obtain ⟨ls, htargets, hls⟩ := hdb.linkTargets fun r hr => mem_rowsOf.1 hr
  obtain ⟨fs₂, hlinks, h₂⟩ := Db.Laid.links hdb umask h₁ hls
  have hfiles : ∀ r ∈ workers (db.fs.select fun _ row => row.kind = .file),
      db.fs.get? r.1 = some r.2 ∧ r.2.kind = .file := by
    intro r hr
    obtain ⟨hmem, hkind⟩ := List.mem_filter.1 ((hworkers _).mem_iff.1 hr)
    exact ⟨Table.get?_eq_some_iff.2 hmem, of_decide_eq_true hkind⟩
  have h₃ := Db.Laid.files hdb hmodes umask h₂ hfiles
  have hshown := h₃.modesShown hmodes fun p row hrow hkind => by
    rcases hk : row.kind with _ | _ | _
    · refine Or.inr (List.mem_map.2 ⟨(p, row), (hworkers _).mem_iff.2 (List.mem_filter.2 ?_), rfl⟩)
      exact ⟨Table.get?_eq_some_iff.1 hrow, decide_eq_true hk⟩
    · exact Or.inl (Or.inr (List.mem_map.2 ⟨(p, row), mem_rowsOf.2 ⟨hrow, hk⟩, rfl⟩))
    · exact absurd hk hkind
  have hmounts : ∀ {cs : List Name} {fs : Fs}, (∀ c ∈ cs, c ∈ mountPoints) → db.ModesShown fs dest →
      db.ModesShown (cs.foldl (Dbvm.makeMountPoint umask dest) fs) dest := by
    intro cs
    induction cs with
    | nil => exact fun _ h => h
    | cons c cs ih =>
      intro fs hcs h
      exact ih (fun x hx => hcs x (List.mem_cons_of_mem _ hx))
        (h.makeMountPoint umask (hcs c List.mem_cons_self))
  refine ⟨_, ?_, hmounts (fun _ hc => hc) hshown⟩
  unfold Db.materializeTree
  simp only [hdirs, htargets, hlinks, bind, Except.bind, pure, Except.pure]

/-! ## New directories -/

omit [DecidableEq K] in
/-- What is removed before the writes is below the directory. -/
theorem get?_cleared (db : Db K) (umask : ℕ) {mode : ℕ} {listable : Bool}
    (htop : fs.get? dest = some (.dir mode listable)) (hne : dest ≠ []) :
    (db.cleared umask fs dest).get? dest = some (.dir mode listable) ∧
      ∀ loc node, (db.cleared umask fs dest).get? loc = some node → fs.get? loc = some node := by
  have hthere : Fs.node fs dest ≠ none := by
    rw [Fs.node_of_ne hne, htop]
    exact Option.some_ne_none _
  unfold Db.cleared Db.pruneScratch
  rw [if_neg hthere]
  dsimp only
  -- The pruning deletes below the directory only, and only what the rows do not account for.
  constructor
  · rw [Table.get?_deleteWhere, htop, Option.filter_some, if_pos]
    rw [Bool.not_eq_true', ← Bool.not_eq_true, List.any_eq_true]
    rintro ⟨v, hv, hor⟩
    obtain ⟨e, he, hsome⟩ := List.mem_filterMap.1 hv
    rcases e with _ | ⟨loc, node⟩
    · cases hsome
    · dsimp only [Option.bind_some] at hsome
      split_ifs at hsome
      cases hsome
      have hbelow := (mem_walk_iff.1 he).2.1
      obtain ⟨ds, hds, rfl⟩ := Loc.below_iff.1 hbelow
      rw [Bool.or_eq_true, decide_eq_true_iff] at hor
      rcases hor with heq | hup
      · exact dest_ne_append hds heq.symm
      · obtain ⟨es, -, heq⟩ := Loc.below_iff.1 hup
        have hlen := congrArg List.length heq
        rw [List.length_append, List.length_append] at hlen
        have := List.length_pos_iff.2 hds
        omega
  · intro loc node hnode
    rw [Table.get?_deleteWhere] at hnode
    exact (Option.filter_eq_some_iff.1 hnode).1

/-- An empty directory has nothing in the way. -/
theorem reusable_of_empty {umask mode : ℕ} {listable : Bool} (hfs : HostTree fs)
    (htop : fs.get? dest = some (.dir mode listable))
    (hempty : ∀ loc, Loc.below dest loc = true → fs.get? loc = none) :
    db.Reusable E umask fs dest := by
  have hne : dest ≠ [] := by
    rintro rfl
    rw [hfs.root] at htop
    cases htop
  obtain ⟨hdest, hsub⟩ := get?_cleared db umask htop hne
  have hfree : ∀ loc node, Loc.below dest loc = true →
    (db.cleared umask fs dest).get? loc ≠ some node := by
    intro loc node hbelow hnode
    have := hsub loc node hnode
    rw [hempty loc hbelow] at this
    cases this
  -- Nothing is below the directory, so nothing of another kind or another mode stands at a place.
  have hplace : ∀ {cs : List Str} {node : Node}, cs ≠ [] →
      (db.cleared umask fs dest).get? (dest ++ cs) ≠ some node := fun hcs =>
    hfree _ _ (Loc.below_iff.2 ⟨_, hcs, rfl⟩)
  refine ⟨⟨fun loc node hnode => hfs.names loc node (hsub loc node hnode), ?_⟩,
    ⟨mode, listable, hdest⟩,
    fun cs kind node _ hcs _ hnode => absurd hnode (hplace hcs),
    fun cs es kind node _ hcs _ _ hnode => absurd hnode (hplace hcs),
    fun loc node row hshown => absurd hshown.there (hfree loc node hshown.below),
    fun cs row node _ hcs _ _ hnode => absurd hnode (hplace hcs), fun _ _ _ _ _ _ hdone =>
    hdone.elim⟩
  rcases hnode : (db.cleared umask fs dest).get? [] with _ | node
  · rfl
  · have := hsub [] node hnode
    rw [hfs.root] at this
    cases this

/-! ## Deciding -/

/-- The places, with what is put there. -/
def Db.places (db : Db K) : List (Str × Kind) := db.fs.rows.filterMap fun r =>
  if r.2.kind ≠ .symlink then some (r.1, r.2.kind)
  else if translatedLink r.1 db.links = r.1 ∨
    db.real (normalizeVmPath (translatedLink r.1 db.links)) = false
    then some (translatedLink r.1 db.links, .symlink)
  else none

omit [DecidableEq K] in
/-- The list of places has every row and every directory above one. -/
theorem mem_places {p : Str} : (p, kind) ∈ db.places ↔ db.Puts p kind := by
  unfold Db.places
  rw [List.mem_filterMap]
  constructor
  · rintro ⟨⟨q, row⟩, hmem, hsome⟩
    have hrow := Table.get?_eq_some_iff.2 hmem
    dsimp only at hsome
    split_ifs at hsome with hkind hfree
    · cases hsome
      exact .row hrow hkind
    · cases hsome
      exact .link hrow (not_not.1 hkind) hfree
  · intro h
    cases h with
    | row hrow hkind => exact ⟨_, Table.get?_eq_some_iff.1 hrow, if_pos hkind⟩
    | link hrow hkind hfree =>
      exact ⟨_, Table.get?_eq_some_iff.1 hrow, (if_neg (not_not.2 hkind)).trans (if_pos hfree)⟩

omit [DecidableEq K] in
/-- Whether a tree can be laid is decided place by place. -/
theorem placeable_iff : db.Placeable ↔
    (∀ r ∈ db.fs.rows, r.2.kind = .symlink → r.2.linkTarget.isSome = true) ∧
    (∀ x ∈ db.places, x.1 = root → x.2 = .dir) ∧
    (∀ x ∈ db.places, x.1 ≠ root → (∀ c ∈ comps x.1, IsName c) ∧ comps x.1 ≠ [] ∧
      x.1 = ofNames (comps x.1) ∧
      ∀ ds ∈ (comps x.1).inits, ds ≠ [] → Normal (ofNames ds)) ∧
    ∀ x ∈ db.places, ∀ q ∈ ancestors x.1, (∀ y ∈ db.places, y.1 = q → y.2 = .dir) ∧
      (db.fs.get? q).all (fun row => decide (row.kind = .dir)) = true := by
  -- The right side asks the same of the list of places, which are all paths with a row.
  constructor
  · intro h
    refine ⟨fun r hr => h.targets r.1 r.2 (Table.get?_eq_some_iff.2 hr), fun x hx heq => ?_,
      fun x hx hne => ?_,
      fun x hx q hq => ?_⟩
    · exact h.top x.2 (heq ▸ mem_places.1 hx)
    · obtain ⟨cs, hcs, hcs0, hp, hnormal⟩ := h.named x.1 x.2 (mem_places.1 hx) hne
      rw [hp, comps_ofNames hcs]
      exact ⟨hcs, hcs0, rfl, fun ds hds => hnormal ds ((List.mem_inits ds cs).1 hds)⟩
    · obtain ⟨hq0, hbelow⟩ := mem_ancestors.1 hq
      obtain ⟨hputs, hrows⟩ := h.nested x.1 x.2 q (mem_places.1 hx) hbelow hq0
      refine ⟨fun y hy heq => hputs y.2 (heq ▸ mem_places.1 hy), ?_⟩
      rw [Option.all_eq_true]
      exact fun row hrow => decide_eq_true (hrows row hrow)
  · rintro ⟨htargets, htop, hnamed, hnested⟩
    refine ⟨fun p row hrow => htargets (p, row) (Table.get?_eq_some_iff.1 hrow),
      fun kind hk => htop (root, kind) (mem_places.2 hk) rfl, fun p kind hk hne => ?_,
      fun p kind q hk hbelow hq => ?_⟩
    · obtain ⟨hcs, hcs0, hp, hnormal⟩ := hnamed (p, kind) (mem_places.2 hk) hne
      exact ⟨comps p, hcs, hcs0, hp, fun ds hds => hnormal ds ((List.mem_inits ds _).2 hds)⟩
    · obtain ⟨hputs, hrows⟩ := hnested (p, kind) (mem_places.2 hk) q (mem_ancestors.2 ⟨hq, hbelow⟩)
      rw [Option.all_eq_true] at hrows
      exact ⟨fun kind' hk' => hputs (q, kind') (mem_places.2 hk') rfl,
        fun row hrow => of_decide_eq_true (hrows row hrow)⟩

instance (db : Db K) : Decidable db.Placeable := decidable_of_iff _ placeable_iff.symm

end Places

end Dbvm
