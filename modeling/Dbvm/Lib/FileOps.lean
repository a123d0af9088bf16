import Mathlib.Data.List.Induction
import Dbvm.Lib.Posix

/-!
# Calls that change a file tree

Directories, links and files are made, changed and removed by path, and the kernel's walk says which
location a path means. Where the directories on the way are directories and not links, the path
means the location that it spells (`resolve_of_way`), and each call changes one location and nothing
else; `create_dir_all` makes the directories that are missing on the way (`createDirAll_clear`).
-/

namespace Lib.Posix

/-! ## Calls -/

/-- The entry that a path below a directory means; a link at its end is followed or not. -/
def look (fs : Fs) (follow : Bool) (dir : Loc) (path : List Name) : Except Errno (Loc × Node) :=
  match resolve fs follow maxLinks dir path with
  | .error e => .error e
  | .ok loc =>
    match Fs.node fs loc with
    | some n => .ok (loc, n)
    | none => .error .noent

/-- `Path::is_dir`: links are followed. -/
def isDir (fs : Fs) (dir : Loc) (path : List Name) : Bool :=
  match look fs true dir path with
  | .ok (_, .dir ..) => true
  | _ => false

/-- A new entry, where there is none. -/
def make (fs : Fs) (follow : Bool) (dir : Loc) (path : List Name) (node : Node) : Except Errno Fs :=
  match resolve fs follow maxLinks dir path with
  | .error e => .error e
  | .ok loc =>
    match Fs.node fs loc with
    | some _ => .error .exist
    | none => .ok (fs.insertIgnore loc node)

/-- `mkdir`, with the permission bits that the umask leaves. -/
def mkdir (fs : Fs) (dir : Loc) (path : List Name) (mode : ℕ) : Except Errno Fs :=
  make fs false dir path (.dir mode true)

/-- `symlink`. -/
def symlink (fs : Fs) (dir : Loc) (path : List Name) (target : Name) : Except Errno Fs :=
  make fs false dir path (.link target)

/-- The answer of a `mkdir` that may find the directory there already. -/
def orDir (fs : Fs) (dir : Loc) (path : List Name) : Except Errno Fs → Except Errno Fs
  | .ok fs' => .ok fs'
  | .error e => if isDir fs dir path then .ok fs else .error e

/-- `create_dir_all`, of a path given from its last name to its first. -/
def createDirAllRev (dir : Loc) (mode : ℕ) : List Name → Fs → Except Errno Fs
  | [], fs => .ok fs
  | c :: up, fs =>
    let path := (c :: up).reverse
    match mkdir fs dir path mode with
    | .error .noent => createDirAllRev dir mode up fs >>= fun fs₁ =>
        orDir fs₁ dir path (mkdir fs₁ dir path mode)
    | answer => orDir fs dir path answer

/-- `create_dir_all`, of a path below a directory that is there. -/
def createDirAll (fs : Fs) (dir : Loc) (path : List Name) (mode : ℕ) : Except Errno Fs :=
  createDirAllRev dir mode path.reverse fs

/-- Other permission bits. A link has none of its own. -/
def Node.setMode (mode : ℕ) : Node → Node
  | .file data _ ns readable => .file data mode ns readable
  | .dir _ listable => .dir mode listable
  | .link t => .link t
  | .special _ => .special mode

/-- Another modification time. Only regular files have one here. -/
def Node.setTime (ns : ℤ) : Node → Node
  | .file data mode _ readable => .file data mode ns readable
  | node => node

/-- A change of the entry that a path means; links are followed. -/
def change (fs : Fs) (dir : Loc) (path : List Name) (f : Node → Node) : Except Errno Fs :=
  match look fs true dir path with
  | .error e => .error e
  | .ok (loc, _) => .ok (fs.update loc f)

/-- `set_permissions`. -/
def chmod (fs : Fs) (dir : Loc) (path : List Name) (mode : ℕ) : Except Errno Fs :=
  change fs dir path (Node.setMode mode)

/-- `utimensat`. -/
def utimens (fs : Fs) (dir : Loc) (path : List Name) (ns : ℤ) : Except Errno Fs :=
  change fs dir path (Node.setTime ns)

/-- `remove_file`. -/
def removeFile (fs : Fs) (dir : Loc) (path : List Name) : Except Errno Fs :=
  match look fs false dir path with
  | .error e => .error e
  | .ok (_, .dir ..) => .error .isDir
  | .ok (loc, _) => .ok (fs.deleteWhere fun l _ => l = loc)

/-- `remove_dir`. -/
def removeDir (fs : Fs) (dir : Loc) (path : List Name) : Except Errno Fs :=
  match look fs false dir path with
  | .error e => .error e
  | .ok (loc, .dir ..) =>
    if fs.rows.any fun r => Loc.below loc r.1 then .error .notEmpty
    else .ok (fs.deleteWhere fun l _ => l = loc)
  | .ok _ => .error .notDir

/-- `fs::write`: a file that is there keeps its permission bits, one that is not is created; links
are followed. A device takes the bytes and stays as it is. -/
def writeFile (fs : Fs) (dir : Loc) (path : List Name) (data : List UInt8) (mode : ℕ) (ns : ℤ) :
    Except Errno Fs :=
  match resolve fs true maxLinks dir path with
  | .error e => .error e
  | .ok loc =>
    match Fs.node fs loc with
    | none => .ok (fs.insertIgnore loc (.file data mode ns true))
    | some (.file _ mode' _ readable) => .ok (fs.update loc fun _ => .file data mode' ns readable)
    | some (.dir ..) => .error .isDir
    | some (.link _) => .error .loop
    | some (.special _) => .ok fs

/-! ## Places whose directories are real -/

section Ways

variable {fs fs' : Fs} {dir : Loc} {path : List Name} {follow : Bool}

/-- A component that the kernel looks up: not empty, not `.` and not `..`. -/
def Name.Real (c : Name) : Prop := c ≠ [] ∧ c ≠ ['.'] ∧ c ≠ ['.', '.']

/-- There is a directory at the location. -/
def Fs.DirAt (fs : Fs) (loc : Loc) : Prop :=
  ∃ mode listable, Fs.node fs loc = some (.dir mode listable)

/-- Every directory on the way to a place is there. -/
def Fs.Way (fs : Fs) (dir : Loc) (path : List Name) : Prop :=
  ∀ ds, ds <+: path → ds ≠ [] → ds ≠ path → fs.DirAt (dir ++ ds)

/-- What is on the way to a place, and at the place itself, is a directory, if it is there. -/
def Fs.Clear (fs : Fs) (dir : Loc) (path : List Name) : Prop :=
  ∀ ds, ds <+: path → ds ≠ [] → Fs.node fs (dir ++ ds) = none ∨ fs.DirAt (dir ++ ds)

/-- A way goes on below its first directory. -/
theorem Fs.Way.tail {c d : Name} {rest : List Name} (h : fs.Way dir (c :: d :: rest)) :
    fs.Way (dir ++ [c]) (d :: rest) := by
  intro ds hds hne hproper
  have := h (c :: ds) ((List.prefix_cons_inj c).2 hds) (by simp) (by simpa using hproper)
  rwa [List.append_cons] at this

/-- A walk along directories comes to the location that the path spells. -/
theorem scan_of_way (hlink : follow = true → ∀ t, Fs.node fs (dir ++ path) ≠ some (.link t))
    (hreal : ∀ c ∈ path, Name.Real c) (hway : fs.Way dir path) :
    scan fs follow dir path = .ok (.inl (dir ++ path)) := by
  -- Along the path: every component but the last is a directory, and the last is no link that
  -- would be followed.
  induction path generalizing dir with
  | nil =>
    rw [List.append_nil]
    rfl
  | cons c rest ih =>
    obtain ⟨hne, hdot, hdots⟩ := hreal c List.mem_cons_self
    rw [scan, if_neg (not_or.2 ⟨hne, hdot⟩), if_neg hdots]
    cases rest with
    | nil =>
      rcases hnode : Fs.node fs (dir ++ [c]) with _ | node
      · rfl
      · rcases node with _ | _ | t | _
        · rfl
        · rfl
        · have hnot : follow = false := by
            rw [← Bool.not_eq_true]
            exact fun hf => hlink hf t hnode
          exact if_pos ⟨rfl, hnot⟩
        · rfl
    | cons d rest =>
      obtain ⟨mode, listable,
        hdir⟩ := hway [c] ((List.prefix_cons_inj c).2 (List.nil_prefix)) (by simp) (by simp)
      rw [hdir]
      have := @ih (dir ++ [c]) (by rwa [← List.append_cons])
        (fun x hx => hreal x (List.mem_cons_of_mem _ hx))
        hway.tail
      rwa [← List.append_cons] at this

/-- A path along directories means the location that it spells. -/
theorem resolve_of_way (hlink : follow = true → ∀ t, Fs.node fs (dir ++ path) ≠ some (.link t))
    (hreal : ∀ c ∈ path, Name.Real c) (hway : fs.Way dir path) :
    resolve fs follow maxLinks dir path = .ok (dir ++ path) := by
  have hscan := scan_of_way hlink hreal hway
  unfold resolve
  rw [hscan]

/-- A directory that is missing on the way ends the walk. -/
theorem scan_of_gap (hreal : ∀ c ∈ path, Name.Real c)
    (hclear : ∀ ds, ds <+: path → ds ≠ [] → ds ≠ path → Fs.node fs (dir ++ ds) = none ∨
      fs.DirAt (dir ++ ds))
    (hgap : ¬ fs.Way dir path) : scan fs follow dir path = .error .noent := by
  -- Along the path: what is missing is the first component, or it is missing further down.
  induction path generalizing dir with
  | nil => exact absurd (fun ds hds hne => absurd (List.prefix_nil.1 hds) hne) hgap
  | cons c rest ih =>
    obtain ⟨hne, hdot, hdots⟩ := hreal c List.mem_cons_self
    rw [scan, if_neg (not_or.2 ⟨hne, hdot⟩), if_neg hdots]
    cases rest with
    | nil =>
      refine absurd (fun ds hds hds0 hproper => absurd ?_ hproper) hgap
      have hlen := hds.length_le
      have hpos := List.length_pos_iff.2 hds0
      exact hds.eq_of_length (by simpa using Nat.le_antisymm hlen hpos)
    | cons d rest =>
      have hnext := hclear [c] ((List.prefix_cons_inj c).2 (List.nil_prefix)) (by simp) (by simp)
      rcases hnext with hnone | ⟨mode, listable, hdir⟩
      · rw [hnone]
        rfl
      · rw [hdir]
        refine ih (fun x hx => hreal x (List.mem_cons_of_mem _ hx))
          (fun ds hds hds0 hproper => ?_) fun hway => hgap ?_
        · have := hclear (c :: ds) ((List.prefix_cons_inj c).2 hds) (by simp)
            (by simpa using hproper)
          rwa [List.append_cons] at this
        · rintro (_ | ⟨x, ds⟩) hds hds0 hproper
          · exact absurd rfl hds0
          · obtain ⟨rfl, hds'⟩ := List.cons_prefix_cons.1 hds
            rcases eq_or_ne ds [] with rfl | hne'
            · exact ⟨mode, listable, hdir⟩
            · rw [List.append_cons]
              exact hway ds hds' hne' (by simpa using hproper)

/-- A path with a gap before its last name does not exist. -/
theorem resolve_of_gap (hreal : ∀ c ∈ path, Name.Real c)
    (hclear : ∀ ds, ds <+: path → ds ≠ [] → ds ≠ path → Fs.node fs (dir ++ ds) = none ∨
      fs.DirAt (dir ++ ds))
    (hgap : ¬ fs.Way dir path) : resolve fs follow maxLinks dir path = .error .noent := by
  have hscan : scan fs follow dir path = .error .noent := scan_of_gap hreal hclear hgap
  unfold resolve
  rw [hscan]

/-- Below the root a node is an entry. -/
theorem Fs.node_of_ne {loc : Loc} (h : loc ≠ []) : Fs.node fs loc = fs.get? loc := if_neg h

/-- What a nonempty path leads to is an entry. -/
theorem Fs.node_append (hne : path ≠ []) : Fs.node fs (dir ++ path) = fs.get? (dir ++ path) :=
  Fs.node_of_ne (List.append_ne_nil_of_right_ne_nil dir hne)

/-- On a clear path every node before the last is a directory or missing. -/
theorem Fs.Clear.way_or_gap (h : fs.Clear dir path) :
    ∀ ds, ds <+: path → ds ≠ [] → ds ≠ path → Fs.node fs (dir ++ ds) = none ∨
    fs.DirAt (dir ++ ds) :=
  fun ds hds hne _ => h ds hds hne

/-! ## What a call changes -/

/-- A path along directories to a place without an entry: the new entry is there, and nothing else
has changed. -/
theorem make_of_way {node : Node} (hne : path ≠ []) (hreal : ∀ c ∈ path, Name.Real c)
    (hway : fs.Way dir path) (hfree : fs.get? (dir ++ path) = none) :
    make fs follow dir path node = .ok (fs.insertIgnore (dir ++ path) node) := by
  have hnode : Fs.node fs (dir ++ path) = none := (Fs.node_append hne).trans hfree
  have hres : resolve fs follow maxLinks dir path = .ok (dir ++ path) :=
    resolve_of_way (fun _ t ht => by rw [hnode] at ht; cases ht) hreal hway
  unfold make
  rw [hres]
  dsimp only
  rw [hnode]

/-- A path along directories to an entry that is no link. -/
theorem look_of_way {node : Node} (hne : path ≠ []) (hreal : ∀ c ∈ path, Name.Real c)
    (hway : fs.Way dir path) (hnode : fs.get? (dir ++ path) = some node)
    (hlink : follow = true → ∀ t, node ≠ .link t) :
    look fs follow dir path = .ok (dir ++ path, node) := by
  have hnode' : Fs.node fs (dir ++ path) = some node := (Fs.node_append hne).trans hnode
  have hres : resolve fs follow maxLinks dir path = .ok (dir ++ path) :=
    resolve_of_way (fun hf t ht => hlink hf t (Option.some.inj (hnode'.symm.trans ht))) hreal hway
  unfold look
  rw [hres]
  dsimp only
  rw [hnode']

/-- A path along directories to a place without an entry does not exist. -/
theorem look_of_free (hne : path ≠ []) (hreal : ∀ c ∈ path, Name.Real c) (hway : fs.Way dir path)
    (hfree : fs.get? (dir ++ path) = none) : look fs follow dir path = .error .noent := by
  have hnode : Fs.node fs (dir ++ path) = none := (Fs.node_append hne).trans hfree
  have hres : resolve fs follow maxLinks dir path = .ok (dir ++ path) :=
    resolve_of_way (fun _ t ht => by rw [hnode] at ht; cases ht) hreal hway
  unfold look
  rw [hres]
  dsimp only
  rw [hnode]

/-- The entry that a path along directories spells has changed, and nothing else. -/
theorem change_of_way {node : Node} (f : Node → Node) (hne : path ≠ [])
    (hreal : ∀ c ∈ path, Name.Real c) (hway : fs.Way dir path)
    (hnode : fs.get? (dir ++ path) = some node) (hlink : ∀ t, node ≠ .link t) :
    change fs dir path f = .ok (fs.update (dir ++ path) f) := by
  unfold change
  rw [look_of_way hne hreal hway hnode fun _ => hlink]

/-- Directories have been made at some places on the way, where there was nothing. -/
def Fs.Paved (fs : Fs) (dir : Loc) (path : List Name) (mode : ℕ) (fs' : Fs) : Prop := ∀ loc,
  fs'.get? loc = fs.get? loc ∨ fs.get? loc = none ∧ fs'.get? loc = some (.dir mode true) ∧
    ∃ ds, ds <+: path ∧ ds ≠ [] ∧ loc = dir ++ ds

/-- Nothing has to be made where nothing is. -/
theorem Fs.Paved.refl (fs : Fs) (dir : Loc) (path : List Name) (mode : ℕ) :
    fs.Paved dir path mode fs :=
  fun _ => Or.inl rfl

/-- A longer way, and one more directory at its end. -/
theorem Fs.Paved.concat {mode : ℕ} {c : Name} (h : fs.Paved dir path mode fs')
    (hfree : fs'.get? (dir ++ (path ++ [c])) = none) :
    fs.Paved dir (path ++ [c]) mode (fs'.insertIgnore (dir ++ (path ++ [c])) (.dir mode true)) := by
  intro loc
  rw [Table.get?_insertIgnore, hfree, Option.getD_none]
  split_ifs with hnew
  · subst hnew
    refine Or.inr ⟨?_, rfl, path ++ [c], List.prefix_rfl, by simp, rfl⟩
    rcases h (dir ++ (path ++ [c])) with hsame | ⟨hnone, -⟩
    · rw [← hsame, hfree]
    · exact hnone
  · rcases h loc with hsame | ⟨hnone, hdir, ds, hds, hne, hloc⟩
    · exact Or.inl hsame
    · exact Or.inr ⟨hnone, hdir, ds, hds.trans (List.prefix_append _ _), hne, hloc⟩

/-- What `mkdir` does at a place whose directories are there: it makes the directory, unless there
is one. -/
theorem orDir_mkdir {c : Name} {mode : ℕ} {fs₁ : Fs} (hreal : ∀ x ∈ path ++ [c], Name.Real x)
    (hclear : fs.Clear dir (path ++ [c])) (hpaved : fs.Paved dir path mode fs₁)
    (hdirs : ∀ ds, ds <+: path → ds ≠ [] → fs₁.DirAt (dir ++ ds)) :
    mkdir fs₁ dir (path ++ [c]) mode ≠ .error .noent ∧
      ∃ fs₂, orDir fs₁ dir (path ++ [c]) (mkdir fs₁ dir (path ++ [c]) mode) = .ok fs₂ ∧
        fs.Paved dir (path ++ [c]) mode fs₂ ∧ ∀ ds, ds <+: path ++ [c] → ds ≠ [] →
        fs₂.DirAt (dir ++ ds) := by
  have hne : path ++ [c] ≠ [] := by simp
  have hway : fs₁.Way dir (path ++ [c]) := fun ds hds hds0 hproper =>
    hdirs ds ((List.prefix_concat_iff.1 hds).resolve_left hproper) hds0
  rcases hnode : fs₁.get? (dir ++ (path ++ [c])) with _ | node
  · have hmk : mkdir fs₁ dir (path ++ [c]) mode =
        .ok (fs₁.insertIgnore (dir ++ (path ++ [c])) (.dir mode true)) :=
        make_of_way hne hreal hway hnode
    rw [hmk]
    refine ⟨by simp, _, rfl, hpaved.concat hnode, fun ds hds hds0 => ?_⟩
    rcases List.prefix_concat_iff.1 hds with rfl | hds
    · refine ⟨mode, true, ?_⟩
      rw [Fs.node_append hne, Table.get?_insertIgnore, if_pos rfl, hnode]
      rfl
    · obtain ⟨m, l, hdir⟩ := hdirs ds hds hds0
      refine ⟨m, l, ?_⟩
      rw [Fs.node_append hds0] at hdir ⊢
      rw [Table.get?_insertIgnore, if_neg (fun heq => ?_), hdir]
      rw [heq, hnode] at hdir
      cases hdir
  · have hlong : fs.Paved dir (path ++ [c]) mode fs₁ := fun loc => (hpaved loc).imp_right
      fun ⟨hnone, hdir, ds, hds, hds0, hloc⟩ =>
        ⟨hnone, hdir, ds, hds.trans (List.prefix_append _ _), hds0, hloc⟩
    -- What is there is a directory: it was there before, or it has been made on the way.
    have hdir : ∃ m l, node = .dir m l := by
      rcases hlong (dir ++ (path ++ [c])) with hsame | ⟨-, hnew, -⟩
      · have hend := hclear (path ++ [c]) List.prefix_rfl hne
        unfold Fs.DirAt at hend
        rw [Fs.node_append hne, ← hsame, hnode] at hend
        rcases hend with hnone | ⟨m, l, hml⟩
        · cases hnone
        · exact ⟨m, l, Option.some.inj hml⟩
      · rw [hnode] at hnew
        exact ⟨mode, true, Option.some.inj hnew⟩
    obtain ⟨m, l, rfl⟩ := hdir
    have hmk : mkdir fs₁ dir (path ++ [c]) mode = .error .exist := by
      unfold mkdir make
      rw [resolve_of_way (fun hf => by cases hf) hreal hway]
      dsimp only
      rw [Fs.node_append hne, hnode]
    have hisDir : isDir fs₁ dir (path ++ [c]) = true := by
      unfold isDir
      rw [look_of_way hne hreal hway hnode fun _ t ht => by cases ht]
    rw [hmk]
    refine ⟨by simp, fs₁, if_pos hisDir, hlong, fun ds hds hds0 => ?_⟩
    rcases List.prefix_concat_iff.1 hds with rfl | hds
    · exact ⟨m, l, by rw [Fs.node_append hne, hnode]⟩
    · exact hdirs ds hds hds0

/-- On a clear way `create_dir_all` makes the directories that are missing. -/
theorem createDirAll_clear (mode : ℕ) (hreal : ∀ c ∈ path, Name.Real c)
    (hclear : fs.Clear dir path) :
    ∃ fs', createDirAll fs dir path mode = .ok fs' ∧ fs.Paved dir path mode fs' ∧
      ∀ ds, ds <+: path → ds ≠ [] → fs'.DirAt (dir ++ ds) := by
  unfold createDirAll
  -- From the end of the path back: `mkdir` is tried for the whole path first, and for the path
  -- above it where that fails.
  induction path using List.reverseRecOn with
  | nil => exact ⟨fs, rfl, Fs.Paved.refl fs dir [] mode,
      fun ds hds hne => absurd (List.prefix_nil.1 hds) hne⟩
  | append_singleton up c ih =>
    have hpath : (c :: up.reverse).reverse = up ++ [c] := by simp
    rw [List.reverse_append, List.reverse_singleton, List.singleton_append, createDirAllRev, hpath]
    by_cases hway : fs.Way dir (up ++ [c])
    · -- The directories on the way are there.
      have hdirs : ∀ ds, ds <+: up → ds ≠ [] → fs.DirAt (dir ++ ds) := fun ds hds hds0 => by
        refine hway ds (hds.trans (List.prefix_append _ _)) hds0 ?_
        rintro rfl
        have := hds.length_le
        rw [List.length_append, List.length_singleton] at this
        omega
      obtain ⟨hne, hor⟩ := orDir_mkdir hreal hclear (Fs.Paved.refl fs dir up mode) hdirs
      split
      · exact absurd ‹_› hne
      · exact hor
    · -- One is missing: those above the last one are made first.
      have hmk : mkdir fs dir (up ++ [c]) mode = .error .noent := by
        unfold mkdir make
        rw [resolve_of_gap hreal hclear.way_or_gap hway]
      obtain ⟨fs₁, hrun, hpaved, hdirs⟩ := ih (fun x hx => hreal x (List.mem_append_left _ hx))
        fun ds hds => hclear ds (hds.trans (List.prefix_append _ _))
      rw [hmk]
      dsimp only
      rw [hrun]
      exact (orDir_mkdir hreal hclear hpaved hdirs).2

end Ways

end Lib.Posix
