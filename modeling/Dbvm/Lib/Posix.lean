import Mathlib.Data.Int.Notation
import Dbvm.Lib.Table

/-!
# File trees

A file tree as the kernel keeps it: nodes by their location, which is the list of names from the
root of the file system. `resolve` is the kernel's walk along a path: a link that is not the last
component is always followed, the last one if the call asks for it, and forty links are followed at
most.
-/

namespace Lib.Posix

/-- A name, or any text. -/
abbrev Name := List Char

/-- A location: the names from the root of the file system. -/
abbrev Loc := List Name

/-- What is at a location. -/
inductive Node where
  /-- A regular file: its bytes, permission bits and modification time in nanoseconds, and whether
  it can be opened. -/
  | file (data : List UInt8) (mode : ℕ) (mtimeNs : ℤ) (readable : Bool)
  /-- A directory: its permission bits, and whether it can be listed. -/
  | dir (mode : ℕ) (listable : Bool)
  /-- A symbolic link. -/
  | link (target : Name)
  /-- A socket, a fifo or a device. -/
  | special (mode : ℕ)
  deriving DecidableEq

/-- Why a call fails. -/
inductive Errno where
  /-- No such file or directory. -/
  | noent
  /-- Not a directory. -/
  | notDir
  /-- Is a directory. -/
  | isDir
  /-- Too many levels of links. -/
  | loop
  /-- File exists. -/
  | exist
  /-- Directory not empty. -/
  | notEmpty
  /-- Permission denied. -/
  | access
  deriving DecidableEq

/-- A file tree. The root is a directory. -/
abbrev Fs := Table Loc Node

/-- The node at a location. -/
def Fs.node (fs : Fs) (loc : Loc) : Option Node :=
  if loc = [] then some (.dir 0o755 true) else fs.get? loc

/-! ## Resolution -/

/-- One pass over the components of a path, from the directory `cur`: the location they lead to, or
the first link to follow, with the directory it is in and the components after it. -/
def scan (fs : Fs) (follow : Bool) : Loc → List Name → Except Errno (Loc ⊕ (Loc × Name × List Name))
  | cur, [] => .ok (.inl cur)
  | cur, c :: rest =>
    if c = [] ∨ c = ['.'] then scan fs follow cur rest
    else if c = ['.', '.'] then scan fs follow cur.dropLast rest
    else
      match Fs.node fs (cur ++ [c]) with
      | none => if rest = [] then .ok (.inl (cur ++ [c])) else .error .noent
      | some (.dir ..) => scan fs follow (cur ++ [c]) rest
      | some (.link t) =>
        if rest = [] ∧ follow = false then .ok (.inl (cur ++ [c])) else .ok (.inr (cur, t, rest))
      | some _ => if rest = [] then .ok (.inl (cur ++ [c])) else .error .notDir

/-- The location a path leads to. A location without a node is one where the last component can be
created. -/
def resolve (fs : Fs) (follow : Bool) : ℕ → Loc → List Name → Except Errno Loc
  | fuel, cur, path =>
    match scan fs follow cur path with
    | .error e => .error e
    | .ok (.inl loc) => .ok loc
    | .ok (.inr (dir, target, rest)) =>
      match fuel with
      | 0 => .error .loop
      | fuel + 1 =>
        resolve fs follow fuel (if target.head? = some '/' then [] else dir)
          (target.splitOn '/' ++ rest)

/-- The number of links the kernel follows. -/
def maxLinks : ℕ := 40

/-- `lstat` of a path below a directory: the last component is not followed. -/
def lstat (fs : Fs) (dir : Loc) (path : Name) : Except Errno (Loc × Node) :=
  match resolve fs false maxLinks dir (path.splitOn '/') with
  | .error e => .error e
  | .ok loc =>
    match Fs.node fs loc with
    | some n => .ok (loc, n)
    | none => .error .noent

/-- `unlink` of a path below a directory: the last component is not followed. -/
def unlink (fs : Fs) (dir : Loc) (path : Name) : Except Errno Fs :=
  match lstat fs dir path with
  | .error e => .error e
  | .ok (_, .dir ..) => .error .isDir
  | .ok (loc, _) => .ok (fs.deleteWhere fun l _ => l = loc)

/-! ## Walks -/

/-- `loc` is strictly below `dir`. -/
def Loc.below (dir loc : Loc) : Bool := dir.isPrefixOf loc && dir.length < loc.length

/-- A directory above `loc`, `dir` or below it, that cannot be listed. -/
def Fs.blocked (fs : Fs) (dir loc : Loc) : Bool := fs.rows.any fun r =>
  (r.1 = dir || Loc.below dir r.1) && Loc.below r.1 loc && r.2 matches .dir _ false

/-- The entries below a directory, links not followed; `none` where a directory cannot be listed, or
if the first one is not there. The rows of the tree give the order. -/
def walk (fs : Fs) (dir : Loc) : List (Option (Loc × Node)) :=
  (match Fs.node fs dir with
    | none => [none]
    | some (.dir _ false) => [none]
    | some _ => []) ++
  (fs.rows.filter fun r => Loc.below dir r.1 && !fs.blocked dir r.1).flatMap fun r =>
    match r.2 with
    | .dir _ false => [some r, none]
    | _ => [some r]

/-- Below a directory are the locations that extend its own. -/
theorem Loc.below_iff {dir loc : Loc} :
    Loc.below dir loc = true ↔ ∃ ds, ds ≠ [] ∧ loc = dir ++ ds := by
  unfold Loc.below
  rw [Bool.and_eq_true, List.isPrefixOf_iff_prefix, decide_eq_true_iff]
  constructor
  · rintro ⟨⟨ds, rfl⟩, hlen⟩
    refine ⟨ds, ?_, rfl⟩
    rintro rfl
    simp at hlen
  · rintro ⟨ds, hds, rfl⟩
    have := List.length_pos_iff.2 hds
    exact ⟨List.prefix_append dir ds, by rw [List.length_append]; omega⟩

section Listed

variable {fs : Fs} {tree : Loc}

/-- A location is blocked iff a directory above it, at or below the start, cannot be listed. -/
theorem blocked_iff {dir loc : Loc} : fs.blocked dir loc = true ↔ ∃ up mode,
    fs.get? up = some (.dir mode false) ∧ (up = dir ∨ Loc.below dir up = true) ∧
    Loc.below up loc = true := by
  unfold Fs.blocked
  rw [List.any_eq_true]
  constructor
  · rintro ⟨⟨up, unode⟩, hmem, hup⟩
    simp only [Bool.and_eq_true, Bool.or_eq_true, decide_eq_true_iff] at hup
    obtain ⟨⟨hwhere, habove⟩, hkind⟩ := hup
    rcases unode with _ | ⟨mode, _ | _⟩ | _ | _
    · cases hkind
    · exact ⟨up, mode, Table.get?_eq_some_iff.2 hmem, hwhere, habove⟩
    · cases hkind
    · cases hkind
    · cases hkind
  · rintro ⟨up, mode, hup, hwhere, habove⟩
    refine ⟨(up, .dir mode false), Table.get?_eq_some_iff.1 hup, ?_⟩
    simp only [Bool.and_eq_true, Bool.or_eq_true, decide_eq_true_iff]
    exact ⟨⟨hwhere, habove⟩, trivial⟩

/-- A walk without errors meets no directory that cannot be listed. -/
theorem listable_of_walk (hroot : fs.get? [] = none) (h : none ∉ walk fs tree) :
    ∀ (n : ℕ) {dir : Loc} {mode : ℕ}, dir.length = n → fs.get? dir = some (.dir mode false) →
      dir ≠ tree ∧ Loc.below tree dir ≠ true
  | n, dir, mode, hn, hdir => by
    have htree : dir ≠ tree := by
      rintro rfl
      have hne : dir ≠ [] := by
        rintro rfl
        rw [hroot] at hdir
        cases hdir
      refine h (List.mem_append_left _ ?_)
      rw [Fs.node, if_neg hne, hdir]
      exact List.mem_singleton.2 rfl
    refine ⟨htree, fun hbelow => h (List.mem_append_right _ (List.mem_flatMap.2
      ⟨(dir, .dir mode false), ?_, by simp⟩))⟩
    rw [List.mem_filter, Bool.and_eq_true, Bool.not_eq_true', ← Bool.not_eq_true, blocked_iff]
    refine ⟨Table.get?_eq_some_iff.1 hdir, hbelow, ?_⟩
    -- A directory above it that cannot be listed would be nearer to the root.
    rintro ⟨up, umode, hup, hwhere, habove⟩
    obtain ⟨ds, hds, hdir'⟩ := Loc.below_iff.1 habove
    change dir = up ++ ds at hdir'
    have hlt : up.length < n := by
      have := List.length_pos_iff.2 hds
      rw [← hn, hdir', List.length_append]
      omega
    obtain ⟨hne, hnot⟩ := listable_of_walk hroot h up.length rfl hup
    exact hwhere.elim hne fun hb => hnot hb

/-- The entries a walk meets. -/
theorem mem_walk_iff {loc : Loc} {node : Node} : some (loc, node) ∈ walk fs tree ↔
    fs.get? loc = some node ∧ Loc.below tree loc = true ∧ fs.blocked tree loc = false := by
  have hfirst : some (loc, node) ∉ (match Fs.node fs tree with
      | none => [none]
      | some (.dir _ false) => [none]
      | some _ => [] : List (Option (Loc × Node))) := by
    split <;> simp
  have hone : ∀ r : Loc × Node, some (loc, node) ∈ (match r.2 with
      | .dir _ false => [some r, none]
      | _ => [some r]) ↔ r = (loc, node) := by
    intro r
    split <;> simp [eq_comm]
  unfold walk
  rw [List.mem_append, or_iff_right hfirst, List.mem_flatMap]
  constructor
  · rintro ⟨r, hr, hmem⟩
    rw [(hone r).1 hmem, List.mem_filter, Bool.and_eq_true, Bool.not_eq_true'] at hr
    exact ⟨Table.get?_eq_some_iff.2 hr.1, hr.2.1, hr.2.2⟩
  · rintro ⟨hget, hbelow, hfree⟩
    refine ⟨(loc, node), List.mem_filter.2 ⟨Table.get?_eq_some_iff.1 hget, ?_⟩, (hone _).2 rfl⟩
    rw [hbelow, hfree]
    rfl

/-- A walk without errors meets every entry. -/
theorem mem_walk (hroot : fs.get? [] = none) (h : none ∉ walk fs tree) {loc : Loc} {node : Node} :
    some (loc, node) ∈ walk fs tree ↔ fs.get? loc = some node ∧ Loc.below tree loc = true := by
  have hfree : fs.blocked tree loc = false := by
    rw [← Bool.not_eq_true, blocked_iff]
    rintro ⟨up, mode, hup, hwhere, -⟩
    obtain ⟨hne, hnot⟩ := listable_of_walk hroot h up.length rfl hup
    exact hwhere.elim hne fun hb => hnot hb
  rw [mem_walk_iff, and_iff_left hfree]

/-- What is above an entry that a walk meets is met. -/
theorem mem_walk_up {loc : Loc} {c : Name} {node up : Node}
    (h : some (loc ++ [c], node) ∈ walk fs tree) (hup : fs.get? loc = some up)
    (hbelow : Loc.below tree loc = true) : some (loc, up) ∈ walk fs tree := by
  rw [mem_walk_iff] at h ⊢
  refine ⟨hup, hbelow, ?_⟩
  rw [← Bool.not_eq_true, blocked_iff]
  rintro ⟨dir, mode, hdir, hwhere, habove⟩
  have hblocked : fs.blocked tree (loc ++ [c]) = true := by
    obtain ⟨ds, hds, heq⟩ := Loc.below_iff.1 habove
    refine blocked_iff.2 ⟨dir, mode, hdir, hwhere, Loc.below_iff.2 ⟨ds ++ [c], by simp, ?_⟩⟩
    rw [show loc = dir ++ ds from heq, List.append_assoc]
  rw [hblocked] at h
  cases h.2.2

/-- A walk meets no location twice. -/
theorem walk_pairwise (fs : Fs) (dir : Loc) :
    (walk fs dir).Pairwise fun a b => ∀ x y, a = some x → b = some y → x.1 ≠ y.1 := by
  have hone : ∀ r : Loc × Node, ∀ a ∈ (match r.2 with
      | .dir _ false => [some r, none]
      | _ => [some r]), ∀ x, a = some x → x = r := by
    rintro ⟨loc, node⟩ a ha x rfl
    dsimp only at ha
    split at ha <;> simpa using ha
  unfold walk
  rw [List.pairwise_append]
  -- The entry of the root comes first, the others from different rows of the table.
  refine ⟨?_, ?_, fun a ha b _ x _ hx => ?_⟩
  · split
    · exact List.pairwise_singleton _ _
    · exact List.pairwise_singleton _ _
    · exact List.Pairwise.nil
  · rw [List.pairwise_flatMap]
    constructor
    · rintro ⟨loc, node⟩ -
      dsimp only
      split <;> simp
    · have hrows : (fs.rows.filter fun r => Loc.below dir r.1 && !fs.blocked dir r.1).Pairwise
          fun r r' => r.1 ≠ r'.1 :=
        (List.pairwise_map.1 fs.nodup).sublist List.filter_sublist
      refine hrows.imp fun hne a ha b hb x y hx hy => ?_
      rw [hone _ a ha x hx, hone _ b hb y hy]
      exact hne
  · rw [hx] at ha
    split at ha <;> simp at ha

end Listed

end Lib.Posix
