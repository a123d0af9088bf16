import Dbvm.Entries
import Dbvm.Lib.Replay
import Dbvm.Overlay.Rows

/-!
# What the import of an archive applies

The import of a tar archive (`vm_import_tar_filtered`) as a replay of writes to the tree: every
member that is selected puts one node at its VM path, after the directories above it. A node shows
what a path holds: the kind, the mode, the time, and the content of a file by its address, which is
its size, its hash and the keys of its chunks.

The import should select by whole components of paths, count the members it applies, and store
permission bits. It compares texts instead, counts a link that has no target, and stores the mode of
the header.
-/

namespace Dbvm

open Lib Lib.Chunks Lib.Prog Lib.Replay

variable {K : Type} [DecidableEq K] {E : Ext K} {opts : TarOptions} {now : ℤ} {d d' db db' : Db K}

/-! ## The loop -/

/-- The loop over the members, with the number of those that have been counted. The commits in
between leave the content of the database as it is. -/
def importTarLoop (E : Ext K) (opts : TarOptions) (now : ℤ) : ℕ → List (Except Err TarEntry) →
    Sql K ℕ
  | n, [] => pure n
  | n, e :: es => do
    importEntry E opts now e
    importTarLoop E opts now (if opts.counts e then n + 1 else n) es

/-- `vm_import_tar_filtered`, of the members that the archive has. -/
def vmImportTarFiltered (E : Ext K) (opts : TarOptions) (now : ℤ)
    (entries : List (Except Err TarEntry)) : Sql K ℕ :=
  importTarLoop E opts now 0 entries

/-- The tests of the loop on a member's name. -/
def TarOptions.takes (opts : TarOptions) (path : Str) : Bool :=
  let p := tarVmPath path opts.strip
  p ≠ [] && p ≠ root && !opts.skips p

/-! ## The tree -/

/-- What a path holds. -/
inductive VmNode (K : Type) where
  /-- A directory. -/
  | dir (mode mtime : ℤ)
  /-- A link. -/
  | link (mode mtime : ℤ) (target : Option Str)
  /-- A regular file: its content is known by size, hash and chunk keys, or it is in the row. -/
  | file (mode mtime : ℤ) (size : ℕ) (hash : FileHash K) (inline : Option Bytes)
      (keys : ℕ → Option K)

namespace VmNode

/-- The mode of a node. -/
def mode : VmNode K → ℤ
  | dir m _ => m
  | link m _ _ => m
  | file m _ _ _ _ _ => m

/-- A node with permission bits only. -/
def permitted : VmNode K → VmNode K
  | dir m t => dir (m % 4096) t
  | link m t target => link (m % 4096) t target
  | file m t size hash inline keys => file (m % 4096) t size hash inline keys

omit [DecidableEq K] in
/-- Permission bits are kept iff they are within the twelve. -/
theorem permitted_eq_iff {node : VmNode K} :
    node.permitted = node ↔ 0 ≤ node.mode ∧ node.mode ≤ 0o7777 := by
  have hmod : ∀ m : ℤ, m % 4096 = m ↔ 0 ≤ m ∧ m ≤ 4095 := by
    intro m
    constructor
    · intro h
      omega
    · intro h
      omega
  cases node with
  | dir m t => rw [permitted, VmNode.dir.injEq, hmod, mode, and_iff_left rfl]
  | link m t target => rw [permitted, VmNode.link.injEq, hmod, mode, and_iff_left ⟨rfl, rfl⟩]
  | file m t size hash inline keys =>
    rw [permitted, VmNode.file.injEq, hmod, mode, and_iff_left ⟨rfl, rfl, rfl, rfl, rfl⟩]

end VmNode

/-- The node of a row. -/
def FsRow.node (row : FsRow K) (keys : ℕ → Option K) : VmNode K :=
  match row.kind with
  | .dir => .dir row.mode row.mtime
  | .symlink => .link row.mode row.mtime row.linkTarget
  | .file => .file row.mode row.mtime row.size row.hash row.content keys

/-- The tree of a database. -/
def Db.nodeAt (db : Db K) : Str → Option (VmNode K) := fun p =>
  (db.fs.get? p).map fun row => row.node fun i => db.chunks.get? (p, i)

/-- A file with a content. -/
def fileNode (E : Ext K) (mode mtime : ℤ) (data : Bytes) : VmNode K :=
  .file mode mtime data.length (.key (E.blobKey data)) none (chunkRow E data)

/-! ## What should be applied -/

/-- The components of a path, as `Path::components` gives them: whether it begins at the root, and
the names. -/
def pathComponents (s : Str) : Bool × List Str :=
  (s.head? = some '/', (s.splitOn '/').filter fun c => c ≠ [] && c ≠ ['.'])

/-- A path is at or below another one. -/
def atOrBelow (q w : Str) : Bool :=
  (pathComponents w).1 = (pathComponents q).1 && (pathComponents w).2.isPrefixOf
  (pathComponents q).2

/-- The VM path at which a member is stored. -/
def TarOptions.vmPath (opts : TarOptions) (path : Str) : Str :=
  normalizeVmPath (tarVmPath path opts.strip)

/-- A member is selected: by whole components. -/
def TarOptions.selects (opts : TarOptions) (path : Str) : Bool :=
  let q := opts.vmPath path
  q ≠ root && (opts.whitelist = [] || opts.whitelist.any fun w => atOrBelow q w || atOrBelow w q) &&
    !opts.exclude.any fun x => atOrBelow q x

/-- The comparison of an entry of the whitelist with a path, as texts. -/
def textNear (w p : Str) : Bool := w.isPrefixOf p || p.isPrefixOf w

/-- The comparison of an entry of the exclude list with a path, as texts. -/
def textUnder (x p : Str) : Bool := p = x || (x ++ ['/']).isPrefixOf p

/-- An entry of the whitelist and a path lie on one line of directories, by components. -/
def near (w q : Str) : Bool := atOrBelow q w || atOrBelow w q

/-- A member on which the comparisons of texts and of components come to the same result: where they
differ on an entry of a list, another entry, or the root, decides. The texts are compared with the
path `p` of the member, which is normalised once more, to `q`, when the member is stored. -/
structure TarOptions.Judges (opts : TarOptions) (path : Str) : Prop where
  /-- A name of which only blanks are left is not taken. -/
  blank : opts.vmPath path = root → opts.takes path = false
  /-- An entry of the whitelist that is near as a text only, as `/usr/lib` is to `/usr/lib64`. -/
  torn : opts.vmPath path ≠ root → ∀ w ∈ opts.whitelist,
    textNear w (tarVmPath path opts.strip) = true →
    near w (opts.vmPath path) = false → (∃ w' ∈ opts.whitelist, near w' (opts.vmPath path) = true) ∨
      ∃ x ∈ opts.exclude, textUnder x (tarVmPath path opts.strip) = true
  /-- An entry of the whitelist that is near by components only, as `/usr//lib` is to `/usr/lib`. -/
  missed : opts.vmPath path ≠ root → ∀ w ∈ opts.whitelist, near w (opts.vmPath path) = true →
    textNear w (tarVmPath path opts.strip) = false →
      (∃ w' ∈ opts.whitelist, textNear w' (tarVmPath path opts.strip) = true) ∨
        ∃ x ∈ opts.exclude, atOrBelow (opts.vmPath path) x = true
  /-- An entry of the exclude list that holds the path by components only, as `/usr/` holds
  `/usr/lib`. -/
  kept : opts.vmPath path ≠ root → ∀ x ∈ opts.exclude, atOrBelow (opts.vmPath path) x = true →
    textUnder x (tarVmPath path opts.strip) = false →
      (∃ x' ∈ opts.exclude, textUnder x' (tarVmPath path opts.strip) = true) ∨
        opts.whitelist ≠ [] ∧ ∀ w ∈ opts.whitelist, textNear w (tarVmPath path opts.strip) = false
  /-- An entry of the exclude list that holds the path as a text only, as the empty one does. -/
  dropped : opts.vmPath path ≠ root → ∀ x ∈ opts.exclude,
    textUnder x (tarVmPath path opts.strip) = true →
    atOrBelow (opts.vmPath path) x = false →
      (∃ x' ∈ opts.exclude, atOrBelow (opts.vmPath path) x' = true) ∨
      opts.whitelist ≠ [] ∧ ∀ w ∈ opts.whitelist, near w (opts.vmPath path) = false

/-- Whether a member of a kind puts a node into the tree. An import ends at a member that cannot be
read. -/
def TarKind.stores : TarKind → Bool
  | .symlink (.ok none) => false
  | .hardLink (.ok none) => false
  | .other => false
  | _ => true

/-- A member is applied: it is selected and puts a node into the tree. -/
def TarOptions.applies (opts : TarOptions) (entry : Except Err TarEntry) : Bool :=
  match entry with
  | .error _ => false
  | .ok e =>
    match e.path with
    | .error _ => false
    | .ok path => opts.selects path && e.kind.stores

/-- The write of one member, if it passes a test. What a hard link names is read as it is at this
point. -/
def memberWrite (E : Ext K) (opts : TarOptions) (now : ℤ) (test : Str → Bool)
    (read : Str → Except Err Bytes)
    (entry : Except Err TarEntry) : Option (Write Str (VmNode K)) :=
  match entry with
  | .error _ => none
  | .ok e =>
    match e.path with
    | .error _ => none
    | .ok path =>
      let q := opts.vmPath path
      let put := fun node => some ⟨parentDirs q, .dir 493 now, q, node⟩
      if test path then
        match e.kind with
        | .dir => put (.dir e.mode e.mtime)
        | .symlink (.ok (some t)) => put (.link 511 now (some t))
        | .hardLink (.ok (some t)) =>
          match read (tarVmPath t opts.strip) with
          | .ok data => put (fileNode E e.mode e.mtime data)
          | .error _ => none
        | .file (.ok data) => put (fileNode E e.mode e.mtime data)
        | _ => none
      else none

/-- The writes of the members that pass a test, along a run of the import. -/
def tarWrites (E : Ext K) (opts : TarOptions) (now : ℤ) (test : Str → Bool) :
    List (Except Err TarEntry) → Db K → List (Write Str (VmNode K))
  | [], _ => []
  | e :: es, d => (memberWrite E opts now test (vmCat E d) e).toList ++
      tarWrites E opts now test es (endState (importEntry E opts now e) d)

/-- An import has applied the archive: the members that it takes are those that are selected, the
tree is the one before with their nodes put into it in the order of the archive, with permission
bits only, and the number that is returned is theirs. -/
structure AppliesArchive (E : Ext K) (opts : TarOptions) (now : ℤ)
    (entries : List (Except Err TarEntry))
    (db : Db K) (n : ℕ) (db' : Db K) : Prop where
  /-- The selection. -/
  selected : ∀ e path, .ok e ∈ entries → e.path = .ok path → opts.takes path = opts.selects path
  /-- The tree. -/
  tree : db'.nodeAt =
    replay ((tarWrites E opts now opts.selects entries db).map (Write.revalue VmNode.permitted))
    db.nodeAt
  /-- The number. -/
  count : n = entries.countP opts.applies

/-- The path and the mode with which a member is stored, if it is. -/
def storedMode (opts : TarOptions) (entry : Except Err TarEntry) : Option (Str × ℤ) :=
  match entry with
  | .error _ => none
  | .ok e =>
    match e.path with
    | .error _ => none
    | .ok path =>
      if opts.takes path && e.kind.stores then
        some (opts.vmPath path, match e.kind with
          | .symlink _ => 511
          | _ => e.mode)
      else none

/-- An archive that the import applies: no entry of the lists tears one of its names, or it does not
matter; every link has a target, and of the members stored at one path the last has only permission
bits in its mode. -/
structure TarOptions.Applicable (opts : TarOptions) (entries : List (Except Err TarEntry)) :
    Prop where
  /-- The names. -/
  names : ∀ e path, .ok e ∈ entries → e.path = .ok path → opts.Judges path
  /-- The links. -/
  targets : ∀ e path, .ok e ∈ entries → e.path = .ok path → opts.takes path = true →
    e.kind ≠ .symlink (.ok none)
  /-- The modes. -/
  modes : LastGood (fun m => 0 ≤ m ∧ m ≤ 0o7777) (entries.filterMap (storedMode opts))

/-! ## The two tests -/

section Tests

variable {p q w : Str}

/-- Two paths that lie on one line of directories. -/
def touches (w p : Str) : Prop := p = w ∨ w = root ∨ p = root ∨ Below w p ∨ Below p w

instance (w p : Str) : Decidable (touches w p) := inferInstanceAs (Decidable (_ ∨ _))

/-- One text begins with the other one, which ends within a name. -/
def torn (w p : Str) : Prop := (w <+: p ∨ p <+: w) ∧ ¬ touches w p

/-- An option list as it is meant: normal paths. -/
structure TarOptions.Plain (opts : TarOptions) : Prop where
  /-- The whitelist. -/
  whitelist : ∀ w ∈ opts.whitelist, Normal w
  /-- What is left out. The root is not. -/
  exclude : ∀ x ∈ opts.exclude, Normal x ∧ x ≠ root

/-- The components of an absolute path are its names. -/
theorem pathComponents_ofNames {cs : List Str} (hne : cs ≠ []) (hcs : ∀ c ∈ cs, IsName c) :
    pathComponents (ofNames cs) = (true, cs) := by
  have hhead : (ofNames cs).head? = some '/' := by
    obtain ⟨c, ds, rfl⟩ := List.exists_cons_of_ne_nil hne
    rfl
  have hnames : ((ofNames cs).splitOn '/').filter (fun c => c ≠ [] && c ≠ ['.']) = cs := by
    rw [splitOn_ofNames hne hcs, List.filter_cons_of_neg (by simp), List.filter_eq_self]
    intro c hc
    simp [(hcs c hc).ne_nil, (hcs c hc).ne_dot]
  unfold pathComponents
  rw [hhead, hnames]
  rfl

/-- Names are an initial part iff the path is the same or lies below. -/
theorem prefix_ofNames_iff {cs ds : List Str} (hcs : ∀ c ∈ cs, IsName c)
    (hds : ∀ d ∈ ds, IsName d) :
    cs <+: ds ↔ ofNames ds = ofNames cs ∨ Below (ofNames cs) (ofNames ds) := by
  constructor
  · rintro ⟨es, rfl⟩
    rcases es with _ | ⟨e, es⟩
    · left
      rw [List.append_nil]
    · right
      refine ⟨e ++ ofNames es, ?_⟩
      rw [ofNames_append, ofNames_cons, List.append_assoc, List.cons_append]
      rfl
  · rintro (heq | hbelow)
    · rw [ofNames_inj hds hcs heq]
    · have hmem := mem_slashPrefixes.2 hbelow
      rw [slashPrefixes_ofNames fun d hd => (hds d hd).no_slash, List.mem_map] at hmem
      obtain ⟨es, hes, heq⟩ := hmem
      have hpre : es <+: ds := (List.mem_inits _ _).1 (List.mem_of_mem_dropLast hes)
      rw [ofNames_inj (fun e he => hds e (hpre.subset he)) hcs heq] at hpre
      exact hpre

/-- On normal paths, the components of one begin those of the other exactly if it is the root, the
same path or one above. -/
theorem atOrBelow_iff (hq : Normal q) (hw : Normal w) :
    atOrBelow q w = true ↔ w = root ∨ q = w ∨ Below w q := by
  have hroot : pathComponents root = (true, []) := by decide
  unfold atOrBelow
  rw [Bool.and_eq_true, decide_eq_true_eq, List.isPrefixOf_iff_prefix]
  rcases hw.shape with rfl | ⟨cs, hne, hcs, rfl⟩
  · rcases hq.shape with rfl | ⟨ds, hne', hds, rfl⟩
    · simp [hroot]
    · simp [hroot, pathComponents_ofNames hne' hds]
  · have hw' : ofNames cs ≠ root := ofNames_ne_root hcs
    rcases hq.shape with rfl | ⟨ds, hne', hds, rfl⟩
    · simp [hroot, pathComponents_ofNames hne hcs, hne, hw', hw'.symm, not_below_root hw.ne_nil]
    · simp [pathComponents_ofNames hne hcs, pathComponents_ofNames hne' hds,
        prefix_ofNames_iff hcs hds, hw']

/-- The test asks whether one of two paths is at or below the other. -/
theorem touches_iff (hp : Normal p) (hw : Normal w) :
    (atOrBelow p w || atOrBelow w p) = true ↔ touches w p := by
  rw [Bool.or_eq_true, atOrBelow_iff hp hw, atOrBelow_iff hw hp]
  unfold touches
  constructor
  · rintro ((h | h | h) | (h | h | h))
    · exact Or.inr (Or.inl h)
    · exact Or.inl h
    · exact Or.inr (Or.inr (Or.inr (Or.inl h)))
    · exact Or.inr (Or.inr (Or.inl h))
    · exact Or.inl h.symm
    · exact Or.inr (Or.inr (Or.inr (Or.inr h)))
  · rintro (h | h | h | h | h)
    · exact Or.inl (Or.inr (Or.inl h))
    · exact Or.inl (Or.inl h)
    · exact Or.inr (Or.inl h)
    · exact Or.inl (Or.inr (Or.inr h))
    · exact Or.inr (Or.inr (Or.inr h))

/-- Paths on one line of directories begin with one another as texts. -/
theorem prefix_of_touches (hp : Normal p) (hw : Normal w) (h : touches w p) :
    w <+: p ∨ p <+: w := by
  have hroot : ∀ {s : Str}, Normal s → root <+: s := by
    intro s hs
    obtain ⟨s', rfl⟩ := hs.eq_cons
    exact ⟨s', rfl⟩
  rcases h with rfl | rfl | rfl | hb | hb
  · exact Or.inl (List.prefix_refl _)
  · exact Or.inl (hroot hp)
  · exact Or.inr (hroot hw)
  · exact Or.inl ((List.prefix_append w ['/']).trans hb)
  · exact Or.inr ((List.prefix_append p ['/']).trans hb)

/-- A member that the code takes. -/
theorem takes_iff {path : Str} : opts.takes path = true ↔
    ¬ (tarVmPath path opts.strip = [] ∨ tarVmPath path opts.strip = root) ∧
      opts.skips (tarVmPath path opts.strip) = false := by
  unfold TarOptions.takes
  simp only [Bool.and_eq_true, decide_eq_true_eq, Bool.not_eq_true', not_or, ne_eq]

/-- A path is taken iff the whitelist is empty or touches it, and no exclusion covers it. -/
theorem skips_eq_false : opts.skips p = false ↔
    (opts.whitelist = [] ∨ ∃ w ∈ opts.whitelist, w <+: p ∨ p <+: w) ∧
      ¬ ∃ x ∈ opts.exclude, (p = x || (x ++ ['/']).isPrefixOf p) = true := by
  have hex : (opts.exclude.any fun x => p = x || (x ++ ['/']).isPrefixOf p) = false ↔
      ¬ ∃ x ∈ opts.exclude, (p = x || (x ++ ['/']).isPrefixOf p) = true := by
    rw [← Bool.not_eq_true, List.any_eq_true]
  unfold TarOptions.skips
  rw [Bool.or_eq_false_iff, hex]
  refine and_congr_left fun _ => ?_
  by_cases hnil : opts.whitelist = []
  · simp [hnil]
  · simp [hnil, ← List.isPrefixOf_iff_prefix]

/-- A member that is selected. -/
theorem selects_iff {path : Str} : opts.selects path = true ↔ opts.vmPath path ≠ root ∧
    (opts.whitelist = [] ∨ ∃ w ∈ opts.whitelist, near w (opts.vmPath path) = true) ∧
      ¬ ∃ x ∈ opts.exclude, atOrBelow (opts.vmPath path) x = true := by
  unfold TarOptions.selects near
  dsimp only
  rw [Bool.and_eq_true, Bool.and_eq_true, Bool.or_eq_true, decide_eq_true_eq, decide_eq_true_eq,
    Bool.not_eq_true',
    ← Bool.not_eq_true, List.any_eq_true, List.any_eq_true, and_assoc]

/-- A member whose stored path is not the root is taken by the texts of the lists. -/
theorem takes_iff_of_ne {path : Str} (hq : opts.vmPath path ≠ root) : opts.takes path = true ↔
    (opts.whitelist = [] ∨ ∃ w ∈ opts.whitelist, textNear w (tarVmPath path opts.strip) = true) ∧
      ¬ ∃ x ∈ opts.exclude, textUnder x (tarVmPath path opts.strip) = true := by
  have hp : ¬ (tarVmPath path opts.strip = [] ∨ tarVmPath path opts.strip = root) := by
    rintro (hnil | hroot)
    · refine hq ?_
      unfold TarOptions.vmPath
      rw [hnil]
      decide
    · refine hq ?_
      unfold TarOptions.vmPath
      rw [hroot]
      decide
  rw [takes_iff, and_iff_right hp, skips_eq_false]
  simp only [textNear, textUnder, Bool.or_eq_true, List.isPrefixOf_iff_prefix]

/-- The two comparisons agree on a member exactly when every entry on which they differ does not
matter. -/
theorem takes_eq_selects_iff_judges {path : Str} :
    opts.takes path = opts.selects path ↔ opts.Judges path := by
  -- The root is never taken. Elsewhere both tests are an `and` of whitelist and exclusions,
  -- compared from both sides.
  by_cases hq : opts.vmPath path = root
  · have hsel : opts.selects path = false := by
      rw [← Bool.not_eq_true, selects_iff]
      exact fun h => h.1 hq
    rw [hsel]
    exact ⟨fun h => ⟨fun _ => h, fun h' => absurd hq h', fun h' => absurd hq h',
      fun h' => absurd hq h',
      fun h' => absurd hq h'⟩, fun h => h.blank hq⟩
  rw [Bool.eq_iff_iff, takes_iff_of_ne hq, selects_iff, and_iff_right hq]
  constructor
  · intro heq
    refine ⟨fun h => absurd h hq, fun _ w hw ht hn => ?_, fun _ w hw hn ht => ?_,
      fun _ x hx hu ht => ?_,
      fun _ x hx ht hu => ?_⟩
    · -- The texts take the path, unless an entry excludes it.
      by_cases hex : ∃ x ∈ opts.exclude, textUnder x (tarVmPath path opts.strip) = true
      · exact Or.inr hex
      · obtain ⟨hnil | hnear, -⟩ := heq.1 ⟨Or.inr ⟨w, hw, ht⟩, hex⟩
        · rw [hnil] at hw
          cases hw
        · exact Or.inl hnear
    · by_cases hex : ∃ x ∈ opts.exclude, atOrBelow (opts.vmPath path) x = true
      · exact Or.inr hex
      · obtain ⟨hnil | hnear, -⟩ := heq.2 ⟨Or.inr ⟨w, hw, hn⟩, hex⟩
        · rw [hnil] at hw
          cases hw
        · exact Or.inl hnear
    · by_cases hex : ∃ x' ∈ opts.exclude, textUnder x' (tarVmPath path opts.strip) = true
      · exact Or.inl hex
      · right
        by_contra hlist
        refine (heq.1 ⟨?_, hex⟩).2 ⟨x, hx, hu⟩
        by_cases hnil : opts.whitelist = []
        · exact Or.inl hnil
        · right
          by_contra hnone
          exact hlist ⟨hnil, fun w hw => Bool.eq_false_iff.2 fun h => hnone ⟨w, hw, h⟩⟩
    · by_cases hex : ∃ x' ∈ opts.exclude, atOrBelow (opts.vmPath path) x' = true
      · exact Or.inl hex
      · right
        by_contra hlist
        refine (heq.2 ⟨?_, hex⟩).2 ⟨x, hx, ht⟩
        by_cases hnil : opts.whitelist = []
        · exact Or.inl hnil
        · right
          by_contra hnone
          exact hlist ⟨hnil, fun w hw => Bool.eq_false_iff.2 fun h => hnone ⟨w, hw, h⟩⟩
  · intro h
    constructor
    · rintro ⟨hlist, hout⟩
      constructor
      · refine hlist.imp_right fun ⟨w, hw, ht⟩ => ?_
        by_cases hn : near w (opts.vmPath path) = true
        · exact ⟨w, hw, hn⟩
        · exact (h.torn hq w hw ht (Bool.eq_false_iff.2 hn)).resolve_right hout
      · rintro ⟨x, hx, hu⟩
        by_cases ht : textUnder x (tarVmPath path opts.strip) = true
        · exact hout ⟨x, hx, ht⟩
        · obtain ⟨hne, hnone⟩ := (h.kept hq x hx hu (Bool.eq_false_iff.2 ht)).resolve_left hout
          obtain ⟨w, hw, hnear⟩ := hlist.resolve_left hne
          rw [hnone w hw] at hnear
          cases hnear
    · rintro ⟨hlist, hout⟩
      constructor
      · refine hlist.imp_right fun ⟨w, hw, hn⟩ => ?_
        by_cases ht : textNear w (tarVmPath path opts.strip) = true
        · exact ⟨w, hw, ht⟩
        · exact (h.missed hq w hw hn (Bool.eq_false_iff.2 ht)).resolve_right hout
      · rintro ⟨x, hx, ht⟩
        by_cases hu : atOrBelow (opts.vmPath path) x = true
        · exact hout ⟨x, hx, hu⟩
        · obtain ⟨hne, hnone⟩ := (h.dropped hq x hx ht (Bool.eq_false_iff.2 hu)).resolve_left hout
          obtain ⟨w, hw, hnear⟩ := hlist.resolve_left hne
          rw [hnone w hw] at hnear
          cases hnear

instance (opts : TarOptions) (path : Str) : Decidable (opts.Judges path) :=
  decidable_of_iff _ takes_eq_selects_iff_judges

/-- An entry of the exclude list takes out what is at it or below it. -/
theorem excludes_iff (hopts : opts.Plain) (hp : Normal p) {x : Str} (hx : x ∈ opts.exclude) :
    (p = x || (x ++ ['/']).isPrefixOf p) = true ↔ atOrBelow p x = true := by
  obtain ⟨hn, hne⟩ := hopts.exclude x hx
  rw [Bool.or_eq_true, decide_eq_true_eq, List.isPrefixOf_iff_prefix, atOrBelow_iff hp hn,
    or_iff_right hne]
  rfl

/-- With normal paths in the lists, only an entry of the whitelist that ends within a name of the
member's path, or the other way round, tears the two comparisons apart. -/
theorem judges_iff_of_plain {path : Str} (hopts : opts.Plain)
    (hp : Normal (tarVmPath path opts.strip)) :
    opts.Judges path ↔
      ((∃ w ∈ opts.whitelist, torn w (tarVmPath path opts.strip)) →
        tarVmPath path opts.strip = root ∨
          (∃ x ∈ opts.exclude, atOrBelow (tarVmPath path opts.strip) x = true) ∨
          ∃ w ∈ opts.whitelist, touches w (tarVmPath path opts.strip)) := by
  have hvm : opts.vmPath path = tarVmPath path opts.strip := hp
  rw [← takes_eq_selects_iff_judges]
  have htakes : opts.takes path = true ↔ tarVmPath path opts.strip ≠ root ∧
      (opts.whitelist = [] ∨ ∃ w ∈ opts.whitelist, w <+: tarVmPath path opts.strip ∨
        tarVmPath path opts.strip <+: w) ∧
      ¬ ∃ x ∈ opts.exclude, atOrBelow (tarVmPath path opts.strip) x = true := by
    rw [takes_iff, skips_eq_false, not_or]
    refine ⟨fun ⟨⟨_, hr⟩, hw, hx⟩ =>
      ⟨hr, hw, fun ⟨x, hmem, hb⟩ => hx ⟨x, hmem, (excludes_iff hopts hp hmem).2 hb⟩⟩,
      fun ⟨hr, hw, hx⟩ => ⟨⟨hp.ne_nil, hr⟩, hw, fun ⟨x, hmem, hb⟩ =>
        hx ⟨x, hmem, (excludes_iff hopts hp hmem).1 hb⟩⟩⟩
  have hselects : opts.selects path = true ↔ tarVmPath path opts.strip ≠ root ∧
      (opts.whitelist = [] ∨ ∃ w ∈ opts.whitelist, touches w (tarVmPath path opts.strip)) ∧
      ¬ ∃ x ∈ opts.exclude, atOrBelow (tarVmPath path opts.strip) x = true := by
    have htouch : (∃ w ∈ opts.whitelist, near w (tarVmPath path opts.strip) = true) ↔
          ∃ w ∈ opts.whitelist, touches w (tarVmPath path opts.strip) :=
      exists_congr fun w => and_congr_right fun hw => touches_iff hp (hopts.whitelist w hw)
    rw [selects_iff, hvm, htouch]
  rw [Bool.eq_iff_iff, htakes, hselects]
  generalize tarVmPath path opts.strip = p at hp
  -- On plain options both tests are about components, and they differ only for a path that an
  -- entry of the whitelist tears.
  constructor
  · intro heq htorn
    by_contra hnone
    obtain ⟨hr, hx, ht⟩ : p ≠ root ∧ (¬ ∃ x ∈ opts.exclude, atOrBelow p x = true) ∧
        ¬ ∃ w ∈ opts.whitelist, touches w p := by
      simpa only [not_or] using hnone
    obtain ⟨w, hw, htear⟩ := htorn
    obtain ⟨-, hnil | hsome, -⟩ := heq.1 ⟨hr, Or.inr ⟨w, hw, htear.1⟩, hx⟩
    · rw [hnil] at hw
      cases hw
    · exact ht hsome
  · intro hall
    refine and_congr_right fun hr => ?_
    by_cases hx : ∃ x ∈ opts.exclude, atOrBelow p x = true
    · exact iff_of_false (fun h => h.2 hx) fun h => h.2 hx
    · refine and_congr_left fun _ => or_congr_right ⟨?_, ?_⟩
      · rintro ⟨w, hw, hpre⟩
        by_cases ht : touches w p
        · exact ⟨w, hw, ht⟩
        · rcases hall ⟨w, hw, hpre, ht⟩ with h | h | h
          · exact absurd h hr
          · exact absurd h hx
          · exact h
      · rintro ⟨w, hw, ht⟩
        exact ⟨w, hw, prefix_of_touches hp (hopts.whitelist w hw) ht⟩

end Tests

/-! ## One member -/

section Member

variable {q : Str} {node : VmNode K} {u : Unit}

omit [DecidableEq K] in
/-- Nothing is at a path without a row. -/
theorem Db.nodeAt_eq_none {p : Str} :
    db.nodeAt p = none ↔ db.fs.get? p = none := Option.map_eq_none_iff

omit [DecidableEq K] in
/-- A node that is put at a path after the directories above it. -/
theorem nodeAt_of_put (hparents : ensureParentDirs q now d = .ok u d') {d₂ : Db K}
    (honly : OnlyAt q d' d₂) (hq : d₂.nodeAt q = some node) :
    d₂.nodeAt = (⟨parentDirs q, .dir 493 now, q, node⟩ : Write Str (VmNode K)).apply d.nodeAt := by
  funext p
  unfold Write.apply
  dsimp only
  by_cases hp : p = q
  · rw [if_pos hp, hp, hq]
  · have hrow : d₂.fs.get? p = if p ∈ parentDirs q ∧ d.fs.get? p = none then some (dirRow 493 now)
        else d.fs.get? p := (honly.fs p hp).trans (ensureParentDirs_rows hparents p)
    have hkeys : ∀ i, d₂.chunks.get? (p, i) = d.chunks.get? (p, i) := fun i => by
      rw [honly.chunks p i hp, ensureParentDirs_chunks hparents]
    have hnone : (p ∈ parentDirs q ∧ d.nodeAt p = none) ↔ p ∈ parentDirs q ∧ d.fs.get? p = none :=
      and_congr_right fun _ => Db.nodeAt_eq_none
    rw [if_neg hp]
    simp only [hnone]
    show (d₂.fs.get? p).map _ = _
    rw [hrow]
    split_ifs with hmiss
    · rfl
    · simp only [hkeys]
      rfl

/-- `vm_add_bytes` writes its file and the missing directories above it. -/
theorem nodeAt_vmAddBytes {p : Str} {data : Bytes} {mode mtime : ℤ}
    (h : vmAddBytes E p data mode mtime now d = .ok u d') :
    d'.nodeAt = (⟨parentDirs (normalizeVmPath p), .dir 493 now, normalizeVmPath p,
      fileNode E mode mtime data⟩ :
      Write Str (VmNode K)).apply d.nodeAt := by
  obtain ⟨_, d₁, hparents, hput⟩ := bind_eq_ok.1 h
  obtain ⟨honly, -, hrow, hkeys⟩ := fsPutFile_entry hput
  refine nodeAt_of_put hparents honly ?_
  have hkeys' : (fun i => d'.chunks.get? (normalizeVmPath p, i)) = chunkRow E data := funext hkeys
  unfold Db.nodeAt
  rw [hrow, hkeys']
  rfl

/-- `vm_add_dir` writes its directory and the missing ones above it. -/
theorem nodeAt_vmAddDir {p : Str} {mode mtime : ℤ} (h : vmAddDir p mode mtime now d = .ok u d') :
    d'.nodeAt = (⟨parentDirs (normalizeVmPath p), .dir 493 now, normalizeVmPath p,
      .dir mode mtime⟩ :
      Write Str (VmNode K)).apply d.nodeAt := by
  obtain ⟨_, d₁, hparents, hput⟩ := bind_eq_ok.1 h
  obtain ⟨honly, -, hrow, -⟩ := fsPutNode_entry hput
  refine nodeAt_of_put hparents honly ?_
  unfold Db.nodeAt
  rw [hrow]
  rfl

/-- `vm_add_symlink` writes its link and the missing directories above it. -/
theorem nodeAt_vmAddSymlink {p target : Str} (h : vmAddSymlink p target now d = .ok u d') :
    d'.nodeAt = (⟨parentDirs (normalizeVmPath p), .dir 493 now, normalizeVmPath p,
      .link 511 now (some target)⟩ :
      Write Str (VmNode K)).apply d.nodeAt := by
  obtain ⟨_, d₁, hparents, hput⟩ := bind_eq_ok.1 h
  obtain ⟨honly, -, hrow, -⟩ := fsPutNode_entry hput
  refine nodeAt_of_put hparents honly ?_
  unfold Db.nodeAt
  rw [hrow]
  rfl

/-- A member that is imported is written with the mode of its header. -/
theorem importEntry_ok {e : Except Err TarEntry} (h : importEntry E opts now e d = .ok u d') :
    d'.nodeAt = replay (memberWrite E opts now opts.takes (vmCat E d) e).toList d.nodeAt ∧
      (memberWrite E opts now opts.takes (vmCat E d) e).map (fun w => (w.key, w.val.mode)) =
      storedMode opts e := by
  obtain ⟨⟨epath, ekind, emode, emtime⟩, d₁, hentry, h₁⟩ := bind_eq_ok.1 h
  obtain ⟨rfl, rfl⟩ := query_eq_ok.1 hentry
  obtain ⟨path, d₂, hpath, h₂⟩ := bind_eq_ok.1 h₁
  obtain ⟨rfl, rfl⟩ := query_eq_ok.1 hpath
  unfold memberWrite storedMode
  dsimp only
  by_cases htake : opts.takes path = true
  · obtain ⟨hroot, hskip⟩ := takes_iff.1 htake
    rw [if_neg hroot, hskip, if_neg (by simp)] at h₂
    rw [if_pos htake, htake, Bool.true_and]
    -- Every write is at the path of the member.
    have hat : normalizeVmPath (tarVmPath path opts.strip) = opts.vmPath path := rfl
    generalize opts.vmPath path = q at hat ⊢
    have hputs : ∀ node : VmNode K,
      replay (some (⟨parentDirs q, .dir 493 now, q, node⟩ : Write Str (VmNode K))).toList
        d₂.nodeAt = (⟨parentDirs q, .dir 493 now, q, node⟩ : Write Str (VmNode K)).apply
          d₂.nodeAt := fun _ => rfl
    cases ekind with
    | dir =>
      have hput := nodeAt_vmAddDir h₂
      rw [hat] at hput
      exact ⟨hput.trans (hputs _).symm, rfl⟩
    | symlink target =>
      obtain ⟨t, d₃, hlink, h₃⟩ := bind_eq_ok.1 h₂
      obtain ⟨rfl, rfl⟩ := query_eq_ok.1 hlink
      cases t with
      | none =>
        cases h₃
        exact ⟨rfl, rfl⟩
      | some t =>
        have hput := nodeAt_vmAddSymlink h₃
        rw [hat] at hput
        exact ⟨hput.trans (hputs _).symm, rfl⟩
    | hardLink target =>
      obtain ⟨t, d₃, hlink, h₃⟩ := bind_eq_ok.1 h₂
      obtain ⟨rfl, rfl⟩ := query_eq_ok.1 hlink
      cases t with
      | none =>
        cases h₃
        exact ⟨rfl, rfl⟩
      | some t =>
        obtain ⟨data, d₄, hread, h₄⟩ := bind_eq_ok.1 h₃
        obtain ⟨hcat, rfl⟩ := query_eq_ok.1 hread
        dsimp only
        rw [hcat]
        have hput := nodeAt_vmAddBytes h₄
        rw [hat] at hput
        exact ⟨hput.trans (hputs _).symm, rfl⟩
    | file data =>
      obtain ⟨bytes, d₃, hread, h₃⟩ := bind_eq_ok.1 h₂
      obtain ⟨rfl, rfl⟩ := query_eq_ok.1 hread
      have hput := nodeAt_vmAddBytes h₃
      rw [hat] at hput
      exact ⟨hput.trans (hputs _).symm, rfl⟩
    | other =>
      cases h₂
      exact ⟨rfl, rfl⟩
  · -- A member that is left out changes nothing.
    have hsame : d' = d₂ := by
      by_cases hroot : tarVmPath path opts.strip = [] ∨ tarVmPath path opts.strip = root
      · rw [if_pos hroot] at h₂
        cases h₂
        rfl
      · have hskip : opts.skips (tarVmPath path opts.strip) = true := by
          by_contra hs
          exact htake (takes_iff.2 ⟨hroot, Bool.eq_false_iff.2 hs⟩)
        rw [if_neg hroot, if_pos hskip] at h₂
        cases h₂
        rfl
    rw [if_neg htake, Bool.eq_false_iff.2 htake, Bool.false_and, hsame]
    exact ⟨rfl, rfl⟩

end Member

/-! ## All members -/

section Run

variable {entries : List (Except Err TarEntry)} {n m : ℕ}

/-- The tree after an import is the one before with the nodes of the members that it takes. -/
theorem importTarLoop_ok : ∀ {es : List (Except Err TarEntry)} {n m : ℕ} {d d' : Db K},
    importTarLoop E opts now n es d = .ok m d' →
      d'.nodeAt = replay (tarWrites E opts now opts.takes es d) d.nodeAt ∧
      (tarWrites E opts now opts.takes es d).map (fun w => (w.key, w.val.mode)) = es.filterMap
      (storedMode opts) ∧
      m = n + es.countP opts.counts
  | [], n, m, d, d', h => by
    cases h
    exact ⟨rfl, rfl, rfl⟩
  | e :: es, n, m, d, d', h => by
    obtain ⟨_, d₁, hone, hrest⟩ := bind_eq_ok.1 h
    obtain ⟨htree, hmode⟩ := importEntry_ok hone
    obtain ⟨htree', hmodes, hcount⟩ := importTarLoop_ok hrest
    have hend : endState (importEntry E opts now e) d = d₁ := endState_of_ok hone
    refine ⟨?_, ?_, ?_⟩
    · rw [tarWrites, hend, replay_append, htree', htree]
    · rw [tarWrites, hend, List.map_append, hmodes, List.filterMap_cons, ← hmode]
      rcases memberWrite E opts now opts.takes (vmCat E d) e with _ | w
      · rfl
      · rfl
    · rw [hcount, List.countP_cons]
      split_ifs <;> omega

/-- Tests that agree on the names of an archive lead to the same writes. -/
theorem tarWrites_congr {test test' : Str → Bool} : ∀ {es : List (Except Err TarEntry)} {d : Db K},
    (∀ e path, .ok e ∈ es → e.path = .ok path → test path = test' path) →
      tarWrites E opts now test es d = tarWrites E opts now test' es d
  | [], _, _ => rfl
  | e :: es, d, h => by
    have hrest : tarWrites E opts now test es (endState (importEntry E opts now e) d) =
        tarWrites E opts now test' es (endState (importEntry E opts now e) d) :=
      tarWrites_congr fun e' path he' => h e' path (List.mem_cons_of_mem _ he')
    have hone : memberWrite E opts now test (vmCat E d) e = memberWrite E opts now test'
      (vmCat E d) e := by
      unfold memberWrite
      rcases e with err | ⟨epath, ekind, emode, emtime⟩
      · rfl
      · rcases epath with err | path
        · rfl
        · dsimp only
          rw [h _ path List.mem_cons_self rfl]
    show (memberWrite E opts now test (vmCat E d) e).toList ++ _ =
      (memberWrite E opts now test' (vmCat E d) e).toList ++ _
    rw [hone, hrest]

omit [DecidableEq K] in
/-- Two counts of which one is never higher are the same if and only if the tests are. -/
theorem countP_eq_iff {α : Type} {p q : α → Bool} :
    ∀ {as : List α}, (∀ a ∈ as, q a = true → p a = true) →
    (as.countP p = as.countP q ↔ ∀ a ∈ as, p a = q a)
  | [], _ => by simp
  | a :: as, h => by
    have hle : as.countP q ≤ as.countP p := List.countP_mono_left fun b hb => h b (by simp [hb])
    have ih := @countP_eq_iff α p q as fun b hb => h b (by simp [hb])
    rw [List.countP_cons, List.countP_cons, List.forall_mem_cons, ← ih]
    have ha := h a (by simp)
    rcases hp : p a with _ | _
    · rcases hq : q a with _ | _
      · simp
      · rw [hp, hq] at ha
        cases ha rfl
    · rcases hq : q a with _ | _
      · constructor
        · intro he
          simp at he
          omega
        · rintro ⟨hf, -⟩
          cases hf
      · simp

/-- What is counted and what is applied, where the tests agree: links without a target are counted.
-/
theorem counts_eq {e : Except Err TarEntry}
    (h : ∀ e' path, e = .ok e' → e'.path = .ok path → opts.takes path = opts.selects path) :
    (opts.applies e = true → opts.counts e = true) ∧ (opts.counts e = opts.applies e ↔
      ∀ e' path, e = .ok e' → e'.path = .ok path → opts.takes path = true →
      e'.kind ≠ .symlink (.ok none)) := by
  rcases e with err | ⟨epath, ekind, emode, emtime⟩
  · exact ⟨id, iff_of_true rfl fun _ _ he => by cases he⟩
  rcases epath with err | path
  · exact ⟨id, iff_of_true rfl fun _ _ he hp => by cases he; cases hp⟩
  have hsel := h _ path rfl rfl
  have hall :
      (∀ e' path', (Except.ok ⟨.ok path, ekind, emode, emtime⟩ : Except Err TarEntry) = .ok e' →
      e'.path = .ok path' → opts.takes path' = true → e'.kind ≠ .symlink (.ok none)) ↔
      (opts.takes path = true → ekind ≠ .symlink (.ok none)) := by
    constructor
    · exact fun hk => hk _ path rfl rfl
    · rintro hk e' path' he hp
      cases he
      cases hp
      exact hk
  have happ :
    opts.applies (.ok ⟨.ok path, ekind, emode, emtime⟩) = (opts.takes path && ekind.stores) := by
    rw [hsel]
    rfl
  rw [hall, happ]
  -- Only a link without a target is counted and not stored.
  have hother : ekind.stores = true →
    opts.counts (.ok ⟨.ok path, ekind, emode, emtime⟩) = opts.takes path := by
    intro hs
    rcases ekind with _ | (e | _ | t) | (e | _ | t) | data | _
    all_goals first | rfl | cases hs
  by_cases hs : ekind.stores = true
  · rw [hother hs, hs, Bool.and_true]
    refine ⟨id, iff_of_true rfl fun _ hk => ?_⟩
    rw [hk] at hs
    cases hs
  · rw [Bool.eq_false_iff.2 hs, Bool.and_false]
    refine ⟨fun hf => (by cases hf), ?_⟩
    rcases ekind with _ | (e | _ | t) | (e | _ | t) | data | _
    all_goals first | exact absurd rfl hs | skip
    · show opts.takes path = false ↔ _
      rw [← Bool.not_eq_true]
      exact ⟨fun hn ht => absurd ht hn, fun hn ht => hn ht rfl⟩
    · exact iff_of_true rfl fun _ hk => by cases hk
    · exact iff_of_true rfl fun _ hk => by cases hk

/-- An import that returns has applied the archive if and only if the archive is one that it
applies. -/
theorem appliesArchive_iff {K : Type} [DecidableEq K] {E : Ext K} {opts : TarOptions} {now : ℤ}
    {entries : List (Except Err TarEntry)} {db db' : Db K} {n : ℕ}
    (h : vmImportTarFiltered E opts now entries db = .ok n db') :
    AppliesArchive E opts now entries db n db' ↔ opts.Applicable entries := by
  obtain ⟨htree, hmodes, hcount⟩ := importTarLoop_ok h
  rw [Nat.zero_add] at hcount
  -- Both sides say that the tests agree.
  suffices hsuff : (∀ e path, .ok e ∈ entries → e.path = .ok path →
      opts.takes path = opts.selects path) →
      ((db'.nodeAt = replay
          ((tarWrites E opts now opts.selects entries db).map (Write.revalue VmNode.permitted))
          db.nodeAt ↔ LastGood (fun m => 0 ≤ m ∧ m ≤ 0o7777)
            (entries.filterMap (storedMode opts))) ∧
        (n = entries.countP opts.applies ↔ ∀ e path, .ok e ∈ entries → e.path = .ok path →
          opts.takes path = true →
          e.kind ≠ .symlink (.ok none))) by
    constructor
    · intro hA
      obtain ⟨hmode, hlinks⟩ := hsuff hA.selected
      exact ⟨fun e path he hp => takes_eq_selects_iff_judges.1 (hA.selected e path he hp),
        hlinks.1 hA.count,
        hmode.1 hA.tree⟩
    · intro hP
      have hnames : ∀ e path, .ok e ∈ entries → e.path = .ok path →
        opts.takes path = opts.selects path :=
        fun e path he hp => takes_eq_selects_iff_judges.2 (hP.names e path he hp)
      obtain ⟨hmode, hlinks⟩ := hsuff hnames
      exact ⟨hnames, hmode.2 hP.modes, hlinks.2 hP.targets⟩
  intro hnames
  constructor
  · have hgood : LastGood (fun m => 0 ≤ m ∧ m ≤ 0o7777) (entries.filterMap (storedMode opts)) ↔
        LastGood (fun v : VmNode K => v.permitted = v)
          ((tarWrites E opts now opts.takes entries db).map fun w => (w.key, w.val)) := by
      have hmap : (tarWrites E opts now opts.takes entries db).map (fun w => (w.key, w.val.mode)) =
          ((tarWrites E opts now opts.takes entries db).map fun w => (w.key, w.val)).map fun x =>
          (x.1, x.2.mode) := by
        rw [List.map_map]
        rfl
      simp only [VmNode.permitted_eq_iff]
      rw [← hmodes, hmap, lastGood_map]
    rw [htree, hgood, ← tarWrites_congr hnames]
    exact replay_eq_iff _ _ _
  · have hone : ∀ e ∈ entries, ∀ e' path, e = .ok e' → e'.path = .ok path →
      opts.takes path = opts.selects path := by
      rintro e he e' path rfl hpath
      exact hnames e' path he hpath
    rw [hcount, countP_eq_iff fun e he => (counts_eq (hone e he)).1]
    constructor
    · intro hall e path he hpath
      exact (counts_eq (hone _ he)).2.1 (hall _ he) e path rfl hpath
    · intro hall e he
      refine (counts_eq (hone e he)).2.2 fun e' path heq hpath => ?_
      subst heq
      exact hall e' path he hpath

/-- A directory above the only entry of the whitelist, a file below it with a second name and a
link, and a file elsewhere. -/
def smallTree : List (Except Err TarEntry) :=
  [.ok ⟨.ok "./usr/".toList, .dir, 0o755, 5⟩,
    .ok ⟨.ok "./usr/lib/a".toList, .file (.ok [1, 2]), 0o644, 5⟩,
    .ok ⟨.ok "./usr/lib/b".toList, .hardLink (.ok (some "./usr/lib/a".toList)), 0o644, 5⟩,
    .ok ⟨.ok "./usr/lib/c".toList, .symlink (.ok (some ['a'])), 0o777, 5⟩,
    .ok ⟨.ok "./etc/x".toList, .file (.ok [3]), 0o600, 5⟩]

/-- The options of the import: one directory, and not one name below it. -/
def smallOpts : TarOptions := ⟨[], ["/usr/lib".toList], ["/usr/lib/d".toList]⟩

/-- The hypothesis can be met, and the archive is applied: four of its members, the second name with
the content of the first. -/
theorem appliesArchive_smallTree :
    ∃ db', vmImportTarFiltered plainExt smallOpts 7 smallTree (initDb 0) = .ok 4 db' ∧
    AppliesArchive plainExt smallOpts 7 smallTree (initDb 0) 4 db' ∧
    (vmCat plainExt db' "/usr/lib/b".toList).toOption = some [1, 2] ∧
      (db'.fs.get? "/etc/x".toList).isSome = false := by
  -- The import is evaluated; the conditions are checked member by member.
  obtain ⟨db', hrun⟩ := exists_of_value (x := vmImportTarFiltered plainExt smallOpts 7 smallTree)
    (s := initDb 0) (a := 4) (by decide +kernel)
  have hend : endState (vmImportTarFiltered plainExt smallOpts 7 smallTree) (initDb 0) = db' :=
    endState_of_ok hrun
  have hpaths : ∀ path ∈ smallTree.filterMap (fun e => e.toOption.bind fun e => e.path.toOption),
      smallOpts.Judges path := by decide +kernel
  have hmodes : ∀ m ∈ smallTree.filterMap (storedMode smallOpts), 0 ≤ m.2 ∧
    m.2 ≤ 0o7777 := by decide +kernel
  refine ⟨db', hrun, (appliesArchive_iff hrun).2 ⟨fun e path he hp => ?_, fun e path he _ _ => ?_,
    LastGood.of_forall hmodes⟩, ?_, ?_⟩
  · refine hpaths path (List.mem_filterMap.2 ⟨_, he, ?_⟩)
    show (e.path.toOption) = some path
    rw [hp]
    rfl
  · -- The only link has a target.
    simp only [smallTree, List.mem_cons, Except.ok.injEq, List.not_mem_nil, or_false] at he
    rcases he with rfl | rfl | rfl | rfl | rfl
    all_goals exact fun h => by cases h
  · rw [← hend]
    decide +kernel
  · rw [← hend]
    decide +kernel

/-- A file whose path begins with the text of the only entry of the whitelist. -/
def sibling : List (Except Err TarEntry) :=
  [.ok ⟨.ok "usr/lib64/x".toList, .file (.ok [1]), 0o644, 5⟩]

/-- The import returns, and the file is in the tree although the whitelist names another directory.
-/
theorem not_appliesArchive_sibling :
    (∃ n, vmImportTarFiltered plainExt ⟨[], ["/usr/lib".toList], []⟩ 7 sibling (initDb 0) =
      .ok n (endState (vmImportTarFiltered plainExt ⟨[], ["/usr/lib".toList], []⟩ 7 sibling)
        (initDb 0)) ∧
      ¬ AppliesArchive plainExt ⟨[], ["/usr/lib".toList], []⟩ 7 sibling (initDb 0) n
        (endState (vmImportTarFiltered plainExt ⟨[], ["/usr/lib".toList], []⟩ 7 sibling)
          (initDb 0))) ∧
    ((endState (vmImportTarFiltered plainExt ⟨[], ["/usr/lib".toList], []⟩ 7 sibling)
      (initDb 0)).fs.get?
      "/usr/lib64/x".toList).isSome = true ∧
    TarOptions.selects ⟨[], ["/usr/lib".toList], []⟩ "usr/lib64/x".toList = false := by
  obtain ⟨n, hrun⟩ :=
    exists_of_returns (x := vmImportTarFiltered plainExt ⟨[], ["/usr/lib".toList], []⟩ 7 sibling)
    (s := initDb 0) (by decide +kernel)
  refine ⟨⟨n, hrun, fun happ => ?_⟩, by decide +kernel, by decide +kernel⟩
  have hsel := happ.selected _ _ (List.mem_singleton.2 rfl) rfl
  revert hsel
  decide +kernel

end Run

end Dbvm
