import Dbvm.Tree

/-!
# Operations on many paths and the shape of the tree

Packing, importing and adding a host tree write one path after the other; the shape is kept when
each of them fits at its turn. An injection and an undo replace the rows of many paths at once, so
what matters is the rows afterwards: the shape is kept when each new row has a row above it then,
and no path that gets a file or loses its row has rows below it then. A restore puts back the rows
of a snapshot, and a snapshot has the shape of the tree it was taken from.
-/

namespace Dbvm

open Lib Lib.Chunks Lib.Prog Lib.Posix

variable {K : Type} [DecidableEq K] {E : Ext K} {db db' d d' : Db K} {p : Str} {u : Unit} {now : ℤ}

/-! ## Packing -/

/-- A file whose parents are created twice: for its path and for the normal form of its path. -/
theorem treeShaped_parents_then {vmPath : Str} (h : d.TreeShaped)
    (hparents : d.ParentsFit (normalizeVmPath vmPath))
    (hfits : d.Fits (normalizeVmPath (normalizeVmPath vmPath)) .file) (data : Bytes)
    (mode mtime : ℤ) (readable : Bool) :
    (endState (ensureParentDirs (normalizeVmPath vmPath) now >>= fun _ =>
      Prog.query (fun _ => openFile data readable) >>= fun _ =>
        vmAddBytes E (normalizeVmPath vmPath) data mode mtime now) d).TreeShaped := by
  -- The parents are made one after the other, and a failure may come after some of them.
  refine endState_bind ?_ ?_
  · intro e d' he
    have hend := hparents.endState h now
    unfold endState at hend
    rw [he] at hend
    exact hend
  · intro _ d' hok
    have hgrown : d.Grown (parentDirs (normalizeVmPath vmPath)) now d' := ensureParentDirs_rows hok
    refine endState_query_bind (hparents.ensured h hok) fun _ _ => ?_
    refine treeShaped_vmAddBytes (hparents.ensured h hok) (hgrown.fits hfits fun _ a ha hne => ?_)
      data mode mtime now
    by_cases hroot : normalizeVmPath (normalizeVmPath vmPath) = root
    · have hanc : a ∈ ancestors (normalizeVmPath (normalizeVmPath vmPath)) :=
        mem_parentDirs_iff.1 ha
      rw [hroot] at hanc
      cases hanc
    · exact parentOf_ne_of_mem ha hne hroot (Nat.le_refl _)

/-- The path of an entry that the packer writes fits. -/
def PackEntry.TreeFits (d : Db K) : PackEntry → Prop
  | .dir vmPath _ _ => d.Fits (normalizeVmPath vmPath) .dir
  | .symlink vmPath _ => d.Fits (normalizeVmPath vmPath) .symlink
  | .file vmPath .. => d.ParentsFit (normalizeVmPath vmPath) ∧
      d.Fits (normalizeVmPath (normalizeVmPath vmPath)) .file

/-- An entry of a pack that fits keeps the tree shaped. -/
theorem PackEntry.TreeFits.packEntry {entry : PackEntry} (hfits : entry.TreeFits d)
    (h : d.TreeShaped) :
    (endState (Dbvm.packEntry E now entry) d).TreeShaped := by
  cases entry with
  | dir vmPath mode mtime => exact treeShaped_vmAddDir h hfits mode mtime now
  | symlink vmPath target => exact treeShaped_vmAddSymlink h hfits now
  | file vmPath data mode mtime readable =>
    exact treeShaped_parents_then h hfits.1 hfits.2 data mode mtime readable

/-- The path of a file that the parallel packer writes is one of the plan's and fits. -/
def PackEntry.FileTreeFits (d : Db K) : PackEntry → Prop
  | .file vmPath .. => (∃ v, normalizeVmPath v = vmPath) ∧ d.Fits vmPath .file
  | _ => True

/-- A file of a parallel pack that fits keeps the tree shaped. -/
theorem PackEntry.FileTreeFits.packFile {entry : PackEntry} (hfits : entry.FileTreeFits d)
    (h : d.TreeShaped) (hx : Dbvm.packFile E now entry d = .ok u d') : d'.TreeShaped := by
  cases entry with
  | dir vmPath mode mtime =>
    cases hx
    exact h
  | symlink vmPath target =>
    cases hx
    exact h
  | file vmPath data mode mtime readable =>
    obtain ⟨⟨v, hv⟩, hfit⟩ := hfits
    obtain ⟨_, d₁, hq, hwrite⟩ := bind_eq_ok.1 hx
    obtain ⟨-, rfl⟩ := query_eq_ok.1 hq
    obtain ⟨_, d₂, hparents, hput⟩ := bind_eq_ok.1 hwrite
    have hrun : (ensureParentDirs vmPath now >>= fun _ => fsPutFile E vmPath mode mtime data)
      d₁ = .ok () d' := by
      rw [bind_of_ok hparents, fsPutFile, inSavepoint, savepoint_eq_ok]
      exact hput
    have hend := (puts_fsPutFile (E := E) mode mtime data).with_parents hv h hfit now
    rw [endState_of_ok hrun] at hend
    exact hend

/-! ## Archives -/

/-- The path of a member of an archive fits, as what it is. -/
def TarOptions.TreeFits (opts : TarOptions) (d : Db K) (entry : Except Err TarEntry) : Prop :=
  ∀ e path, entry = .ok e → e.path = .ok path → opts.skips (tarVmPath path opts.strip) = false →
    match e.kind with
    | .dir => d.Fits (normalizeVmPath (tarVmPath path opts.strip)) .dir
    | .symlink _ => d.Fits (normalizeVmPath (tarVmPath path opts.strip)) .symlink
    | .hardLink _ => d.Fits (normalizeVmPath (tarVmPath path opts.strip)) .file
    | .file _ => d.Fits (normalizeVmPath (tarVmPath path opts.strip)) .file
    | .other => True

/-- A member of an archive that fits keeps the tree shaped. -/
theorem TarOptions.TreeFits.importEntry {opts : TarOptions} {entry : Except Err TarEntry}
    (hfits : opts.TreeFits d entry) (h : d.TreeShaped) :
    (endState (Dbvm.importEntry E opts now entry) d).TreeShaped := by
  unfold Dbvm.importEntry
  refine endState_query_bind h fun e he => endState_query_bind h fun path hpath => ?_
  dsimp only
  split_ifs with hempty hskip
  · exact h
  · exact h
  have hfit := hfits e path he hpath (by simpa using hskip)
  -- A directory, a symbolic link, a hard link, a file; other kinds are passed over.
  rcases hkind : e.kind with _ | target | target | data | _
  · rw [hkind] at hfit
    exact treeShaped_vmAddDir h hfit e.mode e.mtime now
  · rw [hkind] at hfit
    refine endState_query_bind h fun t _ => ?_
    rcases t with _ | t
    · exact h
    · exact treeShaped_vmAddSymlink h hfit now
  · rw [hkind] at hfit
    refine endState_query_bind h fun t _ => ?_
    rcases t with _ | t
    · exact h
    · exact endState_query_bind h fun bytes _ => treeShaped_vmAddBytes h hfit bytes e.mode
        e.mtime now
  · rw [hkind] at hfit
    exact endState_query_bind h fun bytes _ => treeShaped_vmAddBytes h hfit bytes e.mode e.mtime now
  · exact h

/-! ## Files and directories of the host -/

/-- The names in a directory, as `read_dir` gives them. -/
def childNames (fs : Fs) (loc : Loc) : List Name :=
  fs.rows.filterMap fun r => if r.1.dropLast = loc then r.1.getLast? else none

/-- `vm_add_file`. The times of directories and links are the host's; the fuel bounds the depth of
the host's tree. -/
def vmAddFile (E : Ext K) (fs : Fs) (mtimeOf : Loc → ℤ) (now : ℤ) : ℕ → Loc → Str → Sql K Unit
  | 0, _, _ => pure ()
  | fuel + 1, loc, vmPath => do
    let node ← Prog.query fun _ => (fs.get? loc).elim (.error .readFailed) .ok
    let p := normalizeVmPath vmPath
    ensureParentDirs p now
    match node with
    | .dir mode listable =>
      fsPutNode p .dir (hostMode (.dir mode listable)) (mtimeOf loc) none
      if listable then
        (childNames fs loc).forM fun name =>
          vmAddFile E fs mtimeOf now fuel (loc ++ [name]) (trimEndSlashes p ++ '/' :: name)
      else throw .readFailed
    | .link t => fsPutNode p .symlink 0o777 (mtimeOf loc) (some t)
    | .file data mode ns readable =>
      let _ ← Prog.query fun _ => openFile data readable
      vmAddBytes E p data (hostMode (.file data mode ns readable)) (hostMtime ns now) now
    | .special _ => throw .readFailed

/-- The paths at which `vm_add_file` makes directories and links. -/
def addNodes (fs : Fs) : ℕ → Loc → Str → List Str
  | 0, _, _ => []
  | fuel + 1, loc, vmPath =>
    let p := normalizeVmPath vmPath
    match fs.get? loc with
    | some (.dir _ true) =>
      p :: (childNames fs loc).flatMap fun name => addNodes fs fuel (loc ++ [name])
      (trimEndSlashes p ++ '/' :: name)
    | some (.dir _ false) => [p]
    | some (.link _) => [p]
    | _ => []

/-- `vm_add_file` keeps what the writers of its nodes keep. -/
theorem WriterKept.vmAddFile {N : Str → Prop} {M : Kind → ℤ → Prop} {I : Db K → Prop}
    (h : WriterKept E N M I) {fs : Fs} {mtimeOf : Loc → ℤ} :
    ∀ {fuel : ℕ} {loc : Loc} {vmPath : Str}, (∀ p ∈ addNodes fs fuel loc vmPath, N p) →
      (∀ node kind, nodeKind node = some kind → M kind (hostMode node)) →
      Keeps I (Dbvm.vmAddFile E fs mtimeOf now fuel loc vmPath)
  | 0, _, _, _, _ => Keeps.pure _
  | fuel + 1, loc, vmPath, hN, hM => by
    intro db hI
    unfold Dbvm.vmAddFile
    refine endState_query_bind hI fun node hnode => ?_
    rcases hget : fs.get? loc with _ | n
    · rw [hget] at hnode
      cases hnode
    rw [hget] at hnode
    cases hnode
    unfold addNodes at hN
    rw [hget] at hN
    refine Keeps.bind (h.parents _ now) (fun _ => ?_) db hI
    -- A directory adds itself and its entries in turn, a link and a file one row, and anything
    -- else fails.
    cases node with
    | dir mode listable =>
      cases listable with
      | false =>
        exact Keeps.bind (h.putNode _ _ _ _ _ (by decide) (hN _ (by simp))
          (hM (.dir mode false) _ rfl)) fun _ =>
          Keeps.throw _
      | true =>
        refine Keeps.bind (h.putNode _ _ _ _ _ (by decide) (hN _ (by simp))
          (hM (.dir mode true) _ rfl)) fun _ => ?_
        refine Keeps.forM_mem fun name hname => h.vmAddFile (fun p hp => hN p ?_) hM
        exact List.mem_cons_of_mem _ (List.mem_flatMap.2 ⟨name, hname, hp⟩)
    | link t => exact h.putNode _ _ _ _ _ (by decide) (hN _ (by simp)) (hM (.link t) _ rfl)
    | file data mode ns readable =>
      exact Keeps.bind (Keeps.query _) fun _ =>
      h.vmAddBytes _ data _ now (hM (.file data mode ns readable) _ rfl)
    | special k => exact Keeps.throw _

/-- What `vm_add_file` writes fits, each path at its turn. -/
def AddFits (E : Ext K) (fs : Fs) (mtimeOf : Loc → ℤ) (now : ℤ) : ℕ → Loc → Str → Db K → Prop
  | 0, _, _, _ => True
  | fuel + 1, loc, vmPath, d =>
    let p := normalizeVmPath vmPath
    match fs.get? loc with
    | none => True
    | some (.dir mode listable) => d.Fits p .dir ∧ ∀ d',
        (ensureParentDirs p now >>= fun _ => fsPutNode p .dir (hostMode (.dir mode listable))
          (mtimeOf loc) none) d =
          .ok () d' →
        InTurn (fun name => vmAddFile E fs mtimeOf now fuel (loc ++ [name])
          (trimEndSlashes p ++ '/' :: name))
          (fun s name => AddFits E fs mtimeOf now fuel (loc ++ [name])
            (trimEndSlashes p ++ '/' :: name) s)
          (childNames fs loc) d'
    | some (.link _) => d.Fits p .symlink
    | some (.file ..) => d.ParentsFit p ∧ d.Fits (normalizeVmPath p) .file
    | some (.special _) => d.ParentsFit p

/-- `vm_add_file` keeps the tree shaped when each node fits where it is written. -/
theorem treeShaped_vmAddFile {fs : Fs} {mtimeOf : Loc → ℤ} :
    ∀ (fuel : ℕ) {loc : Loc} {vmPath : Str} {d : Db K},
    d.TreeShaped → AddFits E fs mtimeOf now fuel loc vmPath d →
      (endState (vmAddFile E fs mtimeOf now fuel loc vmPath) d).TreeShaped
  | 0, _, _, _, h, _ => h
  | fuel + 1, loc, vmPath, d, h, hfits => by
    unfold vmAddFile
    refine endState_query_bind h fun node hnode => ?_
    rcases hget : fs.get? loc with _ | n
    · rw [hget] at hnode
      cases hnode
    rw [hget] at hnode
    cases hnode
    unfold AddFits at hfits
    rw [hget] at hfits
    rcases node with ⟨data, mode, ns, readable⟩ | ⟨mode, listable⟩ | t | mode
    · exact treeShaped_parents_then h hfits.1 hfits.2 data _ _ readable
    · obtain ⟨hfit, hchildren⟩ := hfits
      -- The row of the directory, and then what is in it.
      refine (puts_fsPutNode .dir (hostMode (.dir mode listable))
        (mtimeOf loc) none).with_parents_then rfl h hfit
        fun d' hok hd' => ?_
      split_ifs
      · exact InTurn.keeps (fun s name hs hname => treeShaped_vmAddFile fuel hs hname)
          (hchildren d' hok) hd'
      · exact hd'
    · exact (puts_fsPutNode .symlink 0o777 (mtimeOf loc) (some t)).with_parents rfl h hfits now
    · refine endState_bind ?_ ?_
      · intro e d' he
        have hend := Db.ParentsFit.endState hfits h now
        unfold endState at hend
        rw [he] at hend
        exact hend
      · intro _ d' hok
        exact Db.ParentsFit.ensured hfits h hok

/-! ## The closure of a program -/

/-- What `vm_import_closure` does, as the host's files decide it. -/
inductive ClosureStep where
  /-- The parents of the program's path, as far as they can be created. -/
  | parents (path : Str)
  /-- A link that may fail. -/
  | tryLink (path target : Str)
  /-- A link for a library's name, unless the name leads somewhere. -/
  | soname (path target : Str)
  /-- A link. -/
  | link (path target : Str)
  /-- A file of the host. -/
  | file (loc : Loc) (vmPath : Str)

/-- One step of `vm_import_closure`. -/
def ClosureStep.run (E : Ext K) (fs : Fs) (mtimeOf : Loc → ℤ) (now : ℤ) (fuel : ℕ) : ClosureStep →
    Sql K Unit
  | .parents path => ignoring (Prog.attempt (ensureParentDirs path now))
  | .tryLink path target => ignoring (Prog.attempt (vmAddSymlink path target now))
  | .soname path target => do
    let found ← Prog.reads fun db => vmResolve E db path
    match found with
    | .ok _ => pure ()
    | .error _ =>
      ensureParentDirs path now
      vmAddSymlink path target now
  | .link path target => vmAddSymlink path target now
  | .file loc vmPath => vmAddFile E fs mtimeOf now fuel loc vmPath

/-- The paths at which a step makes directories and links. -/
def ClosureStep.nodes (fs : Fs) (fuel : ℕ) : ClosureStep → List Str
  | .parents _ => []
  | .tryLink path _ => [normalizeVmPath path]
  | .soname path _ => [normalizeVmPath path]
  | .link path _ => [normalizeVmPath path]
  | .file loc vmPath => addNodes fs fuel loc vmPath

/-- One step of `vm_import_closure` keeps what the writers of its nodes keep. -/
theorem WriterKept.closureStep {N : Str → Prop} {M : Kind → ℤ → Prop} {I : Db K → Prop}
    (h : WriterKept E N M I) {fs : Fs} {mtimeOf : Loc → ℤ} {fuel : ℕ} {step : ClosureStep}
    (hN : ∀ p ∈ step.nodes fs fuel, N p)
    (hM : ∀ node kind, nodeKind node = some kind → M kind (hostMode node)) :
    Keeps I (step.run E fs mtimeOf now fuel) := by
  have hlink : M .symlink 511 := hM (.link []) _ rfl
  cases step with
  | parents path => exact Keeps.ignoring (Keeps.attempt (h.parents path now))
  | tryLink path target =>
      exact Keeps.ignoring (Keeps.attempt (h.vmAddSymlink (hN _ (by simp [ClosureStep.nodes]))
      hlink))
  | soname path target =>
    refine Keeps.bind (Keeps.reads _) fun found => ?_
    cases found with
    | ok _ => exact Keeps.pure _
    | error _ =>
      exact Keeps.bind (h.parents path now) fun _ =>
        h.vmAddSymlink (hN _ (by simp [ClosureStep.nodes])) hlink
  | link path target => exact h.vmAddSymlink (hN _ (by simp [ClosureStep.nodes])) hlink
  | file loc vmPath => exact h.vmAddFile hN hM

/-- What the step writes fits. -/
def ClosureStep.Fits (E : Ext K) (fs : Fs) (mtimeOf : Loc → ℤ) (now : ℤ) (fuel : ℕ) (d : Db K) :
    ClosureStep → Prop
  | .parents path => d.ParentsFit path
  | .tryLink path _ => d.Fits (normalizeVmPath path) .symlink
  | .soname path _ => d.ParentsFit path ∧ d.Fits (normalizeVmPath path) .symlink
  | .link path _ => d.Fits (normalizeVmPath path) .symlink
  | .file loc vmPath => AddFits E fs mtimeOf now fuel loc vmPath d

/-- One step of `vm_import_closure` that fits keeps the tree shaped. -/
theorem ClosureStep.Fits.run {fs : Fs} {mtimeOf : Loc → ℤ} {fuel : ℕ} {step : ClosureStep}
    (hfits : step.Fits E fs mtimeOf now fuel d) (h : d.TreeShaped) :
    (endState (step.run E fs mtimeOf now fuel) d).TreeShaped := by
  have hignore : ∀ {x : Sql K Unit}, (endState x d).TreeShaped →
      (endState (ignoring (Prog.attempt x)) d).TreeShaped := by
    intro x hx
    unfold endState at hx ⊢
    rcases hrun : x d with ⟨a, d'⟩ | ⟨e, d'⟩
    · rw [hrun] at hx
      rw [ignoring, bind_of_ok (attempt_of_ok hrun)]
      exact hx
    · rw [hrun] at hx
      rw [ignoring, bind_of_ok (attempt_of_error hrun)]
      exact hx
  -- One case for each step of the import. The parents and the tried link may fail without ending
  -- it, the other steps go through the writers.
  cases step with
  | parents path => exact hignore (Db.ParentsFit.endState hfits h now)
  | tryLink path target => exact hignore (treeShaped_vmAddSymlink h hfits now)
  | soname path target =>
    show (endState (Prog.reads (fun db => vmResolve E db path) >>= fun found =>
      match found with
      | .ok _ => pure ()
      | .error _ => ensureParentDirs path now >>= fun _ => vmAddSymlink path target now)
          d).TreeShaped
    unfold endState
    rw [reads_bind]
    rcases vmResolve E d path with e | r
    · refine endState_bind ?_ ?_
      · intro e d' he
        have hend := hfits.1.endState h now
        unfold endState at hend
        rw [he] at hend
        exact hend
      · intro _ d' hok
        have hgrown : d.Grown (parentDirs path) now d' := ensureParentDirs_rows hok
        exact treeShaped_vmAddSymlink (hfits.1.ensured h hok)
          (hgrown.fits hfits.2 fun hk => by cases hk) now
    · exact h
  | link path target => exact treeShaped_vmAddSymlink h hfits now
  | file loc vmPath => exact treeShaped_vmAddFile fuel h hfits

/-! ## Injections -/

/-- The kinds after the rows of a package, the root's apart, have replaced those of the target. -/
def Db.kindWith (d pkg : Db K) (q : Str) : Option Kind :=
  if q ≠ root ∧ pkg.fs.has q = true then pkg.kindAt q else d.kindAt q

/-- What a package needs: every row of it has a directory or a link above it, its own or the
target's, and no file of it has rows of the target below it. -/
structure Db.InjectFits (d pkg : Db K) : Prop where
  /-- Above. -/
  above : ∀ q row, pkg.fs.get? q = some row → q ≠ root → Carries FileKind (d.kindWith pkg)
    (parentOf q)
  /-- Below. -/
  below : ∀ q row, pkg.fs.get? q = some row → q ≠ root → row.kind = .file → d.NothingBelow q

omit [DecidableEq K] in
/-- The kinds after an injection that fits make a tree. -/
theorem Db.InjectFits.shaped {pkg : Db K} (hfits : d.InjectFits pkg) (h : d.TreeShaped)
    (hk : d'.kindAt = d.kindWith pkg) : d'.TreeShaped := by
  unfold Db.TreeShaped
  rw [hk]
  refine Shaped.change (fun q => q ≠ root ∧ pkg.fs.has q = true) h (fun q hq => if_neg hq) ?_ ?_
  · rintro q k ⟨hne, hhas⟩ - -
    obtain ⟨row, hrow⟩ := Table.has_eq_true.1 hhas
    exact hfits.above q row hrow hne
  · rintro p ⟨hne, hhas⟩ hnot q hq hup
    obtain ⟨row, hrow⟩ := Table.has_eq_true.1 hhas
    have hkind : d.kindWith pkg p = some row.kind := by
      rw [Db.kindWith, if_pos ⟨hne, hhas⟩, Db.kindAt_of_get? hrow]
    have hfile : row.kind = .file := by
      by_contra hk
      exact hnot ⟨row.kind, hkind, hk⟩
    -- A row of the package below its own file would have nothing to stand on.
    rcases hpkg : pkg.fs.has q with _ | _
    · rw [Db.kindWith, if_neg (by simp [hpkg])]
      exact hfits.below p row hrow hne hfile q hq hup
    · obtain ⟨row', hrow'⟩ := Table.has_eq_true.1 hpkg
      have hcarries := hfits.above q row' hrow' hq
      rw [hup] at hcarries
      exact absurd hcarries hnot

omit [DecidableEq K] in
/-- Statements that do not touch `vm_fs` leave its rows. -/
theorem keeps_fs_of {T : Table Str (FsRow K)} {f : Db K → Except Err (Db K)}
    (h : ∀ d d', f d = .ok d' → d'.fs = d.fs) : Keeps (fun d => d.fs = T) (statement f) :=
  Keeps.statement fun d d' hd hx => (h d d' hx).trans hd

/-- An insert of chunk rows leaves the rows of the tree alone. -/
theorem keeps_fs_insertChunks {T : Table Str (FsRow K)} (rows : List ((Str × ℕ) × K)) :
    Keeps (fun d => d.fs = T) (insertChunks rows) :=
  keeps_fs_of fun _ _ hx => (insertChunks_ok hx).2.1

omit [DecidableEq K] in
/-- The dictionaries of an injection leave the rows of the tree alone. -/
theorem keeps_fs_injectDicts {T : Table Str (FsRow K)} (pkg : Db K) : ∀ pids : List ℕ,
    Keeps (fun d => d.fs = T) (injectDicts pkg pids)
  | [] => Keeps.pure _
  | _ :: rest => Keeps.bind (Keeps.query _) fun _ => Keeps.bind (fun _ hd => hd) fun _ =>
      Keeps.bind (keeps_fs_injectDicts pkg rest) fun _ => Keeps.pure _

/-- A row of the package, as it is copied. -/
def FsRow.copied (row : FsRow K) : FsRow K := { row with content := none }

/-- The injection of one file copies its row and leaves the others. -/
theorem injectPath_ok {pkg : Db K} {m : List (ℕ × ℕ)} {rep rep' : InjectReport} {row : FsRow K}
    (hrow : pkg.fs.get? p = some row) (hx : injectPath pkg m rep p d = .ok rep' d') :
    (∀ q, d'.fs.get? q = if q = p then some row.copied else d.fs.get? q) ∧
    ((d.fs.get? p = none → ∀ i, d.chunks.get? (p, i) = none) → ∀ q i,
      d'.chunks.get? (q, i) = if q = p then pkg.chunks.get? (p, i) else d.chunks.get? (q, i)) ∧
    ∀ q, q ∈ d'.dirty ↔ q ∈ d.dirty ∧ (d.fs.get? p = none ∨ q ≠ p) := by
  unfold injectPath at hx
  rw [reads_bind] at hx
  obtain ⟨_, d₁, hdel, hx⟩ := bind_eq_ok.1 hx
  -- The path has no row and no chunks now.
  have hgone : (∀ q, d₁.fs.get? q = if q = p then none else d.fs.get? q) ∧
      ((d.fs.get? p = none → ∀ i, d.chunks.get? (p, i) = none) → ∀ q i,
        d₁.chunks.get? (q, i) = if q = p then none else d.chunks.get? (q, i)) ∧
      ∀ q, q ∈ d₁.dirty ↔ q ∈ d.dirty ∧ (d.fs.get? p = none ∨ q ≠ p) := by
    rcases hhas : d.fs.has p with _ | _
    · have hnone := Table.has_eq_false.1 hhas
      rw [hhas] at hdel
      cases hdel
      refine ⟨fun q => ?_, fun hfree q i => ?_, fun q => by simp [hnone]⟩
      · split_ifs with hq
        · rw [hq, hnone]
        · rfl
      · split_ifs with hq
        · rw [hq, hfree hnone]
        · rfl
    · have hsome : d.fs.get? p ≠ none := by
        obtain ⟨r, hr⟩ := Table.has_eq_true.1 hhas
        rw [hr]
        exact Option.some_ne_none r
      rw [hhas] at hdel
      rw [deleteFs_ok hdel]
      refine ⟨fun q => ?_, fun _ q i => ?_, fun q => ?_⟩
      · rw [Db.get?_delFs]
        by_cases hq : q = p
        · simp [hq]
        · simp [hq]
      · by_cases hq : q = p
        · have hdrop : (d.delChunks fun r _ => decide (r = p) && d.fs.has r).chunks.get?
            (q, i) = _ :=
            Db.get?_delChunks _ q i
          rw [if_pos (by simp [hq, hhas])] at hdrop
          rw [if_pos hq]
          exact hdrop
        · rw [if_neg hq, Db.get?_chunks_delFs i (by simp [hq])]
      · show q ∈ d.dirty.filter _ ↔ _
        rw [List.mem_filter, or_iff_right hsome]
        refine and_congr_right fun _ => ?_
        by_cases hq : q = p
        · simp [hq, hhas]
        · simp [hq]
  obtain ⟨added, d₂, hmerge, hx⟩ := bind_eq_ok.1 hx
  cases hx
  unfold mergePath at hmerge
  obtain ⟨_, d₃, hins, hmerge⟩ := bind_eq_ok.1 hmerge
  rw [reads_bind] at hmerge
  obtain ⟨_, d₄, hblobs, hmerge⟩ := bind_eq_ok.1 hmerge
  rw [reads_bind] at hmerge
  obtain ⟨_, d₅, hchunks, hmerge⟩ := bind_eq_ok.1 hmerge
  cases hmerge
  obtain ⟨hrows, hch₃, hdirty₃, -⟩ := insertFsRows_ok (statement_eq_ok.1 hins)
  have hsame : d₄.fs = d₃.fs ∧ d₄.chunks = d₃.chunks ∧ d₄.dirty = d₃.dirty := by
    refine (Keeps.forM (I := fun s : Db K => s.fs = d₃.fs ∧ s.chunks = d₃.chunks ∧
      s.dirty = d₃.dirty) (fun r => ?_)
      _).triple d₃ () d₄ ⟨rfl, rfl, rfl⟩ hblobs
    refine Keeps.bind (Keeps.query _) fun _ => Keeps.statement fun s s' hs hx => ?_
    split_ifs at hx
    · cases hx
      exact hs
    · cases hx
      exact hs
  obtain ⟨hch, hfs', hdirty', -⟩ := insertChunks_ok (statement_eq_ok.1 hchunks)
  rw [Table.select_key, hrow] at hrows
  refine ⟨fun q => ?_, fun hfree q i => ?_, fun q => ?_⟩
  · rw [hfs', hsame.1]
    apply Option.ext
    intro r
    rw [hrows, hgone.1]
    split_ifs with hq
    · simp [hq, FsRow.copied, eq_comm]
    · simp [hq]
  · apply Option.ext
    intro k
    rw [hch, hsame.2.1, hch₃, hgone.2.1 hfree]
    by_cases hq : q = p
    · rw [if_pos hq, if_pos hq, hq]
      constructor
      · rintro (hnone | hmem)
        · cases hnone
        · obtain ⟨r, hr, he⟩ := List.mem_map.1 hmem
          cases he
          exact Db.mem_chunkList.1 hr
      · intro hk
        exact Or.inr (List.mem_map.2 ⟨(i, k), Db.mem_chunkList.2 hk, rfl⟩)
    · rw [if_neg hq, if_neg hq, or_iff_left]
      intro hmem
      obtain ⟨r, -, he⟩ := List.mem_map.1 hmem
      exact hq (congrArg (fun x => x.1.1) he).symm
  · rw [hdirty', hsame.2.2, hdirty₃]
    exact hgone.2.2 q

/-- The injection of one file changes the kind at its path only. -/
theorem injectPath_kinds {pkg : Db K} {dictMap : List (ℕ × ℕ)} {rep rep' : InjectReport}
    {row : FsRow K} (hrow : pkg.fs.get? p = some row)
    (hx : injectPath pkg dictMap rep p d = .ok rep' d') (q : Str) :
    d'.kindAt q = if q = p then some row.kind else d.kindAt q := by
  unfold Db.kindAt
  rw [(injectPath_ok hrow hx).1 q]
  split_ifs <;> rfl

/-- By induction on the paths, an injection changes the kinds at the package's paths only. -/
theorem injectPaths_kinds {pkg : Db K} {dictMap : List (ℕ × ℕ)} :
    ∀ {paths : List Str} {rep rep' : InjectReport}
    {d d' : Db K}, (∀ p ∈ paths, pkg.fs.has p = true) →
      paths.foldlM (injectPath pkg dictMap) rep d = .ok rep' d' →
      ∀ q, d'.kindAt q = if q ∈ paths then pkg.kindAt q else d.kindAt q
  | [], _, _, _, _, _, hx, q => by
    cases hx
    simp
  | p :: paths, rep, rep', d, d', hpaths, hx, q => by
    rw [List.foldlM_cons] at hx
    obtain ⟨rep₁, d₁, hone, hx⟩ := bind_eq_ok.1 hx
    obtain ⟨row, hrow⟩ := Table.has_eq_true.1 (hpaths p List.mem_cons_self)
    rw [injectPaths_kinds (fun p' hp' => hpaths p' (List.mem_cons_of_mem _ hp')) hx q,
      injectPath_kinds hrow hone q]
    by_cases hmem : q ∈ paths
    · rw [if_pos hmem, if_pos (List.mem_cons_of_mem _ hmem)]
    · rw [if_neg hmem]
      by_cases hq : q = p
      · rw [if_pos hq, if_pos (by rw [hq]; exact List.mem_cons_self), hq, Db.kindAt_of_get? hrow]
      · rw [if_neg hq, if_neg (by simp [hq, hmem])]

/-- Computing the pending hashes leaves the kinds. -/
theorem finalizeDirty_kinds (E : Ext K) (d : Db K) :
    (endState (finalizeDirty E) d).kindAt = d.kindAt := by
  have hkeeps : Keeps (fun s : Db K => s.kindAt = d.kindAt) (finalizeDirty E) := by
    refine keeps_finalizeDirty_of (fun p h => Keeps.statement fun s s' hs hx => ?_)
      (fun p => Keeps.statement fun s s' hs hx => ?_) E
    · rcases updateFs_ok (u := ()) (statement_eq_ok.2 hx) with ⟨-, rfl⟩ | ⟨row, hrow, rfl⟩
      · exact hs
      · refine Eq.trans (funext fun q => ?_) hs
        rw [Db.kindAt, Db.kindAt, Db.get?_setFs]
        split_ifs with hq
        · rw [hq, hrow]
          rfl
        · rfl
    · cases hx
      exact hs
  exact hkeeps d rfl

/-- After an injection the kinds are those of the package over the target's. -/
theorem inject_kinds {base : Option (Db K)} {pkg : Db K} {rep : InjectReport}
    (hx : inject E base pkg d = .ok rep d') : d'.kindAt = d.kindWith pkg := by
  unfold inject at hx
  split_ifs at hx
  · cases hx
  dsimp only at hx
  rw [inSavepoint, savepoint_eq_ok] at hx
  obtain ⟨dictMap, d₁, hdicts, hx⟩ := bind_eq_ok.1 hx
  obtain ⟨rep₁, d₂, hpaths, hx⟩ := bind_eq_ok.1 hx
  obtain ⟨drift, d₃, hverify, hx⟩ := bind_eq_ok.1 hx
  obtain ⟨n, d₄, hfin, hreads⟩ := bind_eq_ok.1 hverify
  cases hreads
  have hfs₁ : d₁.fs = d.fs := (keeps_fs_injectDicts pkg _).triple d _ d₁ rfl hdicts
  have hkinds₄ : d₃.kindAt = d₂.kindAt := by
    have := finalizeDirty_kinds E d₂
    rwa [endState_of_ok hfin] at this
  -- Only the paths of the package change kinds; the check after them hashes files, and its
  -- outcome decides about the error only.
  have hend : d' = d₃ := by
    split_ifs at hx
    · cases hx
    · cases hx
      rfl
  funext q
  rw [hend, hkinds₄, injectPaths_kinds (fun p hp => ?_) hpaths q, Db.kindWith]
  · have hmem : q ∈ ((pkg.fs.rows.map Prod.fst).filter (· ≠ root)).insertionSort
      (fun a b => pathBefore a b = true) ↔
        q ≠ root ∧ pkg.fs.has q = true := by
      rw [List.mem_insertionSort, List.mem_filter, Table.mem_keys_iff, Table.has_eq_true,
        decide_eq_true_eq]
      exact and_comm
    simp only [hmem]
    have hkind : d₁.kindAt q = d.kindAt q := Db.kindAt_congr (by rw [hfs₁])
    rw [hkind]
  · rw [List.mem_insertionSort, List.mem_filter] at hp
    exact Table.has_eq_true.2 (Table.mem_keys_iff.1 hp.1)

/-- An injection that fits keeps the tree shaped, whether it succeeds or fails. -/
theorem Db.InjectFits.inject {base : Option (Db K)} {pkg : Db K} (hfits : d.InjectFits pkg)
    (h : d.TreeShaped) :
    (endState (Dbvm.inject E base pkg) d).TreeShaped := by
  have hatomic : Atomic (Dbvm.inject E base pkg) := by
    unfold Dbvm.inject
    split_ifs
    · intro s e s' hx
      cases hx
      rfl
    · exact Atomic.savepoint _
  refine hatomic.endState h fun rep d' hx => ?_
  exact hfits.shaped h (inject_kinds hx)

/-! ## Undo -/

/-- The kinds after the entries of an undo record have been put back. -/
def Db.kindUndone (d : Db K) (id : ℕ) (q : Str) : Option Kind :=
  match d.undoFs.get? (id, q) with
  | none => d.kindAt q
  | some m => m.map fun m => m.kind

/-- What an undo needs: every row it puts back has a directory or a link above it then, and what it
deletes or turns into a file has no row below it that it leaves. -/
structure Db.UndoFits (d : Db K) (id : ℕ) : Prop where
  /-- Above. -/
  above : ∀ q m, d.undoFs.get? (id, q) = some (some m) → q ≠ root →
    Carries FileKind (d.kindUndone id) (parentOf q)
  /-- Below. -/
  below : ∀ p m, d.undoFs.get? (id, p) = some m → (∀ m', m = some m' → m'.kind = .file) →
    ∀ q, q ≠ root → parentOf q = p → d.undoFs.get? (id, q) = none → d.kindAt q = none

omit [DecidableEq K] in
/-- The kinds after an undo that fits make a tree. -/
theorem Db.UndoFits.shaped {id : ℕ} (hfits : d.UndoFits id) (h : d.TreeShaped)
    (hk : d'.kindAt = d.kindUndone id) : d'.TreeShaped := by
  unfold Db.TreeShaped
  rw [hk]
  have hin : ∀ q m, d.undoFs.get? (id, q) = some m → d.kindUndone id q = m.map fun m => m.kind := by
    intro q m hm
    rw [Db.kindUndone, hm]
  -- The paths of the record change and no others: an entry needs its parent directory, a
  -- directory that goes must be empty.
  refine Shaped.change (fun q => d.undoFs.get? (id, q) ≠ none) h (fun q hq => ?_) ?_ ?_
  · rw [Db.kindUndone, not_not.1 hq]
  · intro q k hq hk hne
    obtain ⟨m, hm⟩ := Option.ne_none_iff_exists'.1 hq
    rw [hin q m hm] at hk
    obtain ⟨m', rfl, -⟩ := Option.map_eq_some_iff.1 hk
    exact hfits.above q m' hm hne
  · intro p hp hnot q hq hup
    obtain ⟨m, hm⟩ := Option.ne_none_iff_exists'.1 hp
    have hfile : ∀ m', m = some m' → m'.kind = .file := by
      rintro m' rfl
      by_contra hk
      exact hnot ⟨m'.kind, by rw [hin p _ hm]; rfl, hk⟩
    rcases hrec : d.undoFs.get? (id, q) with _ | m'
    · rw [Db.kindUndone, hrec]
      exact hfits.below p m hm hfile q hq hup hrec
    · rw [hin q m' hrec]
      rcases m' with _ | m'
      · rfl
      · -- A row put back below what is gone would have nothing to stand on.
        have hcarries := hfits.above q m' hrec hq
        rw [hup] at hcarries
        exact absurd hcarries hnot

/-- The first loop: the rows of the record are deleted. -/
theorem deleteRows_rows {β : Type} : ∀ {l : List (Str × β)} {d d' : Db K},
    (l.forM fun r => deleteFs fun q => q = r.1) d = .ok u d' →
      (∀ q, d'.fs.get? q = if q ∈ l.map Prod.fst then none else d.fs.get? q) ∧ d'.undoFs = d.undoFs
  | [], d, d', hx => by
    cases hx
    simp
  | r :: l, d, d', hx => by
    rw [List.forM_eq_forM, List.forM_cons] at hx
    obtain ⟨_, d₁, hdel, hrest⟩ := bind_eq_ok.1 hx
    obtain ⟨hfs, hundo⟩ := deleteRows_rows hrest
    rw [deleteFs_ok hdel] at hfs hundo
    refine ⟨fun q => ?_, hundo⟩
    rw [hfs, Db.get?_delFs, List.map_cons]
    by_cases hq : q = r.1
    · simp [hq]
    · simp only [hq, List.mem_cons, false_or, decide_false, Bool.false_eq_true, if_false]

/-- Putting one entry back changes the row of its path only. -/
theorem undoPut_rows {id : ℕ} {r : Str × Option (FsMeta K)} (hx : undoPut id r d = .ok u d')
    (q : Str) (row : FsRow K) : d'.fs.get? q = some row ↔
      d.fs.get? q = some row ∨ q = r.1 ∧ r.2.map FsMeta.toRow = some row := by
  unfold undoPut at hx
  rcases hm : r.2 with _ | m
  · rw [hm] at hx
    cases hx
    simp
  · rw [hm] at hx
    obtain ⟨_, d₁, hins, hx⟩ := bind_eq_ok.1 hx
    rw [reads_bind] at hx
    have hfs : d'.fs = d₁.fs := (keeps_fs_insertChunks _).triple d₁ () d' rfl hx
    obtain ⟨hfree, rfl⟩ := insertFs_ok hins
    rw [hfs, Db.get?_addFs _ hfree, Option.map_some]
    split_ifs with hq
    · simp [hq, hfree]
    · simp [hq]

/-- The second loop: they are put back. -/
theorem undoPuts_rows {id : ℕ} : ∀ {l : List (Str × Option (FsMeta K))} {d d' : Db K},
    l.forM (undoPut id) d = .ok u d' → ∀ q row, d'.fs.get? q = some row ↔
      d.fs.get? q = some row ∨ ∃ r ∈ l, q = r.1 ∧ r.2.map FsMeta.toRow = some row
  | [], d, d', hx, q, row => by
    cases hx
    simp
  | r :: l, d, d', hx, q, row => by
    rw [List.forM_eq_forM, List.forM_cons] at hx
    obtain ⟨_, d₁, hput, hrest⟩ := bind_eq_ok.1 hx
    rw [undoPuts_rows hrest q row, undoPut_rows hput q row, or_assoc]
    refine or_congr_right ?_
    constructor
    · rintro (hone | ⟨r', hr', h'⟩)
      · exact ⟨r, List.mem_cons_self, hone⟩
      · exact ⟨r', List.mem_cons_of_mem _ hr', h'⟩
    · rintro ⟨r', hr', h'⟩
      rcases List.mem_cons.1 hr' with rfl | hr'
      · exact Or.inl h'
      · exact Or.inr ⟨r', hr', h'⟩

/-- Both loops of an undo together put every recorded row back. -/
theorem undoLoops_rows {id : ℕ} {l : List (Str × Option (FsMeta K))}
    {rec : Str → Option (Option (FsMeta K))} {d₀ d₁ : Db K}
    (hl : ∀ q m, (q, m) ∈ l ↔ rec q = some m)
    (hdel : (l.forM fun r => deleteFs fun q => q = r.1) d = .ok () d₁)
    (hput : l.reverse.forM (undoPut id) d₁ = .ok u d₀) (q : Str) :
    d₀.fs.get? q = match rec q with
      | none => d.fs.get? q
      | some m => m.map FsMeta.toRow := by
  obtain ⟨hfs, -⟩ := deleteRows_rows hdel
  have hrows := undoPuts_rows hput
  apply Option.ext
  intro row
  rw [hrows, hfs]
  -- Path by path: the first loop deletes what the record names, the second one puts back what it
  -- has a row for.
  rcases hrec : rec q with _ | m
  · -- A path without an entry is in neither loop.
    have hnot : ∀ r ∈ l, q ≠ r.1 := by
      rintro r hr rfl
      have hsome := (hl r.1 r.2).1 hr
      rw [hrec] at hsome
      cases hsome
    rw [if_neg, or_iff_left]
    · rintro ⟨r, hr, hq, -⟩
      exact hnot r (List.mem_reverse.1 hr) hq
    · intro hin
      obtain ⟨r, hr, hq⟩ := List.mem_map.1 hin
      exact hnot r hr hq.symm
  · have hin : (q, m) ∈ l := (hl q m).2 hrec
    rw [if_pos (List.mem_map.2 ⟨(q, m), hin, rfl⟩)]
    constructor
    · rintro (hnone | ⟨r, hr, rfl, hm⟩)
      · cases hnone
      · have hsome := (hl r.1 r.2).1 (List.mem_reverse.1 hr)
        rw [hrec] at hsome
        cases hsome
        exact hm
    · intro hm
      exact Or.inr ⟨(q, m), List.mem_reverse.2 hin, rfl, hm⟩

/-- After an undo the kinds are those of the record over the others. -/
theorem undoApply_kinds {id : ℕ} (hx : undoApply id d = .ok u d') :
    d'.kindAt = d.kindUndone id := by
  obtain ⟨d₀, hbody, rfl⟩ := withBypass_ok hx
  rw [inSavepoint, savepoint_eq_ok, reads_bind] at hbody
  obtain ⟨_, d₁, hdel, hput⟩ := bind_eq_ok.1 hbody
  have hrows : ∀ q, d₀.fs.get? q = match d.undoFs.get? (id, q) with
      | none => ({ d with bypass := true } : Db K).fs.get? q
      | some m => m.map FsMeta.toRow := undoLoops_rows (fun q m => mem_record_rows _) hdel hput
  funext q
  show (d₀.fs.get? q).map (fun row => row.kind) = _
  rw [hrows, Db.kindUndone]
  rcases d.undoFs.get? (id, q) with _ | _ | m
  · rfl
  · rfl
  · rfl

/-- An undo that fits keeps the tree shaped, whether it succeeds or fails. -/
theorem Db.UndoFits.undoApply {id : ℕ} (hfits : d.UndoFits id) (h : d.TreeShaped) :
    (endState (Dbvm.undoApply id) d).TreeShaped := by
  unfold endState
  rcases hx : Dbvm.undoApply id d with ⟨v, d'⟩ | ⟨e, d'⟩
  · exact hfits.shaped h (undoApply_kinds hx)
  · obtain ⟨d₀, hbody, rfl⟩ := withBypass_error hx
    rw [Atomic.savepoint _ _ e d₀ hbody]
    exact h.of_fs rfl

/-! ## Snapshots -/

/-- The kinds of the rows of a snapshot. -/
def Db.snapKindAt (d : Db K) (id : ℕ) (q : Str) : Option Kind :=
  (d.snapFs.get? (id, q)).map fun m => m.kind

/-- The live tree and every snapshot have the shape, and every copied row belongs to a snapshot. -/
structure Db.AllShaped (d : Db K) : Prop where
  /-- The live tree. -/
  live : d.TreeShaped
  /-- The snapshots. -/
  snaps : ∀ id, Shaped parentOf root FileKind (d.snapKindAt id)
  /-- Copies belong to snapshots. -/
  owned : d.SnapsOwned

omit [DecidableEq K] in
/-- An operation on the live tree alone leaves the snapshots shaped. -/
theorem Db.AllShaped.of_live (h : d.AllShaped) (hsame : SameSnaps d d') (hlive : d'.TreeShaped) :
    d'.AllShaped where
  live := hlive
  snaps := by
    unfold Db.snapKindAt
    rw [hsame.snapFs]
    exact h.snaps
  owned :=
    { rows := by
        rw [hsame.snapshots, hsame.snapFs]
        exact h.owned.rows
      chunks := by
        rw [hsame.snapshots, hsame.snapChunks]
        exact h.owned.chunks }

/-- A program that leaves the snapshots keeps all shaped when it keeps the tree. -/
theorem Db.AllShaped.endState {α : Type} {x : Sql K α} (h : d.AllShaped)
    (hx : Keeps (Db.Effects (fun _ => False) d) x) (hlive : (Lib.Prog.endState x d).TreeShaped) :
    (Lib.Prog.endState x d).AllShaped :=
  h.of_live (sameSnaps_of_effects (hx d Relation.ReflTransGen.refl)) hlive

/-- A snapshot of a tree with the shape has it. -/
theorem Db.AllShaped.copied (h : d.AllShaped) {name : Str}
    (hx : copyTree (nextId d.snapshots)
      { d with snapshots := d.snapshots.insertIgnore (nextId d.snapshots) name } = .ok u d') :
    d'.AllShaped := by
  have hfree : d.snapshots.get? (nextId d.snapshots) = none := get?_nextId _
  have hrows : ∀ p,
    ({ d with snapshots := d.snapshots.insertIgnore (nextId d.snapshots) name } : Db K).snapFs.get?
      (nextId d.snapshots, p) = none := fun p => h.owned.rows _ p hfree
  -- The new snapshot has the kinds of the live tree, the others keep theirs.
  obtain ⟨hfs, -, -, hsnap⟩ := copyTree_ok hrows (fun c => h.owned.chunks _ c.1 c.2 hfree) hx
  obtain ⟨hsnaps, hframe, hframeCh⟩ := copyTree_frame hx
  have hother : ∀ id, d'.snapshots.get? id = none → id ≠ nextId d.snapshots ∧
    d.snapshots.get? id = none := by
    intro id hid
    rw [hsnaps, Table.get?_insertIgnore] at hid
    split_ifs at hid with hnew
    exact ⟨hnew, hid⟩
  refine ⟨h.live.of_fs hfs, fun id => ?_, fun id p hid => ?_, fun id p i hid => ?_⟩
  · by_cases hid : id = nextId d.snapshots
    · have hkinds : d'.snapKindAt id = d.kindAt := by
        funext q
        rw [Db.snapKindAt, hid, hsnap.rows, hfs, Option.map_map]
        rfl
      rw [hkinds]
      exact h.live
    · have hkinds : d'.snapKindAt id = d.snapKindAt id := by
        funext q
        rw [Db.snapKindAt, hframe id q hid]
        rfl
      rw [hkinds]
      exact h.snaps id
  · rw [hframe id p (hother id hid).1]
    exact h.owned.rows id p (hother id hid).2
  · rw [hframeCh id (p, i) (hother id hid).1]
    exact h.owned.chunks id p i (hother id hid).2

/-- `finalize_dirty` changes hashes only. -/
theorem Db.AllShaped.finalized (h : d.AllShaped) (E : Ext K) :
    (Lib.Prog.endState (finalizeDirty E) d).AllShaped :=
  h.endState (effects_finalizeDirty E) (h.live.of_kinds (finalizeDirty_kinds E d))

/-- What follows the pending hashes may start from them. -/
theorem Db.AllShaped.finalized_then {α : Type} (h : d.AllShaped) (E : Ext K) {x : ℕ → Sql K α}
    (hx : ∀ n s, s.AllShaped → (Lib.Prog.endState (x n) s).AllShaped) :
    (Lib.Prog.endState (finalizeDirty E >>= x) d).AllShaped := by
  have hend := h.finalized E
  unfold Lib.Prog.endState at hend
  refine endState_bind ?_ ?_
  · intro e d' he
    rw [he] at hend
    exact hend
  · intro n d' hok
    rw [hok] at hend
    exact hx n d' hend

/-- A snapshot of a shaped tree is shaped. -/
theorem Db.AllShaped.snapshotCreate (h : d.AllShaped) (E : Ext K) (name : Str) :
    (Lib.Prog.endState (Dbvm.snapshotCreate E name) d).AllShaped := by
  refine h.finalized_then E fun n s hs => endState_savepoint (fun _ => hs) fun r d' hx => ?_
  obtain ⟨id, d₁, hins, hx⟩ := bind_eq_ok.1 hx
  obtain ⟨_, d₂, hcopy, hx⟩ := bind_eq_ok.1 hx
  cases hx
  obtain ⟨rfl, -, rfl⟩ := insertSnapshot_ok hins
  exact hs.copied hcopy

/-- So is one with a generated name. -/
theorem Db.AllShaped.snapshotCreateNamed (h : d.AllShaped) (E : Ext K) (pfx placeholder : Str) :
    (Lib.Prog.endState (Dbvm.snapshotCreateNamed E pfx placeholder) d).AllShaped := by
  refine h.finalized_then E fun n s hs => endState_savepoint (fun _ => hs) fun r d' hx => ?_
  obtain ⟨rfl, -, hcopy⟩ := snapshot_named_ok hx
  exact hs.copied hcopy

/-- A snapshot less leaves the tree and the other snapshots shaped. -/
theorem Db.AllShaped.keeps_deleteSnapshot (id : ℕ) :
    Keeps (Db.AllShaped (K := K)) (deleteSnapshot id) := by
  refine Keeps.statement fun d d' h hx => ?_
  have hfs : d'.fs = d.fs := by
    split_ifs at hx
    · cases hx
      rfl
    · cases hx
      rfl
  -- The live tree does not change. Of the snapshots one goes with all its rows, and the others
  -- stay.
  rcases deleteSnapshot_ok (u := ()) (statement_eq_ok.2 hx) with hsame | ⟨hsnaps, hrows, hchunks⟩
  · exact h.of_live hsame (h.live.of_fs hfs)
  · have hgone : ∀ id' p, d'.snapFs.get? (id', p) = if id' = id then none else d.snapFs.get?
      (id', p) := by
      intro id' p
      rw [hrows, Table.get?_deleteWhere_key]
      simp
    refine ⟨h.live.of_fs hfs, fun id' => ?_, fun id' p hid => ?_, fun id' p i hid => ?_⟩
    · by_cases hid : id' = id
      · refine Shaped.of_empty fun q => ?_
        rw [Db.snapKindAt, hgone, if_pos hid]
        rfl
      · have hkinds : d'.snapKindAt id' = d.snapKindAt id' := by
          funext q
          rw [Db.snapKindAt, hgone, if_neg hid]
          rfl
        rw [hkinds]
        exact h.snaps id'
    · rw [hgone]
      split_ifs with hid'
      · rfl
      · rw [hsnaps, Table.get?_deleteWhere_key] at hid
        exact h.owned.rows id' p (by simpa [hid'] using hid)
    · rw [hchunks, Table.get?_deleteWhere_key]
      split_ifs with hid'
      · rfl
      · have hne : id' ≠ id := by simpa using hid'
        rw [hsnaps, Table.get?_deleteWhere_key] at hid
        exact h.owned.chunks id' p i (by simpa [hne] using hid)

/-- So does `snapshot_delete`. -/
theorem Db.AllShaped.keeps_snapshotDelete (name : Str) :
    Keeps (Db.AllShaped (K := K)) (snapshotDelete name) :=
  Keeps.bind (Keeps.query _) fun id => Keeps.saved (keeps_deleteSnapshot id)

/-- So does `snapshot_retain`. -/
theorem Db.AllShaped.keeps_snapshotRetain (keep : ℕ) :
    Keeps (Db.AllShaped (K := K)) (snapshotRetain keep) :=
  Keeps.bind (Keeps.reads _) fun _ => Keeps.bind (Keeps.forM keeps_snapshotDelete _) fun _ =>
  Keeps.pure _

/-- A restored tree is that of the snapshot, which is shaped. -/
theorem Db.AllShaped.snapshotRestore (h : d.AllShaped) (name : Str) :
    (Lib.Prog.endState (Dbvm.snapshotRestore name) d).AllShaped := by
  refine h.endState (effects_snapshotRestore name) ?_
  unfold Lib.Prog.endState
  rcases hx : Dbvm.snapshotRestore name d with ⟨v, d'⟩ | ⟨e, d'⟩
  · obtain ⟨id, -, hr⟩ := snapshotRestore_ok hx
    have hkinds : d'.kindAt = d.snapKindAt id := by
      funext q
      rw [Db.kindAt, hr.fs, Db.snapKindAt, Option.map_map]
      rfl
    show Shaped parentOf root FileKind d'.kindAt
    rw [hkinds]
    exact h.snaps id
  · rw [snapshotRestore_error hx]
    exact h.live.of_fs rfl

end Dbvm
