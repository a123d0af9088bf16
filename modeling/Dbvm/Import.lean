import Dbvm.Host.Sync
import Dbvm.Maint

/-!
# Imports

A tar archive and a host directory as sources of a database (`src/vm/import.rs`). Both are written
in batches: the members of an archive 2000 at a time, the entries of a directory 2000 or 256 at a
time. What is a batch is defined here, how a batch is bracketed in `Dbvm.Faults`.
-/

namespace Dbvm

open Lib Lib.Chunks Lib.Posix

variable {K : Type} [DecidableEq K]

/-! ## Tar archives -/

/-- What a member of an archive is. A read of its link name or its content may fail. -/
inductive TarKind where
  /-- A directory. -/
  | dir
  /-- A link, with its target. -/
  | symlink (target : Except Err (Option Str))
  /-- A second name of another member. -/
  | hardLink (target : Except Err (Option Str))
  /-- A regular file. -/
  | file (data : Except Err Bytes)
  /-- Anything else. -/
  | other

/-- A member of an archive. -/
structure TarEntry where
  /-- Its path in the archive. -/
  path : Except Err Str
  /-- What it is. -/
  kind : TarKind
  /-- Its mode, 0644 if the header has none. -/
  mode : ℤ
  /-- Its time, the present one if the header has none. -/
  mtime : ℤ

/-- What the caller of the import chooses. -/
structure TarOptions where
  /-- The text that is taken off every path. -/
  strip : Str
  /-- Only these paths, what is below them and what is above them; no restriction if empty. -/
  whitelist : List Str
  /-- Not these paths, nor what is below them. -/
  exclude : List Str

/-- `str::strip_prefix`. -/
def stripStart (pfx s : Str) : Option Str :=
  if pfx.isPrefixOf s then some (s.drop pfx.length) else none

/-- `tar_vm_path`. -/
def tarVmPath (archivePath strip : Str) : Str :=
  let p := (stripStart ['.', '/'] archivePath).getD archivePath
  let p := if strip = [] then p
    else match stripStart strip p with
      | some rest => rest
      | none => if p = trimEndSlashes strip then [] else p
  normalizeVmPath p

/-- The options leave a path out. -/
def TarOptions.skips (opts : TarOptions) (p : Str) : Bool :=
  (opts.whitelist ≠ [] && !opts.whitelist.any fun w => w.isPrefixOf p || p.isPrefixOf w) ||
    opts.exclude.any fun x => p = x || (x ++ ['/']).isPrefixOf p

/-- Whether a member counts for the size of a batch. -/
def TarOptions.counts (opts : TarOptions) (entry : Except Err TarEntry) : Bool :=
  match entry with
  | .error _ => false
  | .ok e =>
    match e.path, e.kind with
    | .error _, _ => false
    | .ok _, .other => false
    | .ok _, .hardLink (.ok none) => false
    | .ok path, _ =>
      let p := tarVmPath path opts.strip
      p ≠ [] && p ≠ root && !opts.skips p

/-- One member of an archive. -/
def importEntry (E : Ext K) (opts : TarOptions) (now : ℤ) (entry : Except Err TarEntry) :
    Sql K Unit := do
  let e ← Prog.query fun _ => entry
  let path ← Prog.query fun _ => e.path
  let p := tarVmPath path opts.strip
  if p = [] ∨ p = root then return
  if opts.skips p then return
  match e.kind with
  | .dir => vmAddDir p e.mode e.mtime now
  | .symlink target =>
    match ← Prog.query fun _ => target with
    | some t => vmAddSymlink p t now
    | none => pure ()
  | .hardLink target =>
    match ← Prog.query fun _ => target with
    | some t =>
      let data ← Prog.query fun db => vmCat E db (tarVmPath t opts.strip)
      vmAddBytes E p data e.mode e.mtime now
    | none => pure ()
  | .file data =>
    let bytes ← Prog.query fun _ => data
    vmAddBytes E p bytes e.mode e.mtime now
  | .other => pure ()

/-- The elements of a list in batches: a batch ends with the `size`-th element that counts. `n` of
them are already in the first one. -/
def batches {α : Type} (counts : α → Bool) (size : ℕ) : ℕ → List α → List (List α)
  | _, [] => [[]]
  | n, a :: as =>
    let n' := if counts a then n + 1 else n
    if counts a ∧ n' = size then [a] :: batches counts size 0 as
    else match batches counts size n' as with
      | [] => [[a]]
      | b :: bs => (a :: b) :: bs

/-- The batches of an import. -/
def tarBatches (opts : TarOptions) (entries : List (Except Err TarEntry)) :
    List (List (Except Err TarEntry)) :=
  batches opts.counts 2000 0 entries

/-! ## Host directories -/

/-- An entry of a directory that is packed. -/
inductive PackEntry where
  /-- A directory. -/
  | dir (vmPath : Str) (mode : ℤ) (mtime : ℤ)
  /-- A link. -/
  | symlink (vmPath target : Str)
  /-- A regular file: what the host has there. -/
  | file (vmPath : Str) (data : Bytes) (mode mtime : ℤ) (readable : Bool)

/-- The VM path of an entry below `vmPrefix`. -/
def packPath (vmPrefix : Str) (dir loc : Loc) : Str :=
  let rel := trimStartSlashes (List.intercalate ['/'] (loc.drop dir.length))
  normalizeVmPath (if vmPrefix = root then '/' :: rel else trimEndSlashes vmPrefix ++ '/' :: rel)

/-- `plan_host_dir`: the directories, links and regular files below a directory, in the order of the
walk. `dirMtime` gives the times of the directories. -/
def planHostDir (fs : Fs) (dirMtime : Loc → ℤ) (dir : Loc) (vmPrefix : Str) (now : ℤ) :
    Except Err (List PackEntry) :=
  (walk fs dir).foldrM (fun e plan =>
    match e with
    | none => .error .readFailed
    | some (loc, node) =>
      let p := packPath vmPrefix dir loc
      .ok (match node with
        | .dir .. => .dir p (hostMode node) (dirMtime loc) :: plan
        | .link t => .symlink p t :: plan
        | .file data _ ns readable => .file p data (hostMode node)
            (hostMtime ns now) readable :: plan
        | .special _ => plan)) []

/-- `put_tree_node`, and `vm_add_file` of a regular file. -/
def packEntry (E : Ext K) (now : ℤ) : PackEntry → Sql K Unit
  | .dir p mode mtime => vmAddDir p mode mtime now
  | .symlink p target => vmAddSymlink p target now
  | .file vmPath data mode mtime readable => do
    let p := normalizeVmPath vmPath
    ensureParentDirs p now
    let _ ← Prog.query fun _ => openFile data readable
    vmAddBytes E p data mode mtime now

/-- A file of the parallel packer, read before its batch is written. -/
def packFile (E : Ext K) (now : ℤ) : PackEntry → Sql K Unit
  | .file p data mode mtime readable => do
    let _ ← Prog.query fun _ => openFile data readable
    ensureParentDirs p now
    chunksReplace E p data
    let hash := FileHash.key (E.blobKey data)
    upsertFs p ((dirRow mode mtime).toFile mode mtime data.length hash)
      (FsRow.toFile mode mtime data.length hash)
  | _ => pure ()

/-- Whether an entry is a regular file. -/
def PackEntry.isFile : PackEntry → Bool
  | .file .. => true
  | _ => false

end Dbvm
