import Dbvm.Lib.Posix
import Dbvm.Snapshot

/-!
# Sync

The mirror of a host directory in the database (`src/vm/tree.rs`): the whole tree
(`sync_report_impl`) or a set of paths (`vm_sync_paths`). Both compare one entry of the host with
one row (`sync_one`), and both know where the materialize put the links that are stored below
another link (`resolve_parent_in_vm`, `link_aliases`). The host does not change while a sync runs.
-/

namespace Dbvm

open Lib Lib.Chunks Lib.Posix

variable {K : Type} [DecidableEq K]

/-! ## Links below links -/

/-- The name of an entry (`Path::file_name`). -/
def fileName (p : Str) : Str := ((p.splitOn '/').getLast?).getD []

/-- The text without the `/` it starts with. -/
def trimStartSlashes (p : Str) : Str := p.dropWhile (· = '/')

/-- One component of the walk of `resolve_parent_in_vm`: the path so far, and whether a link has
been followed. A relative target is taken from the parent of the directory the link is in. -/
def resolveStep (links : List (Str × Str)) (st : Str × Bool) (comp : Str) : Str × Bool :=
  let next := if st.1 = root then '/' :: comp else st.1 ++ '/' :: comp
  match links.lookup next with
  | some t =>
    if t.head? = some '/' then (normalizeVmPath t, true)
    else (normalizeVmPath ((pathParent st.1).getD root ++ '/' :: t), true)
  | none => (next, st.2)

/-- The directory a path is in, every link on the way replaced by its target; none if there is no
link on the way. -/
def resolveParentInVm (p : Str) (links : List (Str × Str)) : Option Str := do
  let parent ← pathParent p
  let (cur, changed) := ((parent.splitOn '/').filter (· ≠ [])).foldl (resolveStep links)
    (root, false)
  if changed then some cur else none

/-- Where the materialize puts a link. -/
def translatedLink (p : Str) (links : List (Str × Str)) : Str :=
  match resolveParentInVm p links with
  | some pv => trimEndSlashes pv ++ '/' :: fileName p
  | none => p

/-- `HashMap::insert`. -/
def mapInsert (m : List (Str × Str)) (k v : Str) : List (Str × Str) :=
  m.filter (fun r => r.1 ≠ k) ++ [(k, v)]

/-- `link_aliases`: the links that are placed elsewhere, by the path they are placed at. The rows
give the order in which the map is filled. -/
def linkAliases (links : List (Str × Str)) : List (Str × Str) :=
  links.foldl (fun m l => match resolveParentInVm l.1 links with
    | some _ => mapInsert m (normalizeVmPath (translatedLink l.1 links)) l.1
    | none => m) []

/-- `link_alias_target_of`: where a link is placed. -/
def linkAliasTargetOf (p : Str) (aliases : List (Str × Str)) : Option Str :=
  (aliases.find? fun r => r.2 = p).map Prod.fst

/-- The links of a database. -/
def Db.links (db : Db K) : List (Str × Str) := db.fs.rows.filterMap fun r =>
  if r.2.kind = .symlink then r.2.linkTarget.map fun t => (r.1, t) else none

/-! ## Reserved paths -/

/-- Whether a text occurs in another. -/
def hasInfix (pat s : Str) : Bool := s.tails.any fun t => pat.isPrefixOf t

/-- `is_reserved_vm_path`. -/
def isReservedVmPath (p : Str) : Bool :=
  p = root || p = "/dev".toList || "/dev/".toList.isPrefixOf p || p = "/proc".toList ||
    "/proc/".toList.isPrefixOf p || p = "/sys".toList || "/sys/".toList.isPrefixOf p ||
    p = "/tmp".toList || "/tmp/".toList.isPrefixOf p || hasInfix "/__pycache__".toList p ||
    "/opt/piagent/".toList.isPrefixOf p || p = "/.selfdb".toList ||
    "/.selfdb/".toList.isPrefixOf p || p = "/opt/piagent".toList

/-! ## One entry -/

/-- What stays the same for every entry of one sync. -/
structure SyncCtx where
  /-- Compare the content of a file with its stored hash, not only its metadata. -/
  verifyContent : Bool
  /-- The undo record. -/
  undo : Option ℕ
  /-- The time of the sync. -/
  now : ℤ

/-- The kind of the row of an entry. -/
def nodeKind : Node → Option Kind
  | .file .. => some .file
  | .dir .. => some .dir
  | .link _ => some .symlink
  | .special _ => none

/-- The permission bits of an entry; every link has all of them. -/
def hostMode : Node → ℤ
  | .file _ mode _ _ => (mode % 4096 : ℕ)
  | .dir mode _ => (mode % 4096 : ℕ)
  | .link _ => 511
  | .special mode => (mode % 4096 : ℕ)

/-- `host_mtime_ns`: 0 for a time before the epoch. -/
def hostMtimeNs (ns : ℤ) : ℤ := if 0 ≤ ns then ns else 0

/-- The modification time in seconds. -/
def hostMtime (ns now : ℤ) : ℤ := if 0 ≤ ns then ns / 1000000000 else now

/-- `ns_matches`. -/
def nsMatches (stored host : ℤ) : Bool := stored = 0 || host = 0 || stored = host

/-- `File::open` of a regular file. -/
def openFile (data : Bytes) (readable : Bool) : Except Err Reader :=
  if readable then .ok [.got data] else .error .readFailed

/-- Record a row before it is written, if the sync has an undo record. -/
def SyncCtx.capture (ctx : SyncCtx) (vmP : Str) : Sql K Unit :=
  match ctx.undo with
  | some u => undoCapture u vmP
  | none => pure ()

/-- `write_file_checked`, of a file that does not change while it is read. -/
def writeFileChecked (E : Ext K) (vmP : Str) (mode mtime ns : ℤ) (src : Reader) : Sql K Unit := do
  let _ ← fsPutFileStreamNs E vmP mode mtime ns src
  if ns = 0 then updateFs vmP fun row => { row with mtimeNs := 0 }

/-- `sync_one`: bring the row of `vmP` in line with a host entry. `some false` when it is created,
`some true` when it is updated, `none` when it stays or the entry has a kind that is not stored. -/
def syncOne (E : Ext K) (ctx : SyncCtx) (node : Node) (vmP : Str) (prev : Option (FsMeta K)) :
    Sql K (Option Bool) :=
  match node, prev with
  | .special _, _ => pure none
  | .dir .., none => do
    ctx.capture vmP
    fsPutNode vmP .dir (hostMode node) ctx.now none
    return some false
  | .link t, none => do
    ctx.capture vmP
    fsPutNode vmP .symlink (hostMode node) ctx.now (some t)
    return some false
  | .file data _ ns readable, none => do
    let src ← Prog.query fun _ => openFile data readable
    ctx.capture vmP
    writeFileChecked E vmP (hostMode node) (hostMtime ns ctx.now) (hostMtimeNs ns) src
    return some false
  | .dir .., some p => do
    if p.kind = .dir then
      if p.mode = hostMode node then return none
      ctx.capture vmP
      updateFs vmP fun row => { row with mode := hostMode node, mtime := ctx.now }
      return some true
    ctx.capture vmP
    fsPutNode vmP .dir (hostMode node) ctx.now none
    return some true
  | .link t, some p => do
    if p.kind = .symlink then
      if p.linkTarget = some t ∧ p.mode = hostMode node then return none
      ctx.capture vmP
      updateFs vmP fun row =>
        { row with mode := hostMode node, linkTarget := some t, mtime := ctx.now }
      return some true
    ctx.capture vmP
    fsPutNode vmP .symlink (hostMode node) ctx.now (some t)
    return some true
  | .file data _ ns readable, some p => do
    if p.kind = .file then
      let metadataCurrent := p.size = data.length && p.mtime = hostMtime ns ctx.now &&
        p.mode = hostMode node && nsMatches p.mtimeNs (hostMtimeNs ns)
      let current ← if ctx.verifyContent && metadataCurrent then do
          let stored ← Prog.reads fun db => (db.fs.get? vmP).map fun row => row.hash
          let _ ← Prog.query fun _ => openFile data readable
          pure (decide (stored = some (.key (E.blobKey data))))
        else pure metadataCurrent
      if current then return none
      let src ← Prog.query fun _ => openFile data readable
      ctx.capture vmP
      writeFileChecked E vmP (hostMode node) (hostMtime ns ctx.now) (hostMtimeNs ns) src
      return some true
    -- The kind has changed: the row is recorded before the file is opened.
    ctx.capture vmP
    let src ← Prog.query fun _ => openFile data readable
    writeFileChecked E vmP (hostMode node) (hostMtime ns ctx.now) (hostMtimeNs ns) src
    return some true

/-- Columns that a sync changes in the row of a directory or a link: the mode, which is the host's,
time and target. -/
def Retouches (mode : ℤ) (f : FsRow K → FsRow K) : Prop :=
  ∃ (mtime : ℤ) (link : Option (Option Str)), ∀ row,
  f row = { row with mode := mode, mtime := mtime, linkTarget := link.getD row.linkTarget }

omit [DecidableEq K] in
/-- The content of a file that could be opened. -/
theorem keeps_openFile {α : Type} {I : Db K → Prop} {data : Bytes} {readable : Bool}
    {g : Reader → Sql K α} (hg : Prog.Keeps I (g [.got data])) :
    Prog.Keeps I (Prog.query (fun _ => openFile data readable) >>= g) := by
  intro db hdb
  refine Prog.endState_query_bind hdb fun src hsrc => ?_
  unfold openFile at hsrc
  split_ifs at hsrc
  cases hsrc
  exact hg db hdb

/-- What a capture and the writes after it keep, the whole keeps. Which writes there are depends on
the entry and on the row it is compared with. -/
theorem keeps_syncOne_at {E : Ext K} {ctx : SyncCtx} {vmP : Str} {I J : Db K → Prop} (node : Node)
    (prev : Option (FsMeta K))
    (hcap : ∀ {α : Type} {x : Sql K α}, Prog.Keeps J x →
      Prog.Keeps I (ctx.capture vmP >>= fun _ => x))
    (hnode : ∀ kind mtime link, nodeKind node = some kind → kind ≠ .file →
      Prog.Keeps J (fsPutNode vmP kind (hostMode node) mtime link))
    (hupdate : ∀ m f, prev = some m → nodeKind node = some m.kind → m.kind ≠ .file →
      Retouches (hostMode node) f → Prog.Keeps J (updateFs vmP f))
    (hwrite : ∀ data mode ns readable, node = .file data mode ns readable →
      Prog.Keeps J (writeFileChecked E vmP (hostMode node) (hostMtime ns ctx.now) (hostMtimeNs ns)
        [.got data])) :
    Prog.Keeps I (syncOne E ctx node vmP prev) := by
  have hput : ∀ kind mtime link (b : Bool), nodeKind node = some kind → kind ≠ .file →
      Prog.Keeps I (ctx.capture vmP >>= fun _ =>
        fsPutNode vmP kind (hostMode node) mtime link >>= fun _ => pure (some b)) :=
    fun kind mtime link b hn hkind =>
      hcap (Prog.Keeps.bind (hnode kind mtime link hn hkind) fun _ => Prog.Keeps.pure _)
  rcases node with ⟨data, mode, ns, readable⟩ | ⟨mode, listable⟩ | t | mode
  · have hfile := hwrite data mode ns readable rfl
    rcases prev with _ | m
    · exact keeps_openFile (hcap (Prog.Keeps.bind hfile fun _ => Prog.Keeps.pure _))
    · unfold syncOne
      dsimp only
      -- What is done once it is known whether the row is current.
      have hrest : ∀ current : Bool, Prog.Keeps I (if current = true then pure none else do
          let src ← Prog.query fun _ => openFile data readable
          ctx.capture vmP
          writeFileChecked E vmP (hostMode (.file data mode ns readable)) (hostMtime ns ctx.now)
            (hostMtimeNs ns) src
          pure (some true)) := by
        intro current
        split_ifs
        · exact Prog.Keeps.pure _
        · exact keeps_openFile (hcap (Prog.Keeps.bind hfile fun _ => Prog.Keeps.pure _))
      split_ifs
      · exact Prog.Keeps.bind (Prog.Keeps.reads _) fun stored =>
          Prog.Keeps.bind (Prog.Keeps.query _)
          fun _ => Prog.Keeps.bind (Prog.Keeps.pure _) hrest
      · exact Prog.Keeps.bind (Prog.Keeps.pure _) hrest
      · exact hcap (keeps_openFile (Prog.Keeps.bind hfile fun _ => Prog.Keeps.pure _))
  · rcases prev with _ | m
    · exact hput .dir _ _ _ rfl (by decide)
    · unfold syncOne
      dsimp only
      split_ifs with hkind
      · exact Prog.Keeps.pure _
      · have hn : nodeKind (.dir mode listable) = some m.kind := by rw [hkind]; rfl
        refine hcap (Prog.Keeps.bind (hupdate m _ rfl hn (by rw [hkind]; decide) ?_) fun _ =>
          Prog.Keeps.pure _)
        exact ⟨_, none, fun row => rfl⟩
      · exact hput .dir _ _ _ rfl (by decide)
  · rcases prev with _ | m
    · exact hput .symlink _ _ _ rfl (by decide)
    · unfold syncOne
      dsimp only
      split_ifs with hkind
      · exact Prog.Keeps.pure _
      · have hn : nodeKind (.link t) = some m.kind := by rw [hkind]; rfl
        refine hcap (Prog.Keeps.bind (hupdate m _ rfl hn (by rw [hkind]; decide) ?_) fun _ =>
          Prog.Keeps.pure _)
        exact ⟨_, some (some t), fun row => rfl⟩
      · exact hput .symlink _ _ _ rfl (by decide)
  · exact Prog.Keeps.pure _

/-- What a capture and every write after it keep, the whole keeps. -/
theorem keeps_syncOne_of {E : Ext K} {ctx : SyncCtx} {vmP : Str} {I J : Db K → Prop}
    (hcap : ∀ {α : Type} {x : Sql K α}, Prog.Keeps J x →
      Prog.Keeps I (ctx.capture vmP >>= fun _ => x))
    (hnode : ∀ kind mode mtime link, Prog.Keeps J (fsPutNode vmP kind mode mtime link))
    (hupdate : ∀ f : FsRow K → FsRow K, (∀ row, row.content = none → (f row).content = none) →
      Prog.Keeps J (updateFs vmP f))
    (hwrite : ∀ mode mtime ns src, Prog.Keeps J (writeFileChecked E vmP mode mtime ns src))
    (node : Node) (prev : Option (FsMeta K)) : Prog.Keeps I (syncOne E ctx node vmP prev) := by
  refine keeps_syncOne_at node prev hcap (fun kind mtime link _ _ => hnode kind _ mtime link) ?_
    fun _ _ _ _ _ => hwrite _ _ _ _
  rintro m f - - - ⟨mtime, link, hf⟩
  refine hupdate f fun row hrow => ?_
  rw [hf]
  exact hrow

/-! ## The report -/

/-- `SyncReport`. -/
structure SyncReport where
  /-- Rows that are new. -/
  created : ℕ := 0
  /-- Rows that have changed. -/
  updated : ℕ := 0
  /-- Rows that stay. -/
  unchanged : ℕ := 0
  /-- Rows that are gone. -/
  deleted : ℕ := 0
  /-- Entries that could not be written. -/
  failed : ℕ := 0
  /-- Why each of them failed; no path for an error of the walk itself. -/
  failures : List (Option Str × Err) := []

/-- An entry that failed. -/
def SyncReport.fail (rep : SyncReport) (p : Option Str) (e : Err) : SyncReport :=
  { rep with failed := rep.failed + 1, failures := rep.failures ++ [(p, e)] }

/-- `count`. -/
def SyncReport.count (rep : SyncReport) (vmP : Str) : Except Err (Option Bool) → SyncReport
  | .ok (some false) => { rep with created := rep.created + 1 }
  | .ok (some true) => { rep with updated := rep.updated + 1 }
  | .ok none => { rep with unchanged := rep.unchanged + 1 }
  | .error e => rep.fail (some vmP) e

/-! ## The whole tree -/

/-- The VM path of an entry of the tree at `tree`. -/
def vmPathOf (tree loc : Loc) : Str :=
  normalizeVmPath ('/' :: trimStartSlashes (List.intercalate ['/'] (loc.drop tree.length)))

/-- The links whose place is taken by a real entry; they are never written to the host. -/
def Db.servedLinks (db : Db K) (aliases : List (Str × Str)) : List Str :=
  (db.fs.rows.filter fun r => r.2.kind = .symlink &&
    ((linkAliasTargetOf r.1 aliases).bind db.fs.get?).any fun row => row.kind ≠ .symlink).map
    Prod.fst

/-- One entry of the walk, with the paths seen so far and the report. -/
def syncEntry (E : Ext K) (ctx : SyncCtx) (tree : Loc) (rows : Table Str (FsRow K))
    (aliases : List (Str × Str)) (st : List Str × SyncReport) (e : Option (Loc × Node)) :
    Sql K (List Str × SyncReport) :=
  match e with
  | none => pure (st.1, st.2.fail none .readFailed)
  | some (loc, node) =>
    let vmP := vmPathOf tree loc
    if isReservedVmPath vmP then pure st
    else
      match node, aliases.lookup vmP with
      | .link _, some row => pure (row :: st.1, st.2)
      | _, _ => do
        let res ← Prog.attempt (syncOne E ctx node vmP ((rows.get? vmP).map fun r => r.toFsMeta))
        pure (vmP :: st.1, st.2.count vmP res)

/-- The deletion of one row that the tree does not have. -/
def syncDelete (ctx : SyncCtx) (rep : SyncReport) (p : Str) : Sql K SyncReport := do
  ctx.capture p
  let there ← Prog.reads fun db => db.fs.has p
  deleteFs fun q => q = p
  return if there then { rep with deleted := rep.deleted + 1 } else rep

/-- `String::len`. -/
def utf8Len (s : Str) : ℕ := (s.map Char.utf8Size).sum

/-- The part of `sync_report_impl` between `BEGIN IMMEDIATE` and `COMMIT`. -/
def syncBody (E : Ext K) (ctx : SyncCtx) (fs : Fs) (tree : Loc) : Sql K SyncReport := do
  let db ← Prog.reads fun db => db
  let aliases := linkAliases db.links
  let (seen, rep) ← (walk fs tree).foldlM (syncEntry E ctx tree db.fs aliases)
    (db.servedLinks aliases, {})
  let gone := (db.fs.rows.map Prod.fst).filter fun p => !isReservedVmPath p && p ∉ seen
  -- The deepest go first.
  (gone.insertionSort fun a b => utf8Len b ≤ utf8Len a).foldlM (syncDelete ctx) rep

/-- `sync_report_impl`, on a connection that is not in a transaction. The body is not rolled back
when it fails. -/
def syncReportImpl (E : Ext K) (ctx : SyncCtx) (fs : Fs) (tree : Loc) : Sql K SyncReport := do
  let _ ← finalizeDirty E
  syncBody E ctx fs tree

/-- `vm_sync_tree`. -/
def vmSyncTree (E : Ext K) (fs : Fs) (tree : Loc) (undo : Option ℕ) (now : ℤ) : Sql K SyncReport :=
  syncReportImpl E ⟨false, undo, now⟩ fs tree

/-- `vm_sync_report`. -/
def vmSyncReport (E : Ext K) (fs : Fs) (tree : Loc) (now : ℤ) : Sql K SyncReport :=
  syncReportImpl E ⟨false, none, now⟩ fs tree

/-- `vm_sync_full`. -/
def vmSyncFull (E : Ext K) (fs : Fs) (tree : Loc) (now : ℤ) : Sql K SyncReport :=
  syncReportImpl E ⟨true, none, now⟩ fs tree

/-! ## A set of paths -/

/-- One path of `vm_sync_paths`. -/
def syncPath (E : Ext K) (ctx : SyncCtx) (fs : Fs) (tree : Loc) (aliases : List (Str × Str))
    (rep : SyncReport) (vmP : Str) : Sql K SyncReport :=
  if isReservedVmPath vmP then pure rep
  else
    match lstat fs tree (trimStartSlashes vmP) with
    | .ok (_, node) =>
      match node, aliases.lookup vmP with
      | .link _, some _ => pure rep
      | _, _ => do
        let prev ← Prog.reads fun db => (db.fs.get? vmP).map fun r => r.toFsMeta
        let res ← Prog.attempt (syncOne E ctx node vmP prev)
        pure (rep.count vmP res)
    | .error .noent => do
      -- The translated path of a link is where the link itself was on the host.
      let row := (aliases.lookup vmP).getD vmP
      let below := fun q => q = row || like (trimEndSlashes row ++ ['/', '%']) q
      match ctx.undo with
        | some u => undoCaptureTree u row
        | none => pure ()
      let n ← Prog.reads fun db => (db.fs.select fun q _ => below q).length
      deleteFs below
      pure { rep with deleted := rep.deleted + n }
    | .error _ => pure (rep.fail (some vmP) .readFailed)

/-- `vm_sync_paths`. The paths come sorted. -/
def vmSyncPaths (E : Ext K) (fs : Fs) (tree : Loc) (paths : List Str) (undo : Option ℕ) (now : ℤ) :
    Sql K SyncReport := do
  let _ ← finalizeDirty E
  let aliases ← Prog.reads fun db => linkAliases db.links
  inSavepoint (paths.foldlM (syncPath E ⟨false, undo, now⟩ fs tree aliases) {})

/-- `Changes`: what the watcher of a tree answers. -/
structure Changes where
  /-- The paths that may have changed. -/
  paths : List Str
  /-- The paths are not known: the whole tree must be compared. -/
  full : Bool

/-- The sync of what a watcher has seen. -/
def syncChanges (E : Ext K) (fs : Fs) (tree : Loc) (changes : Changes) (undo : Option ℕ) (now : ℤ) :
    Sql K SyncReport :=
  if changes.full then vmSyncTree E fs tree undo now
  else vmSyncPaths E fs tree changes.paths undo now

end Dbvm
