import Dbvm.Lib.Tx
import Dbvm.Undo.Sync

/-!
# Sessions

The commands of a session (`src/session.rs`) as the database sees them. A command gets an undo
record, the sync mirrors what it left in the tree, and a command whose content is refused, or that
failed under `rollback_on_fail`, is undone. `rewind` applies every record from a given one on. What
these functions do to the tree on the host is not part of this module: `restore_tree` reads the
database and computes the hashes that are pending.
-/

namespace Dbvm

open Lib Lib.Prog Lib.Journal Lib.Posix

variable {K : Type} [DecidableEq K]

/-- A program on a connection to a database. -/
abbrev Conn.M (K α : Type) := Tx.TxM Err (Db K) α

/-! ## The calls -/

/-- `sync_report_impl` on a connection. -/
def syncReportTx (E : Ext K) (ctx : SyncCtx) (fs : Posix.Fs) (tree : Loc) : Conn.M K SyncReport :=
  do
  let _ ← Tx.lift (finalizeDirty E)
  Tx.bare .nestedTx (syncBody E ctx fs tree)

/-- What a command leaves behind. -/
structure Command where
  /-- The host after the command. -/
  fs : Posix.Fs
  /-- Where the tree of the session is. -/
  tree : Loc
  /-- What the watcher answers. -/
  changes : Changes
  /-- The exit code is not 0, or the time was up. -/
  failed : Bool
  /-- Undo the command if it failed. -/
  rollbackOnFail : Bool
  /-- The time. -/
  now : ℤ

/-- The sync of a command. -/
def Command.sync (E : Ext K) (cmd : Command) (undo : ℕ) : Conn.M K SyncReport :=
  if cmd.changes.full then syncReportTx E ⟨false, some undo, cmd.now⟩ cmd.fs cmd.tree
  else Tx.lift (vmSyncPaths E cmd.fs cmd.tree cmd.changes.paths (some undo) cmd.now)

/-- The part of `Session::restore_tree` that writes to the database. -/
def restoreTree (E : Ext K) : Conn.M K Unit := do
  let _ ← Tx.lift (finalizeDirty E)

/-- `Session::exec`, from the point where the command has run. -/
def sessionExec (E : Ext K) (cmd : Command) : Conn.M K (ℕ × SnapDiff) := do
  let undo ← Tx.lift undoBegin
  let sync ← cmd.sync E undo
  if sync.failures ≠ [] then
    Tx.lift (undoApply undo)
    Tx.lift (undoDelete undo)
    restoreTree E
    throw .notApplied
  let diff ← Prog.reads fun c => c.cur.undoDiff undo
  if cmd.failed && cmd.rollbackOnFail then
    Tx.lift (undoApply undo)
    restoreTree E
  return (undo, diff)

/-- The ids of the undo records, the newest first. -/
def Db.undoIds (db : Db K) : List ℕ := (db.undo.rows.map Prod.fst).insertionSort fun a b => b ≤ a

/-- `Session::rewind`. -/
def sessionRewind (E : Ext K) (undo : ℕ) : Conn.M K Unit := do
  let ids ← Prog.reads fun c => c.cur.undoIds.filter fun i => undo ≤ i
  if undo ∉ ids then throw (.noUndo undo)
  Tx.savepoint (ids.forM undoApply)
  restoreTree E

/-! ## Histories -/

/-- What happens to a database in a history of sessions. -/
inductive SessionOp where
  /-- A command is run. -/
  | exec (cmd : Command)
  /-- `Session::rewind`. -/
  | rewind (undo : ℕ)
  /-- The session ends and another is opened, which materializes the tree. -/
  | reopen

/-- A database in a history, with the state in which each command was run. -/
structure History (K : Type) where
  /-- The connection of the session. -/
  link : Tx.Link (Db K)
  /-- The states before the commands, by undo id, the latest first. -/
  before : List (ℕ × Db K)

/-- One step of a history, whether the call returns or fails. -/
def SessionOp.step (E : Ext K) (h : History K) : SessionOp → History K
  | .exec cmd =>
    { link := endState (sessionExec E cmd) h.link
      before := (nextId h.link.cur.undo, h.link.cur) :: h.before }
  | .rewind undo => { h with link := endState (sessionRewind E undo) h.link }
  | .reopen => { h with link := endState (restoreTree E) h.link.close }

/-- The records are well formed: entries belong to records, chunks to entries of rows, and the
counts are right. -/
structure UndoOk (db : Db K) : Prop where
  /-- The counts are right. -/
  refs : RefOk db
  /-- An entry belongs to a record. -/
  entries : ∀ id p m, db.undoFs.get? (id, p) = some m → db.undo.has id = true
  /-- A chunk belongs to an entry of a row. -/
  copies : ∀ id p i k, db.undoChunks.get? (id, p, i) = some k →
    ∃ m, db.undoFs.get? (id, p) = some (some m)
  /-- Every record can be put back. -/
  frees : ∀ id, db.Frees id

/-- The histories that begin with the opening of a session and whose steps satisfy `C`. -/
inductive Sessions (C : History K → SessionOp → Prop) (E : Ext K) : History K → Prop where
  /-- A session is opened: the pending hashes are computed. -/
  | start {db db' : Db K} {n : ℕ} (h : UndoOk db) (hopen : finalizeDirty E db = .ok n db') :
      Sessions C E ⟨⟨db', []⟩, []⟩
  /-- One step. -/
  | step {h : History K} (op : SessionOp) (hh : Sessions C E h) (hC : C h op) :
      Sessions C E (op.step E h)

end Dbvm
