import Dbvm.Host.Walk
import Dbvm.Session

/-!
# Steps

One command or one agent task against a database (`src/agent.rs`): a snapshot is taken, the tree is
materialized and handed to the sandbox, and what the sandbox leaves is synced back and recorded. A
run whose content is refused is recorded too (`record_and_fail`), and its connection is closed.

The sandbox is a parameter: its outcome and the host after it.
-/

namespace Dbvm

open Lib Lib.Prog Lib.Posix

variable {K : Type} [DecidableEq K]

/-! ## The runs -/

/-- `Outcome` of a sandbox. -/
structure Outcome where
  /-- The exit code. -/
  exitCode : ℤ
  /-- The time was up. -/
  timedOut : Bool
  /-- What it wrote. -/
  stdout : Bytes
  /-- What it wrote. -/
  stderr : Bytes
  /-- Output was dropped. -/
  stdoutTruncated : Bool
  /-- Output was dropped. -/
  stderrTruncated : Bool
  deriving DecidableEq

/-- A row of `agent_steps`. -/
structure StepRow where
  /-- The command. -/
  cmd : Str
  /-- What the sandbox answered. -/
  outcome : Outcome
  /-- The snapshot was restored. -/
  rolledBack : Bool
  /-- `snap_before`. -/
  before : Str
  /-- `snap_after`. -/
  after : Option Str
  /-- `fs_diff_json`. -/
  changes : SnapDiff
  deriving DecidableEq

/-- A database with the steps recorded in it. -/
structure Agent (K : Type) where
  /-- The connection. -/
  link : Tx.Link (Db K)
  /-- `agent_steps`. -/
  steps : List StepRow

/-- A program on a connection that records steps. -/
abbrev AgentM (K α : Type) := EStateM Err (Agent K) α

/-- A program on the connection. -/
def onLink {α : Type} (x : Conn.M K α) : AgentM K α := fun s =>
  match x s.link with
  | .ok a c => .ok a { s with link := c }
  | .error e c => .error e { s with link := c }

/-- `insert_step`, outside of a transaction. -/
def insertStep (row : StepRow) : AgentM K Unit :=
  modify fun s => { s with steps := s.steps ++ [row] }

/-- The two functions that run a sandbox on a materialized tree. -/
inductive Runner where
  /-- `run_step`. -/
  | step
  /-- `run_agent`. -/
  | agent
  deriving DecidableEq

/-- The name of the snapshot before the run. -/
def Runner.beforePrefix : Runner → Str
  | .step => "step-before".toList
  | .agent => "agent-before".toList

/-- The name of the snapshot after the run. -/
def Runner.afterPrefix : Runner → Str
  | .step => "step-after".toList
  | .agent => "agent-after".toList

/-- A run: what is asked for, and what the sandbox does. -/
structure Run where
  /-- Which of the two. -/
  runner : Runner
  /-- The words of the command line; the task of an agent is one word. -/
  argv : List Str
  /-- Restore the snapshot when the run fails. -/
  rollbackOnFail : Bool
  /-- The names the snapshots are inserted under. -/
  placeholders : Str × Str
  /-- What the sandbox answers. -/
  outcome : Outcome
  /-- The host after the sandbox. -/
  fs : Posix.Fs
  /-- Where the tree is. -/
  tree : Loc
  /-- The time of the sync. -/
  now : ℤ

/-- The text of the command in `agent_steps`. -/
def Run.cmd (run : Run) : Str :=
  match run.runner with
  | .step => List.intercalate [' '] run.argv
  | .agent => "vm-agent: ".toList ++ List.intercalate [' '] run.argv

/-- There is nothing to run. -/
def Run.empty (run : Run) : Bool :=
  match run.runner with
  | .step => run.argv = []
  | .agent => trim (List.intercalate [' '] run.argv) = []

/-- `ScratchDir::remove`. -/
def scratchRemove (tree : Loc) (fs : Posix.Fs) (rel : Str) : Posix.Fs :=
  match unlink fs tree rel with
  | .ok fs' => fs'
  | .error _ => fs

/-- What `run_agent` puts into the tree itself. -/
def scaffolding : List Str :=
  ["opt/piagent/models.json".toList, "opt/piagent/settings.json".toList, "opt/fwd.cjs".toList,
    "opt/run-agent.sh".toList, "tmp/proxy.sock".toList, "tmp/fwd.log".toList]

/-- The host the sync sees. -/
def Run.host (run : Run) : Posix.Fs :=
  match run.runner with
  | .step => run.fs
  | .agent => scaffolding.foldl (scratchRemove run.tree) run.fs

/-- The entry point of the agent in a database. -/
def agentPath : Str := "/opt/pi/dist/bundle/cli.js".toList

/-- A run up to the sync: the snapshot, and the part of the materialize that writes to the database.
Returns the id and the name of the snapshot. -/
def prepare (E : Ext K) (run : Run) : AgentM K (ℕ × Str) := do
  if run.empty then throw .emptyCommand
  if run.runner = .agent then
    let there ← Prog.reads fun s => s.link.cur.fs.has agentPath
    if !there then throw .noAgent
  let before ← onLink (Tx.lift (snapshotCreateNamed E run.runner.beforePrefix run.placeholders.1))
  let _ ← onLink (Tx.lift (finalizeDirty E))
  return before

/-- `vm_sync_report` of a run. -/
def Run.sync (E : Ext K) (run : Run) : Conn.M K SyncReport :=
  syncReportTx E ⟨false, none, run.now⟩ run.host run.tree

/-- `EXIT_NOT_APPLIED`. -/
def exitNotApplied : ℤ := 125

/-- `failure_summary`, with `text` for the texts of the errors. -/
def SyncReport.failureSummary (text : Err → Str) (rep : SyncReport) : Option Str :=
  rep.failures.head?.map fun f => Nat.toDigits 10 rep.failed ++
    " path(s) could not be written, first: ".toList ++ f.1.getD "<walk>".toList ++
    ": ".toList ++ text f.2

/-- The row of a run that was not applied. -/
def notAppliedRow (run : Run) (before why : Str) : StepRow :=
  { cmd := run.cmd
    outcome :=
      { exitCode := exitNotApplied, timedOut := false, stdout := run.outcome.stdout
        stderr := run.outcome.stderr ++
          Str.bytes ('\n' :: "sandbox content not applied: ".toList ++ why)
        stdoutTruncated := run.outcome.stdoutTruncated, stderrTruncated := false }
    rolledBack := false, before := before, after := none, changes := ⟨[], [], []⟩ }

/-- `record_and_fail`. -/
def recordAndFail (run : Run) (before why : Str) : AgentM K StepRow := do
  insertStep (notAppliedRow run before why)
  throw .notApplied

/-- `finish_run`. -/
def finishRun (E : Ext K) (run : Run) (before : Str) : AgentM K StepRow := do
  let changes ← onLink (Tx.lift (snapshotDiffLive E before))
  let rolledBack := (run.outcome.exitCode ≠ 0 || run.outcome.timedOut) && run.rollbackOnFail
  let after ← if rolledBack then do
      onLink (Tx.lift (snapshotRestore before))
      pure none
    else do
      let (_, name) ← onLink
        (Tx.lift (snapshotCreateNamed E run.runner.afterPrefix run.placeholders.2))
      pure (some name)
  let row : StepRow :=
    { cmd := run.cmd, outcome := run.outcome, rolledBack := rolledBack, before := before,
      after := after
      changes := changes }
  insertStep row
  return row

/-- A run from the sync on. -/
def conclude (E : Ext K) (text : Err → Str) (run : Run) (before : Str) : AgentM K StepRow := do
  let sync ← onLink (run.sync E)
  match sync.failureSummary text with
  | some why => recordAndFail run before why
  | none => finishRun E run before

/-- A connection is opened: the pending hashes are computed, unless that fails. -/
def vmOpen (E : Ext K) : AgentM K Unit := do
  let _ ← Prog.attempt (onLink (Tx.lift (finalizeDirty E)))

/-- A connection is opened, used, and closed: a transaction that is still open is rolled back. -/
def withConnection {α : Type} (E : Ext K) (x : AgentM K α) : AgentM K α := fun s =>
  match (vmOpen E >>= fun _ => x) s with
  | .ok a s' => .ok a { s' with link := s'.link.close }
  | .error e s' => .error e { s' with link := s'.link.close }

/-- `run_step` and `run_agent`. -/
def runSandboxed (E : Ext K) (text : Err → Str) (run : Run) : AgentM K StepRow :=
  withConnection E do
    let before ← prepare E run
    conclude E text run before.2

/-! ## What a run that was not applied leaves -/

section NotApplied

variable {E : Ext K} {text : Err → Str} {run : Run} {s s₁ : Agent K} {id : ℕ} {before : Str}

omit [DecidableEq K] in
/-- A program on the agent's connection records no step. -/
theorem onLink_ok {α : Type} {x : Conn.M K α} {a : α} {s s' : Agent K} (h : onLink x s = .ok a s') :
    x s.link = .ok a s'.link ∧ s'.steps = s.steps := by
  unfold onLink at h
  rcases hx : x s.link with ⟨b, c⟩ | ⟨e, c⟩
  · rw [hx] at h
    cases h
    exact ⟨rfl, rfl⟩
  · rw [hx] at h
    cases h

omit [DecidableEq K] in
/-- A program on the database leaves the open transactions as they are. -/
theorem lift_ok {α : Type} {x : Sql K α} {a : α} {c c' : Tx.Link (Db K)}
    (h : Tx.lift x c = .ok a c') :
    x c.cur = .ok a c'.cur ∧ c'.opened = c.opened := by
  unfold Tx.lift at h
  rcases hx : x c.cur with ⟨b, d⟩ | ⟨e, d⟩
  · rw [hx] at h
    cases h
    exact ⟨rfl, rfl⟩
  · rw [hx] at h
    cases h

/-- A named snapshot holds the tree, with no hash pending. -/
theorem snapshotCreateNamed_ok {pfx placeholder : Str} {db d : Db K} (howned : db.SnapsOwned)
    (h : snapshotCreateNamed E pfx placeholder db = .ok (id, before) d) :
    d.dirty = [] ∧ d.IsSnapshot id := by
  obtain ⟨n, d₀, hfin, hrest⟩ := bind_eq_ok.1 h
  obtain ⟨hre, hdirty⟩ := finalizeDirty_ok hfin
  obtain ⟨id', d₁, hins, hrest⟩ := bind_eq_ok.1 (savepoint_eq_ok.1 hrest)
  obtain ⟨_, d₂, hren, hrest⟩ := bind_eq_ok.1 hrest
  obtain ⟨_, d₃, hcopy, hrest⟩ := bind_eq_ok.1 hrest
  cases hrest
  -- The id is new, so no row of a snapshot has it.
  have hnew : id = nextId d₀.snapshots ∧ d₁.dirty = d₀.dirty ∧ d₁.snapFs = d₀.snapFs ∧
      d₁.snapChunks = d₀.snapChunks := by
    unfold insertSnapshot at hins
    rw [reads_bind] at hins
    obtain ⟨_, d', hstmt, hret⟩ := bind_eq_ok.1 hins
    cases hret
    rw [statement_eq_ok] at hstmt
    split_ifs at hstmt
    cases hstmt
    exact ⟨rfl, rfl, rfl, rfl⟩
  have hren' : d₂.dirty = d₁.dirty ∧ d₂.snapFs = d₁.snapFs ∧ d₂.snapChunks = d₁.snapChunks := by
    rw [renameSnapshot, statement_eq_ok] at hren
    split_ifs at hren
    cases hren
    exact ⟨rfl, rfl, rfl⟩
  have hfree : db.snapshots.get? id = none := by
    rw [hnew.1, hre.snapshots]
    exact get?_nextId _
  obtain ⟨-, -, hd, hsnap⟩ := copyTree_ok
    (fun p => by rw [hren'.2.1, hnew.2.2.1, hre.snapFs]; exact howned.rows id p hfree)
    (fun c => by rw [hren'.2.2, hnew.2.2.2, hre.snapChunks]; exact howned.chunks id c.1 c.2 hfree)
      hcopy
  exact ⟨by rw [hd, hren'.1, hnew.2.1, hdirty], hsnap⟩

/-- A run that got to the sync has taken its snapshot, with nothing left to compute. -/
theorem prepare_snapshot (howned : s.link.cur.SnapsOwned)
    (h : prepare E run s = .ok (id, before) s₁) :
    snapshotCreateNamed E run.runner.beforePrefix run.placeholders.1 s.link.cur = .ok (id, before)
      s₁.link.cur ∧
      s₁.link.cur.dirty = [] ∧ s₁.link.opened = s.link.opened ∧ s₁.steps = s.steps := by
  -- An empty command is refused; any other run takes a snapshot before its step and resolves the
  -- marks.
  have hsnap :
      (onLink (Tx.lift (snapshotCreateNamed E run.runner.beforePrefix run.placeholders.1)) >>=
      fun before => onLink (Tx.lift (finalizeDirty E)) >>= fun _ => pure before) s = .ok (id,
      before) s₁ := by
    unfold prepare at h
    by_cases hempty : run.empty = true
    · rw [if_pos hempty] at h
      cases h
    · rw [if_neg hempty] at h
      dsimp only at h
      by_cases hagent : run.runner = .agent
      · rw [if_pos hagent, reads_bind] at h
        split_ifs at h
        · cases h
        · exact h
      · rw [if_neg hagent] at h
        exact h
  obtain ⟨⟨id', before'⟩, s₂, hcreate, hrest⟩ := bind_eq_ok.1 hsnap
  obtain ⟨n, s₃, hfin, hrest⟩ := bind_eq_ok.1 hrest
  cases hrest
  obtain ⟨hcreate, hsteps⟩ := onLink_ok hcreate
  obtain ⟨hcreate, hopened⟩ := lift_ok hcreate
  obtain ⟨hdirty, -⟩ := snapshotCreateNamed_ok howned hcreate
  obtain ⟨hfin, hsteps'⟩ := onLink_ok hfin
  obtain ⟨hfin, hopened'⟩ := lift_ok hfin
  rw [finalizeDirty_nil hdirty] at hfin
  have hcur : s₁.link.cur = s₂.link.cur := (EStateM.Result.ok.inj hfin).2.symm
  rw [hcur]
  exact ⟨hcreate, hdirty, hopened'.trans hopened, hsteps'.trans hsteps⟩

/-- A run that got to the sync has its snapshot, in autocommit mode. -/
theorem prepare_ok (hauto : s.link.opened = []) (howned : s.link.cur.SnapsOwned)
    (h : prepare E run s = .ok (id, before) s₁) :
    ∃ d, s₁ = ⟨⟨d, []⟩, s.steps⟩ ∧ d.dirty = [] ∧ d.IsSnapshot id := by
  obtain ⟨hcreate, -, hopened, hsteps⟩ := prepare_snapshot howned h
  obtain ⟨hdirty, hsnap⟩ := snapshotCreateNamed_ok howned hcreate
  refine ⟨s₁.link.cur, ?_, hdirty, hsnap⟩
  obtain ⟨⟨cur, opened⟩, steps⟩ := s₁
  have hnil : opened = [] := hopened.trans hauto
  have hsteps₁ : steps = s.steps := hsteps
  rw [hnil, hsteps₁]

/-- The sync of a run, in autocommit mode and with no hash pending. -/
theorem Run.sync_eq (E : Ext K) (run : Run) {d : Db K} (hdirty : d.dirty = []) :
    run.sync E ⟨d, []⟩ =
    match syncBody E ⟨false, none, run.now⟩ run.host run.tree d with
    | .ok rep d' => .ok rep ⟨d', []⟩
    | .error e d' => .error e ⟨d', [d]⟩ := by
  unfold Run.sync syncReportTx
  rw [bind_of_ok (Tx.lift_of_ok (finalizeDirty_nil hdirty)), Tx.bare_of_autocommit]
  rcases syncBody E ⟨false, none, run.now⟩ run.host run.tree d with ⟨rep, d'⟩ | ⟨e, d'⟩
  · rfl
  · rfl

/-- The sync of a run fails, or reports a path that could not be written. -/
def NotApplied (E : Ext K) (run : Run) (c : Tx.Link (Db K)) : Prop :=
  match run.sync E c with
  | .ok rep _ => rep.failures ≠ []
  | .error _ _ => True

/-- The state after a run is the one in which its snapshot `id` was taken, and the run is recorded
with an empty change list. -/
structure LeftAlone (id : ℕ) (before : Str) (d : Db K) (s s' : Agent K) : Prop where
  /-- The rows are those of the snapshot. -/
  rows : ∀ p, (s'.link.cur.fs.get? p).map (fun r => r.toFsMeta) = d.snapFs.get? (id, p)
  /-- The chunks are those of the snapshot. -/
  chunks : ∀ p i, s'.link.cur.chunks.get? (p, i) = d.snapChunks.get? (id, p, i)
  /-- The step is recorded. -/
  step : ∃ row, s'.steps = s.steps ++ [row] ∧ row.before = before ∧ row.changes = ⟨[], [], []⟩

/-- The opening of a connection computes hashes and nothing else. -/
theorem vmOpen_eq (E : Ext K) (s : Agent K) : vmOpen E s =
    .ok () ⟨⟨endState (finalizeDirty E) s.link.cur, s.link.opened⟩, s.steps⟩ := by
  unfold vmOpen endState
  rcases hx : finalizeDirty E s.link.cur with ⟨n, d⟩ | ⟨e, d⟩
  · have hlink : onLink (Tx.lift (finalizeDirty E)) s = .ok n ⟨⟨d, s.link.opened⟩, s.steps⟩ := by
      unfold onLink
      rw [Tx.lift_of_ok hx]
    rw [bind_of_ok (attempt_of_ok hlink)]
    rfl
  · have hlink : onLink (Tx.lift (finalizeDirty E)) s = .error e ⟨⟨d, s.link.opened⟩, s.steps⟩ := by
      unfold onLink
      rw [Tx.lift_of_error hx]
    rw [bind_of_ok (attempt_of_error hlink)]
    rfl

/-- What a run that got to the sync ends in. -/
theorem endState_runSandboxed (text : Err → Str)
    (hprep : (vmOpen E >>= fun _ => prepare E run) s = .ok (id, before) s₁) :
    endState (runSandboxed E text run) s =
      { endState (conclude E text run before) s₁ with
        link := (endState (conclude E text run before) s₁).link.close } := by
  have hrun : (vmOpen E >>= fun _ => prepare E run >>= fun b => conclude E text run b.2) s =
      conclude E text run before s₁ := by
    obtain ⟨_, s₀, hopen, hprep⟩ := bind_eq_ok.1 hprep
    rw [bind_of_ok hopen, bind_of_ok hprep]
  unfold endState runSandboxed withConnection
  rw [hrun]
  rcases conclude E text run before s₁ with ⟨a, s'⟩ | ⟨e, s'⟩
  · rfl
  · rfl

/-- A sync that reports a failure: the step is recorded and the run fails. -/
theorem conclude_of_failures (text : Err → Str) (before : Str) {d d' : Db K} {rep : SyncReport}
    (steps : List StepRow)
    (hsync : run.sync E ⟨d, []⟩ = .ok rep ⟨d', []⟩) (hfail : rep.failures ≠ []) :
    ∃ why, conclude E text run before ⟨⟨d, []⟩, steps⟩ =
      .error .notApplied ⟨⟨d', []⟩, steps ++ [notAppliedRow run before why]⟩ := by
  obtain ⟨f, fs, hf⟩ := List.exists_cons_of_ne_nil hfail
  obtain ⟨why, hwhy⟩ : ∃ why, rep.failureSummary text = some why := by
    unfold SyncReport.failureSummary
    rw [hf]
    exact ⟨_, rfl⟩
  have hlink : onLink (run.sync E) ⟨⟨d, []⟩, steps⟩ = .ok rep ⟨⟨d', []⟩, steps⟩ := by
    unfold onLink
    rw [hsync]
  refine ⟨why, ?_⟩
  unfold conclude
  rw [bind_of_ok hlink, hwhy]
  rfl

/-- When the sync fails, the run ends with its error and records nothing. -/
theorem conclude_of_error (text : Err → Str) (before : Str) {d d' : Db K} {e : Err}
    {opened : List (Db K)} (steps : List StepRow)
    (hsync : run.sync E ⟨d, []⟩ = .error e ⟨d', opened⟩) :
    conclude E text run before ⟨⟨d, []⟩, steps⟩ = .error e ⟨⟨d', opened⟩, steps⟩ := by
  have hlink : onLink (run.sync E) ⟨⟨d, []⟩, steps⟩ = .error e ⟨⟨d', opened⟩, steps⟩ := by
    unfold onLink
    rw [hsync]
  unfold conclude
  rw [bind_of_error hlink]

/-- A run whose content is not applied leaves the tree as it was, and a record of it, exactly when
the sync has nothing to write that it can write and nothing to delete. -/
theorem notApplied_leftAlone_iff {K : Type} [DecidableEq K] (E : Ext K) (text : Err → Str)
    (run : Run) (s : Agent K) (hauto : s.link.opened = []) (howned : s.link.cur.SnapsOwned)
    {id : ℕ} {before : Str} {s₁ : Agent K}
    (hprep : (vmOpen E >>= fun _ => prepare E run) s = .ok (id, before) s₁)
    (hfail : NotApplied E run s₁.link) :
    LeftAlone id before s₁.link.cur s (endState (runSandboxed E text run) s) ↔
      s₁.link.cur.Idle E ⟨false, none, run.now⟩ run.host run.tree := by
  rw [endState_runSandboxed text hprep]
  obtain ⟨_, s₀, hopen, hprep⟩ := bind_eq_ok.1 hprep
  rw [vmOpen_eq] at hopen
  cases hopen
  have hre := rehashed_finalizeDirty E s.link.cur
  have howned' : (endState (finalizeDirty E) s.link.cur).SnapsOwned := by
    constructor
    · intro i p hi
      rw [hre.snapshots] at hi
      rw [hre.snapFs]
      exact howned.rows i p hi
    · intro i p j hi
      rw [hre.snapshots] at hi
      rw [hre.snapChunks]
      exact howned.chunks i p j hi
  obtain ⟨d, rfl, hdirty, hsnap⟩ :=
    prepare_ok (s := ⟨⟨endState (finalizeDirty E) s.link.cur, s.link.opened⟩, s.steps⟩) hauto
    howned' hprep
  have hsync := Run.sync_eq E run hdirty
  unfold NotApplied at hfail
  -- The sync of the run fails in its savepoint: what is left is what preparing the run has left,
  -- and the condition asks whether that is nothing.
  rcases hbody : syncBody E ⟨false, none, run.now⟩ run.host run.tree d with ⟨rep, d'⟩ | ⟨e, d'⟩
  · rw [hbody] at hsync
    rw [hsync] at hfail
    obtain ⟨why, hrun⟩ := conclude_of_failures text before s.steps hsync hfail
    unfold endState
    rw [hrun]
    constructor
    · -- A sync that is not idle has changed a row, and the record does not bring it back.
      intro hleft
      by_contra hidle
      obtain ⟨p, hp⟩ := syncBody_busy rfl rfl hidle hbody
      exact hp ((hleft.rows p).trans (hsnap.rows p))
    · intro hidle
      obtain ⟨rep', hbody'⟩ := syncBody_idle rfl rfl hidle
      rw [hbody] at hbody'
      cases hbody'
      exact ⟨fun p => (hsnap.rows p).symm, fun p i => (hsnap.chunks p i).symm,
        notAppliedRow run before why, rfl, rfl, rfl⟩
  · rw [hbody] at hsync
    have hrun := conclude_of_error text before s.steps hsync
    unfold endState
    rw [hrun]
    constructor
    · -- No step is recorded.
      intro hleft
      obtain ⟨row, hrow, -⟩ := hleft.step
      exact absurd (congrArg List.length hrow) (by simp)
    · intro hidle
      obtain ⟨rep', hbody'⟩ := syncBody_idle rfl rfl hidle
      rw [hbody] at hbody'
      cases hbody'

/-- A database with a read-only prefix. -/
def guardedAgent : Agent Bytes :=
  ⟨⟨{ initDb 0 with policies := [.readonlyPrefix "/ro".toList] }, []⟩, []⟩

/-- A step that writes below the prefix and beside it. -/
def guardedRun : Run where
  runner := .step
  argv := ["touch".toList]
  rollbackOnFail := false
  placeholders := ("p".toList, "q".toList)
  outcome := ⟨0, false, [], [], false, false⟩
  fs := ((Table.empty.insertIgnore ["t".toList] (.dir 0o755 true)).insertIgnore
    ["t".toList, "ro".toList] (.file [1] 0o644 0 true)).insertIgnore
    ["t".toList, "y".toList] (.file [2] 0o644 0 true)
  tree := ["t".toList]
  now := 7

/-- A step that writes below the prefix only. -/
def refusedRun : Run :=
  { guardedRun with
    fs := (Table.empty.insertIgnore ["t".toList] (.dir 0o755 true)).insertIgnore
      ["t".toList, "ro".toList] (.file [1] 0o644 0 true) }

/-- A sync that is refused the only file there is leaves the database as the snapshot has it. -/
theorem notApplied_leftAlone_iff_refused : ∃ id before s₁,
    (vmOpen plainExt >>= fun _ => prepare plainExt refusedRun) guardedAgent =
      .ok (id, before) s₁ ∧
    NotApplied plainExt refusedRun s₁.link ∧ LeftAlone id before s₁.link.cur guardedAgent
      (endState (runSandboxed plainExt (fun _ => []) refusedRun) guardedAgent) := by
  obtain ⟨⟨id, before⟩, hprep⟩ :
      ∃ before, (vmOpen plainExt >>= fun _ => prepare plainExt refusedRun) guardedAgent =
      .ok before
      (endState (vmOpen plainExt >>= fun _ => prepare plainExt refusedRun) guardedAgent) :=
    exists_of_returns (by decide +kernel)
  have hreport : (match refusedRun.sync plainExt
      (endState (vmOpen plainExt >>= fun _ => prepare plainExt refusedRun) guardedAgent).link with
      | .ok rep _ => rep.failures.length
      | .error _ _ => 1) = 1 := by decide +kernel
  have hfail : NotApplied plainExt refusedRun
      (endState (vmOpen plainExt >>= fun _ => prepare plainExt refusedRun) guardedAgent).link := by
    unfold NotApplied
    split
    · rename_i rep c hrep
      rw [hrep] at hreport
      exact fun hnil => absurd hreport (by simp [hnil])
    · trivial
  refine ⟨id, before, _, hprep, hfail, (notApplied_leftAlone_iff plainExt (fun _ => []) refusedRun
    guardedAgent rfl ⟨fun _ _ _ => rfl, fun _ _ _ _ => rfl⟩ hprep hfail).2 ⟨?_, ?_⟩⟩
  · have hall : ∀ e ∈ walk refusedRun.host refusedRun.tree, ∀ r ∈ syncTarget refusedRun.tree
        (linkAliases (endState (vmOpen plainExt >>= fun _ => prepare plainExt refusedRun)
          guardedAgent).link.cur.links) e,
        (endState (vmOpen plainExt >>= fun _ => prepare plainExt refusedRun)
          guardedAgent).link.cur.takes plainExt ⟨false, none, refusedRun.now⟩ r.1 r.2 = false := by
      decide +kernel
    exact fun e he p node htarget => Or.inr (hall e he (p, node) htarget)
  · decide +kernel

/-- The run of the example up to its sync. -/
theorem prepare_guarded :
    ∃ before, (vmOpen plainExt >>= fun _ => prepare plainExt guardedRun) guardedAgent =
    .ok before (endState (vmOpen plainExt >>= fun _ => prepare plainExt guardedRun) guardedAgent) :=
  exists_of_returns (by decide +kernel)

/-- The write beside the prefix stays, though the run is reported as not applied. -/
theorem notApplied_keeps_writes : ∃ id before s₁ s',
    (vmOpen plainExt >>= fun _ => prepare plainExt guardedRun) guardedAgent = .ok (id, before) s₁ ∧
      runSandboxed plainExt (fun _ => []) guardedRun guardedAgent = .error .notApplied s' ∧
      ¬ LeftAlone id before s₁.link.cur guardedAgent s' := by
  obtain ⟨⟨id, before⟩, hprep⟩ := prepare_guarded
  have hfails : runSandboxed plainExt (fun _ => []) guardedRun guardedAgent = .error .notApplied
      (endState (runSandboxed plainExt (fun _ => []) guardedRun) guardedAgent) :=
    exists_of_failsWith (by decide +kernel)
  refine ⟨id, before, _, _, hprep, hfails, fun hleft => ?_⟩
  have hrow :
      ((endState (runSandboxed plainExt (fun _ => []) guardedRun) guardedAgent).link.cur.fs.get?
      "/y".toList).isSome = true := by decide +kernel
  have hnone : ((endState (vmOpen plainExt >>= fun _ => prepare plainExt guardedRun)
      guardedAgent).link.cur.snapFs.rows.any fun r => r.1.2 = "/y".toList) =
      false := by decide +kernel
  have hget := hleft.rows "/y".toList
  obtain ⟨row, hsome⟩ := Option.isSome_iff_exists.1 hrow
  rw [hsome] at hget
  have hmem := Table.get?_eq_some_iff.1 hget.symm
  rw [List.any_eq_false] at hnone
  exact hnone _ hmem (by simp)

end NotApplied

end Dbvm
