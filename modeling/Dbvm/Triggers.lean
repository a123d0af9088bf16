import Dbvm.Store

/-!
# The rebuild of the policy triggers

`rebuild_triggers` (`src/policy.rs`) drops the six policy triggers and creates them again from the
rows of `vm_policies`. `policy::list`, `add`, `remove` and `ensure_schema` all run it, outside of a
transaction, so every `DROP` and `CREATE` is a commit of its own that other connections see. This
module has the statements of these calls, interleaved with writes of rows by other connections: in
every run in which no violating write falls between the first `DROP` and the last `CREATE` of a
rebuild, and no rebuild is cut short there, a write that violates a rule with installed triggers is
refused (`violation_refused_of_calm`).
-/

namespace Dbvm

open Lib

variable {K : Type} [DecidableEq K]

/-! ## Rows of `vm_policies` -/

/-- `rule_type`; the table checks that it is one of these. -/
inductive RuleType where
  /-- `readonly_prefix`. -/
  | readonlyPrefix
  /-- `max_file_size`. -/
  | maxFileSize
  /-- `disk_quota`. -/
  | diskQuota
  deriving DecidableEq

/-- A row of `vm_policies`. -/
structure PolicyRow where
  /-- The kind of rule. -/
  ruleType : RuleType
  /-- A path, or a number as text. -/
  pattern : Str
  deriving DecidableEq

/-- `str::parse::<u64>`. -/
def parseU64 (s : Str) : Option ℕ :=
  let ds := if s.head? = some '+' then s.tail else s
  if ds ≠ [] ∧ ds.all Char.isDigit then
    let n : ℕ := ds.foldl (fun n c => 10 * n + (c.toNat - '0'.toNat)) 0
    if n < 18446744073709551616 then some n else none
  else none

/-- The rule of a row; none if its number cannot be read. -/
def PolicyRow.rule (row : PolicyRow) : Option Rule :=
  match row.ruleType with
  | .readonlyPrefix => some (.readonlyPrefix row.pattern)
  | .maxFileSize => (parseU64 row.pattern).map .maxFileSize
  | .diskQuota => (parseU64 row.pattern).map .diskQuota

/-! ## Triggers -/

/-- The six triggers. -/
inductive Trigger where
  /-- `vm_pol_fs_ins`. -/
  | fsIns
  /-- `vm_pol_fs_upd`. -/
  | fsUpd
  /-- `vm_pol_fs_del`. -/
  | fsDel
  /-- `vm_pol_ch_ins`. -/
  | chIns
  /-- `vm_pol_ch_upd`. -/
  | chUpd
  /-- `vm_pol_ch_del`. -/
  | chDel
  deriving DecidableEq

/-- Whether a rule gives a condition for a trigger: a size or a quota only for a new row of `vm_fs`.
-/
def Trigger.tests (t : Trigger) : Rule → Bool
  | .readonlyPrefix _ => true
  | .maxFileSize _ => t = .fsIns || t = .fsUpd
  | .diskQuota _ => t = .fsIns || t = .fsUpd

/-- The triggers that are there, each with the rules it was compiled from. -/
abbrev Installed := Trigger → Option (List Rule)

/-- A statement of a policy call. -/
inductive PolicyStmt where
  /-- A statement that changes nothing here: `CREATE TABLE IF NOT EXISTS`, or the `SELECT` of
  `list`. -/
  | other
  /-- The `SELECT` of `rebuild_triggers`, which makes up the batch. -/
  | select
  /-- `DROP TRIGGER IF EXISTS`. -/
  | drop (t : Trigger)
  /-- `CREATE TRIGGER`. -/
  | create (t : Trigger) (rules : List Rule)
  /-- `INSERT INTO vm_policies`. -/
  | insertRule (row : PolicyRow)
  /-- `DELETE FROM vm_policies WHERE id`. -/
  | deleteRule (id : ℕ)
  deriving DecidableEq

/-- The batch that `rebuild_triggers` executes. -/
def rebuildBatch (rules : List Rule) : List PolicyStmt :=
  [.drop .fsIns, .drop .fsUpd, .drop .fsDel, .drop .chIns, .drop .chUpd, .drop .chDel] ++
    ([.fsUpd, .chUpd, .fsIns, .fsDel, .chIns, .chDel].filter fun t : Trigger =>
      rules.any t.tests).map
      fun t => .create t rules

/-- The calls of `policy.rs`. -/
inductive PolicyCall where
  /-- `ensure_schema`. -/
  | ensureSchema
  /-- `list`. -/
  | list
  /-- `add`. -/
  | add (row : PolicyRow)
  /-- `remove`. -/
  | remove (id : ℕ)

/-- The statements of a call. -/
def PolicyCall.stmts : PolicyCall → List PolicyStmt
  | .ensureSchema => [.other, .select]
  | .list => [.other, .select, .other]
  | .add row => [.other, .select, .insertRule row, .select]
  | .remove id => [.other, .select, .deleteRule id, .select]

/-! ## Writes of other connections -/

/-- The write of one row by a connection whose bypass is not entered. -/
inductive RowWrite (K : Type) where
  /-- `INSERT INTO vm_fs`. -/
  | insert (p : Str) (row : FsRow K)
  /-- `INSERT OR IGNORE INTO vm_fs`, which is only used for directories. -/
  | ensureDir (p : Str) (mode mtime : ℤ)
  /-- `INSERT INTO vm_fs … ON CONFLICT(path) DO UPDATE`. -/
  | upsert (p : Str) (row : FsRow K) (upd : FsRow K → FsRow K)
  /-- `UPDATE vm_fs`, which may change the path. -/
  | update (old new : Str) (f : FsRow K → FsRow K)
  /-- `DELETE FROM vm_fs`, with the chunks of the row. -/
  | delete (p : Str)
  /-- `INSERT INTO vm_file_chunks`. -/
  | putChunk (p : Str) (idx : ℕ) (k : K)
  /-- `UPDATE vm_file_chunks`, which changes the path. -/
  | moveChunk (old new : Str) (idx : ℕ)
  /-- `DELETE FROM vm_file_chunks`. -/
  | deleteChunk (p : Str) (idx : ℕ)

/-- The rows after a change of path; the dirty mark follows its file. -/
def Db.moved (db : Db K) (old new : Str) (fs : Table Str (FsRow K)) : Db K :=
  { db with
    fs := fs
    dirty := db.dirty.map fun p => if p = old then new else p }

/-- The row of a conflict: an upsert always takes the kind and the size of the row it could not
insert. -/
def FsRow.onConflict (row : FsRow K) (upd : FsRow K → FsRow K) (old : FsRow K) : FsRow K :=
  { upd old with kind := row.kind, size := row.size }

namespace RowWrite

/-- The paths of the rows that are written. -/
def paths : RowWrite K → List Str
  | insert p _ => [p]
  | ensureDir p _ _ => [p]
  | upsert p _ _ => [p]
  | update old new _ => [old, new]
  | delete p => [p]
  | putChunk p _ _ => [p]
  | moveChunk old new _ => [old, new]
  | deleteChunk p _ => [p]

/-- The row of `vm_fs` that is written. -/
def newRow (db : Db K) : RowWrite K → Option (FsRow K)
  | insert _ row => some row
  | ensureDir p mode mtime => if db.fs.has p then none else some (dirRow mode mtime)
  | upsert p row upd => some ((db.fs.get? p).elim row (row.onConflict upd))
  | update old _ f => (db.fs.get? old).map f
  | _ => none

/-- The database after the write. -/
def apply (db : Db K) : RowWrite K → Db K
  | insert p row => db.addFs p row
  | ensureDir p mode mtime => if db.fs.has p then db else db.addFs p (dirRow mode mtime)
  | upsert p row upd => if db.fs.has p then db.setFs p (row.onConflict upd) else db.addFs p row
  | update old new f =>
    match db.fs.rekey fun p => if p = old then new else p with
    | none => db
    | some fs => (db.moved old new fs).setFs new f
  | delete p => db.delFs fun q => q = p
  | putChunk p idx k => db.addChunk p idx k
  | moveChunk old new idx =>
    match db.chunks.rekey fun c => if c = (old, idx) then (new, idx) else c with
    | none => db
    | some chunks => { db with chunks := chunks }
  | deleteChunk p idx => db.delChunks fun q i => q = p && i = idx

/-- The write leaves the keys unique. -/
def unique (db : Db K) : RowWrite K → Bool
  | insert p _ => !db.fs.has p
  | update old new _ => old = new || !db.fs.has new
  | putChunk p idx _ => !db.chunks.has (p, idx)
  | moveChunk old new idx => old = new || !db.chunks.has (new, idx)
  | _ => true

end RowWrite

/-- The rules of a trigger as the database of the triggers that fire. -/
def firing (db : Db K) (o : Option (List Rule)) : Db K :=
  { db with policies := o.getD [], bypass := false }

/-- Whether a trigger refuses the write. A trigger that is not there refuses nothing. -/
def RowWrite.refused (trs : Installed) (db : Db K) : RowWrite K → Bool
  | .insert p row => (firing db (trs .fsIns)).refusesFs p row.toFsMeta
  | .ensureDir p mode mtime => (firing db (trs .fsIns)).refusesFs p (dirRow mode mtime).toFsMeta
  | .upsert p row upd => (firing db (trs .fsIns)).refusesFs p row.toFsMeta ||
      (db.fs.get? p).any fun old => (firing db (trs .fsUpd)).refusesPath p ||
        (firing db (trs .fsUpd)).refusesFs p (row.onConflict upd old).toFsMeta
  | .update old new f => (db.fs.get? old).any fun row =>
      (firing db (trs .fsUpd)).refusesPath old || (firing db (trs .fsUpd)).refusesFs new
      (f row).toFsMeta
  | .delete p => db.fs.has p && ((firing db (trs .fsDel)).refusesPath p ||
      ((db.chunks.select fun c _ => c.1 = p) ≠ [] && (firing db (trs .chDel)).refusesPath p))
  | .putChunk p _ _ => (firing db (trs .chIns)).refusesPath p
  | .moveChunk old new idx => db.chunks.has (old, idx) &&
      ((firing db (trs .chUpd)).refusesPath old || (firing db (trs .chUpd)).refusesPath new)
  | .deleteChunk p idx => db.chunks.has (p, idx) && (firing db (trs .chDel)).refusesPath p

/-- There is a row to write. -/
def RowWrite.there (db : Db K) : RowWrite K → Bool
  | .update old _ _ => db.fs.has old
  | .delete p => db.fs.has p
  | .moveChunk old _ idx => db.chunks.has (old, idx)
  | .deleteChunk p idx => db.chunks.has (p, idx)
  | _ => true

/-- The write breaks a rule: it writes a row under a read-only prefix, or a file row that is too
large or takes the total over the quota. -/
def Rule.violated (r : Rule) (db : Db K) (w : RowWrite K) : Prop :=
  match r with
  | .readonlyPrefix pfx => ∃ p ∈ w.paths, covers pfx p = true
  | .maxFileSize n => ∃ row, w.newRow db = some row ∧ row.kind = .file ∧ n < row.size
  | .diskQuota q => (∃ row, w.newRow db = some row ∧ row.kind = .file) ∧
      (q : ℤ) < (w.apply db).counters.logicalBytes

/-! ## Interleavings -/

/-- The database as all connections see it, and what the policy connection has still to do. -/
structure Gate (K : Type) where
  /-- The rows. -/
  db : Db K
  /-- `vm_policies`. -/
  rules : Table ℕ PolicyRow
  /-- The triggers. -/
  triggers : Installed
  /-- The rest of the policy call. -/
  pending : List PolicyStmt

/-- What happens next. -/
inductive GateEvent (K : Type) where
  /-- The policy connection begins a call. -/
  | call (c : PolicyCall)
  /-- Its next statement is executed. -/
  | stmt
  /-- Its next statement fails, and the call returns an error. -/
  | fail
  /-- Another connection writes a row. -/
  | write (w : RowWrite K)

/-- One statement on the triggers. -/
def PolicyStmt.onTriggers (trs : Installed) : PolicyStmt → Installed
  | .drop t => fun u => if u = t then none else trs u
  | .create t rules => fun u => if u = t then some rules else trs u
  | _ => trs

namespace Gate

/-- The effect of a statement of the policy connection. -/
def exec (g : Gate K) : PolicyStmt → Gate K
  | .other => g
  | .select =>
    -- A number that cannot be read is an error before the batch is executed.
    match g.rules.rows.mapM fun r => r.2.rule with
    | none => { g with pending := [] }
    | some rules => { g with pending := rebuildBatch rules ++ g.pending }
  | .drop t => { g with triggers := (PolicyStmt.drop t).onTriggers g.triggers }
  | .create t rules => { g with triggers := (PolicyStmt.create t rules).onTriggers g.triggers }
  | .insertRule row => { g with rules := g.rules.insertIgnore (nextId g.rules) row }
  | .deleteRule id => { g with rules := g.rules.deleteWhere fun i _ => i = id }

/-- A write is accepted. -/
def accepts (g : Gate K) (w : RowWrite K) : Bool :=
  w.there g.db && w.unique g.db && !w.refused g.triggers g.db

/-- One step of an interleaving. -/
def step (g : Gate K) : GateEvent K → Gate K
  | .call c => if g.pending = [] then { g with pending := c.stmts } else g
  | .stmt =>
    match g.pending with
    | [] => g
    | s :: rest => { g with pending := rest }.exec s
  | .fail => { g with pending := [] }
  | .write w => if g.accepts w then { g with db := w.apply g.db } else g

/-- A whole interleaving. -/
def run (g : Gate K) (evs : List (GateEvent K)) : Gate K := evs.foldl step g

/-- A rebuild is under way: its first `DROP` is executed and something is left of its batch. -/
def rebuilding (g : Gate K) : Bool :=
  match g.pending with
  | .drop t :: _ => t ≠ .fsIns
  | .create _ _ :: _ => true
  | _ => false

end Gate

/-- What a step must not be: a violating write or a failure while a rebuild is under way. The rule
itself is not removed. -/
def Calm (i : ℕ) (r : Rule) (g : Gate K) : GateEvent K → Prop
  | .call (.remove j) => j ≠ i
  | .call _ => True
  | .stmt => True
  | .fail => g.rebuilding = false
  | .write w => r.violated g.db w → g.rebuilding = false

/-! ## No gap -/

section Invariant

variable {i : ℕ} {r : Rule} {g : Gate K}

/-- Every trigger that tests the rule is there and was compiled from it. -/
def Guards (r : Rule) (trs : Installed) : Prop :=
  ∀ t : Trigger, t.tests r = true → ∃ rules, trs t = some rules ∧ r ∈ rules

/-- A statement of a batch. -/
def PolicyStmt.onBatch : PolicyStmt → Bool
  | .drop _ => true
  | .create _ _ => true
  | _ => false

/-- What holds between the steps: what is left of a batch installs the triggers again, and they are
there unless a rebuild is under way. -/
structure Watched (i : ℕ) (r : Rule) (g : Gate K) : Prop where
  /-- The row of the rule. -/
  row : ∃ row, g.rules.get? i = some row ∧ row.rule = some r
  /-- The batch, and what comes after it. -/
  split : ∃ batch rest, g.pending = batch ++ rest ∧ (∀ s ∈ batch, s.onBatch = true) ∧
    .drop .fsIns ∉ batch.tail ∧ (∀ s ∈ rest, s.onBatch = false ∧ s ≠ .deleteRule i) ∧
    Guards r (batch.foldl PolicyStmt.onTriggers g.triggers)
  /-- The triggers. -/
  guards : g.rebuilding = false → Guards r g.triggers

/-- The whole batch installs the triggers of every rule it is made up from. -/
theorem guards_rebuildBatch {rules : List Rule} (hr : r ∈ rules) (trs : Installed) :
    Guards r ((rebuildBatch rules).foldl PolicyStmt.onTriggers trs) := by
  intro t ht
  refine ⟨rules, ?_, hr⟩
  have hany : ∀ u : Trigger, u.tests r = true → rules.any u.tests = true := fun u hu =>
    List.any_eq_true.2 ⟨r, hr, hu⟩
  -- The later statements of the batch are about other triggers.
  have hcreate : ∀ (us : List Trigger) (trs : Installed), t ∈ us →
      (us.map fun u => PolicyStmt.create u rules).foldl PolicyStmt.onTriggers trs t = some
      rules := by
    intro us
    induction us using List.reverseRecOn with
    | nil => exact fun _ h => absurd h (by simp)
    | append_singleton us u ih =>
      intro trs hmem
      rw [List.map_append, List.foldl_append]
      by_cases hut : t = u
      · simp [PolicyStmt.onTriggers, hut]
      · have hmem' : t ∈ us := by simpa [hut] using hmem
        simpa [PolicyStmt.onTriggers, hut] using ih trs hmem'
  unfold rebuildBatch
  rw [List.foldl_append]
  refine hcreate _ _ (List.mem_filter.2 ⟨?_, hany t ht⟩)
  cases t <;> simp

/-- A rule with installed triggers is in the list they are compiled from. -/
theorem mem_of_mapM {rows : Table ℕ PolicyRow} {row : PolicyRow} {rules : List Rule}
    (hrow : rows.get? i = some row) (hr : row.rule = some r)
    (h : rows.rows.mapM (fun r => r.2.rule) = some rules) : r ∈ rules := by
  have hmem : (i, row) ∈ rows.rows := Table.get?_eq_some_iff.1 hrow
  generalize rows.rows = l at h hmem
  induction l generalizing rules with
  | nil => simp at hmem
  | cons x l ih =>
    rw [List.mapM_cons] at h
    simp only [Option.bind_eq_bind, Option.bind_eq_some_iff, Option.pure_def,
      Option.some.injEq] at h
    obtain ⟨a, ha, as, has, rfl⟩ := h
    rcases List.mem_cons.1 hmem with rfl | hmem
    · rw [hr] at ha
      simp [Option.some.inj ha]
    · exact List.mem_cons_of_mem _ (ih has hmem)

/-- A step that is calm keeps the triggers. -/
theorem Watched.step (h : Watched i r g) {ev : GateEvent K} (hcalm : Calm i r g ev) :
    Watched i r (g.step ev) := by
  obtain ⟨⟨row, hrow, hrule⟩, ⟨batch, rest, hpending, hbatch, hfirst, hrest, hinstall⟩, hguards⟩ :=
    h
  have hidle : ∀ g' : Gate K, g'.pending = [] → g'.triggers = g.triggers →
      g'.rules.get? i = some row →
      Guards r g.triggers → Watched i r g' := fun g' hp ht hr hg =>
    ⟨⟨row,
      hr, hrule⟩, ⟨[], [], by simp [hp], by simp, by simp, by simp, by simpa [ht] using hg⟩,
      fun _ => ht ▸ hg⟩
  -- Between two batches every statement leaves the triggers alone but the `SELECT`, which brings
  -- the next batch with the rule in it.
  cases ev with
  | call c =>
    unfold Gate.step
    dsimp only
    split_ifs with hnil
    · have hg : Guards r g.triggers := hguards (by simp [Gate.rebuilding, hnil])
      refine ⟨⟨row, hrow, hrule⟩, ⟨[], c.stmts, rfl, by simp, by simp, ?_, hg⟩, fun _ => hg⟩
      intro s hs
      cases c with
      | remove j =>
        have hne : j ≠ i := hcalm
        simp only [PolicyCall.stmts, List.mem_cons, List.not_mem_nil, or_false] at hs
        rcases hs with rfl | rfl | rfl | rfl <;> simp [PolicyStmt.onBatch, hne]
      | _ =>
        simp only [PolicyCall.stmts, List.mem_cons, List.not_mem_nil, or_false] at hs
        rcases hs with rfl | rfl | rfl | rfl <;> simp_all [PolicyStmt.onBatch]
    · exact ⟨⟨row, hrow, hrule⟩, ⟨batch, rest, hpending, hbatch, hfirst, hrest, hinstall⟩, hguards⟩
  | stmt =>
    rcases batch with _ | ⟨s, batch⟩
    · rw [List.nil_append] at hpending
      have hg : Guards r g.triggers := by
        refine hguards ?_
        rcases rest with _ | ⟨s, rest⟩
        · simp [Gate.rebuilding, hpending]
        · have hs := (hrest s (by simp)).1
          unfold Gate.rebuilding
          rw [hpending]
          cases s <;> first | rfl | cases hs
      rcases rest with _ | ⟨s, rest⟩
      · unfold Gate.step
        rw [hpending]
        exact hidle g hpending rfl hrow hg
      have hstay : ∀ g' : Gate K, g'.pending = rest → g'.triggers = g.triggers →
          g'.rules.get? i = some row → Watched i r g' := by
        intro g' hp ht hr
        refine ⟨⟨row, hr, hrule⟩, ⟨[], rest, by simp [hp], by simp, by simp,
          fun s hs => hrest s (by simp [hs]), by simpa [ht] using hg⟩, fun _ => ht ▸ hg⟩
      unfold Gate.step
      rw [hpending]
      dsimp only
      cases s with
      | other => exact hstay _ rfl rfl hrow
      | select =>
        unfold Gate.exec
        dsimp only
        split
        · exact hidle _ rfl rfl hrow hg
        · next rules hrules =>
          refine ⟨⟨row, hrow, hrule⟩,
            ⟨rebuildBatch rules, rest, rfl, ?_, ?_, fun s hs => hrest s (by simp [hs]),
            guards_rebuildBatch (mem_of_mapM hrow hrule hrules) _⟩, fun _ => hg⟩
          · intro s hs
            simp only [rebuildBatch, List.mem_append, List.mem_cons, List.not_mem_nil, or_false,
              List.mem_map] at hs
            rcases hs with (rfl | rfl | rfl | rfl | rfl | rfl) | ⟨t, -, rfl⟩ <;> rfl
          · simp [rebuildBatch]
      | insertRule new =>
        refine hstay _ rfl rfl ?_
        unfold Gate.exec
        dsimp only
        have hlt : i < nextId g.rules := lt_nextId (Table.has_eq_true.2 ⟨row, hrow⟩)
        rw [Table.get?_insertIgnore, if_neg (by omega)]
        exact hrow
      | deleteRule j =>
        refine hstay _ rfl rfl ?_
        have hne : j ≠ i := fun hj => (hrest (.deleteRule j) (by simp)).2 (by rw [hj])
        unfold Gate.exec
        dsimp only
        rw [Table.get?_deleteWhere_key g.rules (fun k => k = j), if_neg (by simpa using hne.symm)]
        exact hrow
      | drop t => exact absurd (hrest (.drop t) (by simp)).1 (by simp [PolicyStmt.onBatch])
      | create t
          rules => exact absurd (hrest (.create t rules) (by simp)).1 (by simp [PolicyStmt.onBatch])
    · -- A statement of the batch: the rest of it still installs the triggers.
      rw [List.cons_append] at hpending
      have hnext : ∀ trs : Installed, trs = s.onTriggers g.triggers →
          Watched i r { g with pending := batch ++ rest, triggers := trs } := by
        rintro trs rfl
        refine ⟨⟨row, hrow, hrule⟩, ⟨batch, rest, rfl, fun s hs => hbatch s (by simp [hs]),
          ?_, hrest,
          hinstall⟩, fun hmid => ?_⟩
        · exact fun hmem => hfirst (List.mem_of_mem_tail hmem)
        · rcases batch with _ | ⟨s', batch⟩
          · exact hinstall
          · exfalso
            have hs' := hbatch s' (by simp)
            unfold Gate.rebuilding at hmid
            rw [List.cons_append] at hmid
            cases s' with
            | drop t =>
              have ht : t ≠ .fsIns := fun ht => hfirst (by simp [ht])
              simp [ht] at hmid
            | create t rules => simp at hmid
            | _ => cases hs'
      have hs := hbatch s (by simp)
      unfold Gate.step
      rw [hpending]
      dsimp only
      cases s with
      | drop t => exact hnext _ rfl
      | create t rules => exact hnext _ rfl
      | _ => cases hs
  | fail => exact hidle _ rfl rfl hrow (hguards hcalm)
  | write w =>
    unfold Gate.step
    dsimp only
    split_ifs
    · exact ⟨⟨row, hrow, hrule⟩, ⟨batch, rest, hpending, hbatch, hfirst, hrest, hinstall⟩, hguards⟩
    · exact ⟨⟨row, hrow, hrule⟩, ⟨batch, rest, hpending, hbatch, hfirst, hrest, hinstall⟩, hguards⟩

end Invariant

/-! ## Installed triggers refuse -/

section Refused

variable {r : Rule} {db : Db K} {trs : Installed} {w : RowWrite K}

omit [DecidableEq K] in
/-- A trigger in force refuses a path that its prefix covers. -/
theorem firing_refusesPath {rules : List Rule} {pfx p : Str} (hr : .readonlyPrefix pfx ∈ rules)
    (h : covers pfx p = true) : (firing db (some rules)).refusesPath p = true := by
  simp [Db.refusesPath, firing, Rule.protects_of_covers hr h]

omit [DecidableEq K] in
/-- So it refuses every row there. -/
theorem firing_refusesFs_of_covers {rules : List Rule} {pfx p : Str}
    (hr : .readonlyPrefix pfx ∈ rules) (h : covers pfx p = true) (m : FsMeta K) :
    (firing db (some rules)).refusesFs p m = true := by
  simp [Db.refusesFs, firing, Rule.protects_of_covers hr h]

omit [DecidableEq K] in
/-- The size trigger refuses a file that is too large. -/
theorem firing_refusesFs_of_size {rules : List Rule} {n : ℕ} {m : FsMeta K}
    (hr : .maxFileSize n ∈ rules) (hkind : m.kind = .file) (h : n < m.size) (p : Str) :
    (firing db (some rules)).refusesFs p m = true := by
  unfold Db.refusesFs firing
  rw [Option.getD_some, Bool.not_false, Bool.true_and, Bool.or_eq_true]
  exact Or.inr (List.any_eq_true.2 ⟨_, hr, by simp [hkind, h]⟩)

omit [DecidableEq K] in
/-- The quota trigger refuses a row with which the files would exceed it. -/
theorem firing_refusesFs_of_quota {rules : List Rule} {q : ℕ} {m : FsMeta K}
    (hr : .diskQuota q ∈ rules) (hkind : m.kind = .file) {p : Str}
    (h : (q : ℤ) < db.counters.logicalBytes - ((db.fs.get? p).elim 0 fun r => r.logical) + m.size) :
    (firing db (some rules)).refusesFs p m = true := by
  unfold Db.refusesFs firing
  rw [Option.getD_some, Bool.not_false, Bool.true_and, Bool.or_eq_true]
  exact Or.inr (List.any_eq_true.2 ⟨_, hr, by simp [hkind, h]⟩)

omit [DecidableEq K] in
/-- No row has a negative size. -/
theorem FsMeta.logical_nonneg (m : FsMeta K) : 0 ≤ m.logical := by
  unfold FsMeta.logical
  split_ifs
  · exact Int.natCast_nonneg _
  · exact le_refl _

omit [DecidableEq K] in
/-- A file counts with its size. -/
theorem FsMeta.logical_of_file {m : FsMeta K} (h : m.kind = .file) : m.logical = m.size := by
  rw [FsMeta.logical, if_pos h]

omit [DecidableEq K] in
/-- An update of a row replaces its bytes in the counter. -/
theorem logicalBytes_setFs {p : Str} {row : FsRow K} {f : FsRow K → FsRow K}
    (h : db.fs.get? p = some row) :
    (db.setFs p f).counters.logicalBytes =
      db.counters.logicalBytes - row.logical + (f row).logical := by
  unfold Db.setFs
  rw [h]
  dsimp only
  unfold Counters.updFs
  split_ifs <;> rfl

omit [DecidableEq K] in
/-- A new row adds its bytes to the counter. -/
theorem logicalBytes_addFs (p : Str) (row : FsRow K) :
    (db.addFs p row).counters.logicalBytes = db.counters.logicalBytes + row.logical := rfl

omit [DecidableEq K] in
/-- An upsert keeps kind and size of what it was given. -/
theorem RowWrite.newRow_upsert {p : Str} {row row' : FsRow K} {upd : FsRow K → FsRow K}
    (h : (RowWrite.upsert p row upd).newRow db = some row') :
    row'.kind = row.kind ∧ row'.size = row.size := by
  have hrow' := Option.some.inj h
  rcases hold : db.fs.get? p with _ | old
  · rw [hold] at hrow'
    rw [← hrow']
    exact ⟨rfl, rfl⟩
  · rw [hold] at hrow'
    rw [← hrow']
    exact ⟨rfl, rfl⟩

/-- The total after an upsert of a file is what the trigger computes. -/
theorem logicalBytes_upsert {p : Str} {row : FsRow K} {upd : FsRow K → FsRow K}
    (hkind : row.kind = .file) :
    ((RowWrite.upsert p row upd).apply db).counters.logicalBytes =
      db.counters.logicalBytes - ((db.fs.get? p).elim 0 fun r => r.logical) + row.size := by
  unfold RowWrite.apply
  dsimp only
  rcases hold : db.fs.get? p with _ | old
  · rw [Table.has_eq_false.2 hold, if_neg (by simp), logicalBytes_addFs,
      FsMeta.logical_of_file hkind]
    rw [Option.elim_none]
    omega
  · have hconflict : (row.onConflict upd old).logical = row.size := FsMeta.logical_of_file hkind
    rw [Table.has_eq_true.2 ⟨old, hold⟩, if_pos rfl, logicalBytes_setFs hold, hconflict]
    rfl

/-- A change of path that keeps the keys unique: the total is at most what the trigger computes,
which does not take off the size at the old path. -/
theorem logicalBytes_update {old new : Str} {f : FsRow K → FsRow K} {row : FsRow K}
    (hold : db.fs.get? old = some row) (hunique : old = new ∨ db.fs.get? new = none)
    (hkind : (f row).kind = .file) :
    ((RowWrite.update old new f).apply db).counters.logicalBytes ≤
      db.counters.logicalBytes - ((db.fs.get? new).elim 0 fun r => r.logical) + (f row).size := by
  have hrow := FsMeta.logical_nonneg row.toFsMeta
  have hnew := FsMeta.logical_of_file hkind
  unfold RowWrite.apply
  dsimp only
  -- A row that keeps its path changes its own share. One that moves takes it from `old` to `new`,
  -- where no row is.
  rcases hunique with rfl | hnone
  · have hid : db.fs.rekey (fun p => if p = old then old else p) = some db.fs := by
      have hg : (fun r : Str × FsRow K => (if r.1 = old then old else r.1, r.2)) = id := by
        funext r
        by_cases hr : r.1 = old
        · simp [hr]
          rw [← hr]
        · simp [hr]
      unfold Table.rekey
      simp only [hg, List.map_id]
      rw [dif_pos db.fs.nodup]
    rw [hid]
    dsimp only
    have hget : (db.moved old old db.fs).fs.get? old = some row := hold
    rw [logicalBytes_setFs hget, hold, hnew]
    exact le_refl _
  · rcases hre : db.fs.rekey (fun p => if p = old then new else p) with _ | fs
    · dsimp only
      rw [hnone, Option.elim_none]
      omega
    · dsimp only
      have hget : (db.moved old new fs).fs.get? new = some row :=
        (Table.get?_rekey hre).2 ⟨old, by simp, hold⟩
      have hcount : (db.moved old new fs).counters = db.counters := rfl
      rw [logicalBytes_setFs hget, hnone, hnew, Option.elim_none, hcount]
      omega

/-- Under installed triggers a write that violates the rule is not accepted. -/
theorem not_accepts_of_guards {g : Gate K} (hg : Guards r g.triggers) (hv : r.violated g.db w) :
    g.accepts w = false := by
  unfold Gate.accepts
  rw [Bool.and_eq_false_iff, Bool.and_eq_false_iff, Bool.not_eq_false']
  by_cases hthere : w.there g.db = false
  · exact Or.inl (Or.inl hthere)
  by_cases hunique : w.unique g.db = false
  · exact Or.inl (Or.inr hunique)
  refine Or.inr ?_
  rw [Bool.not_eq_false] at hthere hunique
  -- Whatever the rule forbids, one of its triggers fires on the write, whichever statement it
  -- comes from.
  cases r with
  | readonlyPrefix pfx =>
    have hguard : ∀ t : Trigger, ∃ rules, g.triggers t = some rules ∧ .readonlyPrefix pfx ∈ rules :=
      fun t => hg t rfl
    obtain ⟨p, hp, hcov⟩ := hv
    cases w with
    | insert q row =>
      obtain ⟨rules, htr, hr⟩ := hguard .fsIns
      rw [List.mem_singleton.1 hp] at hcov
      simp [RowWrite.refused, htr, firing_refusesFs_of_covers hr hcov]
    | ensureDir q mode mtime =>
      obtain ⟨rules, htr, hr⟩ := hguard .fsIns
      rw [List.mem_singleton.1 hp] at hcov
      simp [RowWrite.refused, htr, firing_refusesFs_of_covers hr hcov]
    | upsert q row upd =>
      obtain ⟨rules, htr, hr⟩ := hguard .fsIns
      rw [List.mem_singleton.1 hp] at hcov
      simp [RowWrite.refused, htr, firing_refusesFs_of_covers hr hcov]
    | update old new f =>
      obtain ⟨rules, htr, hr⟩ := hguard .fsUpd
      obtain ⟨row, hrow⟩ := Table.has_eq_true.1 hthere
      simp only [RowWrite.refused, hrow, Option.any_some, htr, Bool.or_eq_true]
      simp only [RowWrite.paths, List.mem_cons, List.not_mem_nil, or_false] at hp
      rcases hp with rfl | rfl
      · exact Or.inl (firing_refusesPath hr hcov)
      · exact Or.inr (firing_refusesFs_of_covers hr hcov _)
    | delete q =>
      obtain ⟨rules, htr, hr⟩ := hguard .fsDel
      rw [List.mem_singleton.1 hp] at hcov
      have hhas : g.db.fs.has q = true := hthere
      simp [RowWrite.refused, htr, firing_refusesPath hr hcov, hhas]
    | putChunk q idx k =>
      obtain ⟨rules, htr, hr⟩ := hguard .chIns
      rw [List.mem_singleton.1 hp] at hcov
      simp [RowWrite.refused, htr, firing_refusesPath hr hcov]
    | moveChunk old new idx =>
      obtain ⟨rules, htr, hr⟩ := hguard .chUpd
      have hhas : g.db.chunks.has (old, idx) = true := hthere
      simp only [RowWrite.refused, hhas, Bool.true_and, htr, Bool.or_eq_true]
      simp only [RowWrite.paths, List.mem_cons, List.not_mem_nil, or_false] at hp
      rcases hp with rfl | rfl
      · exact Or.inl (firing_refusesPath hr hcov)
      · exact Or.inr (firing_refusesPath hr hcov)
    | deleteChunk q idx =>
      obtain ⟨rules, htr, hr⟩ := hguard .chDel
      rw [List.mem_singleton.1 hp] at hcov
      have hhas : g.db.chunks.has (q, idx) = true := hthere
      simp [RowWrite.refused, htr, firing_refusesPath hr hcov, hhas]
  | maxFileSize n =>
    obtain ⟨row, hnew, hkind, hsize⟩ := hv
    cases w with
    | insert q row' =>
      obtain ⟨rules, htr, hr⟩ := hg .fsIns rfl
      cases hnew
      simp [RowWrite.refused, htr, firing_refusesFs_of_size hr hkind hsize]
    | ensureDir q mode mtime =>
      simp only [RowWrite.newRow] at hnew
      split_ifs at hnew
      cases hnew
      cases hkind
    | upsert q row' upd =>
      obtain ⟨rules, htr, hr⟩ := hg .fsIns rfl
      obtain ⟨hkind', hsize'⟩ := RowWrite.newRow_upsert hnew
      rw [hkind'] at hkind
      rw [hsize'] at hsize
      simp [RowWrite.refused, htr, firing_refusesFs_of_size hr hkind hsize]
    | update old new f =>
      obtain ⟨rules, htr, hr⟩ := hg .fsUpd rfl
      obtain ⟨row', hrow', rfl⟩ := Option.map_eq_some_iff.1 hnew
      simp only [RowWrite.refused, hrow', Option.any_some, htr, Bool.or_eq_true]
      exact Or.inr (firing_refusesFs_of_size hr hkind hsize new)
    | _ => cases hnew
  | diskQuota q =>
    obtain ⟨⟨row, hnew, hkind⟩, htotal⟩ := hv
    cases w with
    | insert p row' =>
      obtain ⟨rules, htr, hr⟩ := hg .fsIns rfl
      cases hnew
      have hfree : g.db.fs.get? p = none := by simpa [RowWrite.unique] using hunique
      have hover : (q : ℤ) < g.db.counters.logicalBytes -
          ((g.db.fs.get? p).elim 0 fun r => r.logical) + row.size := by
        rw [RowWrite.apply, logicalBytes_addFs, FsMeta.logical_of_file hkind] at htotal
        rw [hfree, Option.elim_none]
        omega
      simp [RowWrite.refused, htr, firing_refusesFs_of_quota hr hkind hover]
    | ensureDir p mode mtime =>
      simp only [RowWrite.newRow] at hnew
      split_ifs at hnew
      cases hnew
      cases hkind
    | upsert p row' upd =>
      obtain ⟨rules, htr, hr⟩ := hg .fsIns rfl
      obtain ⟨hkind', hsize'⟩ := RowWrite.newRow_upsert hnew
      rw [hkind'] at hkind
      rw [logicalBytes_upsert hkind] at htotal
      simp [RowWrite.refused, htr, firing_refusesFs_of_quota hr hkind htotal]
    | update old new f =>
      obtain ⟨rules, htr, hr⟩ := hg .fsUpd rfl
      obtain ⟨row', hrow', rfl⟩ := Option.map_eq_some_iff.1 hnew
      have hkeys : old = new ∨ g.db.fs.get? new = none := by
        simpa [RowWrite.unique, Table.has_eq_false] using hunique
      have hover := lt_of_lt_of_le htotal (logicalBytes_update hrow' hkeys hkind)
      simp only [RowWrite.refused, hrow', Option.any_some, htr, Bool.or_eq_true]
      exact Or.inr (firing_refusesFs_of_quota hr hkind hover)
    | _ => cases hnew

end Refused

/-! ## Runs -/

section Runs

variable {i : ℕ} {r : Rule} {g : Gate K} {row : PolicyRow} {evs : List (GateEvent K)}

/-- The triggers are kept along a calm run. -/
theorem Watched.run (h : Watched i r g)
    (hcalm : ∀ done ev rest, evs = done ++ ev :: rest → Calm i r (g.run done) ev) :
    ∀ done rest, evs = done ++ rest → Watched i r (g.run done) := by
  intro done
  induction done using List.reverseRecOn with
  | nil => exact fun _ _ => h
  | append_singleton done ev ih =>
    intro rest hevs
    rw [List.append_assoc, List.singleton_append] at hevs
    have hstep := (ih (ev :: rest) hevs).step (hcalm done ev rest hevs)
    rw [Gate.run, List.foldl_append]
    exact hstep

/-- In every run in which no violating write falls between the first `DROP` and the last `CREATE` of
a rebuild, and no rebuild fails there, a write that violates the rule is never accepted. -/
theorem violation_refused_of_calm {K : Type} [DecidableEq K] {i : ℕ} {r : Rule} {g : Gate K}
    {row : PolicyRow} {evs : List (GateEvent K)} (hrow : g.rules.get? i = some row)
    (hrule : row.rule = some r) (hidle : g.pending = []) (hg : Guards r g.triggers)
    (hcalm : ∀ done ev rest, evs = done ++ ev :: rest → Calm i r (g.run done) ev) :
    ∀ done w rest, evs = done ++ .write w :: rest → r.violated (g.run done).db w →
      (g.run done).accepts w = false := by
  intro done w rest hevs hviolated
  have hstart : Watched i r g :=
    ⟨⟨row, hrow, hrule⟩, ⟨[], [], by simp [hidle], by simp, by simp, by simp, hg⟩, fun _ => hg⟩
  have hkept := hstart.run hcalm done (.write w :: rest) hevs
  have hquiet : (g.run done).rebuilding = false := hcalm done (.write w) rest hevs hviolated
  exact not_accepts_of_guards (hkept.guards hquiet) hviolated

/-- A new database in which `/etc` is read-only. -/
def etcGate : Gate Bytes where
  db := initDb 0
  rules := Table.empty.insertIgnore 1 ⟨.readonlyPrefix, "/etc".toList⟩
  triggers := fun _ => some [.readonlyPrefix "/etc".toList]
  pending := []

/-- A file in it. -/
def etcWrite : RowWrite Bytes := .insert "/etc/x".toList
  { kind := .file, mode := 420, mtime := 0, mtimeNs := 0, size := 0, linkTarget := none,
    hash := .null
    content := none, compressed := 0 }

/-- The write of the example violates the rule. -/
theorem etcWrite_violates (db : Db Bytes) :
    (Rule.readonlyPrefix "/etc".toList).violated db etcWrite :=
  ⟨"/etc/x".toList, List.mem_singleton.2 rfl, by decide⟩

/-- The triggers of the example guard the rule. -/
theorem guards_etcGate : Guards (.readonlyPrefix "/etc".toList) etcGate.triggers :=
  fun _ _ => ⟨_, rfl, List.mem_singleton.2 rfl⟩

/-- `list` is called and its first statement executed; then the file is written. -/
theorem violation_refused_of_calm_list :
    (etcGate.run [.call .list, .stmt]).accepts etcWrite = false := by
  have hcalm : ∀ (done : List (GateEvent Bytes)) ev rest,
      [.call .list, .stmt, .write etcWrite] = done ++ ev :: rest →
      Calm 1 (.readonlyPrefix "/etc".toList) (etcGate.run done) ev := by
    intro done ev rest hevs
    rcases done with _ | ⟨e₁, _ | ⟨e₂, _ | ⟨e₃, done⟩⟩⟩
    · cases hevs
      trivial
    · cases hevs
      trivial
    · cases hevs
      exact fun _ => by decide
    · simp at hevs
  have hrow : etcGate.rules.get? 1 = some ⟨.readonlyPrefix, "/etc".toList⟩ := rfl
  exact violation_refused_of_calm hrow rfl rfl guards_etcGate hcalm [.call .list, .stmt]
    etcWrite [] rfl
    (etcWrite_violates _)

/-- `list` is called on the policy connection, and the file is written after the first `DROP`. The
rule is there throughout, and its triggers were installed. -/
theorem accepts_violation_while_rebuilding :
    (etcGate.run [.call .list, .stmt, .stmt, .stmt]).rules.get? 1 = etcGate.rules.get? 1 ∧
      Guards (.readonlyPrefix "/etc".toList) etcGate.triggers ∧
      (Rule.readonlyPrefix "/etc".toList).violated
        (etcGate.run [.call .list, .stmt, .stmt, .stmt]).db etcWrite ∧
      (etcGate.run [.call .list, .stmt, .stmt, .stmt]).accepts etcWrite = true :=
  ⟨by decide +kernel, guards_etcGate, etcWrite_violates _, by decide +kernel⟩

end Runs

end Dbvm
