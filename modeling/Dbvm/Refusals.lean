import Dbvm.Counters
import Dbvm.Triggers

/-!
# What the policy triggers accept and refuse

The triggers that `rebuild_triggers` installs, against what the rules ask for. A statement is a list
of writes of single rows: the triggers fire row by row, and a row that is refused takes the whole
statement back. An accepted statement obeys every rule. A refused one would break a rule, with three
exceptions (`RowWrite.Mistaken`): `LIKE` takes a path for one under a prefix when only the case of
letters differs, an `INSERT OR IGNORE` is refused although it is ignored, and the quota condition
takes off the size at the new path, so it counts a file whose path changes twice.
-/

namespace Dbvm

open Lib Lib.Prog

variable {K : Type} [DecidableEq K]

/-- The triggers that a set of rules is compiled into. -/
def compiled (rules : List Rule) : Installed :=
  fun t => if rules.any t.tests then some rules else none

/-- Creating triggers one by one puts the rules at each of them. -/
theorem foldl_create (rules : List Rule) (t : Trigger) : ∀ (ts : List Trigger) (trs : Installed),
    ((ts.map fun t => PolicyStmt.create t rules).foldl PolicyStmt.onTriggers trs) t =
      if t ∈ ts then some rules else trs t
  | [], trs => by simp
  | u :: ts, trs => by
    rw [List.map_cons, List.foldl_cons, foldl_create rules t ts, PolicyStmt.onTriggers]
    by_cases ht : t ∈ ts
    · rw [if_pos ht, if_pos (List.mem_cons_of_mem u ht)]
    · by_cases hu : t = u
      · simp [hu]
      · simp [ht, hu]

/-- `rebuild_triggers` installs them, whatever was there. -/
theorem foldl_rebuildBatch (rules : List Rule) (trs : Installed) :
    (rebuildBatch rules).foldl PolicyStmt.onTriggers trs = compiled rules := by
  have hdrop : [.drop .fsIns, .drop .fsUpd, .drop .fsDel, .drop .chIns, .drop .chUpd,
    .drop .chDel].foldl
      PolicyStmt.onTriggers trs = fun _ => none := by
    funext t
    cases t <;> rfl
  funext t
  unfold rebuildBatch compiled
  rw [List.foldl_append, hdrop, foldl_create]
  have hmem : t ∈ [.fsUpd, .chUpd, .fsIns, .fsDel, .chIns, .chDel].filter
      (fun t : Trigger => rules.any t.tests) ↔
      rules.any t.tests = true := by
    rw [List.mem_filter]
    cases t <;> simp
  simp only [hmem]

/-! ## Statements -/

/-- The sum of the sizes of the files. -/
def Db.fileTotal (db : Db K) : ℤ :=
  ((db.fs.rows.filter fun r => r.2.kind = .file).map fun r => (r.2.size : ℤ)).sum

/-- The write of one row of a statement. A row that is not there is not written; the `BEFORE`
triggers fire before the keys are checked. -/
def RowWrite.exec (trs : Installed) (db : Db K) (w : RowWrite K) : Except Err (Db K) :=
  if w.there db = false then .ok db
  else if w.refused trs db then .error .refused
  else if w.unique db = false then .error .unique
  else .ok (w.apply db)

/-- A statement: all its rows or none. -/
def execRows (trs : Installed) (db : Db K) (ws : List (RowWrite K)) : Except Err (Db K) :=
  ws.foldlM (RowWrite.exec trs) db

/-- The database after a statement. -/
def afterRows (trs : Installed) (db : Db K) (ws : List (RowWrite K)) : Db K :=
  match execRows trs db ws with
  | .ok db' => db'
  | .error _ => db

/-- The row of an `INSERT OR IGNORE` is there, so nothing is written. -/
def RowWrite.ignored (db : Db K) : RowWrite K → Bool
  | .ensureDir p _ _ => db.fs.has p
  | _ => false

/-- A write that is ignored changes nothing. -/
theorem RowWrite.apply_of_ignored {db : Db K} {w : RowWrite K} (h : w.ignored db = true) :
    w.apply db = db := by
  cases w with
  | ensureDir p mode mtime => exact if_pos h
  | _ => cases h

/-- The write breaks a rule: it is at or below a protected path, or it writes a file row that is too
large or leaves the sum of the file sizes above the quota. -/
def Rule.Forbids (r : Rule) (db : Db K) (w : RowWrite K) : Prop :=
  match r with
  | .readonlyPrefix pfx => w.ignored db = false ∧ ∃ p ∈ w.paths, covers pfx p = true
  | .maxFileSize n => ∃ row, w.newRow db = some row ∧ row.kind = .file ∧ n < row.size
  | .diskQuota q => (∃ row, w.newRow db = some row ∧ row.kind = .file) ∧
      (q : ℤ) < (w.apply db).fileTotal

/-- A statement has come to the write of a row: the rows before are written, and this one is there
and leaves the keys unique. -/
def Comes (trs : Installed) (db : Db K) (ws : List (RowWrite K)) (d : Db K) (w : RowWrite K) :
    Prop :=
  ∃ before after, ws = before ++ w :: after ∧ execRows trs db before = .ok d ∧ w.there d = true ∧
    w.unique d = true

/-- What an accepted statement leaves. -/
structure Obeyed (rules : List Rule) (db : Db K) (ws : List (RowWrite K)) (db' : Db K) : Prop where
  /-- The rows and the chunk rows under a protected path are as they were. -/
  kept : ∀ pfx, .readonlyPrefix pfx ∈ rules → ∀ p, covers pfx p = true →
    db'.fs.get? p = db.fs.get? p ∧ ∀ i, db'.chunks.get? (p, i) = db.chunks.get? (p, i)
  /-- A file row that was written is not larger than a limit. -/
  sizes : ∀ n, .maxFileSize n ∈ rules → ∀ d w row, Comes (compiled rules) db ws d w →
    w.newRow d = some row →
    row.kind = .file → row.size ≤ n
  /-- The other file rows were there before. -/
  rows : ∀ n, .maxFileSize n ∈ rules → ∀ p row, db'.fs.get? p = some row → row.kind = .file →
    db.fs.get? p = some row ∨ row.size ≤ n
  /-- If a file row was written, the sum of the file sizes is not above a quota. -/
  quota : ∀ q : ℕ, .diskQuota q ∈ rules →
    (∃ d w row, Comes (compiled rules) db ws d w ∧ w.newRow d = some row ∧
    row.kind = .file) → db'.fileTotal ≤ q

/-- The triggers do what the rules ask for: an accepted statement obeys them, and a row that is
refused would break one. -/
structure Honours (rules : List Rule) (db : Db K) (ws : List (RowWrite K)) : Prop where
  /-- Accepted. -/
  accepted : ∀ db', execRows (compiled rules) db ws = .ok db' → Obeyed rules db ws db'
  /-- Refused. -/
  refused : ∀ d w, Comes (compiled rules) db ws d w → w.refused (compiled rules) d = true →
    ∃ r ∈ rules, r.Forbids d w

/-- What the triggers mistake for a violation: a path that `LIKE` finds under a prefix although it
is not, an ignored row, and a file row whose path changes while the sum of the file sizes, with its
new size on top, is above a quota. -/
def RowWrite.Mistaken (rules : List Rule) (db : Db K) (w : RowWrite K) : Prop :=
  (∃ pfx, .readonlyPrefix pfx ∈ rules ∧ ∃ p ∈ w.paths, underPrefix pfx p = true ∧
    (covers pfx p = false ∨ w.ignored db = true)) ∨
  (∃ q : ℕ, .diskQuota q ∈ rules ∧ ∃ old new f, w = .update old new f ∧ old ≠ new ∧
    ∃ row, db.fs.get? old = some row ∧ (f row).kind = .file ∧ (q : ℤ) < db.fileTotal + (f row).size)

/-! ## The conditions of the triggers -/

section Conditions

variable {rules : List Rule} {db : Db K} {w : RowWrite K}

/-- A path is protected iff some prefix is above it. -/
theorem Rule.protects_iff {p : Str} : Rule.protects rules p = true ↔
    ∃ pfx, .readonlyPrefix pfx ∈ rules ∧ underPrefix pfx p = true := by
  unfold Rule.protects
  rw [List.any_eq_true]
  constructor
  · rintro ⟨r, hr, h⟩
    rcases r with pfx | n | q
    · exact ⟨pfx, hr, h⟩
    · cases h
    · cases h
  · rintro ⟨pfx, hr, h⟩
    exact ⟨_, hr, h⟩

omit [DecidableEq K] in
/-- A trigger that is not there has no prefix to test. -/
theorem firing_compiled_refusesPath (t : Trigger) (p : Str) :
    (firing db (compiled rules t)).refusesPath p = Rule.protects rules p := by
  unfold firing compiled Db.refusesPath
  dsimp only
  split_ifs with hany
  · rw [Option.getD_some, Bool.not_false, Bool.true_and]
  · rw [Option.getD_none, Bool.not_false, Bool.true_and]
    by_contra hne
    have hprot : Rule.protects rules p = true := by
      rw [← Bool.not_eq_false]
      exact fun hf => hne (by rw [hf]; rfl)
    obtain ⟨pfx, hr, -⟩ := Rule.protects_iff.1 hprot
    exact hany (List.any_eq_true.2 ⟨_, hr, rfl⟩)

omit [DecidableEq K] in
/-- A row is refused for its path, its size or the quota, and for nothing else. -/
theorem firing_compiled_refusesFs {t : Trigger} (ht : t = .fsIns ∨ t = .fsUpd) (p : Str)
    (m : FsMeta K) :
    (firing db (compiled rules t)).refusesFs p m = true ↔
      Rule.protects rules p = true ∨ (∃ n, .maxFileSize n ∈ rules ∧ m.kind = .file ∧ n < m.size) ∨
      (∃ q : ℕ, .diskQuota q ∈ rules ∧ m.kind = .file ∧
        (q : ℤ) < db.counters.logicalBytes - ((db.fs.get? p).elim 0 fun r => r.logical) +
        m.size) := by
  have hpol : (compiled rules t).getD [] = rules := by
    unfold compiled
    split_ifs with hany
    · rfl
    · -- Every rule has a condition for a new row.
      rcases rules with _ | ⟨r, rules⟩
      · rfl
      · refine absurd (List.any_eq_true.2 ⟨r, by simp, ?_⟩) hany
        rcases ht with rfl | rfl <;> rcases r with _ | _ | _ <;> rfl
  unfold firing Db.refusesFs
  rw [hpol, Bool.not_false, Bool.true_and, Bool.or_eq_true, List.any_eq_true]
  refine or_congr Iff.rfl ?_
  -- The size rules test files only; the quota takes the share of the row that is there out of the
  -- total.
  constructor
  · rintro ⟨r, hr, h⟩
    rcases r with pfx | n | q
    · cases h
    · rw [Bool.and_eq_true, decide_eq_true_iff, decide_eq_true_iff] at h
      exact Or.inl ⟨n, hr, h⟩
    · rw [Bool.and_eq_true, decide_eq_true_iff, decide_eq_true_iff] at h
      exact Or.inr ⟨q, hr, h⟩
  · rintro (⟨n, hr, hkind, h⟩ | ⟨q, hr, hkind, h⟩)
    · exact ⟨_, hr, by simp [hkind, h]⟩
    · exact ⟨_, hr, by simp [hkind, h]⟩

/-! ## The sum of the file sizes -/

omit [DecidableEq K] in
/-- The bytes of all files are the total over the rows. -/
theorem Db.fileTotal_eq (db : Db K) : db.fileTotal = db.fs.total fun row => row.logical := by
  have hsum := Table.sum_filter_eq_total db.fs (fun row => decide (row.kind = .file)) fun row =>
    (row.size : ℤ)
  rw [Db.fileTotal, hsum]
  simp only [FsMeta.logical, decide_eq_true_eq]

omit [DecidableEq K] in
/-- An exact counter is the bytes of all files. -/
theorem Db.CountersExact.logicalBytes (h : db.CountersExact) :
    db.counters.logicalBytes = db.fileTotal :=
  Counters.Exact.logicalBytes h

omit [DecidableEq K] in
/-- A new row adds its bytes. -/
theorem Db.fileTotal_addFs {p : Str} (hp : db.fs.get? p = none) (row : FsRow K) :
    (db.addFs p row).fileTotal = db.fileTotal + row.logical := by
  rw [Db.fileTotal_eq, Db.fileTotal_eq]
  exact Table.total_insertIgnore hp row _

omit [DecidableEq K] in
/-- An update of a row replaces its bytes. -/
theorem Db.fileTotal_setFs {p : Str} {row : FsRow K} (hp : db.fs.get? p = some row)
    (f : FsRow K → FsRow K) :
    (db.setFs p f).fileTotal = db.fileTotal - row.logical + (f row).logical := by
  rw [Db.fileTotal_eq, Db.fileTotal_eq]
  exact Table.total_update hp f _

/-- A change of path moves a size and counts the new one. -/
theorem fileTotal_update {old new : Str} {f : FsRow K → FsRow K} {row : FsRow K}
    (hold : db.fs.get? old = some row) (hunique : old = new ∨ db.fs.get? new = none) :
    ((RowWrite.update old new f).apply db).fileTotal = db.fileTotal - row.logical +
    (f row).logical := by
  obtain ⟨fs, hre⟩ := Table.exists_rekey hunique
  have hget : (db.moved old new fs).fs.get? new = some row := by
    refine (Table.get?_rekey hre).2 ⟨old, by simp, hold⟩
  have hmoved : (db.moved old new fs).fileTotal = db.fileTotal := by
    rw [Db.fileTotal_eq, Db.fileTotal_eq]
    exact Table.total_rekey hre _
  have happly : (RowWrite.update old new f).apply db = (db.moved old new fs).setFs new f := by
    unfold RowWrite.apply
    dsimp only
    rw [hre]
  rw [happly, Db.fileTotal_setFs hget, hmoved]

/-- A write of no file row does not add to the sum. -/
theorem fileBytes_apply_le (hthere : w.there db = true) (hunique : w.unique db = true)
    (hnew : ∀ row, w.newRow db = some row → row.kind ≠ .file) :
    (w.apply db).fileTotal ≤ db.fileTotal := by
  have hzero : ∀ row : FsRow K, row.kind ≠ .file → row.logical = 0 := fun row hrow => if_neg hrow
  -- What is no file weighs nothing, so no write can add to the bytes of the files.
  cases w with
  | insert p row =>
    have hfree : db.fs.get? p = none := by simpa [RowWrite.unique] using hunique
    rw [RowWrite.apply, Db.fileTotal_addFs hfree, hzero row (hnew row rfl)]
    omega
  | ensureDir p mode mtime =>
    unfold RowWrite.apply
    dsimp only
    split_ifs with hhas
    · exact le_refl _
    · rw [Db.fileTotal_addFs (Table.get?_of_not_has hhas), hzero _ (by simp [dirRow])]
      omega
  | upsert p row upd =>
    unfold RowWrite.apply
    dsimp only
    rcases hold : db.fs.get? p with _ | old
    · have hkind := hnew row (by rw [RowWrite.newRow, hold, Option.elim_none])
      rw [Table.has_eq_false.2 hold, if_neg (by simp), Db.fileTotal_addFs hold, hzero row hkind]
      omega
    · have hkind := hnew (row.onConflict upd old) (by rw [RowWrite.newRow, hold, Option.elim_some])
      have hnonneg := FsMeta.logical_nonneg old.toFsMeta
      rw [Table.has_eq_true.2 ⟨old, hold⟩, if_pos rfl, Db.fileTotal_setFs hold, hzero _ hkind]
      omega
  | update old new f =>
    obtain ⟨row, hrow⟩ := Table.has_eq_true.1 hthere
    have hkeys : old = new ∨ db.fs.get? new = none := by
      simpa [RowWrite.unique, Table.has_eq_false] using hunique
    have hkind := hnew (f row) (by rw [RowWrite.newRow, hrow, Option.map_some])
    have hnonneg := FsMeta.logical_nonneg row.toFsMeta
    rw [fileTotal_update hrow hkeys, hzero _ hkind]
    omega
  | delete p =>
    have hsum := Table.total_deleteWhere db.fs (fun q _ => q = p) fun row => row.logical
    have hnonneg : 0 ≤ ((db.fs.select fun q _ => q = p).map fun r => r.2.logical).sum := by
      generalize db.fs.select (fun q _ => q = p) = l
      induction l with
      | nil => simp
      | cons r l ih =>
        have hr := FsMeta.logical_nonneg r.2.toFsMeta
        rw [List.map_cons, List.sum_cons]
        omega
    have hdel : ((RowWrite.delete p).apply db).fileTotal =
        (db.fs.deleteWhere fun q _ => q = p).total fun row => row.logical := Db.fileTotal_eq _
    rw [hdel, Db.fileTotal_eq]
    omega
  | putChunk p idx k => exact le_refl _
  | moveChunk old new idx =>
    unfold RowWrite.apply
    dsimp only
    split
    · exact le_refl _
    · exact le_refl _
  | deleteChunk p idx => exact le_refl _

/-- Every write keeps the counters exact. -/
theorem RowWrite.countersExact_apply (hunique : w.unique db = true) (h : db.CountersExact) :
    (w.apply db).CountersExact := by
  -- One case for each statement; those on chunk rows leave the counters alone.
  cases w with
  | insert p row =>
    have hfree : db.fs.get? p = none := by simpa [RowWrite.unique] using hunique
    exact (Db.Effect.addFs row hfree).countersExact h
  | ensureDir p mode mtime =>
    unfold RowWrite.apply
    dsimp only
    split_ifs with hhas
    · exact h
    · exact (Db.Effect.addFs _ (Table.get?_of_not_has hhas)).countersExact h
  | upsert p row upd =>
    unfold RowWrite.apply
    dsimp only
    split_ifs with hhas
    · exact h.setFs p _
    · exact (Db.Effect.addFs _ (Table.get?_of_not_has hhas)).countersExact h
  | update old new f =>
    unfold RowWrite.apply
    dsimp only
    split
    · exact h
    · next fs hre =>
      have hmoved : (db.moved old new fs).CountersExact := (Db.Effect.moveFs hre).countersExact h
      exact hmoved.setFs new f
  | delete p => exact h.delFs _
  | putChunk p idx k =>
    have hfree : db.chunks.get? (p, idx) = none := by simpa [RowWrite.unique] using hunique
    exact (Db.Effect.addChunk k hfree).countersExact h
  | moveChunk old new idx =>
    unfold RowWrite.apply
    dsimp only
    split
    · exact h
    · exact h
  | deleteChunk p idx => exact (Db.Effect.delChunks _).countersExact h

/-! ## Refused rows -/

/-- The rules that a write breaks, by their kind. -/
theorem forbids_iff : (∃ r ∈ rules, r.Forbids db w) ↔
    (∃ pfx, .readonlyPrefix pfx ∈ rules ∧ w.ignored db = false ∧ ∃ p ∈ w.paths,
      covers pfx p = true) ∨
    (∃ n, .maxFileSize n ∈ rules ∧ ∃ row, w.newRow db = some row ∧ row.kind = .file ∧
      n < row.size) ∨
    (∃ q : ℕ, .diskQuota q ∈ rules ∧ (∃ row, w.newRow db = some row ∧ row.kind = .file) ∧
      (q : ℤ) < (w.apply db).fileTotal) := by
  constructor
  · rintro ⟨r, hr, h⟩
    rcases r with pfx | n | q
    · exact Or.inl ⟨pfx, hr, h⟩
    · exact Or.inr (Or.inl ⟨n, hr, h⟩)
    · exact Or.inr (Or.inr ⟨q, hr, h⟩)
  · rintro (⟨pfx, hr, h⟩ | ⟨n, hr, h⟩ | ⟨q, hr, h⟩)
    · exact ⟨_, hr, h⟩
    · exact ⟨_, hr, h⟩
    · exact ⟨_, hr, h⟩

omit [DecidableEq K] in
/-- A path that a trigger takes for a protected one is protected, or mistaken for it. -/
theorem protects_paths_iff : (∃ p ∈ w.paths, Rule.protects rules p = true) ↔
    (∃ pfx, .readonlyPrefix pfx ∈ rules ∧ w.ignored db = false ∧ ∃ p ∈ w.paths,
      covers pfx p = true) ∨
    (∃ pfx, .readonlyPrefix pfx ∈ rules ∧ ∃ p ∈ w.paths, underPrefix pfx p = true ∧
      (covers pfx p = false ∨ w.ignored db = true)) := by
  constructor
  · rintro ⟨p, hp, h⟩
    obtain ⟨pfx, hr, hunder⟩ := Rule.protects_iff.1 h
    by_cases hcov : covers pfx p = true
    · by_cases hign : w.ignored db = true
      · exact Or.inr ⟨pfx, hr, p, hp, hunder, Or.inr hign⟩
      · exact Or.inl ⟨pfx, hr, Bool.eq_false_iff.2 hign, p, hp, hcov⟩
    · exact Or.inr ⟨pfx, hr, p, hp, hunder, Or.inl (Bool.eq_false_iff.2 hcov)⟩
  · rintro (⟨pfx, hr, -, p, hp, hcov⟩ | ⟨pfx, hr, p, hp, hunder, -⟩)
    · exact ⟨p, hp, Rule.protects_of_covers hr hcov⟩
    · exact ⟨p, hp, Rule.protects_iff.2 ⟨pfx, hr, hunder⟩⟩

/-- The condition of the triggers, in three parts. -/
def RowWrite.Tested (rules : List Rule) (db : Db K) (w : RowWrite K) : Prop :=
  (∃ p ∈ w.paths, Rule.protects rules p = true) ∨
  (∃ n, .maxFileSize n ∈ rules ∧ ∃ row, w.newRow db = some row ∧ row.kind = .file ∧ n < row.size) ∨
  (∃ q : ℕ, .diskQuota q ∈ rules ∧ (∃ row, w.newRow db = some row ∧ row.kind = .file) ∧
    (q : ℤ) < (w.apply db).fileTotal) ∨
  (∃ q : ℕ, .diskQuota q ∈ rules ∧ ∃ old new f, w = .update old new f ∧ old ≠ new ∧
    ∃ row, db.fs.get? old = some row ∧ (f row).kind = .file ∧ (q : ℤ) < db.fileTotal + (f row).size)

/-- What the triggers test is what the rules forbid or the mistaken quota test refuses. -/
theorem tested_iff : w.Tested rules db ↔ (∃ r ∈ rules, r.Forbids db w) ∨ w.Mistaken rules db := by
  unfold RowWrite.Tested RowWrite.Mistaken
  rw [protects_paths_iff, forbids_iff]
  constructor
  · rintro ((hpath | hlike) | hsize | hquota | hmoved)
    · exact Or.inl (Or.inl hpath)
    · exact Or.inr (Or.inl hlike)
    · exact Or.inl (Or.inr (Or.inl hsize))
    · exact Or.inl (Or.inr (Or.inr hquota))
    · exact Or.inr (Or.inr hmoved)
  · rintro ((hpath | hsize | hquota) | hlike | hmoved)
    · exact Or.inl (Or.inl hpath)
    · exact Or.inr (Or.inl hsize)
    · exact Or.inr (Or.inr (Or.inl hquota))
    · exact Or.inl (Or.inr hlike)
    · exact Or.inr (Or.inr (Or.inr hmoved))

/-- A write without a row of `vm_fs` is tested for its paths only. -/
theorem tested_iff_of_newRow (hnew : w.newRow db = none) (hthere : w.there db = true) :
    w.Tested rules db ↔ ∃ p ∈ w.paths, Rule.protects rules p = true := by
  constructor
  · rintro (hpath | ⟨n, -, row, hrow, -⟩ | ⟨q, -, ⟨row, hrow, -⟩, -⟩ | ⟨q, -, old, new, f, rfl, -,
      row, hrow, -⟩)
    · exact hpath
    · cases hnew.symm.trans hrow
    · cases hnew.symm.trans hrow
    · rw [RowWrite.newRow, hrow] at hnew
      cases hnew
  · exact Or.inl

/-- The insert of a row: the trigger tests the kind and the size of the row that is written, and
takes off the size it replaces. -/
theorem refusesFs_iff_tested {p : Str} {m : FsMeta K} (hexact : db.CountersExact)
    (hpaths : w.paths = [p]) (hw : ∀ old new f, w ≠ .update old new f)
    (hnew : m.kind = .file → ∃ row, w.newRow db = some row ∧ row.kind = .file)
    (hsame : ∀ row, w.newRow db = some row → row.kind = m.kind ∧ row.size = m.size)
    (htotal : m.kind = .file →
      (w.apply db).fileTotal = db.fileTotal - ((db.fs.get? p).elim 0 fun r => r.logical) + m.size) :
    (firing db (compiled rules .fsIns)).refusesFs p m = true ↔ w.Tested rules db := by
  -- The three tests of a new row are those of the rule types, on the row and the total after the
  -- write.
  rw [firing_compiled_refusesFs (Or.inl rfl), hexact.logicalBytes]
  unfold RowWrite.Tested
  rw [hpaths]
  constructor
  · rintro (hpath | ⟨n, hn, hkind, hsize⟩ | ⟨q, hq, hkind, hover⟩)
    · exact Or.inl ⟨p, List.mem_singleton.2 rfl, hpath⟩
    · obtain ⟨row, hrow, hfile⟩ := hnew hkind
      rw [← (hsame row hrow).2] at hsize
      exact Or.inr (Or.inl ⟨n, hn, row, hrow, hfile, hsize⟩)
    · rw [← htotal hkind] at hover
      exact Or.inr (Or.inr (Or.inl ⟨q, hq, hnew hkind, hover⟩))
  · rintro (⟨q, hq, hpath⟩ | ⟨n, hn, row, hrow, hkind, hsize⟩ | ⟨q, hq, ⟨row, hrow, hkind⟩, hover⟩ |
      ⟨-, -, old, new, f, hupd, -⟩)
    · rw [List.mem_singleton.1 hq] at hpath
      exact Or.inl hpath
    · obtain ⟨hk, hs⟩ := hsame row hrow
      rw [hk] at hkind
      rw [hs] at hsize
      exact Or.inr (Or.inl ⟨n, hn, hkind, hsize⟩)
    · rw [(hsame row hrow).1] at hkind
      rw [htotal hkind] at hover
      exact Or.inr (Or.inr ⟨q, hq, hkind, hover⟩)
    · exact absurd hupd (hw old new f)

/-- The update of a row: with a new path, the trigger takes nothing off. -/
theorem refused_update_iff {old new : Str} {f : FsRow K → FsRow K} (hexact : db.CountersExact)
    (hthere : (RowWrite.update old new f).there db = true)
    (hunique : (RowWrite.update old new f).unique db = true) :
    (RowWrite.update old new f).refused (compiled rules) db = true ↔
      (RowWrite.update old new f).Tested rules db := by
  obtain ⟨row, hrow⟩ := Table.has_eq_true.1 hthere
  have hkeys : old = new ∨ db.fs.get? new = none := by
    simpa [RowWrite.unique, Table.has_eq_false] using hunique
  have hnew : (RowWrite.update old new f).newRow db = some (f row) := by
    rw [RowWrite.newRow, hrow, Option.map_some]
  have hnonneg := FsMeta.logical_nonneg row.toFsMeta
  have hafter := fileTotal_update (f := f) hrow hkeys
  unfold RowWrite.refused RowWrite.Tested
  dsimp only
  rw [hrow, Option.any_some, Bool.or_eq_true, firing_compiled_refusesPath,
    firing_compiled_refusesFs (Or.inr rfl), hexact.logicalBytes, hnew, hafter]
  -- What the trigger takes off is the size at the new path.
  have helim : ((db.fs.get? new).elim 0 fun r => r.logical) = if old = new then row.logical
    else 0 := by
    by_cases heq : old = new
    · rw [if_pos heq, ← heq, hrow, Option.elim_some]
    · rw [if_neg heq, hkeys.resolve_left heq, Option.elim_none]
  rw [helim]
  constructor
  · rintro (hold | hpath | ⟨n, hn, hkind, hsize⟩ | ⟨q, hq, hkind, hover⟩)
    · exact Or.inl ⟨old, by simp [RowWrite.paths], hold⟩
    · exact Or.inl ⟨new, by simp [RowWrite.paths], hpath⟩
    · exact Or.inr (Or.inl ⟨n, hn, f row, rfl, hkind, hsize⟩)
    · by_cases heq : old = new
      · rw [if_pos heq, ← FsMeta.logical_of_file hkind] at hover
        exact Or.inr (Or.inr (Or.inl ⟨q, hq, ⟨f row, rfl, hkind⟩, hover⟩))
      · rw [if_neg heq] at hover
        exact Or.inr (Or.inr (Or.inr ⟨q, hq, old, new, f, rfl, heq, row, hrow, hkind, by omega⟩))
  · rintro (⟨p, hp, hpath⟩ | ⟨n, hn, row', hrow', hkind, hsize⟩ | ⟨q, hq,
      ⟨row', hrow', hkind⟩, hover⟩ |
      ⟨q, hq, old', new', f', hupd, hne, row', hrow', hkind, hover⟩)
    · simp only [RowWrite.paths, List.mem_cons, List.not_mem_nil, or_false] at hp
      rcases hp with rfl | rfl
      · exact Or.inl hpath
      · exact Or.inr (Or.inl hpath)
    · cases hrow'
      exact Or.inr (Or.inr (Or.inl ⟨n, hn, hkind, hsize⟩))
    · cases hrow'
      rw [FsMeta.logical_of_file hkind] at hover
      refine Or.inr (Or.inr (Or.inr ⟨q, hq, hkind, ?_⟩))
      split_ifs <;> omega
    · cases hupd
      cases hrow.symm.trans hrow'
      refine Or.inr (Or.inr (Or.inr ⟨q, hq, hkind, ?_⟩))
      rw [if_neg hne]
      omega

/-- The triggers refuse a write iff a rule forbids it or the quota test is mistaken. -/
theorem refused_iff (hexact : db.CountersExact) (hthere : w.there db = true)
    (hunique : w.unique db = true) :
    w.refused (compiled rules) db = true ↔ (∃ r ∈ rules, r.Forbids db w) ∨ w.Mistaken rules db := by
  rw [← tested_iff]
  cases w with
  | insert p row =>
    have hfree : db.fs.get? p = none := by simpa [RowWrite.unique] using hunique
    refine refusesFs_iff_tested hexact rfl (by simp)
      (fun hkind => ⟨row, rfl, hkind⟩) ?_ fun hkind => ?_
    · rintro row' ⟨⟩
      exact ⟨rfl, rfl⟩
    · rw [RowWrite.apply, Db.fileTotal_addFs hfree, FsMeta.logical_of_file hkind, hfree,
        Option.elim_none]
      omega
  | ensureDir p mode mtime =>
    refine refusesFs_iff_tested hexact rfl (by simp) (fun hkind => by cases hkind) ?_ fun hkind =>
    by cases hkind
    intro row hrow
    unfold RowWrite.newRow at hrow
    dsimp only at hrow
    split_ifs at hrow
    cases hrow
    exact ⟨rfl, rfl⟩
  | upsert p row upd =>
    have hins : (firing db (compiled rules .fsIns)).refusesFs p row.toFsMeta = true ↔
        (RowWrite.upsert p row upd).Tested rules db := by
      refine refusesFs_iff_tested hexact rfl (by simp) (fun hkind => ?_)
        (fun row' hrow' => ?_) fun hkind => ?_
      · exact ⟨_, rfl, (RowWrite.newRow_upsert rfl).1.trans hkind⟩
      · exact RowWrite.newRow_upsert hrow'
      · have hafter :=
          (RowWrite.countersExact_apply (w := .upsert p row upd) rfl hexact).logicalBytes
        rw [← hafter, logicalBytes_upsert hkind, hexact.logicalBytes]
    unfold RowWrite.refused
    dsimp only
    rw [Bool.or_eq_true, hins, or_iff_left_iff_imp]
    -- The second trigger tests what the first one has tested.
    intro hupd
    rw [← hins]
    rcases hold : db.fs.get? p with _ | old
    · rw [hold] at hupd
      cases hupd
    · rw [hold, Option.any_some, Bool.or_eq_true, firing_compiled_refusesPath,
        firing_compiled_refusesFs (Or.inr rfl)] at hupd
      rw [firing_compiled_refusesFs (Or.inl rfl)]
      exact hupd.elim Or.inl id
  | update old new f => exact refused_update_iff hexact hthere hunique
  | delete p =>
    have hhas : db.fs.has p = true := hthere
    rw [tested_iff_of_newRow rfl hthere]
    unfold RowWrite.refused
    dsimp only
    rw [hhas, Bool.true_and, firing_compiled_refusesPath, firing_compiled_refusesPath]
    simp only [RowWrite.paths, List.mem_singleton, exists_eq_left, Bool.or_eq_true,
      Bool.and_eq_true]
    exact or_iff_left_iff_imp.2 fun h => h.2
  | putChunk p idx k =>
    rw [tested_iff_of_newRow rfl hthere]
    unfold RowWrite.refused
    dsimp only
    rw [firing_compiled_refusesPath]
    simp only [RowWrite.paths, List.mem_singleton, exists_eq_left]
  | moveChunk old new idx =>
    have hhas : db.chunks.has (old, idx) = true := hthere
    rw [tested_iff_of_newRow rfl hthere]
    unfold RowWrite.refused
    dsimp only
    rw [hhas, Bool.true_and, firing_compiled_refusesPath, firing_compiled_refusesPath,
      Bool.or_eq_true]
    simp only [RowWrite.paths, List.mem_cons, List.not_mem_nil, or_false, exists_eq_or_imp,
      exists_eq_left]
  | deleteChunk p idx =>
    have hhas : db.chunks.has (p, idx) = true := hthere
    rw [tested_iff_of_newRow rfl hthere]
    unfold RowWrite.refused
    dsimp only
    rw [hhas, Bool.true_and, firing_compiled_refusesPath]
    simp only [RowWrite.paths, List.mem_singleton, exists_eq_left]

end Conditions

/-! ## Accepted rows -/

section Accepted

variable {rules : List Rule} {db db' : Db K} {w : RowWrite K} {trs : Installed}

omit [DecidableEq K] in
/-- A change of path leaves the rows elsewhere. -/
theorem get?_moved {old new p : Str} {fs : Table Str (FsRow K)}
    (hre : db.fs.rekey (fun p => if p = old then new else p) = some fs) (hold : p ≠ old)
    (hnew : p ≠ new) :
    fs.get? p = db.fs.get? p := by
  ext row
  rw [Table.get?_rekey hre]
  constructor
  · rintro ⟨q, hq, hrow⟩
    split_ifs at hq with h
    · exact absurd hq.symm hnew
    · rw [← hq]
      exact hrow
  · intro hrow
    exact ⟨p, if_neg hold, hrow⟩

/-- A row elsewhere is not written. -/
theorem RowWrite.get?_apply {p : Str} (hp : p ∉ w.paths) :
    (w.apply db).fs.get? p = db.fs.get? p := by
  -- Each write changes rows of the paths it names only.
  cases w with
  | insert q row =>
    have hne : p ≠ q := fun h => hp (List.mem_singleton.2 h)
    exact (Table.get?_insertIgnore _ _ _ _).trans (if_neg hne)
  | ensureDir q mode mtime =>
    have hne : p ≠ q := fun h => hp (List.mem_singleton.2 h)
    unfold RowWrite.apply
    dsimp only
    split_ifs
    · rfl
    · exact (Table.get?_insertIgnore _ _ _ _).trans (if_neg hne)
  | upsert q row upd =>
    have hne : p ≠ q := fun h => hp (List.mem_singleton.2 h)
    unfold RowWrite.apply
    dsimp only
    split_ifs
    · exact (Table.get?_update _ _ _ _).trans (if_neg hne)
    · exact (Table.get?_insertIgnore _ _ _ _).trans (if_neg hne)
  | update old new f =>
    have hold : p ≠ old := fun h => hp (by simp [RowWrite.paths, h])
    have hnew : p ≠ new := fun h => hp (by simp [RowWrite.paths, h])
    unfold RowWrite.apply
    dsimp only
    split
    · rfl
    · next fs hre =>
      have hmoved : (db.moved old new fs).fs.get? p = db.fs.get? p := get?_moved hre hold hnew
      rw [← hmoved]
      exact (Table.get?_update _ _ _ _).trans (if_neg hnew)
  | delete q =>
    have hne : p ≠ q := fun h => hp (List.mem_singleton.2 h)
    refine (Table.get?_deleteWhere_key _ _ _).trans (if_neg ?_)
    simpa using hne
  | putChunk q idx k => rfl
  | moveChunk old new idx =>
    unfold RowWrite.apply
    dsimp only
    split
    · rfl
    · rfl
  | deleteChunk q idx => rfl

/-- Nor is a chunk row elsewhere. -/
theorem RowWrite.chunks_apply {p : Str} (hp : p ∉ w.paths) (i : ℕ) :
    (w.apply db).chunks.get? (p, i) = db.chunks.get? (p, i) := by
  -- Each write changes chunk rows of the paths it names only.
  cases w with
  | insert q row => rfl
  | ensureDir q mode mtime =>
    unfold RowWrite.apply
    dsimp only
    split_ifs
    · rfl
    · rfl
  | upsert q row upd =>
    unfold RowWrite.apply
    dsimp only
    split_ifs
    · rfl
    · rfl
  | update old new f =>
    unfold RowWrite.apply
    dsimp only
    split
    · rfl
    · rfl
  | delete q =>
    have hne : p ≠ q := fun h => hp (List.mem_singleton.2 h)
    refine (Table.get?_deleteWhere_key _ _ _).trans (if_neg ?_)
    simp [hne]
  | putChunk q idx k =>
    have hne : p ≠ q := fun h => hp (List.mem_singleton.2 h)
    refine (Table.get?_insertIgnore _ _ _ _).trans (if_neg ?_)
    rw [Prod.mk.injEq]
    exact fun h => hne h.1
  | moveChunk old new idx =>
    have hold : p ≠ old := fun h => hp (by simp [RowWrite.paths, h])
    have hnew : p ≠ new := fun h => hp (by simp [RowWrite.paths, h])
    unfold RowWrite.apply
    dsimp only
    split
    · rfl
    · next chunks hre =>
      ext k
      dsimp only
      rw [Table.get?_rekey hre]
      constructor
      · rintro ⟨c, hc, hk⟩
        split_ifs at hc with h
        · exact absurd (Prod.mk.inj hc).1.symm hnew
        · rw [← hc]
          exact hk
      · intro hk
        exact ⟨(p, i), if_neg fun h => hold (Prod.mk.inj h).1, hk⟩
  | deleteChunk q idx =>
    have hne : p ≠ q := fun h => hp (List.mem_singleton.2 h)
    refine (Table.get?_deleteWhere_key _ _ _).trans (if_neg ?_)
    simp [hne]

/-- A row after a write was there before or is the one that is written. -/
theorem RowWrite.get?_apply_some {p : Str} {row : FsRow K} (hunique : w.unique db = true)
    (h : (w.apply db).fs.get? p = some row) : db.fs.get? p = some row ∨ w.newRow db = some row := by
  -- The row of an insert under a free key.
  have hadd : ∀ (q : Str) (r : FsRow K), db.fs.get? q = none → (db.addFs q r).fs.get? p = some row →
      db.fs.get? p = some row ∨ r = row := by
    intro q r hfree hget
    have hget' := (Table.get?_insertIgnore _ _ _ _).symm.trans hget
    split_ifs at hget' with heq
    · rw [hfree, Option.getD_none] at hget'
      exact Or.inr (Option.some.inj hget')
    · exact Or.inl hget'
  cases w with
  | insert q r =>
    have hfree : db.fs.get? q = none := by simpa [RowWrite.unique] using hunique
    exact (hadd q r hfree h).imp_right fun heq => by rw [← heq]; rfl
  | ensureDir q mode mtime =>
    unfold RowWrite.apply at h
    unfold RowWrite.newRow
    dsimp only at h ⊢
    split_ifs at h ⊢ with hhas
    · exact Or.inl h
    · exact (hadd q _ (Table.get?_of_not_has hhas) h).imp_right fun heq => by rw [heq]
  | upsert q r upd =>
    unfold RowWrite.apply at h
    unfold RowWrite.newRow
    dsimp only at h ⊢
    split_ifs at h with hhas
    · have hget := (Table.get?_update _ _ _ _).symm.trans h
      obtain ⟨old, hold⟩ := Table.has_eq_true.1 hhas
      split_ifs at hget
      · rw [hold, Option.map_some] at hget
        rw [hold, Option.elim_some]
        exact Or.inr hget
      · exact Or.inl hget
    · rw [Table.get?_of_not_has hhas, Option.elim_none]
      exact (hadd q r (Table.get?_of_not_has hhas) h).imp_right fun heq => by rw [heq]
  | update old new g =>
    have hkeys : old = new ∨ db.fs.get? new = none := by
      simpa [RowWrite.unique, Table.has_eq_false] using hunique
    obtain ⟨fs, hre⟩ := Table.exists_rekey hkeys
    unfold RowWrite.apply at h
    dsimp only at h
    rw [hre] at h
    have hget := (Table.get?_update _ _ _ _).symm.trans h
    split_ifs at hget with hp
    · -- The row at the new path is the one that had the old path.
      obtain ⟨row₀, hrow₀, rfl⟩ := Option.map_eq_some_iff.1 hget
      obtain ⟨q, hq, hrow⟩ := (Table.get?_rekey hre).1 hrow₀
      have hqold : q = old := by
        by_contra hne
        rw [if_neg hne] at hq
        rcases hkeys with heq | hfree
        · exact hne (hq.trans heq.symm)
        · rw [hq, hfree] at hrow
          cases hrow
      rw [hqold] at hrow
      exact Or.inr (by rw [RowWrite.newRow, hrow, Option.map_some])
    · obtain ⟨q, hq, hrow⟩ := (Table.get?_rekey hre).1 hget
      split_ifs at hq with hqold
      · exact absurd hq.symm hp
      · rw [hq] at hrow
        exact Or.inl hrow
  | delete q =>
    have hget := (Table.get?_deleteWhere_key _ _ _).symm.trans h
    split_ifs at hget
    exact Or.inl hget
  | putChunk q idx k => exact Or.inl h
  | moveChunk old new idx =>
    unfold RowWrite.apply at h
    dsimp only at h
    split at h
    · exact Or.inl h
    · exact Or.inl h
  | deleteChunk q idx => exact Or.inl h

/-- How the write of a row ends. -/
theorem RowWrite.exec_ok (h : w.exec trs db = .ok db') :
    (w.there db = false ∧ db' = db) ∨
    (w.there db = true ∧ w.refused trs db = false ∧ w.unique db = true ∧ db' = w.apply db) := by
  unfold RowWrite.exec at h
  split_ifs at h with hthere hrefused hunique
  · exact Or.inl ⟨hthere, (Except.ok.inj h).symm⟩
  · rw [Bool.not_eq_false] at hthere hunique
    rw [Bool.not_eq_true] at hrefused
    exact Or.inr ⟨hthere, hrefused, hunique, (Except.ok.inj h).symm⟩

/-- Writes run one after the other. -/
theorem execRows_cons {ws : List (RowWrite K)} (h : execRows trs db (w :: ws) = .ok db') :
    ∃ d, w.exec trs db = .ok d ∧ execRows trs d ws = .ok db' := by
  unfold execRows at h
  rw [List.foldlM_cons] at h
  cases hexec : w.exec trs db with
  | error e =>
    rw [hexec] at h
    cases h
  | ok d =>
    rw [hexec] at h
    exact ⟨d, rfl, h⟩

/-- A write comes first or among the others, after the first has run. -/
theorem comes_cons {ws : List (RowWrite K)} {d d' : Db K} {w' : RowWrite K}
    (hexec : w.exec trs db = .ok d) :
    Comes trs db (w :: ws) d' w' ↔
      (d' = db ∧ w' = w ∧ w.there db = true ∧ w.unique db = true) ∨ Comes trs d ws d' w' := by
  constructor
  · rintro ⟨before, after, hws, hbefore, hthere, hunique⟩
    rcases before with _ | ⟨w₁, before⟩
    · cases hws
      cases hbefore
      exact Or.inl ⟨rfl, rfl, hthere, hunique⟩
    · cases hws
      obtain ⟨d₁, hd₁, hrest⟩ := execRows_cons hbefore
      cases hexec.symm.trans hd₁
      exact Or.inr ⟨before, after, rfl, hrest, hthere, hunique⟩
  · rintro (⟨rfl, rfl, hthere, hunique⟩ | ⟨before, after, hws, hbefore, hthere, hunique⟩)
    · exact ⟨[], ws, rfl, rfl, hthere, hunique⟩
    · refine ⟨w :: before, after, by rw [hws]; rfl, ?_, hthere, hunique⟩
      unfold execRows
      rw [List.foldlM_cons, hexec]
      exact hbefore

/-- Rows that are not file rows do not add to the sum. -/
theorem fileBytes_execRows_le :
    ∀ (ws : List (RowWrite K)) (db : Db K), execRows trs db ws = .ok db' →
    (∀ d w row, Comes trs db ws d w → w.newRow d = some row → row.kind ≠ .file) →
    db'.fileTotal ≤ db.fileTotal
  | [], db, h, _ => by
    cases h
    exact le_refl _
  | w :: ws, db, h, hnone => by
    obtain ⟨d, hexec, hrest⟩ := execRows_cons h
    have hle := fileBytes_execRows_le ws d hrest fun d' w' row hcomes =>
      hnone d' w' row ((comes_cons hexec).2 (Or.inr hcomes))
    rcases RowWrite.exec_ok hexec with ⟨-, rfl⟩ | ⟨hthere, -, hunique, rfl⟩
    · exact hle
    · refine hle.trans (fileBytes_apply_le hthere hunique fun row => ?_)
      exact hnone db w row ((comes_cons hexec).2 (Or.inl ⟨rfl, rfl, hthere, hunique⟩))

/-- The counters stay right through a statement. -/
theorem Db.CountersExact.execRows : ∀ (ws : List (RowWrite K)) {db : Db K}, db.CountersExact →
    Dbvm.execRows trs db ws = .ok db' → db'.CountersExact
  | [], db, hexact, h => by
    cases h
    exact hexact
  | w :: ws, db, hexact, h => by
    obtain ⟨d, hexec, hrest⟩ := execRows_cons h
    rcases RowWrite.exec_ok hexec with ⟨-, rfl⟩ | ⟨-, -, hunique, rfl⟩
    · exact hexact.execRows ws hrest
    · exact (RowWrite.countersExact_apply hunique hexact).execRows ws hrest

/-- A row that is accepted breaks no rule. -/
theorem not_forbids (hexact : db.CountersExact) (hthere : w.there db = true)
    (hunique : w.unique db = true) (h : w.refused (compiled rules) db = false) :
    ∀ r ∈ rules, ¬ r.Forbids db w := by
  intro r hr hforbids
  rw [(refused_iff hexact hthere hunique).2 (Or.inl ⟨r, hr, hforbids⟩)] at h
  cases h

/-- An accepted statement obeys the rules. -/
theorem obeyed_of_ok : ∀ (ws : List (RowWrite K)) (db : Db K), db.CountersExact →
    execRows (compiled rules) db ws = .ok db' → Obeyed rules db ws db'
  | [], db, _, h => by
    have hnone : ∀ d w, ¬ Comes (compiled rules) db [] d w := by
      rintro d w ⟨before, after, hws, -⟩
      simp at hws
    cases h
    exact ⟨fun _ _ _ _ => ⟨rfl, fun _ => rfl⟩, fun _ _ d w _ hcomes => absurd hcomes (hnone d w),
      fun _ _ _ _ hrow _ => Or.inl hrow, fun _ _ ⟨d, w, _, hcomes, _⟩ => absurd hcomes (hnone d w)⟩
  | w :: ws, db, hexact, h => by
    obtain ⟨d, hexec, hrest⟩ := execRows_cons h
    -- The first write is one that has no row to change, or it passed the rules and is done.
    rcases RowWrite.exec_ok hexec with ⟨hgone, rfl⟩ | ⟨hthere, hrefused, hunique, rfl⟩
    · -- The row is not there.
      have hcons : ∀ d' w', Comes (compiled rules) d (w :: ws) d' w' →
        Comes (compiled rules) d ws d' w' := by
        intro d' w' hcomes
        rcases (comes_cons hexec).1 hcomes with ⟨-, -, hthere, -⟩ | hcomes
        · rw [hgone] at hthere
          cases hthere
        · exact hcomes
      obtain ⟨hkept, hsizes, hrows, hquota⟩ := obeyed_of_ok ws d hexact hrest
      exact ⟨hkept, fun n hn d' w' row hcomes => hsizes n hn d' w' row (hcons d' w' hcomes), hrows,
        fun q hq ⟨d', w', row, hcomes, hnew⟩ => hquota q hq ⟨d', w', row, hcons d' w' hcomes, hnew⟩⟩
    · have hexact' := RowWrite.countersExact_apply hunique hexact
      have hno := not_forbids hexact hthere hunique hrefused
      obtain ⟨hkept, hsizes, hrows, hquota⟩ := obeyed_of_ok ws (w.apply db) hexact' hrest
      refine ⟨fun pfx hpfx p hp => ?_, fun n hn d' w' row hcomes hnew hkind => ?_,
        fun n hn p row hrow hkind => ?_, fun q hq hwrites => ?_⟩
      · have hpath : p ∉ w.paths ∨ w.ignored db = true := by
          by_contra hcon
          rw [not_or, not_not, Bool.not_eq_true] at hcon
          exact hno _ hpfx ⟨hcon.2, p, hcon.1, hp⟩
        obtain ⟨hfs, hchunks⟩ := hkept pfx hpfx p hp
        rcases hpath with hpath | hign
        · exact ⟨hfs.trans (RowWrite.get?_apply hpath), fun i =>
            (hchunks i).trans (RowWrite.chunks_apply hpath i)⟩
        · rw [RowWrite.apply_of_ignored hign] at hfs hchunks
          exact ⟨hfs, hchunks⟩
      · rcases (comes_cons hexec).1 hcomes with ⟨rfl, rfl, -⟩ | hcomes
        · exact not_lt.1 fun hlt => hno _ hn ⟨row, hnew, hkind, hlt⟩
        · exact hsizes n hn d' w' row hcomes hnew hkind
      · rcases hrows n hn p row hrow hkind with hbefore | hle
        · rcases RowWrite.get?_apply_some hunique hbefore with hbefore | hnew
          · exact Or.inl hbefore
          · exact Or.inr (not_lt.1 fun hlt => hno _ hn ⟨row, hnew, hkind, hlt⟩)
        · exact Or.inr hle
      · by_cases hmore : ∃ d' w' row, Comes (compiled rules) (w.apply db) ws d' w' ∧
          w'.newRow d' = some row ∧
          row.kind = .file
        · exact hquota q hq hmore
        · -- The first row is the last one with a file.
          obtain ⟨d', w', row, hcomes, hnew, hkind⟩ := hwrites
          have hle := fileBytes_execRows_le ws _ hrest fun d' w' row hcomes hnew hkind =>
            hmore ⟨d', w', row, hcomes, hnew, hkind⟩
          rcases (comes_cons hexec).1 hcomes with ⟨rfl, rfl, -⟩ | hcomes
          · exact hle.trans (not_lt.1 fun hlt => hno _ hq ⟨⟨row, hnew, hkind⟩, hlt⟩)
          · exact absurd ⟨d', w', row, hcomes, hnew, hkind⟩ hmore

end Accepted

/-! ## Runs -/

section Runs

variable {rules : List Rule} {db : Db K} {stmts : List (List (RowWrite K))}

/-- Writes keep the counters exact. -/
theorem Db.CountersExact.afterRows {ws : List (RowWrite K)} {trs : Installed}
    (h : db.CountersExact) :
    (Dbvm.afterRows trs db ws).CountersExact := by
  unfold Dbvm.afterRows
  split
  · next hok => exact h.execRows ws hok
  · exact h

/-- So do several transactions of writes. -/
theorem Db.CountersExact.foldl_afterRows {trs : Installed} (done : List (List (RowWrite K)))
    (h : db.CountersExact) : (done.foldl (Dbvm.afterRows trs) db).CountersExact := by
  induction done generalizing db with
  | nil => exact h
  | cons ws done ih => exact ih h.afterRows

/-- The triggers honour the rules in every statement of a run if and only if they meet nothing they
mistake for a violation, except in rows that break a rule anyway. -/
theorem honours_iff_not_mistaken {K : Type} [DecidableEq K] {rules : List Rule} {db : Db K}
    {stmts : List (List (RowWrite K))} (hexact : db.CountersExact) :
    (∀ done ws rest, stmts = done ++ ws :: rest →
      Honours rules (done.foldl (afterRows (compiled rules)) db) ws) ↔
    ∀ done ws rest, stmts = done ++ ws :: rest → ∀ d w,
      Comes (compiled rules) (done.foldl (afterRows (compiled rules)) db) ws d w →
      w.Mistaken rules d →
      ∃ r ∈ rules, r.Forbids d w := by
  -- The counters are right whenever a row is tested.
  have hcomes : ∀ (done : List (List (RowWrite K))) ws d w,
      Comes (compiled rules) (done.foldl (afterRows (compiled rules)) db) ws d w →
      (w.refused (compiled rules) d = true ↔ (∃ r ∈ rules, r.Forbids d w) ∨
        w.Mistaken rules d) := by
    rintro done ws d w ⟨before, after, -, hbefore, hthere, hunique⟩
    have hd : d.CountersExact := (hexact.foldl_afterRows done).execRows before hbefore
    exact refused_iff hd hthere hunique
  constructor
  · intro h done ws rest hstmts d w hc hmistaken
    exact (h done ws rest hstmts).refused d w hc ((hcomes done ws d w hc).2 (Or.inr hmistaken))
  · intro h done ws rest hstmts
    refine ⟨fun db' hok => obeyed_of_ok ws _ (hexact.foldl_afterRows done) hok,
      fun d w hc hrefused => ?_⟩
    rcases (hcomes done ws d w hc).1 hrefused with hforbids | hmistaken
    · exact hforbids
    · exact h done ws rest hstmts d w hc hmistaken

/-- A file of six bytes. -/
def sixBytes : FsRow Bytes :=
  { kind := .file, mode := 420, mtime := 0, mtimeNs := 0, size := 6, linkTarget := none,
    hash := .null
    content := none, compressed := 0 }

/-- It is inserted under a prefix and a quota. -/
theorem honours_iff_not_mistaken_insert :
    Honours [.readonlyPrefix "/etc".toList, .diskQuota 10] (initDb 0)
    [.insert "/a".toList sixBytes] := by
  have hexact : (initDb 0 : Db Bytes).CountersExact := countersExact_initDb 0
  suffices hrun : ∀ done ws rest, [[.insert "/a".toList sixBytes]] = done ++ ws :: rest →
      Honours [.readonlyPrefix "/etc".toList, .diskQuota 10]
        (done.foldl (afterRows (compiled [.readonlyPrefix "/etc".toList, .diskQuota 10]))
          (initDb 0)) ws from
    hrun [] _ [] rfl
  refine (honours_iff_not_mistaken hexact).2 ?_
  rintro done ws rest hstmts d w ⟨before, after, hws, -⟩ hmistaken
  -- There is only this row to write.
  have hdone : done = [] ∧ ws = [.insert "/a".toList sixBytes] := by
    rcases done with _ | ⟨x, done⟩
    · cases hstmts
      exact ⟨rfl, rfl⟩
    · simp at hstmts
  obtain ⟨-, rfl⟩ := hdone
  have hw : w = .insert "/a".toList sixBytes := by
    rcases before with _ | ⟨x, before⟩
    · cases hws
      rfl
    · simp at hws
  subst hw
  rcases hmistaken with ⟨pfx, hpfx, p, hp, hunder, -⟩ | ⟨-, -, old, new, f, hupd, -⟩
  · have hetc : pfx = "/etc".toList := by simpa using hpfx
    rw [hetc, List.mem_singleton.1 hp] at hunder
    exact absurd hunder (by decide)
  · cases hupd

/-- A file of six bytes is inserted under a quota of ten, and renamed. The total stays at six, and
the rename is refused. -/
theorem rename_refused_by_quota :
    (initDb 0 : Db Bytes).CountersExact ∧
    ¬ ∀ done ws rest,
      [[.insert "/a".toList sixBytes], [.update "/a".toList "/b".toList id]] = done ++ ws :: rest →
      Honours [.diskQuota 10]
      (done.foldl (afterRows (compiled [.diskQuota 10])) (initDb 0)) ws := by
  refine ⟨countersExact_initDb 0, fun h => ?_⟩
  have hrename := h [[.insert "/a".toList sixBytes]] [.update "/a".toList "/b".toList id] [] rfl
  obtain ⟨r, hr, hforbids⟩ := hrename.refused _ (.update "/a".toList "/b".toList id)
    ⟨[], [], rfl, rfl, by decide +kernel, by decide +kernel⟩ (by decide +kernel)
  rw [List.mem_singleton.1 hr] at hforbids
  exact absurd hforbids.2 (by decide +kernel)

end Runs

end Dbvm
