import Dbvm.DictCache
import Dbvm.Lib.Flock
import Dbvm.Lib.Wal
import Dbvm.Undo.Sync

/-!
# Snapshot files

`vm_snapshot_file` and `vm_restore_file` (`src/vm/snapshot.rs`), with the log that SQLite keeps
beside a database file. The snapshot is what `VACUUM INTO` writes, or a copy of the main file where
that is refused; the restore copies it over the main file and opens the result. Nothing touches the
`-wal` file, whose commits belong to the database that was there before. What SQLite does with pages
is a parameter.
-/

namespace Dbvm

open Lib Lib.Prog

variable {K : Type} [DecidableEq K]

/-! ## Opening -/

section Opening

variable {E : Ext K} {d : Db K}

/-- The tables after `vm_open`: the pending hashes are computed, as far as that succeeds. -/
def openedTables (E : Ext K) (d : Db K) : Db K := endState (finalizeDirty E) d

/-- Opening a database without marks changes nothing. -/
theorem openedTables_of_clean (h : d.dirty = []) : openedTables E d = d :=
  endState_of_ok (finalizeDirty_nil h)

/-- Where a pass over the pending files stops, the next pass stops at once. -/
theorem openedTables_finalizeLoop :
    ∀ (l : List Str) (m : ℕ) (d : Db K), d.dirty = l.filter (· ∈ d.dirty) →
    let d' :=
    endState (l.foldlM (fun n p => do return if ← finalizeFile E p then n + 1 else n) m : Sql K ℕ) d
    openedTables E d' = d' := by
  intro l
  -- By induction on the marked paths: opening finishes them one by one, and a failure stops it
  -- where it stands.
  induction l with
  | nil => exact fun m d h => openedTables_of_clean h
  | cons p l ih =>
    intro m d h
    rw [List.foldlM_cons]
    rcases hfile : finalizeFile E p d with ⟨b, d₁⟩ | ⟨e, d₁⟩
    · have hbody : (do return if ← finalizeFile E p then m + 1 else m : Sql K ℕ) d =
          .ok (if b then m + 1 else m) d₁ := by
        rw [bind_of_ok hfile]
        rfl
      have hrest : ∀ x : ℕ → Sql K ℕ,
          endState ((do return if ← finalizeFile E p then m + 1 else m) >>= x) d =
          endState (x (if b then m + 1 else m)) d₁ := by
        intro x
        unfold endState
        rw [bind_of_ok hbody]
      rw [hrest]
      refine ih _ d₁ ?_
      rcases finalizeFile_cases hfile with ⟨hp, rfl⟩ | ⟨hp, row, whole, -, -, rfl⟩
      · rwa [List.filter_cons_of_neg (by simpa using hp)] at h
      · -- The mark of the file is gone, the others keep their order.
        rw [List.filter_cons_of_pos (by simpa using hp)] at h
        calc d.dirty.filter (· ≠ p)
            = (p :: l.filter (· ∈ d.dirty)).filter (· ≠ p) := by rw [← h]
          _ = l.filter fun q => decide (q ∈ d.dirty.filter (· ≠ p)) := by
            rw [List.filter_cons_of_neg (by simp), List.filter_filter]
            refine List.filter_congr fun q _ => ?_
            simp [and_comm]
    · obtain rfl := finalizeFile_error hfile
      have hp : p ∈ d₁.dirty := by
        by_contra hp
        unfold finalizeFile at hfile
        rw [reads_bind, if_pos (by simpa using hp)] at hfile
        cases hfile
      have hstop : ∀ (m : ℕ) (l : List Str), endState ((p :: l).foldlM
          (fun n p => do return if ← finalizeFile E p then n + 1 else n) m : Sql K ℕ) d₁ = d₁ := by
        intro m l
        have hbody : (do return if ← finalizeFile E p then m + 1 else m : Sql K ℕ)
          d₁ = .error e d₁ :=
          bind_of_error hfile
        unfold endState
        rw [List.foldlM_cons, bind_of_error hbody]
      rw [List.filter_cons_of_pos (by simpa using hp)] at h
      have hfirst := hstop m l
      rw [List.foldlM_cons] at hfirst
      dsimp only
      rw [hfirst]
      unfold openedTables finalizeDirty endState
      rw [reads_bind, h]
      exact hstop 0 _

/-- A database that has been opened is not changed by being opened again. -/
theorem openedTables_idem (E : Ext K) (d : Db K) :
    openedTables E (openedTables E d) = openedTables E d := by
  have hself : d.dirty = d.dirty.filter (· ∈ d.dirty) := by
    refine (List.filter_eq_self.2 fun p hp => ?_).symm
    simpa using hp
  exact openedTables_finalizeLoop d.dirty 0 d hself

end Opening

namespace FileRestore

open Lib.Wal
open DictCache (snapPath)

variable {P : Type}

/-! ## Files -/

/-- What SQLite does with pages. -/
structure Pager (K P : Type) where
  /-- The tables that a file of pages holds. -/
  tables : Image P → Db K
  /-- The file that `VACUUM` writes. -/
  vacuum : Image P → Image P
  /-- The file after transactions that make the tables these. -/
  store : Image P → Db K → Image P
  tables_vacuum : ∀ i, tables (vacuum i) = tables i
  tables_store : ∀ i d, tables (store i d) = d

/-- A database file with its log, and the snapshot files beside it. -/
structure Site (K P : Type) where
  /-- The database file and its `-wal` file. -/
  file : File P
  /-- The snapshot files, by path. -/
  snaps : Table Str (Image P)
  /-- The tables that the database had when each of them was made. The program does not keep these.
  -/
  taken : Table Str (Db K)

/-- The tables that a connection sees. -/
def Site.tables (S : Pager K P) (s : Site K P) : Db K := S.tables s.file.view

/-- `VACUUM INTO` wants no file, or an empty one. -/
def Site.inTheWay (s : Site K P) (path : Str) : Bool :=
  match s.snaps.get? path with
  | some i => decide (i.size ≠ 0)
  | none => false

/-- `vm_snapshot_file`. The checkpoint gets as far as the commit `reached`, since a reader may keep
it from the rest, and the outcome is not looked at. `refused` is a `VACUUM INTO` that fails whatever
files there are, such as one inside a transaction; then the main file is copied. -/
def vmSnapshotFile (S : Pager K P) (dbPath name : Str) (reached : ℕ) (refused : Bool)
    (s : Site K P) : Site K P :=
  let path := snapPath dbPath name
  let file := s.file.checkpoint reached
  let snap := if refused || s.inTheWay path then file.main else S.vacuum file.view
  ⟨file, s.snaps.set path snap, s.taken.set path (s.tables S)⟩

/-- `vm_restore_file`; `none` if there is no such snapshot. `opens` says whether `vm_open` succeeds,
after which there are a checkpoint and a `VACUUM`. -/
def vmRestoreFile (S : Pager K P) (E : Ext K) (dbPath name : Str) (opens : Bool) (s : Site K P) :
    Option (Site K P) := do
  let snap ← s.snaps.get? (snapPath dbPath name)
  let s' := { s with file := ⟨snap, s.file.log⟩ }
  if opens then
    let image := S.store s'.file.view (openedTables E (s'.tables S))
    return { s' with file := ⟨S.vacuum image, []⟩ }
  else return s'

/-! ## Histories -/

/-- What happens to the files of a database. -/
inductive Event (P : Type) where
  /-- Connections, checkpoints and crashes leave the file and its log like this. -/
  | live (file : File P)
  /-- A snapshot. -/
  | snapshotFile (name : Str) (reached : ℕ) (refused : Bool)
  /-- A snapshot that fails, or a snapshot file that is lost: what is left there. -/
  | snapshotLost (name : Str) (left : Option (Image P))
  /-- A restore. -/
  | restoreFile (name : Str) (opens : Bool)

/-- The files after an event. A restore without a snapshot changes nothing. -/
def Event.step (S : Pager K P) (E : Ext K) (dbPath : Str) (s : Site K P) : Event P → Site K P
  | .live file => { s with file := file }
  | .snapshotFile name reached refused => vmSnapshotFile S dbPath name reached refused s
  | .snapshotLost name left =>
    let path := snapPath dbPath name
    { s with
      snaps := match left with
        | some i => s.snaps.set path i
        | none => s.snaps.erase path
      taken := s.taken.erase path }
  | .restoreFile name opens => (vmRestoreFile S E dbPath name opens s).getD s

/-- The files after a list of events. -/
def run (S : Pager K P) (E : Ext K) (dbPath : Str) (s : Site K P) (es : List (Event P)) :
    Site K P :=
  es.foldl (Event.step S E dbPath) s

/-- What an event must find. A snapshot that is a copy of the main file is made with all commits in
it; a restore finds no commit in the log. -/
def Event.Calm (dbPath : Str) (s : Site K P) : Event P → Prop
  | .snapshotFile name reached refused =>
    (refused = false ∧ s.inTheWay (snapPath dbPath name) = false) ∨ s.file.log.length ≤ reached
  | .restoreFile _ _ => s.file.log = []
  | _ => True

/-- Every event finds what it must. -/
def CalmRun (S : Pager K P) (E : Ext K) (dbPath : Str) : Site K P → List (Event P) → Prop
  | _, [] => True
  | s, e :: es => e.Calm dbPath s ∧ CalmRun S E dbPath (e.step S E dbPath s) es

/-- A restored database shows what the snapshot was taken of: a connection opened by `vm_open` sees
what it would have seen then, and these are the same tables if no hash was pending. -/
def Shows (S : Pager K P) (E : Ext K) (s : Site K P) (then_ : Db K) : Prop :=
  openedTables E (s.tables S) = openedTables E then_ ∧ (then_.dirty = [] → s.tables S = then_)

section Runs

variable {S : Pager K P} {E : Ext K} {dbPath name : Str} {s s' : Site K P} {es : List (Event P)}
  {e : Event P}
  {opens : Bool} {d : Db K}

/-- Every snapshot file holds the tables it was taken of. -/
def Kept (S : Pager K P) (s : Site K P) : Prop :=
  ∀ path d, s.taken.get? path = some d → ∃ i, s.snaps.get? path = some i ∧ S.tables i = d

omit [DecidableEq K] in
/-- The file that a calm snapshot writes. -/
theorem tables_vmSnapshotFile {reached : ℕ} {refused : Bool}
    (h : (Event.snapshotFile name reached refused : Event P).Calm dbPath s) :
    S.tables (if refused || s.inTheWay (snapPath dbPath name) then (s.file.checkpoint reached).main
      else S.vacuum (s.file.checkpoint reached).view) = s.tables S := by
  unfold Site.tables
  rcases h with ⟨rfl, hway⟩ | hlen
  · rw [hway, Bool.or_self, if_neg (by simp), S.tables_vacuum, File.view_checkpoint]
  · split_ifs
    · rw [File.main_checkpoint hlen]
    · rw [S.tables_vacuum, File.view_checkpoint]

/-- A calm event keeps what the snapshots hold. -/
theorem Kept.step (h : Kept S s) (hcalm : e.Calm dbPath s) : Kept S (e.step S E dbPath s) := by
  intro path d hd
  -- Only a snapshot writes snapshot files, and only at its own name.
  match e with
  | .live file => exact h path d hd
  | .snapshotFile name reached refused =>
    simp only [Event.step, vmSnapshotFile, Table.get?_set] at hd ⊢
    by_cases hpath : path = snapPath dbPath name
    · rw [if_pos hpath] at hd ⊢
      obtain rfl := Option.some.inj hd
      exact ⟨_, rfl, tables_vmSnapshotFile hcalm⟩
    · rw [if_neg hpath] at hd ⊢
      exact h path d hd
  | .snapshotLost name left =>
    simp only [Event.step, Table.get?_erase] at hd ⊢
    split_ifs at hd with hpath
    obtain ⟨i, hi, hid⟩ := h path d hd
    refine ⟨i, ?_, hid⟩
    cases left with
    | none => rw [Table.get?_erase, if_neg hpath, hi]
    | some j => rw [Table.get?_set, if_neg hpath, hi]
  | .restoreFile name opens =>
    have hsame : ((vmRestoreFile S E dbPath name opens s).getD s).snaps = s.snaps ∧
        ((vmRestoreFile S E dbPath name opens s).getD s).taken = s.taken := by
      unfold vmRestoreFile
      cases s.snaps.get? (snapPath dbPath name) <;> cases opens <;> exact ⟨rfl, rfl⟩
    simp only [Event.step, hsame.1, hsame.2] at hd ⊢
    exact h path d hd

/-- By induction on the history, a calm one keeps what the snapshots hold. -/
theorem Kept.run (h : Kept S s) (hcalm : CalmRun S E dbPath s es) :
    Kept S (run S E dbPath s es) := by
  induction es generalizing s with
  | nil => exact h
  | cons e es ih => exact ih (h.step hcalm.1) hcalm.2

/-- A calm run is calm up to every point and from there on. -/
theorem calmRun_append {fs : List (Event P)} :
    CalmRun S E dbPath s (es ++ fs) ↔ CalmRun S E dbPath s es ∧
    CalmRun S E dbPath (run S E dbPath s es) fs := by
  induction es generalizing s with
  | nil => simp [CalmRun, FileRestore.run]
  | cons e es ih =>
    change _ ∧ CalmRun S E dbPath _ (es ++ fs) ↔ (_ ∧ CalmRun S E dbPath _ es) ∧ _
    rw [ih, and_assoc]
    rfl

/-- A restore without commits in the log. -/
theorem vmRestoreFile_shows {i : Image P} (hlog : s.file.log = [])
    (hi : s.snaps.get? (snapPath dbPath name) = some i) :
    ∃ s', vmRestoreFile S E dbPath name opens s = some s' ∧ Shows S E s' (S.tables i) := by
  unfold vmRestoreFile Shows Site.tables
  rw [hi, hlog]
  cases opens with
  | false => exact ⟨_, rfl, rfl, fun _ => rfl⟩
  | true =>
    refine ⟨_, rfl, ?_, ?_⟩
    · change openedTables E (S.tables (S.vacuum (S.store i (openedTables E (S.tables i))))) = _
      rw [S.tables_vacuum, S.tables_store, openedTables_idem]
    · intro hclean
      change S.tables (S.vacuum (S.store i (openedTables E (S.tables i)))) = _
      rw [S.tables_vacuum, S.tables_store, openedTables_of_clean hclean]

end Runs

/-- In every history whose events find what they must, a restore gives back the tables of the last
snapshot of its name. -/
theorem restoreFile_shows_snapshot {K : Type} [DecidableEq K] {P : Type} (S : Pager K P)
    (E : Ext K) (dbPath name : Str) (opens : Bool) (file : File P) (snaps : Table Str (Image P))
    (es : List (Event P)) (d : Db K)
    (hcalm : CalmRun S E dbPath ⟨file, snaps, Table.empty⟩ (es ++ [.restoreFile name opens]))
    (htaken : (run S E dbPath ⟨file, snaps, Table.empty⟩ es).taken.get?
      (snapPath dbPath name) = some d) :
    ∃ s', vmRestoreFile S E dbPath name opens (run S E dbPath ⟨file, snaps, Table.empty⟩ es) = some
      s' ∧
      Shows S E s' d := by
  obtain ⟨hcalm, hlast⟩ := calmRun_append.1 hcalm
  have hinit : Kept S (⟨file, snaps, Table.empty⟩ : Site K P) := fun path d hd => by cases hd
  obtain ⟨i, hi, rfl⟩ := hinit.run hcalm _ d htaken
  exact vmRestoreFile_shows hlast.1 hi

/-- A format in which each table has a page. The first page says how many free pages there are
before them; `VACUUM` leaves none. -/
def pagePerTable : Pager K (ℕ × Db K) where
  tables i :=
    let table := fun n => (i.page ((i.page 0).1 + n)).2
    { fs := (table 1).fs, chunks := (table 2).chunks, blobs := (table 3).blobs,
      dirty := (table 4).dirty,
      dicts := (table 5).dicts, snapshots := (table 6).snapshots, snapFs := (table 7).snapFs,
      snapChunks := (table 8).snapChunks, undo := (table 9).undo, undoFs := (table 10).undoFs,
      undoChunks := (table 11).undoChunks, counters := (table 12).counters, policies :=
      (table 13).policies,
      bypass := (table 14).bypass }
  vacuum i := ⟨15, fun n => (0, (i.page ((i.page 0).1 + n)).2)⟩
  store i d := ⟨(i.page 0).1 + 15, fun _ => ((i.page 0).1, d)⟩
  tables_vacuum i := by simp
  tables_store _ _ := rfl

/-- A fresh database, with two free pages. -/
def freshFile : File (ℕ × Db Bytes) := ⟨⟨17, fun _ => (2, initDb 0)⟩, []⟩

/-- The database after `VACUUM`. -/
def vacuumedFile : File (ℕ × Db Bytes) := ⟨pagePerTable.vacuum freshFile.view, []⟩

/-- The table of paths after `mkdir /a`, committed to the log when the process crashed. -/
def crashedFile : File (ℕ × Db Bytes) :=
  { vacuumedFile with log := [⟨[(1, (0, (initDb 0).addFs "/a".toList (dirRow 493 0)))], 15⟩] }

/-- A snapshot that is restored once the log has been checkpointed. -/
theorem restoreFile_shows_fresh :
    CalmRun pagePerTable plainExt "v.db".toList ⟨freshFile, Table.empty, Table.empty⟩
      ([.live vacuumedFile, .snapshotFile "s".toList 0 false, .live (crashedFile.checkpoint 1)] ++
        [.restoreFile "s".toList true]) ∧
    ∃ s', vmRestoreFile pagePerTable plainExt "v.db".toList "s".toList true
      (run pagePerTable plainExt "v.db".toList ⟨freshFile, Table.empty, Table.empty⟩
        [.live vacuumedFile, .snapshotFile "s".toList 0 false, .live (crashedFile.checkpoint 1)]) =
        some s' ∧
      Shows pagePerTable plainExt s' (initDb 0) := by
  have hcalm : CalmRun pagePerTable plainExt "v.db".toList ⟨freshFile, Table.empty, Table.empty⟩
      ([.live vacuumedFile, .snapshotFile "s".toList 0 false, .live (crashedFile.checkpoint 1)] ++
        [.restoreFile "s".toList true]) :=
    ⟨trivial, Or.inr (le_refl 0), trivial, rfl, trivial⟩
  exact ⟨hcalm, restoreFile_shows_snapshot pagePerTable plainExt "v.db".toList "s".toList
    true freshFile
    Table.empty _ _ hcalm rfl⟩

/-- A log that a crash has left is applied over the snapshot: the restored database has the
directory that was made after the snapshot. The pages of the snapshot are those of the database,
since that had been packed by a `VACUUM` before; otherwise the file that results is no database. -/
theorem not_restoreFile_shows_crashed : ∃ s',
    vmRestoreFile pagePerTable plainExt "v.db".toList "s".toList true
      (run pagePerTable plainExt "v.db".toList ⟨freshFile, Table.empty, Table.empty⟩
        [.live vacuumedFile, .snapshotFile "s".toList 0 false, .live crashedFile]) = some s' ∧
    (run pagePerTable plainExt "v.db".toList ⟨freshFile, Table.empty, Table.empty⟩
        [.live vacuumedFile, .snapshotFile "s".toList 0 false, .live crashedFile]).taken.get?
          (snapPath "v.db".toList "s".toList) = some (initDb 0) ∧
      ¬ Shows pagePerTable plainExt s' (initDb 0) := by
  refine ⟨_, rfl, rfl, fun h => ?_⟩
  have hfs := congrArg (fun d : Db Bytes => (d.fs.get? "/a".toList).isSome) (h.2 rfl)
  exact absurd hfs (by decide +kernel)

end FileRestore

end Dbvm
