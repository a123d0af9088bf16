import Dbvm.Agent
import Dbvm.Effects

/-!
# The snapshots that steps record

A step records the names of the snapshots before and after it. A name is made up from a prefix and
the id of the row, one more than the highest id there is, and it shares the column with the names
that users choose. In every history in which no user takes a name of that form and the newest
snapshot is never deleted, a snapshot is always taken when a step asks for one, and a recorded name
leads to the tree of its step or to nothing (`restorePoints_of_mild`).
-/

namespace Dbvm

open Lib Lib.Prog Lib.Posix

variable {K : Type} [DecidableEq K]

/-! ## Histories -/

/-- What happens to a database in a history of steps and snapshots. -/
inductive SnapCmd where
  /-- `run_step` or `run_agent`. -/
  | run (run : Run)
  /-- `snapshot_create`, under a name the user chooses. -/
  | create (name : Str)
  /-- `snapshot_create_named`. -/
  | createNamed (pfx placeholder : Str)
  /-- `snapshot_delete`. -/
  | delete (name : Str)
  /-- `snapshot_retain`. -/
  | retain (keep : ℕ)

/-- One command, whether it returns or fails. -/
def SnapCmd.exec (E : Ext K) (text : Err → Str) : SnapCmd → Agent K → Agent K
  | .run job => endState (runSandboxed E text job)
  | .create name => endState (onLink (Tx.lift (snapshotCreate E name)))
  | .createNamed pfx placeholder =>
      endState (onLink (Tx.lift (snapshotCreateNamed E pfx placeholder)))
  | .delete name => endState (onLink (Tx.lift (snapshotDelete name)))
  | .retain keep => endState (onLink (Tx.lift (snapshotRetain keep)))

/-- The state after a history. -/
def Agent.after (E : Ext K) (text : Err → Str) (s : Agent K) (cmds : List SnapCmd) : Agent K :=
  cmds.foldl (fun s c => c.exec E text s) s

/-- A row without its hash. -/
def FsMeta.unhashed (m : FsMeta K) : FsMeta K := { m with hash := .null }

/-- The snapshot `id` holds the tree of the database `t`. A pending hash is computed before a
snapshot. -/
structure Db.HoldsTree (db : Db K) (id : ℕ) (t : Db K) : Prop where
  /-- The rows. -/
  rows : ∀ p, (db.snapFs.get? (id, p)).map FsMeta.unhashed = (t.fs.get? p).map fun r =>
    r.toFsMeta.unhashed
  /-- The chunks. -/
  chunks : ∀ p i, db.snapChunks.get? (id, p, i) = t.chunks.get? (p, i)

/-- A command calls `snapshot_create_named` on a database. -/
inductive SnapCmd.Calls (E : Ext K) (s : Agent K) : SnapCmd → Str → Str → Db K → Prop where
  /-- The command is the call. -/
  | named (pfx placeholder : Str) : Calls E s (.createNamed pfx placeholder) pfx placeholder
      s.link.cur
  /-- The snapshot before a run. -/
  | before (run : Run) :
      Calls E s (.run run) run.runner.beforePrefix run.placeholders.1
      (endState (finalizeDirty E) s.link.cur)
  /-- The snapshot after a run. -/
  | after (run : Run) {before : ℕ × Str} {s₁ s₂ s₃ : Agent K} {rep : SyncReport}
      {changes : SnapDiff}
      (hprep : (vmOpen E >>= fun _ => prepare E run) s = .ok before s₁)
      (hsync : onLink (run.sync E) s₁ = .ok rep s₂)
      (hdiff : onLink (Tx.lift (snapshotDiffLive E before.2)) s₂ = .ok changes s₃) :
      Calls E s (.run run) run.runner.afterPrefix run.placeholders.2 s₃.link.cur

/-- What recorded restore points mean in a history. -/
structure RestorePoints (E : Ext K) (text : Err → Str) (s₀ : Agent K) (cmds : List SnapCmd) :
    Prop where
  /-- A named snapshot is taken, unless the pending hashes cannot be computed. -/
  taken : ∀ done c rest, cmds = done ++ c :: rest → ∀ pfx placeholder d d' n,
    c.Calls E (s₀.after E text done) pfx placeholder d → finalizeDirty E d = .ok n d' →
    ∃ r d'', snapshotCreateNamed E pfx placeholder d = .ok r d''
  /-- The name before a step leads to the tree before it. -/
  before : ∀ done run later rest row, cmds = done ++ .run run :: (later ++ rest) →
    ((s₀.after E text done).after E text [.run run]).steps = (s₀.after E text done).steps ++ [row] →
    ∀ id, ((s₀.after E text done).after E text (.run run :: later)).link.cur.snapshotId
    row.before = .ok id →
    ((s₀.after E text done).after E text (.run run :: later)).link.cur.HoldsTree id
      (s₀.after E text done).link.cur
  /-- The name after a step leads to the tree after it. -/
  after : ∀ done run later rest row name, cmds = done ++ .run run :: (later ++ rest) →
    ((s₀.after E text done).after E text [.run run]).steps = (s₀.after E text done).steps ++ [row] →
    row.after = some name →
    ∀ id, ((s₀.after E text done).after E text (.run run :: later)).link.cur.snapshotId
    name = .ok id →
    ((s₀.after E text done).after E text (.run run :: later)).link.cur.HoldsTree id
      ((s₀.after E text done).after E text [.run run]).link.cur

/-- The name of a snapshot with a prefix. -/
def snapName (pfx : Str) (id : ℕ) : Str := pfx ++ '-' :: Nat.toDigits 10 id

/-- A placeholder: a name nobody else takes. -/
def Unused (P : Str → Prop) (db : Db K) (placeholder : Str) : Prop :=
  (∀ r ∈ db.snapshots.rows, r.2 ≠ placeholder) ∧ ∀ pfx, P pfx → ∀ n, placeholder ≠ snapName pfx n

/-- What a command must not do, with `P` for the prefixes in use: a user takes no name of a prefix
and a number, and the newest snapshot is not deleted. -/
def SnapCmd.Mild (P : Str → Prop) (s : Agent K) : SnapCmd → Prop
  | .run job => P job.runner.beforePrefix ∧ P job.runner.afterPrefix ∧
      Unused P s.link.cur job.placeholders.1 ∧ Unused P s.link.cur job.placeholders.2
  | .create name => ∀ pfx, P pfx → ∀ n, name ≠ snapName pfx n
  | .createNamed pfx placeholder => P pfx ∧ Unused P s.link.cur placeholder
  | .delete name => ∀ id, s.link.cur.snapshotId name = .ok id → id + 1 ≠ nextId s.link.cur.snapshots
  | .retain keep => 0 < keep

/-! ## Ids and names -/

/-- A name tells its prefix and its id. -/
theorem snapName_inj {pfx pfx' : Str} {n n' : ℕ} (h : snapName pfx n = snapName pfx' n') :
    pfx = pfx' ∧ n = n' := numbered_inj h

/-- The next id follows a row, unless there is none. -/
theorem nextId_cases {ρ : Type} (t : Table ℕ ρ) :
    (t.rows = [] ∧ nextId t = 1) ∨ ∃ i, t.has i = true ∧ nextId t = i + 1 := by
  have hfold : ∀ (l : List ℕ) (a : ℕ), l.foldl max a ∈ a :: l := by
    intro l
    induction l with
    | nil => exact fun a => List.mem_cons_self
    | cons b l ih =>
      intro a
      rw [List.foldl_cons]
      rcases List.mem_cons.1 (ih (max a b)) with h | h
      · rw [h]
        rcases max_choice a b with hm | hm
        · rw [hm]
          exact List.mem_cons_self
        · rw [hm]
          exact List.mem_cons_of_mem a List.mem_cons_self
      · exact List.mem_cons_of_mem a (List.mem_cons_of_mem b h)
  rcases hrows : t.rows with _ | ⟨r, rows⟩
  · exact Or.inl ⟨rfl, by rw [nextId, hrows]; rfl⟩
  · have hmem : (t.rows.map Prod.fst).foldl max 0 ∈ t.rows.map Prod.fst := by
      rw [hrows, List.map_cons, List.foldl_cons, Nat.zero_max]
      exact hfold _ _
    obtain ⟨r', hr'⟩ := Table.mem_keys_iff.1 hmem
    exact Or.inr ⟨_, Table.has_eq_true.2 ⟨r', hr'⟩, rfl⟩

/-- A new row takes the next id up. -/
theorem nextId_insertIgnore {ρ : Type} (t : Table ℕ ρ) (r : ρ) :
    nextId t < nextId (t.insertIgnore (nextId t) r) := by
  refine lt_nextId (Table.has_eq_true.2 ⟨r, ?_⟩)
  rw [Table.get?_insertIgnore, if_pos rfl, get?_nextId, Option.getD_none]

/-- The next id stays while the newest row does. -/
theorem nextId_deleteWhere {ρ : Type} {t : Table ℕ ρ} {id : ℕ} (h : id + 1 ≠ nextId t) :
    nextId t ≤ nextId (t.deleteWhere fun i _ => i = id) := by
  rcases nextId_cases t with ⟨-, hone⟩ | ⟨i, hi, hnext⟩
  · rw [hone]
    unfold nextId
    omega
  · have hne : i ≠ id := fun he => h (by rw [hnext, he])
    have hstays : (t.deleteWhere fun i _ => i = id).has i = true := by
      obtain ⟨r, hr⟩ := Table.has_eq_true.1 hi
      refine Table.has_eq_true.2 ⟨r, ?_⟩
      rw [Table.get?_deleteWhere_key, if_neg (by simpa using hne), hr]
    have hlt := lt_nextId hstays
    omega

/-! ## What a command does to the snapshots -/

section Moves

variable {P : Str → Prop} {db db' t : Db K} {n : ℕ}

/-- One step on the snapshots that is allowed. -/
inductive SnapMove (P : Str → Prop) : Db K → Db K → Prop where
  /-- The snapshots are as they were. -/
  | same {db db' : Db K} (h : SameSnaps db db') : SnapMove P db db'
  /-- A snapshot is taken under a name that is new and does not end in the id of another row. -/
  | take {db db' : Db K} {u : Unit} (name : Str) (hnew : ∀ r ∈ db.snapshots.rows, r.2 ≠ name)
      (hname : ∀ pfx, P pfx → ∀ n, name = snapName pfx n → n = nextId db.snapshots)
      (h : copyTree (nextId db.snapshots)
        { db with snapshots := db.snapshots.insertIgnore (nextId db.snapshots) name } = .ok u db') :
      SnapMove P db db'
  /-- A snapshot that is not the newest is deleted. -/
  | drop {db db' : Db K} {u : Unit} {id : ℕ} (hold : id + 1 ≠ nextId db.snapshots)
      (h : deleteSnapshot id db = .ok u db') : SnapMove P db db'

/-- Steps on the snapshots. -/
abbrev SnapMoves (P : Str → Prop) : Db K → Db K → Prop := Relation.ReflTransGen (SnapMove P)

/-- What holds of the snapshots throughout. -/
structure SnapsTidy (P : Str → Prop) (db : Db K) : Prop where
  /-- Rows and chunks belong to snapshots. -/
  owned : db.SnapsOwned
  /-- The names are unique. -/
  nodup : (db.snapshots.rows.map Prod.snd).Nodup
  /-- A name of a prefix and a number has the id of its row. -/
  named : ∀ id name, db.snapshots.get? id = some name → ∀ pfx, P pfx → ∀ n, name = snapName pfx n →
    n = id

/-- The snapshot `n` holds the tree `t` or is deleted for good. -/
def Safe (n : ℕ) (t db : Db K) : Prop :=
  n < nextId db.snapshots ∧ (db.snapshots.has n = true → db.HoldsTree n t)

/-- Copies are made under the id of the snapshot only. -/
theorem copyTree_frame {id : ℕ} {u : Unit} (h : copyTree id db = .ok u db') :
    db'.snapshots = db.snapshots ∧
      (∀ m p, m ≠ id → db'.snapFs.get? (m, p) = db.snapFs.get? (m, p)) ∧
      ∀ m c, m ≠ id → db'.snapChunks.get? (m, c) = db.snapChunks.get? (m, c) := by
  obtain ⟨_, d₁, hfs, hch⟩ := bind_eq_ok.1 h
  rw [copySnapFs, statement_eq_ok] at hfs
  rw [copySnapChunks, statement_eq_ok] at hch
  -- Each statement inserts below `id` only, so every other snapshot keeps what it has.
  have hfs' := foldlM_inv (f := Db.insertSnapFs? id)
    (I := fun d : Db K => d.snapshots = db.snapshots ∧ d.snapChunks = db.snapChunks ∧
      ∀ m p, m ≠ id → d.snapFs.get? (m, p) = db.snapFs.get? (m, p)) (by
      rintro r - d d' ⟨hsn, hck, hrows⟩ hstep
      unfold Db.insertSnapFs? at hstep
      split_ifs at hstep
      cases hstep
      refine ⟨hsn, hck, fun m p hm => ?_⟩
      refine (Table.get?_insertIgnore _ _ _ _).trans ?_
      rw [if_neg fun he => hm (congrArg Prod.fst he), hrows m p hm]) ⟨rfl, rfl,
        fun _ _ _ => rfl⟩ hfs
  obtain ⟨hsn₁, hck₁, hrows₁⟩ := hfs'
  have hch' := foldlM_inv (f := Db.insertSnapChunk? id)
    (I := fun d : Db K => d.snapshots = d₁.snapshots ∧ d.snapFs = d₁.snapFs ∧
      ∀ m c, m ≠ id → d.snapChunks.get? (m, c) = d₁.snapChunks.get? (m, c)) (by
      rintro r - d d' ⟨hsn, hfs, hrows⟩ hstep
      unfold Db.insertSnapChunk? at hstep
      split_ifs at hstep
      cases hstep
      refine ⟨hsn, hfs, fun m c hm => ?_⟩
      refine (Table.get?_insertIgnore _ _ _ _).trans ?_
      rw [if_neg fun he => hm (congrArg Prod.fst he), hrows m c hm]) ⟨rfl, rfl,
        fun _ _ _ => rfl⟩ hch
  obtain ⟨hsn₂, hfs₂, hrows₂⟩ := hch'
  refine ⟨hsn₂.trans hsn₁, fun m p hm => ?_, fun m c hm => ?_⟩
  · rw [hfs₂, hrows₁ m p hm]
  · rw [hrows₂ m c hm, hck₁]

/-- What the deletion of a snapshot leaves. -/
theorem deleteSnapshot_ok {id : ℕ} {u : Unit} (h : deleteSnapshot id db = .ok u db') :
    SameSnaps db db' ∨ (db'.snapshots = db.snapshots.deleteWhere (fun i _ => i = id) ∧
      db'.snapFs = db.snapFs.deleteWhere (fun c _ => c.1 = id) ∧
      db'.snapChunks = db.snapChunks.deleteWhere fun c _ => c.1 = id) := by
  rw [deleteSnapshot, statement_eq_ok] at h
  split_ifs at h
  · cases h
    exact Or.inr ⟨rfl, rfl, rfl⟩
  · cases h
    exact Or.inl ⟨rfl, rfl, rfl⟩

/-- A step that is allowed leaves a snapshot as it is or deletes it for good. -/
theorem SnapMove.safe (h : SnapMove P db db') (hsafe : Safe n t db) : Safe n t db' := by
  obtain ⟨hlt, hholds⟩ := hsafe
  cases h with
  | same hsame =>
    obtain ⟨hsn, hfs, hck⟩ := hsame
    unfold Safe
    rw [hsn]
    refine ⟨hlt, fun hhas => ?_⟩
    obtain ⟨hrows, hchunks⟩ := hholds hhas
    exact ⟨fun p => by rw [hfs]; exact hrows p, fun p i => by rw [hck]; exact hchunks p i⟩
  | take name hnew hname hcopy =>
    obtain ⟨hsn, hfs, hck⟩ := copyTree_frame hcopy
    have hne : n ≠ nextId db.snapshots := by omega
    unfold Safe
    rw [hsn]
    refine ⟨hlt.trans (nextId_insertIgnore _ _), fun hhas => ?_⟩
    -- The snapshot was there before.
    have hthere : db.snapshots.has n = true := by
      obtain ⟨r, hr⟩ := Table.has_eq_true.1 hhas
      refine Table.has_eq_true.2 ⟨r, ?_⟩
      rw [← hr]
      exact ((Table.get?_insertIgnore _ _ _ _).trans (if_neg hne)).symm
    obtain ⟨hrows, hchunks⟩ := hholds hthere
    exact ⟨fun p => by rw [hfs n p hne]; exact hrows p, fun p i => by
      rw [hck n _ hne]; exact hchunks p i⟩
  | @drop _ id hold hdel =>
    rcases deleteSnapshot_ok hdel with ⟨hsn, hfs, hck⟩ | ⟨hsn, hfs, hck⟩
    · unfold Safe
      rw [hsn]
      refine ⟨hlt, fun hhas => ?_⟩
      obtain ⟨hrows, hchunks⟩ := hholds hhas
      exact ⟨fun p => by rw [hfs]; exact hrows p, fun p i => by rw [hck]; exact hchunks p i⟩
    · unfold Safe
      rw [hsn]
      refine ⟨lt_of_lt_of_le hlt (nextId_deleteWhere hold), fun hhas => ?_⟩
      obtain ⟨r, hr⟩ := Table.has_eq_true.1 hhas
      rw [Table.get?_deleteWhere_key] at hr
      split_ifs at hr with hne
      obtain ⟨hrows, hchunks⟩ := hholds (Table.has_eq_true.2 ⟨r, hr⟩)
      have hn : ¬ decide (n = id) = true := hne
      constructor
      · intro p
        rw [hfs, Table.get?_deleteWhere_key _ fun c : ℕ × Str => decide (c.1 = id), if_neg hn]
        exact hrows p
      · intro p i
        rw [hck, Table.get?_deleteWhere_key _ fun c : ℕ × Str × ℕ => decide (c.1 = id), if_neg hn]
        exact hchunks p i

omit [DecidableEq K] in
/-- What leaves the snapshots alone keeps them tidy. -/
theorem SnapsTidy.same (h : SnapsTidy P db) (hsame : SameSnaps db db') : SnapsTidy P db' := by
  obtain ⟨hsn, hfs, hck⟩ := hsame
  refine ⟨⟨fun id p hid => ?_,
    fun id p i hid => ?_⟩, by rw [hsn]; exact h.nodup, fun id name hid => ?_⟩
  · rw [hfs]
    exact h.owned.rows id p (hsn ▸ hid)
  · rw [hck]
    exact h.owned.chunks id p i (hsn ▸ hid)
  · exact h.named id name (hsn ▸ hid)

/-- A step that is allowed keeps the snapshots tidy. -/
theorem SnapMove.tidy (h : SnapMove P db db') (htidy : SnapsTidy P db) : SnapsTidy P db' := by
  -- A new snapshot takes the next number, so its name is its own; a deleted one takes its rows
  -- along.
  cases h with
  | same hsame => exact htidy.same hsame
  | take name hnew hname hcopy =>
    obtain ⟨hsn, hfs, hck⟩ := copyTree_frame hcopy
    have hget : ∀ id, db'.snapshots.get? id =
        if id = nextId db.snapshots then some name else db.snapshots.get? id := by
      intro id
      rw [hsn]
      refine (Table.get?_insertIgnore _ _ _ _).trans ?_
      rw [get?_nextId, Option.getD_none]
    refine ⟨⟨fun id p hid => ?_, fun id p i hid => ?_⟩, ?_, fun id name' hid => ?_⟩
    · rw [hget] at hid
      split_ifs at hid with hne
      rw [hfs id p hne]
      exact htidy.owned.rows id p hid
    · rw [hget] at hid
      split_ifs at hid with hne
      rw [hck id _ hne]
      exact htidy.owned.chunks id p i hid
    · have hrows : db'.snapshots.rows = db.snapshots.rows ++ [(nextId db.snapshots, name)] := by
        rw [hsn]
        exact Table.rows_insertIgnore (get?_nextId _)
      rw [hrows, List.map_append, List.map_singleton, List.nodup_append]
      refine ⟨htidy.nodup, List.nodup_singleton _, fun a ha b hb hab => ?_⟩
      obtain ⟨r, hr, rfl⟩ := List.mem_map.1 ha
      exact hnew r hr (hab.trans (List.mem_singleton.1 hb))
    · rw [hget] at hid
      split_ifs at hid with heq
      · cases hid
        rw [heq]
        exact hname
      · exact htidy.named id name' hid
  | @drop _ id hold hdel =>
    rcases deleteSnapshot_ok hdel with hsame | ⟨hsn, hfs, hck⟩
    · exact htidy.same hsame
    · refine ⟨⟨fun m p hm => ?_, fun m p i hm => ?_⟩, ?_, fun m name hm => ?_⟩
      · rw [hfs, Table.get?_deleteWhere_key _ fun c : ℕ × Str => decide (c.1 = id)]
        rw [hsn, Table.get?_deleteWhere_key] at hm
        split_ifs with hne
        · rfl
        · rw [if_neg hne] at hm
          exact htidy.owned.rows m p hm
      · rw [hck, Table.get?_deleteWhere_key _ fun c : ℕ × Str × ℕ => decide (c.1 = id)]
        rw [hsn, Table.get?_deleteWhere_key] at hm
        split_ifs with hne
        · rfl
        · rw [if_neg hne] at hm
          exact htidy.owned.chunks m p i hm
      · have hsub : db'.snapshots.rows.Sublist db.snapshots.rows := by
          rw [hsn]
          exact List.filter_sublist
        exact htidy.nodup.sublist (hsub.map Prod.snd)
      · rw [hsn, Table.get?_deleteWhere_key] at hm
        split_ifs at hm
        exact htidy.named m name hm

/-- Any number of allowed steps leave a snapshot as it is or delete it for good. -/
theorem SnapMoves.safe (h : SnapMoves P db db') (hsafe : Safe n t db) : Safe n t db' := by
  induction h with
  | refl => exact hsafe
  | tail _ hstep ih => exact hstep.safe ih

/-- Any number of allowed steps keep the snapshots tidy. -/
theorem SnapMoves.tidy (h : SnapMoves P db db') (htidy : SnapsTidy P db) : SnapsTidy P db' := by
  induction h with
  | refl => exact htidy
  | tail _ hstep ih => exact hstep.tidy ih

omit [DecidableEq K] in
/-- A safe name leads to its tree. -/
theorem Safe.snapshotId {pfx : Str} {id : ℕ} (hsafe : Safe n t db) (htidy : SnapsTidy P db)
    (hpfx : P pfx) (h : db.snapshotId (snapName pfx n) = .ok id) : db.HoldsTree id t := by
  unfold Db.snapshotId at h
  split at h
  · next r hfind =>
    cases h
    have hmem := List.mem_of_find?_eq_some hfind
    have hname : r.2 = snapName pfx n := by simpa using List.find?_some hfind
    have hget : db.snapshots.get? r.1 = some r.2 := Table.get?_eq_some_iff.2 hmem
    have hid := htidy.named r.1 r.2 hget pfx hpfx n hname
    rw [← hid]
    exact hsafe.2 (Table.has_eq_true.2 ⟨r.2, by rw [hid]; exact hget⟩)
  · cases h

end Moves

/-! ## The calls on a database -/

section Calls

variable {P : Str → Prop} {E : Ext K} {db db' db₀ : Db K}

/-- A program that neither takes nor deletes a snapshot leaves them all. -/
theorem sameSnaps_of_effects (h : Db.Effects (fun _ => False) db db') : SameSnaps db db' := by
  refine h.keeps (fun d d' _ hsnap hd => ?_) ⟨rfl, rfl, rfl⟩
  cases hsnap with
  | same hsame => exact hd.trans hsame
  | take hT _ => exact hT.elim
  | checkpoint _ hT => exact hT.elim
  | drop hT _ => exact hT.elim

/-- A run of effects outside of the snapshots is a run of steps that are allowed. -/
theorem keeps_moves_of_effects {α : Type} {x : Sql K α}
    (hx : ∀ db, Keeps (Db.Effects (fun _ => False) db) x) :
    Keeps (SnapMoves P db₀) x := fun db h =>
  h.tail (.same (sameSnaps_of_effects (hx db db Relation.ReflTransGen.refl)))

/-- `finalize_dirty` takes steps that are allowed. -/
theorem keeps_moves_finalizeDirty (E : Ext K) : Keeps (SnapMoves P db₀) (finalizeDirty E) :=
  keeps_moves_of_effects fun _ => effects_finalizeDirty E

/-- A snapshot whose name is not of the generated kind is an allowed step. -/
theorem keeps_moves_snapshotCreate {name : Str}
    (hname : ∀ pfx, P pfx → ∀ n, name ≠ snapName pfx n) :
    Keeps (SnapMoves P db₀) (snapshotCreate E name) := by
  refine Keeps.bind (keeps_moves_finalizeDirty E) fun _ => Keeps.inSavepoint fun db _ db' h hx => ?_
  obtain ⟨id, d₁, hins, hx⟩ := bind_eq_ok.1 hx
  obtain ⟨_, d₂, hcopy, hx⟩ := bind_eq_ok.1 hx
  cases hx
  obtain ⟨rfl, hnew, rfl⟩ := insertSnapshot_ok hins
  exact h.tail (.take name hnew (fun pfx hpfx n he => absurd he (hname pfx hpfx n)) hcopy)

/-- A snapshot with a generated name bears its own number. -/
theorem keeps_moves_snapshotCreateNamed (pfx placeholder : Str) :
    Keeps (SnapMoves P db₀) (snapshotCreateNamed E pfx placeholder) := by
  refine Keeps.bind (keeps_moves_finalizeDirty E) fun _ => Keeps.inSavepoint fun db r db' h hx => ?_
  obtain ⟨rfl, hnew, hcopy⟩ := snapshot_named_ok hx
  exact h.tail (.take _ hnew (fun pfx' _ n he => (snapName_inj he).2.symm) hcopy)

/-- The deletion of a snapshot that is not the newest. -/
theorem moves_snapshotDelete {name : Str}
    (hold : ∀ id, db.snapshotId name = .ok id → id + 1 ≠ nextId db.snapshots) :
    SnapMoves P db (endState (snapshotDelete name) db) := by
  unfold snapshotDelete
  refine endState_query_bind Relation.ReflTransGen.refl fun id hid => ?_
  exact endState_savepoint (fun _ => Relation.ReflTransGen.refl) fun _ d' hx =>
    Relation.ReflTransGen.single (.drop (hold id hid) hx)

omit [DecidableEq K] in
/-- The number found for a name is that of a snapshot of the name. -/
theorem snapshotId_ok {name : Str} {id : ℕ} (h : db.snapshotId name = .ok id) :
    db.snapshots.get? id = some name := by
  unfold Db.snapshotId at h
  split at h
  · next r hfind =>
    cases h
    have hname : r.2 = name := by simpa using List.find?_some hfind
    rw [← hname]
    exact Table.get?_eq_some_iff.2 (List.mem_of_find?_eq_some hfind)
  · cases h

/-- The snapshots after moves that have spared the newest one. -/
def Spared (P : Str → Prop) (db₀ : Db K) (i : ℕ) (newest : Str) (d : Db K) : Prop :=
  SnapMoves P db₀ d ∧ d.snapshots.get? i = some newest ∧ nextId d.snapshots = i + 1

/-- Deletions that spare the newest snapshot are allowed steps. -/
theorem moves_forM_snapshotDelete {i : ℕ} {newest : Str} : ∀ (names : List Str), newest ∉ names →
    Keeps (Spared P db₀ i newest) (names.forM snapshotDelete)
  | [], _ => Keeps.pure _
  | name :: names, hnot => by
    change Keeps _ (snapshotDelete name >>= fun _ => names.forM snapshotDelete)
    refine Keeps.bind (fun d hd => ?_) fun _ =>
      moves_forM_snapshotDelete names fun h => hnot (List.mem_cons_of_mem name h)
    have ⟨hmoves, hget, hnext⟩ := hd
    unfold snapshotDelete
    refine endState_query_bind hd fun id hid => ?_
    refine endState_savepoint (fun _ => hd) fun _ d' hx => ?_
    have hne : i ≠ id := by
      intro he
      have hname := snapshotId_ok hid
      rw [← he, hget] at hname
      exact hnot (by rw [Option.some.inj hname]; exact List.mem_cons_self)
    have hold : id + 1 ≠ nextId d.snapshots := by omega
    refine ⟨hmoves.tail (.drop hold hx), ?_⟩
    rcases deleteSnapshot_ok hx with ⟨hsn, -, -⟩ | ⟨hsn, -, -⟩
    · rw [hsn]
      exact ⟨hget, hnext⟩
    · have hget' : d'.snapshots.get? i = some newest := by
        rw [hsn, Table.get?_deleteWhere_key, if_neg (by simpa using hne), hget]
      refine ⟨hget', le_antisymm ?_ (lt_nextId (Table.has_eq_true.2 ⟨newest, hget'⟩))⟩
      -- The rows that are left were there before.
      rcases nextId_cases d'.snapshots with ⟨-, hone⟩ | ⟨j, hj, hj'⟩
      · omega
      · obtain ⟨r, hr⟩ := Table.has_eq_true.1 hj
        rw [hsn, Table.get?_deleteWhere_key] at hr
        split_ifs at hr
        have hlt := lt_nextId (Table.has_eq_true.2 ⟨r, hr⟩)
        omega

/-- `snapshot_retain` spares the newest snapshot. -/
theorem moves_snapshotRetain {keep : ℕ} (hkeep : 0 < keep) (htidy : SnapsTidy P db) :
    SnapMoves P db (endState (snapshotRetain keep) db) := by
  set rows := db.snapshots.rows.insertionSort fun a b => a.1 ≤ b.1 with hrows
  set k := (rows.map Prod.snd).length - keep with hk
  have hperm : rows.Perm db.snapshots.rows := List.perm_insertionSort _ _
  have hend : endState (snapshotRetain keep) db =
      endState (((rows.map Prod.snd).take k).forM snapshotDelete) db := by
    unfold snapshotRetain endState
    rw [reads_bind]
    rcases hx : ((rows.map Prod.snd).take k).forM (snapshotDelete (K := K)) db with ⟨u, d⟩ | ⟨e, d⟩
    · rw [bind_of_ok hx]
      rfl
    · rw [bind_of_error hx]
  rw [hend]
  rcases nextId_cases db.snapshots with ⟨hnil, -⟩ | ⟨i, hi, hnext⟩
  · have hempty : rows = [] := by rw [hrows, hnil]; rfl
    rw [hempty, List.map_nil, List.take_nil]
    exact Relation.ReflTransGen.refl
  · obtain ⟨newest, hget⟩ := Table.has_eq_true.1 hi
    refine (moves_forM_snapshotDelete (P := P) _ ?_ db ⟨Relation.ReflTransGen.refl, hget, hnext⟩).1
    intro hmem
    rw [← List.map_take] at hmem
    obtain ⟨r, hr, hname⟩ := List.mem_map.1 hmem
    -- One row has the name of the newest one, and it is not the last.
    have hmem' : ∀ r ∈ rows, db.snapshots.get? r.1 = some r.2 := fun r hr =>
      Table.get?_eq_some_iff.2 (hperm.subset hr)
    have hlt : k < rows.length := by
      have hpos : 0 < rows.length := List.length_pos_of_mem (List.mem_of_mem_take hr)
      rw [hk, List.length_map]
      omega
    obtain ⟨last, hlast⟩ : ∃ last, last ∈ rows.drop k := by
      refine List.exists_mem_of_length_pos ?_
      rw [List.length_drop]
      omega
    have hsorted : rows.Pairwise fun a b => a.1 ≤ b.1 :=
      List.pairwise_insertionSort (fun a b : ℕ × Str => a.1 ≤ b.1) _
    have hdistinct : rows.Pairwise fun a b => a.2 ≠ b.2 :=
      List.pairwise_map.1 ((hperm.map Prod.snd).nodup_iff.2 htidy.nodup)
    rw [← List.take_append_drop k rows] at hsorted hdistinct
    have hle : r.1 ≤ last.1 := (List.pairwise_append.1 hsorted).2.2 r hr last hlast
    have hne : r.2 ≠ last.2 := (List.pairwise_append.1 hdistinct).2.2 r hr last hlast
    have hlast' := hmem' last (List.mem_of_mem_drop hlast)
    have hlast_lt := lt_nextId (Table.has_eq_true.2 ⟨_, hlast'⟩)
    -- The newest row has this name too.
    have hri : r.1 = i := by
      have hsame : r = (i, newest) := List.inj_on_of_nodup_map htidy.nodup
        (hperm.subset (List.mem_of_mem_take hr)) (Table.get?_eq_some_iff.1 hget) hname
      rw [hsame]
    have heq : last.1 = i := by omega
    rw [heq, hget] at hlast'
    exact hne (hname.trans (Option.some.inj hlast'))

omit [DecidableEq K] in
/-- Rows under free keys are copied. -/
theorem exists_foldlM_copies {κ ρ ρ' : Type} {id : ℕ} {T : Db K → Table (ℕ × κ) ρ'} [DecidableEq κ]
    (ins : Db K → κ × ρ → Except Err (Db K))
    (hins : ∀ d r, (T d).get? (id, r.1) = none →
      ∃ d', ins d r = .ok d' ∧ ∀ k, k ≠ r.1 → (T d').get? (id, k) = (T d).get? (id, k)) :
    ∀ (rows : List (κ × ρ)) (d : Db K), (rows.map Prod.fst).Nodup →
      (∀ r ∈ rows, (T d).get? (id, r.1) = none) → ∃ d', rows.foldlM ins d = .ok d'
  | [], d, _, _ => ⟨d, rfl⟩
  | r :: rows, d, hnd, hfree => by
    obtain ⟨d₁, hstep, hframe⟩ := hins d r (hfree r List.mem_cons_self)
    rw [List.map_cons, List.nodup_cons] at hnd
    obtain ⟨d', hrest⟩ := exists_foldlM_copies ins hins rows d₁ hnd.2 fun r' hr' => by
      have hne : r'.1 ≠ r.1 := fun he => hnd.1 (he ▸ List.mem_map_of_mem (f := Prod.fst) hr')
      rw [hframe r'.1 hne]
      exact hfree r' (List.mem_cons_of_mem r hr')
    refine ⟨d', ?_⟩
    rw [List.foldlM_cons, hstep]
    exact hrest

/-- The live tree can be copied under an id without rows. -/
theorem copyTree_total (db : Db K) (id : ℕ) (hrows : ∀ p, db.snapFs.get? (id, p) = none)
    (hchunks : ∀ c, db.snapChunks.get? (id, c) = none) : ∃ db', copyTree id db = .ok () db' := by
  obtain ⟨d₁, hfs⟩ := exists_foldlM_copies (T := Db.snapFs) (Db.insertSnapFs? id) (fun d r hr => by
    refine ⟨_, by rw [Db.insertSnapFs?, Table.has_eq_false.2 hr]; rfl, fun k hk => ?_⟩
    exact (Table.get?_insertIgnore _ _ _ _).trans (if_neg fun he => hk (congrArg Prod.snd he)))
    db.fs.rows db db.fs.nodup fun r _ => hrows r.1
  have hck : d₁.snapChunks = db.snapChunks :=
    foldlM_inv (I := fun d => d.snapChunks = db.snapChunks) (by
    rintro r - d d' hd hstep
    unfold Db.insertSnapFs? at hstep
    split_ifs at hstep
    cases hstep
    exact hd) rfl hfs
  obtain ⟨d₂, hch⟩ := exists_foldlM_copies (T := Db.snapChunks) (Db.insertSnapChunk? id)
    (fun d r hr => by
    refine ⟨_, by rw [Db.insertSnapChunk?, Table.has_eq_false.2 hr]; rfl, fun k hk => ?_⟩
    exact (Table.get?_insertIgnore _ _ _ _).trans (if_neg fun he => hk (congrArg Prod.snd he)))
    d₁.chunks.rows d₁ d₁.chunks.nodup fun r _ => by rw [hck]; exact hchunks r.1
  refine ⟨d₂, ?_⟩
  have hcopyFs : copySnapFs id db = .ok () d₁ := statement_eq_ok.2 hfs
  have hcopyChunks : copySnapChunks id d₁ = .ok () d₂ := statement_eq_ok.2 hch
  unfold copyTree
  rw [bind_of_ok hcopyFs]
  exact hcopyChunks

/-- A named snapshot holds the tree it was taken of, with the hashes computed or not. -/
theorem createNamed_ok {pfx placeholder name : Str} {id : ℕ} (howned : db.SnapsOwned)
    (h : snapshotCreateNamed E pfx placeholder db = .ok (id, name) db') :
    name = snapName pfx id ∧ Safe id db db' ∧ Safe id db' db' := by
  obtain ⟨n, d₀, hfin, hrest⟩ := bind_eq_ok.1 h
  obtain ⟨hre, -⟩ := finalizeDirty_ok hfin
  obtain ⟨hr, -, hcopy⟩ := snapshot_named_ok (savepoint_eq_ok.1 hrest)
  obtain ⟨rfl, rfl⟩ := Prod.mk.inj hr
  have hfree : db.snapshots.get? (nextId d₀.snapshots) = none := by
    rw [hre.snapshots]
    exact get?_nextId _
  -- The copy is that of the tree after its marks have been resolved.
  obtain ⟨hsn, -, -⟩ := copyTree_frame hcopy
  obtain ⟨hfs, hck, -, hsnap⟩ := copyTree_ok
    (fun p => by dsimp only; rw [hre.snapFs]; exact howned.rows _ p hfree)
    (fun c => by dsimp only; rw [hre.snapChunks]; exact howned.chunks _ c.1 c.2 hfree) hcopy
  have hlt : nextId d₀.snapshots < nextId db'.snapshots := by
    rw [hsn]
    exact nextId_insertIgnore _ _
  refine ⟨rfl, ⟨hlt, fun _ => ⟨fun p => ?_, fun p i => ?_⟩⟩, hlt,
    fun _ => ⟨fun p => ?_, hsnap.chunks⟩⟩
  · have hrows := congrArg (Option.map fun r : FsRow K => r.toFsMeta) (hre.rows p)
    rw [Option.map_map, Option.map_map] at hrows
    rw [hsnap.rows p, hfs, Option.map_map]
    exact hrows
  · rw [hsnap.chunks p i, hck]
    exact congrArg (fun t : Table (Str × ℕ) K => t.get? (p, i)) hre.chunks
  · rw [hsnap.rows p, Option.map_map]
    rfl

/-- One row is new after a named snapshot. -/
theorem createNamed_rows {pfx placeholder : Str} {r : ℕ × Str}
    (h : snapshotCreateNamed E pfx placeholder db = .ok r db') :
    ∀ row ∈ db'.snapshots.rows, row ∈ db.snapshots.rows ∨ row.2 = snapName pfx row.1 := by
  obtain ⟨n, d₀, hfin, hrest⟩ := bind_eq_ok.1 h
  obtain ⟨hre, -⟩ := finalizeDirty_ok hfin
  obtain ⟨rfl, -, hcopy⟩ := snapshot_named_ok (savepoint_eq_ok.1 hrest)
  obtain ⟨hsn, -, -⟩ := copyTree_frame hcopy
  intro row hrow
  rw [hsn] at hrow
  dsimp only at hrow
  rw [Table.rows_insertIgnore (get?_nextId _), List.mem_append, List.mem_singleton,
    hre.snapshots] at hrow
  refine hrow.imp_right fun he => ?_
  rw [he]
  rfl

/-- A named snapshot is taken when its name and its placeholder are new. -/
theorem createNamed_total {pfx placeholder : Str} {n : ℕ} {d₀ : Db K} (htidy : SnapsTidy P db)
    (hpfx : P pfx) (hnew : ∀ r ∈ db.snapshots.rows, r.2 ≠ placeholder)
    (hfin : finalizeDirty E db = .ok n d₀) :
    ∃ r d, snapshotCreateNamed E pfx placeholder db = .ok r d := by
  obtain ⟨hre, -⟩ := finalizeDirty_ok hfin
  have hsame : SameSnaps db d₀ := ⟨hre.snapshots, hre.snapFs, hre.snapChunks⟩
  have htidy₀ := htidy.same hsame
  set id := nextId d₀.snapshots with hid
  have hfree : d₀.snapshots.get? id = none := get?_nextId _
  have hins : insertSnapshot placeholder d₀ = .ok id
      { d₀ with snapshots := d₀.snapshots.insertIgnore id placeholder } := by
    rw [insertSnapshot_eq, if_neg]
    rw [Bool.not_eq_true, List.any_eq_false, hre.snapshots]
    exact fun r hr he => hnew r hr (of_decide_eq_true he)
  -- No other row has the name: it would have the id.
  have hren : renameSnapshot id (snapName pfx id)
      { d₀ with snapshots := d₀.snapshots.insertIgnore id placeholder } =
      .ok () { d₀ with
        snapshots :=
        (d₀.snapshots.insertIgnore id placeholder).update id (fun _ => snapName pfx id) } := by
    rw [renameSnapshot, statement_eq_ok, if_neg]
    rw [Bool.not_eq_true, List.any_eq_false]
    intro r hr
    dsimp only at hr
    rw [Table.rows_insertIgnore hfree, List.mem_append, List.mem_singleton] at hr
    rcases hr with hr | rfl
    · have hget := Table.get?_eq_some_iff.2 hr
      by_cases hname : r.2 = snapName pfx id
      · have hid' := htidy₀.named r.1 r.2 hget pfx hpfx id hname
        rw [← hid', hfree] at hget
        cases hget
      · simp [hname]
    · simp
  obtain ⟨d, hcopy⟩ := copyTree_total
    { d₀ with snapshots := (d₀.snapshots.insertIgnore id placeholder).update id (fun _ =>
      snapName pfx id) } id
    (fun p => htidy₀.owned.rows id p hfree) fun c => htidy₀.owned.chunks id c.1 c.2 hfree
  refine ⟨(id, snapName pfx id), d, ?_⟩
  unfold snapshotCreateNamed
  rw [bind_of_ok hfin]
  refine savepoint_eq_ok.2 ?_
  rw [bind_of_ok hins]
  refine (bind_of_ok hren).trans ?_
  rw [bind_of_ok hcopy]
  rfl

end Calls

/-! ## Runs -/

section Runs

variable {P : Str → Prop} {E : Ext K} {text : Err → Str} {run : Run} {d : Db K}
  {steps : List StepRow}

omit [DecidableEq K] in
/-- A program of the database on the agent's connection changes the database only. -/
theorem onLink_lift {α : Type} (x : Sql K α) (d : Db K) (opened : List (Db K))
    (steps : List StepRow) :
    onLink (Tx.lift x) ⟨⟨d, opened⟩, steps⟩ = match x d with
      | .ok a d' => .ok a ⟨⟨d', opened⟩, steps⟩
      | .error e d' => .error e ⟨⟨d', opened⟩, steps⟩ := by
  unfold onLink Tx.lift
  dsimp only
  rcases x d with ⟨a, d'⟩ | ⟨e, d'⟩
  · rfl
  · rfl

/-- The state in which a run leaves the steps and the snapshots, seen from the database `d`: nothing
is recorded, or a row whose names are safe. -/
structure RunEnds (P : Str → Prop) (run : Run) (before : Str) (d : Db K) (steps : List StepRow)
    (s' : Agent K) : Prop where
  /-- The snapshots. -/
  moves : SnapMoves P d s'.link.committed
  /-- The steps. -/
  row : s'.steps = steps ∨ ∃ row, s'.steps = steps ++ [row] ∧ row.before = before ∧
    ∀ name, row.after = some name → ∃ m, name = snapName run.runner.afterPrefix m ∧
      Safe m s'.link.committed s'.link.committed

/-- `finish_run` ends with nothing recorded or a row whose names are safe. -/
theorem finishRun_ends (E : Ext K) (run : Run) (steps : List StepRow) (before : Str)
    (htidy : SnapsTidy P d) :
    RunEnds P run before d steps (endState (finishRun E run before) ⟨⟨d, []⟩, steps⟩) := by
  have hdiff : Keeps (SnapMoves P d) (snapshotDiffLive E before) := by
    unfold snapshotDiffLive
    exact Keeps.bind (keeps_moves_finalizeDirty E) fun _ => Keeps.bind (Keeps.query _) fun _ =>
      Keeps.reads _
  have hmoves := hdiff d Relation.ReflTransGen.refl
  unfold endState at hmoves ⊢
  unfold finishRun
  -- The comparison with the restore point may fail; then the run ends without a row.
  rcases hx : snapshotDiffLive E before d with ⟨changes, d₁⟩ | ⟨e, d₁⟩
  · rw [hx] at hmoves
    have hlink : onLink (Tx.lift (snapshotDiffLive E before)) ⟨⟨d, []⟩, steps⟩ = .ok changes
      ⟨⟨d₁, []⟩, steps⟩ := by
      rw [onLink_lift, hx]
    rw [bind_of_ok hlink]
    dsimp only
    by_cases hback :
      ((decide (run.outcome.exitCode ≠ 0) || run.outcome.timedOut) && run.rollbackOnFail) = true
    · rw [if_pos hback]
      have hrestore : Keeps (SnapMoves P d) (snapshotRestore (K := K) before) :=
        keeps_moves_of_effects fun _ => effects_snapshotRestore before
      have hmoves' := hrestore d₁ hmoves
      unfold endState at hmoves'
      rcases hy : snapshotRestore before d₁ with ⟨_, d₂⟩ | ⟨e, d₂⟩
      · rw [hy] at hmoves'
        have hlink' : onLink (Tx.lift (snapshotRestore before)) ⟨⟨d₁, []⟩, steps⟩ = .ok ()
          ⟨⟨d₂, []⟩, steps⟩ := by
          rw [onLink_lift, hy]
        rw [bind_of_ok hlink']
        exact ⟨hmoves', Or.inr ⟨_, rfl, rfl, fun name hname => by cases hname⟩⟩
      · rw [hy] at hmoves'
        have hlink' : onLink (Tx.lift (snapshotRestore before)) ⟨⟨d₁, []⟩, steps⟩ = .error e
          ⟨⟨d₂, []⟩, steps⟩ := by
          rw [onLink_lift, hy]
        rw [bind_of_error hlink']
        exact ⟨hmoves', Or.inl rfl⟩
    · rw [if_neg hback]
      have hmoves' := keeps_moves_snapshotCreateNamed (P := P)
        (E := E) run.runner.afterPrefix run.placeholders.2
        d₁ hmoves
      unfold endState at hmoves'
      rcases hy : snapshotCreateNamed E run.runner.afterPrefix run.placeholders.2
        d₁ with ⟨⟨id, name⟩, d₂⟩ | ⟨e, d₂⟩
      · rw [hy] at hmoves'
        have hlink' :
          onLink (Tx.lift (snapshotCreateNamed E run.runner.afterPrefix run.placeholders.2))
            ⟨⟨d₁, []⟩, steps⟩ = .ok (id, name) ⟨⟨d₂, []⟩, steps⟩ := by
          rw [onLink_lift, hy]
        obtain ⟨hname, -, hsafe⟩ := createNamed_ok (SnapMoves.tidy hmoves htidy).owned hy
        rw [bind_of_ok hlink']
        refine ⟨hmoves', Or.inr ⟨_, rfl, rfl, fun name' hname' => ⟨id, ?_, ?_⟩⟩⟩
        · rw [← Option.some.inj hname']
          exact hname
        · exact hsafe
      · rw [hy] at hmoves'
        have hlink' :
          onLink (Tx.lift (snapshotCreateNamed E run.runner.afterPrefix run.placeholders.2))
            ⟨⟨d₁, []⟩, steps⟩ = .error e ⟨⟨d₂, []⟩, steps⟩ := by
          rw [onLink_lift, hy]
        rw [bind_of_error hlink']
        exact ⟨hmoves', Or.inl rfl⟩
  · rw [hx] at hmoves
    have hlink : onLink (Tx.lift (snapshotDiffLive E before)) ⟨⟨d, []⟩, steps⟩ = .error e ⟨⟨d₁, []⟩,
      steps⟩ := by
      rw [onLink_lift, hx]
    rw [bind_of_error hlink]
    exact ⟨hmoves, Or.inl rfl⟩

/-- So does what follows the agent's exit, whatever it was. -/
theorem conclude_ends (E : Ext K) (text : Err → Str) (run : Run) (steps : List StepRow)
    (before : Str) (hdirty : d.dirty = []) (htidy : SnapsTidy P d) :
    RunEnds P run before d steps (endState (conclude E text run before) ⟨⟨d, []⟩, steps⟩) := by
  have hsync := Run.sync_eq E run hdirty
  have hkeeps : Keeps (SnapMoves P d) (syncBody E ⟨false, none, run.now⟩ run.host run.tree) :=
    keeps_moves_of_effects fun _ => (writerKept_effects E _ _).syncBody (fun _ => trivial)
    (fun _ _ => trivial) _ _ _
  have hmoves := hkeeps d Relation.ReflTransGen.refl
  unfold endState at hmoves
  rcases hbody : syncBody E ⟨false, none, run.now⟩ run.host run.tree d with ⟨rep, d₁⟩ | ⟨e, d₁⟩
  · rw [hbody] at hsync hmoves
    have hlink : onLink (run.sync E) ⟨⟨d, []⟩, steps⟩ = .ok rep ⟨⟨d₁, []⟩, steps⟩ := by
      unfold onLink
      rw [hsync]
    rcases hwhy : rep.failureSummary text with _ | why
    · have hfinish := finishRun_ends E run steps before (SnapMoves.tidy hmoves htidy)
      have heq : endState (conclude E text run before) ⟨⟨d, []⟩, steps⟩ =
          endState (finishRun E run before) ⟨⟨d₁, []⟩, steps⟩ := by
        unfold endState conclude
        rw [bind_of_ok hlink, hwhy]
      rw [heq]
      exact ⟨Relation.ReflTransGen.trans hmoves hfinish.moves, hfinish.row⟩
    · have heq : endState (conclude E text run before) ⟨⟨d, []⟩, steps⟩ =
          ⟨⟨d₁, []⟩, steps ++ [notAppliedRow run before why]⟩ := by
        unfold endState conclude
        rw [bind_of_ok hlink, hwhy]
        rfl
      rw [heq]
      exact ⟨hmoves, Or.inr ⟨_, rfl, rfl, fun name hname => by cases hname⟩⟩
  · rw [hbody] at hsync
    -- The transaction of the sync is rolled back when the connection is closed.
    have heq : endState (conclude E text run before) ⟨⟨d, []⟩, steps⟩ = ⟨⟨d₁, [d]⟩, steps⟩ := by
      unfold endState
      rw [conclude_of_error text before steps hsync]
    rw [heq]
    exact ⟨Relation.ReflTransGen.refl, Or.inl rfl⟩

/-- The state of an agent before anything is recorded. -/
def Unrecorded (P : Str → Prop) (s s' : Agent K) : Prop :=
  s'.link.opened = [] ∧ s'.steps = s.steps ∧ SnapMoves P s.link.cur s'.link.cur

/-- A program on the database that takes allowed steps records nothing. -/
theorem keeps_unrecorded {α : Type} {x : Sql K α} {s : Agent K}
    (hx : Keeps (SnapMoves P s.link.cur) x) :
    Keeps (Unrecorded P s) (onLink (Tx.lift x)) := by
  rintro ⟨⟨d, opened⟩, steps⟩ ⟨hopened, hsteps, hmoves⟩
  have hd := hx d hmoves
  unfold endState at hd ⊢
  rw [onLink_lift]
  rcases hres : x d with ⟨a, d'⟩ | ⟨e, d'⟩
  · rw [hres] at hd
    exact ⟨hopened, hsteps, hd⟩
  · rw [hres] at hd
    exact ⟨hopened, hsteps, hd⟩

/-- The preparations of a run record nothing. -/
theorem keeps_unrecorded_prepare (E : Ext K) (run : Run) (s : Agent K) :
    Keeps (Unrecorded P s) (prepare E run) := by
  have hsnap : Keeps (Unrecorded P s)
      (onLink (Tx.lift (snapshotCreateNamed E run.runner.beforePrefix
      run.placeholders.1)) >>= fun before => onLink (Tx.lift (finalizeDirty E)) >>= fun _ =>
      pure before) :=
    Keeps.bind (keeps_unrecorded (keeps_moves_snapshotCreateNamed _ _)) fun _ =>
      Keeps.bind (keeps_unrecorded (keeps_moves_finalizeDirty E)) fun _ => Keeps.pure _
  unfold prepare
  by_cases hempty : run.empty = true
  · rw [if_pos hempty]
    exact Keeps.throw _
  · rw [if_neg hempty]
    dsimp only
    by_cases hagent : run.runner = .agent
    · rw [if_pos hagent]
      refine Keeps.bind (Keeps.reads _) fun there => ?_
      split_ifs
      · exact Keeps.throw _
      · exact hsnap
    · rw [if_neg hagent]
      exact hsnap

/-- What a run does to the snapshots, and what it records. -/
theorem run_ends (E : Ext K) (text : Err → Str) (run : Run) {s : Agent K}
    (hauto : s.link.opened = []) (htidy : SnapsTidy P s.link.cur) :
    ∃ s', endState (runSandboxed E text run) s = s' ∧
      s'.link.opened = [] ∧ SnapMoves P s.link.cur s'.link.cur ∧
      (s'.steps = s.steps ∨ ∃ row n, s'.steps = s.steps ++ [row] ∧
        row.before = snapName run.runner.beforePrefix n ∧ Safe n s.link.cur s'.link.cur ∧
        ∀ name, row.after = some name → ∃ m, name = snapName run.runner.afterPrefix m ∧
          Safe m s'.link.cur s'.link.cur) := by
  refine ⟨_, rfl, ?_⟩
  obtain ⟨⟨cur, opened⟩, steps⟩ := s
  obtain rfl : opened = [] := hauto
  have hre := rehashed_finalizeDirty E cur
  have hsame : SameSnaps cur (endState (finalizeDirty E) cur) :=
    ⟨hre.snapshots, hre.snapFs, hre.snapChunks⟩
  have hstart : Unrecorded P ⟨⟨cur, []⟩, steps⟩ ⟨⟨endState (finalizeDirty E) cur, []⟩, steps⟩ :=
    ⟨rfl, rfl, Relation.ReflTransGen.single (.same hsame)⟩
  have hopen : vmOpen E ⟨⟨cur, []⟩, steps⟩ = .ok () ⟨⟨endState (finalizeDirty E) cur, []⟩, steps⟩ :=
    vmOpen_eq E _
  generalize endState (finalizeDirty E) cur = d₀ at hre hsame hstart hopen
  have hprep := keeps_unrecorded_prepare E run _ _ hstart
  unfold endState at hprep
  rcases hx : prepare E run ⟨⟨d₀, []⟩, steps⟩ with ⟨⟨id, before⟩, s₁⟩ | ⟨e, s₁⟩
  · rw [hx] at hprep
    obtain ⟨hopened₁, hsteps₁, hmoves₁⟩ := hprep
    obtain ⟨hcreate, hdirty, -, -⟩ := prepare_snapshot (htidy.same hsame).owned hx
    obtain ⟨hname, hsafe, -⟩ := createNamed_ok (htidy.same hsame).owned hcreate
    obtain ⟨⟨d₁, opened₁⟩, steps₁⟩ := s₁
    obtain rfl : opened₁ = [] := hopened₁
    obtain rfl : steps₁ = steps := hsteps₁
    have hends := conclude_ends E text run steps₁ before hdirty (SnapMoves.tidy hmoves₁ htidy)
    rw [endState_runSandboxed text ((bind_of_ok hopen).trans hx)]
    refine ⟨rfl, Relation.ReflTransGen.trans hmoves₁ hends.moves, hends.row.imp_right ?_⟩
    rintro ⟨row, hrow, hbefore, hafter⟩
    -- The snapshot was taken after the hashes were computed.
    have hsafe' : Safe id cur d₁ := by
      refine ⟨hsafe.1, fun hhas => ?_⟩
      obtain ⟨hrows, hchunks⟩ := hsafe.2 hhas
      refine ⟨fun p => (hrows p).trans ?_, fun p i => (hchunks p i).trans ?_⟩
      · have hre' := congrArg (Option.map fun r : FsRow K => r.toFsMeta) (hre.rows p)
        rw [Option.map_map, Option.map_map] at hre'
        exact hre'
      · rw [hre.chunks]
    exact ⟨row, id, hrow, hbefore.trans hname, SnapMoves.safe hends.moves hsafe', hafter⟩
  · rw [hx] at hprep
    obtain ⟨hopened₁, hsteps₁, hmoves₁⟩ := hprep
    have hend : endState (runSandboxed E text run) ⟨⟨cur, []⟩, steps⟩ =
      { s₁ with link := s₁.link.close } := by
      unfold endState runSandboxed withConnection
      rw [bind_of_ok hopen, bind_of_error hx]
    have hcommitted : s₁.link.committed = s₁.link.cur := by
      unfold Tx.Link.committed
      rw [hopened₁]
      rfl
    rw [hend]
    refine ⟨rfl, ?_, Or.inl hsteps₁⟩
    change SnapMoves P cur s₁.link.committed
    rw [hcommitted]
    exact hmoves₁

end Runs

/-! ## Whole histories -/

section Histories

variable {P : Str → Prop} {E : Ext K} {text : Err → Str} {s s₀ : Agent K} {cmds : List SnapCmd}

/-- What holds of the agent between commands. -/
structure Between (P : Str → Prop) (s : Agent K) : Prop where
  /-- No transaction is open. -/
  auto : s.link.opened = []
  /-- The snapshots. -/
  tidy : SnapsTidy P s.link.cur

omit [DecidableEq K] in
/-- Whatever its outcome, it ends in the database it leaves. -/
theorem endState_onLink_lift {α : Type} (x : Sql K α) (s : Agent K) :
    endState (onLink (Tx.lift x)) s = ⟨⟨endState x s.link.cur, s.link.opened⟩, s.steps⟩ := by
  obtain ⟨⟨d, opened⟩, steps⟩ := s
  unfold endState
  rw [onLink_lift]
  dsimp only
  rcases x d with ⟨a, d'⟩ | ⟨e, d'⟩
  · rfl
  · rfl

/-- One command: only allowed moves, and the connection is left in autocommit mode. -/
theorem exec_moves (E : Ext K) (text : Err → Str) {c : SnapCmd} (h : Between P s)
    (hmild : c.Mild P s) :
    SnapMoves P s.link.cur (c.exec E text s).link.cur ∧ (c.exec E text s).link.opened = [] := by
  -- A run keeps the restore points it owns; the other commands are the snapshot operations.
  cases c with
  | run job =>
    obtain ⟨s', hs', hopened, hmoves, -⟩ := run_ends E text job h.auto h.tidy
    unfold SnapCmd.exec
    dsimp only
    rw [hs']
    exact ⟨hmoves, hopened⟩
  | create name =>
    unfold SnapCmd.exec
    dsimp only
    rw [endState_onLink_lift]
    exact ⟨keeps_moves_snapshotCreate hmild _ Relation.ReflTransGen.refl, h.auto⟩
  | createNamed pfx placeholder =>
    unfold SnapCmd.exec
    dsimp only
    rw [endState_onLink_lift]
    exact ⟨keeps_moves_snapshotCreateNamed pfx placeholder _ Relation.ReflTransGen.refl, h.auto⟩
  | delete name =>
    unfold SnapCmd.exec
    dsimp only
    rw [endState_onLink_lift]
    exact ⟨moves_snapshotDelete hmild, h.auto⟩
  | retain keep =>
    unfold SnapCmd.exec
    dsimp only
    rw [endState_onLink_lift]
    exact ⟨moves_snapshotRetain hmild h.tidy, h.auto⟩

/-- Two runs of commands are run one after the other. -/
theorem Agent.after_append (done rest : List SnapCmd) :
    s.after E text (done ++ rest) = (s.after E text done).after E text rest := List.foldl_append

/-- A mild history. -/
def MildRun (P : Str → Prop) (E : Ext K) (text : Err → Str) (s : Agent K) (cmds : List SnapCmd) :
    Prop :=
  ∀ done c rest, cmds = done ++ c :: rest → c.Mild P (s.after E text done)

/-- Only allowed moves happen in a mild history. -/
theorem MildRun.moves :
    ∀ {cmds : List SnapCmd} {s : Agent K}, Between P s → MildRun P E text s cmds →
    SnapMoves P s.link.cur (s.after E text cmds).link.cur ∧ Between P (s.after E text cmds)
  | [], s, h, _ => ⟨Relation.ReflTransGen.refl, h⟩
  | c :: cmds, s, h, hmild => by
    obtain ⟨hmoves, hauto⟩ := exec_moves E text h (hmild [] c cmds rfl)
    have hrest : MildRun P E text (c.exec E text s) cmds := fun done c' rest hcmds =>
      hmild (c :: done) c' rest (by rw [hcmds]; rfl)
    obtain ⟨hmoves', hend⟩ := MildRun.moves ⟨hauto, SnapMoves.tidy hmoves h.tidy⟩ hrest
    exact ⟨Relation.ReflTransGen.trans hmoves hmoves', hend⟩

/-- A mild run is mild up to every point and from there on. -/
theorem MildRun.append {done rest : List SnapCmd} (h : MildRun P E text s (done ++ rest)) :
    MildRun P E text s done ∧ MildRun P E text (s.after E text done) rest := by
  constructor
  · intro done' c rest' hdone
    exact h done' c (rest' ++ rest) (by rw [hdone, List.append_assoc, List.cons_append])
  · intro done' c rest' hrest
    have hc := h (done ++ done') c rest' (by rw [hrest, List.append_assoc])
    rw [Agent.after_append] at hc
    exact hc

/-- A named snapshot that a mild command asks for is taken. -/
theorem taken_of_mild {c : SnapCmd} {pfx placeholder : Str} {d d' : Db K} {n : ℕ}
    (h : Between P s) (hmild : c.Mild P s) (hcalls : c.Calls E s pfx placeholder d)
    (hfin : finalizeDirty E d = .ok n d') :
    ∃ r d'', snapshotCreateNamed E pfx placeholder d = .ok r d'' := by
  cases hcalls with
  | named => exact createNamed_total h.tidy hmild.1 hmild.2.1 hfin
  | before job =>
    have hre := rehashed_finalizeDirty E s.link.cur
    have hsame : SameSnaps s.link.cur (endState (finalizeDirty E) s.link.cur) :=
      ⟨hre.snapshots, hre.snapFs, hre.snapChunks⟩
    refine createNamed_total (h.tidy.same hsame) hmild.1 (fun r hr => ?_) hfin
    rw [hsame.snapshots] at hr
    exact hmild.2.2.1.1 r hr
  | @after job before s₁ s₂ s₃ rep changes hprep hsync hdiff =>
    obtain ⟨⟨cur, opened⟩, steps⟩ := s
    obtain rfl : opened = [] := h.auto
    have hre := rehashed_finalizeDirty E cur
    have hsame : SameSnaps cur (endState (finalizeDirty E) cur) :=
      ⟨hre.snapshots, hre.snapFs, hre.snapChunks⟩
    rw [bind_of_ok (vmOpen_eq E _)] at hprep
    have hstart : Unrecorded P ⟨⟨cur, []⟩, steps⟩ ⟨⟨endState (finalizeDirty E) cur, []⟩, steps⟩ :=
      ⟨rfl, rfl, Relation.ReflTransGen.single (.same hsame)⟩
    have hmoves := (keeps_unrecorded_prepare E job ⟨⟨cur, []⟩, steps⟩).triple _ _ _ hstart hprep
    obtain ⟨hcreate, hdirty, -, -⟩ := prepare_snapshot (h.tidy.same hsame).owned hprep
    obtain ⟨⟨d₁, opened₁⟩, steps₁⟩ := s₁
    obtain rfl : opened₁ = [] := hmoves.1
    -- The sync and the comparison leave the snapshots.
    have hsame₂ : SameSnaps d₁ s₂.link.cur := by
      have hrun := (onLink_ok hsync).1
      rw [Run.sync_eq E job hdirty] at hrun
      rcases hbody : syncBody E ⟨false, none, job.now⟩ job.host job.tree d₁ with ⟨rep',
        d₂⟩ | ⟨e, d₂⟩
      · rw [hbody] at hrun
        obtain ⟨-, hlink⟩ := EStateM.Result.ok.inj hrun
        rw [← hlink]
        have heff := (writerKept_effects E (fun _ => False) _).syncBody (fun _ => trivial)
          (fun _ _ => trivial) ⟨false, none, job.now⟩ job.host job.tree d₁
          Relation.ReflTransGen.refl
        rw [endState_of_ok hbody] at heff
        exact sameSnaps_of_effects heff
      · rw [hbody] at hrun
        cases hrun
    have hsame₃ : SameSnaps s₂.link.cur s₃.link.cur := by
      obtain ⟨n, d', hfin, hrest⟩ := bind_eq_ok.1 (lift_ok (onLink_ok hdiff).1).1
      obtain ⟨id, d'', hquery, hreads⟩ := bind_eq_ok.1 hrest
      obtain ⟨-, hd''⟩ := query_eq_ok.1 hquery
      obtain ⟨-, hd⟩ := EStateM.Result.ok.inj hreads
      obtain ⟨hre', -⟩ := finalizeDirty_ok hfin
      rw [← hd, hd'']
      exact ⟨hre'.snapshots, hre'.snapFs, hre'.snapChunks⟩
    have htidy₁ : SnapsTidy P d₁ := SnapMoves.tidy hmoves.2.2 h.tidy
    refine createNamed_total (htidy₁.same (hsame₂.trans hsame₃)) hmild.2.1 (fun r hr => ?_) hfin
    rw [(hsame₂.trans hsame₃).snapshots] at hr
    rcases createNamed_rows hcreate r hr with hold | hname
    · rw [hsame.snapshots] at hold
      exact hmild.2.2.2.1 r hold
    · rw [hname]
      exact fun he => hmild.2.2.2.2 _ hmild.1 _ he.symm

/-- In a mild history every named snapshot is taken, and every recorded name leads to the tree of
its step or to nothing. -/
theorem restorePoints_of_mild {K : Type} [DecidableEq K] {P : Str → Prop} {E : Ext K}
    {text : Err → Str} {s₀ : Agent K} {cmds : List SnapCmd} (hauto : s₀.link.opened = [])
    (htidy : SnapsTidy P s₀.link.cur) (hmild : MildRun P E text s₀ cmds) :
    RestorePoints E text s₀ cmds := by
  have hbetween : ∀ done rest, cmds = done ++ rest → Between P (s₀.after E text done) := by
    intro done rest hcmds
    rw [hcmds] at hmild
    exact (hmild.append.1.moves ⟨hauto, htidy⟩).2
  -- A step records safe names, and they stay safe.
  have hstep : ∀ done job later rest, cmds = done ++ .run job :: (later ++ rest) → ∀ row,
      ((s₀.after E text done).after E text [.run job]).steps = (s₀.after E text done).steps ++
      [row] →
      P job.runner.beforePrefix ∧ P job.runner.afterPrefix ∧
      SnapsTidy P ((s₀.after E text done).after E text (.run job :: later)).link.cur ∧
      (∃ n, row.before = snapName job.runner.beforePrefix n ∧ Safe n (s₀.after E text done).link.cur
        ((s₀.after E text done).after E text (.run job :: later)).link.cur) ∧
      ∀ name, row.after = some name → ∃ m, name = snapName job.runner.afterPrefix m ∧
        Safe m ((s₀.after E text done).after E text [.run job]).link.cur
          ((s₀.after E text done).after E text (.run job :: later)).link.cur := by
    intro done job later rest hcmds row hrow
    have hb := hbetween done _ hcmds
    rw [hcmds] at hmild
    have hrun := hmild.append.2
    have hjob : (SnapCmd.run job).Mild P (s₀.after E text done) := hrun [] _ _ rfl
    obtain ⟨s', hs', hauto', hmoves, hrec⟩ := run_ends E text job hb.auto hb.tidy
    -- The commands after the run.
    have hafter : (s₀.after E text done).after E text (.run job :: later) = s'.after E text
      later := by
      rw [← hs']
      rfl
    have hone : (s₀.after E text done).after E text [.run job] = s' := hs'
    have hlater : MildRun P E text s' later := by
      intro done' c rest' hl
      have hc := hrun (.run job :: done') c (rest' ++ rest) (by rw [hl]; simp)
      rw [← hs']
      exact hc
    obtain ⟨hmoves', hb'⟩ := hlater.moves ⟨hauto', SnapMoves.tidy hmoves hb.tidy⟩
    rw [hone] at hrow ⊢
    rw [hafter]
    rcases hrec with hsame | ⟨row', n, hrow', hbefore, hsafe, hnames⟩
    · rw [hsame] at hrow
      exact absurd (congrArg List.length hrow) (by simp)
    · rw [hrow'] at hrow
      obtain rfl : row' = row := by simpa using hrow
      refine ⟨hjob.1, hjob.2.1, hb'.tidy, ⟨n, hbefore, SnapMoves.safe hmoves' hsafe⟩,
        fun name hname => ?_⟩
      obtain ⟨m, hm, hsafe'⟩ := hnames name hname
      exact ⟨m, hm, SnapMoves.safe hmoves' hsafe'⟩
  refine ⟨fun done c rest hcmds pfx placeholder d d' n hcalls hfin => ?_,
    fun done job later rest row hcmds hrow id hid => ?_,
    fun done job later rest row name hcmds hrow hafter id hid => ?_⟩
  · exact taken_of_mild (hbetween done (c :: rest) hcmds) (hmild done c rest hcmds) hcalls hfin
  · obtain ⟨hP, -, htidy', ⟨n, hname, hsafe⟩, -⟩ := hstep done job later rest hcmds row hrow
    rw [hname] at hid
    exact hsafe.snapshotId htidy' hP hid
  · obtain ⟨-, hP, htidy', -, hnames⟩ := hstep done job later rest hcmds row hrow
    obtain ⟨m, hname, hsafe⟩ := hnames name hafter
    rw [hname] at hid
    exact hsafe.snapshotId htidy' hP hid

/-- A new database without steps. -/
def freshAgent : Agent Bytes := ⟨⟨initDb 0, []⟩, []⟩

/-- A step that writes a file. -/
def touchRun : Run where
  runner := .step
  argv := ["touch".toList]
  rollbackOnFail := false
  placeholders := ("pending-1-0-1".toList, "pending-1-1-2".toList)
  outcome := ⟨0, false, [], [], false, false⟩
  fs := (Table.empty.insertIgnore ["t".toList] (.dir 0o755 true)).insertIgnore
    ["t".toList, "y".toList] (.file [2] 0o644 0 true)
  tree := ["t".toList]
  now := 7

/-- The prefixes of `run_step`. -/
def stepPrefix (pfx : Str) : Prop := pfx = Runner.step.beforePrefix ∨ pfx = Runner.step.afterPrefix

/-- The step is run, and a snapshot is taken under another name. -/
theorem restorePoints_of_mild_step :
    RestorePoints plainExt (fun _ => []) freshAgent [.run touchRun, .create "mine".toList] := by
  have hfirst : ∀ pfx, stepPrefix pfx → ∀ n, (snapName pfx n).head? = some 's' := by
    rintro pfx (rfl | rfl) n
    · rfl
    · rfl
  have hunused : ∀ name : Str, name.head? ≠ some 's' →
    Unused stepPrefix freshAgent.link.cur name := by
    intro name hname
    refine ⟨fun r hr => (List.not_mem_nil hr).elim, fun pfx hpfx n he => hname ?_⟩
    rw [he]
    exact hfirst pfx hpfx n
  have htidy : SnapsTidy stepPrefix freshAgent.link.cur :=
    ⟨⟨fun _ _ _ => rfl, fun _ _ _ _ => rfl⟩, List.nodup_nil, fun id name hget => (by cases hget)⟩
  refine restorePoints_of_mild rfl htidy ?_
  intro done c rest hcmds
  rcases done with _ | ⟨c₁, _ | ⟨c₂, done⟩⟩
  · cases hcmds
    exact ⟨Or.inl rfl, Or.inr rfl, hunused _ (by decide), hunused _ (by decide)⟩
  · cases hcmds
    intro pfx hpfx n he
    have hhead := hfirst pfx hpfx n
    rw [← he] at hhead
    exact absurd hhead (by decide)
  · simp at hcmds

/-- All snapshots are deleted and the step is run again: the name that the first run recorded now
leads to the tree with the file. And a user takes the name of the next snapshot: the step cannot
take it. -/
theorem restorePoints_lost :
    ¬ RestorePoints plainExt (fun _ => []) freshAgent [.run touchRun, .retain 0, .run touchRun] ∧
    ¬ RestorePoints plainExt (fun _ => []) freshAgent [.create "step-before-2".toList,
      .run touchRun] := by
  -- A retain between two runs deletes the first restore point; a snapshot that takes the name of
  -- a restore point makes the run fail.
  constructor
  · intro h
    have hsteps : ((freshAgent.after plainExt (fun _ => []) []).after plainExt (fun _ => [])
        [.run touchRun]).steps.map StepRow.before = ["step-before-1".toList] := by decide +kernel
    obtain ⟨row, rows, hrow, hbefore, hnil⟩ := List.map_eq_cons_iff.1 hsteps
    rw [List.map_eq_nil_iff] at hnil
    rw [hnil] at hrow
    have hid : ((freshAgent.after plainExt (fun _ => []) []).after plainExt (fun _ => [])
        [.run touchRun, .retain 0, .run touchRun]).link.cur.snapshotId row.before = .ok 1 := by
      rw [hbefore]
      decide +kernel
    have hholds := h.before [] touchRun [.retain 0, .run touchRun] [] row rfl hrow 1 hid
    have hshown : (((freshAgent.after plainExt (fun _ => []) []).after plainExt (fun _ => [])
        [.run touchRun, .retain 0, .run touchRun]).link.cur.snapFs.get? (1, "/y".toList)).isSome =
        true := by
      decide +kernel
    have hmissing :
      ((freshAgent.after plainExt (fun _ => []) []).link.cur.fs.get? "/y".toList).isSome =
      false := by
      decide +kernel
    have hrows := congrArg Option.isSome (hholds.rows "/y".toList)
    rw [Option.isSome_map, Option.isSome_map, hshown, hmissing] at hrows
    cases hrows
  · intro h
    have hfin : returns (finalizeDirty plainExt) (endState (finalizeDirty plainExt)
        (freshAgent.after plainExt (fun _ => []) [.create "step-before-2".toList]).link.cur) =
        true := by
      decide +kernel
    obtain ⟨n, hfin⟩ := exists_of_returns hfin
    obtain ⟨r, d, hcreate⟩ := h.taken [.create "step-before-2".toList] (.run touchRun)
      [] rfl _ _ _ _ n
      (.before touchRun) hfin
    have hfails :
      returns (snapshotCreateNamed plainExt touchRun.runner.beforePrefix touchRun.placeholders.1)
        (endState (finalizeDirty plainExt)
          (freshAgent.after plainExt (fun _ => []) [.create "step-before-2".toList]).link.cur) =
          false := by
      decide +kernel
    unfold returns at hfails
    rw [hcreate] at hfails
    cases hfails

end Histories

end Dbvm
