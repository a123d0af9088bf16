import Dbvm.Path
import Mathlib.Data.List.Sort

/-!
# Indexes during a bulk load

`with_bulk_indexes_dropped` (`src/vm/import.rs`) takes the secondary indexes of three tables away,
runs a load, and creates them again. What the catalogue of the database holds is modelled with the
statements that change it, each of which may fail. The load is any function of the catalogue, which
may return a value or an error or panic.
-/

namespace Dbvm.Bulk

open Dbvm

/-! ## The catalogue -/

/-- An index of `sqlite_master`: its table, and its definition unless SQLite made it for a
constraint. -/
structure Index where
  name : Str
  tblName : Str
  sql : Option Str
deriving DecidableEq

/-- The indexes of a database. -/
structure Catalog where
  rows : List Index
  /-- A name is used once. -/
  nodup : (rows.map Index.name).Nodup

/-- The tables a bulk load writes. -/
def bulkTables : List Str := ["vm_fs".toList, "vm_blobs".toList, "vm_file_chunks".toList]

/-- The secondary indexes of these tables, in the order of their names: `bulk_index_defs`. -/
def Catalog.bulkIndexDefs (c : Catalog) : List Index :=
  (c.rows.filter fun d => d.sql.isSome && d.tblName ∈ bulkTables).insertionSort fun a b =>
  a.name ≤ b.name

/-- The name is used. -/
def Catalog.Has (c : Catalog) (n : Str) : Prop := n ∈ c.rows.map Index.name

instance (c : Catalog) (n : Str) : Decidable (c.Has n) := inferInstanceAs (Decidable (_ ∈ _))

/-- `DROP INDEX IF EXISTS`. -/
def Catalog.drop (c : Catalog) (n : Str) : Catalog :=
  ⟨c.rows.filter fun d => d.name ≠ n, c.nodup.sublist (List.filter_sublist.map _)⟩

/-- A new index. -/
def Catalog.insert (c : Catalog) (d : Index) (h : ¬ c.Has d.name) : Catalog :=
  ⟨c.rows ++ [d], by
    rw [List.map_append, List.nodup_append]
    refine ⟨c.nodup, List.nodup_singleton _, fun a ha b hb hab => ?_⟩
    rw [List.map_singleton, List.mem_singleton] at hb
    exact h (hb ▸ hab ▸ ha)⟩

/-! ## The function -/

/-- What the statements of one call come to. -/
structure Statements where
  /-- The query of `bulk_index_defs` fails. -/
  queryFails : Bool
  /-- The index that `DROP INDEX IF EXISTS "name"` drops, which is `name` unless a quote in the name
  ends the quoted text early; `none` if the statement fails. -/
  drop : Str → Option Str
  /-- The definition of the index cannot be executed, whatever the catalogue holds. -/
  createFails : Str → Bool

/-- The errors of the function, with those of the load. -/
inductive BulkErr (ε : Type) where
  /-- A statement before the load. -/
  | sqlite
  | load (e : ε)
  /-- `rebuild index failed (database left unindexed)`. -/
  | rebuild
  /-- The error of the load; `and` that the database is left unindexed. -/
  | loadAndRebuild (e : ε)

/-- How a call ends. -/
inductive Exit (ε α : Type) where
  | returned (r : Except ε α)
  | panicked

variable {ε α : Type}

/-- The definition of an index is executed; `none` if that fails. -/
def create (S : Statements) (d : Index) (c : Catalog) : Option Catalog :=
  if h : S.createFails d.name = true ∨ c.Has d.name then none
  else some (c.insert d fun hhas => h (Or.inr hhas))

/-- The loop that drops the indexes, and whether it ran to its end. -/
def dropAll (S : Statements) : List Index → Catalog → Bool × Catalog
  | [], c => (true, c)
  | d :: defs, c =>
    match S.drop d.name with
    | none => (false, c)
    | some n => dropAll S defs (c.drop n)

/-- `Restore::run`, and whether it ran to its end. -/
def restore (S : Statements) : List Index → Catalog → Bool × Catalog
  | [], c => (true, c)
  | d :: defs, c =>
    match create S d c with
    | none => (false, c)
    | some c' => restore S defs c'

/-- The restore of a panic, in which errors are ignored. -/
def restoreQuietly (S : Statements) : List Index → Catalog → Catalog
  | [], c => c
  | d :: defs, c => restoreQuietly S defs ((create S d c).getD c)

/-- What the call returns after a load that returned, and a restore that ran to its end or not. -/
def outcome (out : Except ε α) (restored : Bool) : Except (BulkErr ε) α :=
  match out, restored with
  | .ok v, true => .ok v
  -- the error of the load is kept
  | .error e, true => .error (.load e)
  | .error e, false => .error (.loadAndRebuild e)
  | .ok _, false => .error .rebuild

/-- `with_bulk_indexes_dropped`. -/
def withBulkIndexesDropped (S : Statements) (load : Catalog → Exit ε α × Catalog) (c : Catalog) :
    Exit (BulkErr ε) α × Catalog :=
  if S.queryFails then (.returned (.error .sqlite), c)
  else
    let defs := c.bulkIndexDefs
    match dropAll S defs c with
    | (false, c₀) => (.returned (.error .sqlite), c₀)
    | (true, c₀) =>
      match load c₀ with
      | (.panicked, c₁) => (.panicked, restoreQuietly S defs c₁)
      | (.returned out, c₁) =>
        let (restored, c₂) := restore S defs c₁
        (.returned (outcome out restored), c₂)

/-! ## What it promises -/

/-- The call says that the database was left without indexes. -/
def SaysUnindexed : Exit (BulkErr ε) α → Prop
  | .returned (.error .rebuild) => True
  | .returned (.error (.loadAndRebuild _)) => True
  | _ => False

/-- The definition of an index cannot be executed on the catalogue. -/
def Fails (S : Statements) (c : Catalog) (d : Index) : Prop :=
  S.createFails d.name = true ∨ c.Has d.name

/-- The catalogue as the load leaves it, when the load is reached. -/
def afterLoad (S : Statements) (load : Catalog → Exit ε α × Catalog) (c : Catalog) :
    Option (Exit ε α × Catalog) :=
  if S.queryFails then none
  else match dropAll S c.bulkIndexDefs c with
    | (false, _) => none
    | (true, c₀) => some (load c₀)

/-- The indexes are given back. -/
structure GivesBack (S : Statements) (load : Catalog → Exit ε α × Catalog) (c : Catalog) :
    Prop where
  /-- Each index exists again with its definition, or an error says that the database is left
  without. -/
  indexes : (∀ d ∈ c.bulkIndexDefs, d ∈ (withBulkIndexesDropped S load c).2.rows) ∨
    SaysUnindexed (withBulkIndexesDropped S load c).1
  /-- An index whose definition can be executed is rebuilt, whatever became of the others. -/
  rebuilt : ∀ out c₁, afterLoad S load c = some (out, c₁) → ∀ d ∈ c.bulkIndexDefs, ¬ Fails S c₁ d →
    d ∈ (withBulkIndexesDropped S load c).2.rows
  /-- An error of the load is an error of the call. -/
  errors : ∀ e c₁, afterLoad S load c = some (.returned (.error e), c₁) →
    ∀ v, (withBulkIndexesDropped S load c).1 ≠ .returned (.ok v)

/-! ## When it keeps the promise -/

/-- No statement goes wrong where the function does not provide for it. -/
structure Provided (S : Statements) (load : Catalog → Exit ε α × Catalog) (c : Catalog) : Prop where
  /-- No `DROP` fails after one that took an index away. -/
  drops : S.queryFails = false → ∀ pre d post, c.bulkIndexDefs = pre ++ d :: post →
    (∀ e ∈ pre, S.drop e.name ≠ none) → S.drop d.name = none →
    ∀ e ∈ pre, ∀ n ∈ S.drop e.name, n ∉ c.bulkIndexDefs.map Index.name
  /-- When the load returns, no `CREATE` that would succeed comes after one that fails. -/
  creates : ∀ out c₁, afterLoad S load c = some (.returned out, c₁) →
    ∀ pre d post, c.bulkIndexDefs = pre ++ d :: post → Fails S c₁ d → ∀ e ∈ post, Fails S c₁ e
  /-- When the load panics, no `CREATE` fails, but for an index that the load itself made again. -/
  panics : ∀ c₁, afterLoad S load c = some (.panicked, c₁) → ∀ d ∈ c.bulkIndexDefs, Fails S c₁ d →
    d ∈ c₁.rows

/-! ## The definitions -/

section Defs

variable {S : Statements} {c c' : Catalog} {d e : Index} {defs : List Index}

/-- The indexes that are dropped are rows of the catalog. -/
theorem mem_rows_of_def (h : d ∈ c.bulkIndexDefs) : d ∈ c.rows :=
  List.mem_of_mem_filter ((List.mem_insertionSort _).1 h)

/-- No index is dropped twice. -/
theorem nodup_defs (c : Catalog) : (c.bulkIndexDefs.map Index.name).Nodup := by
  have hperm := (List.perm_insertionSort (fun a b : Index => a.name ≤ b.name)
    (c.rows.filter fun d => d.sql.isSome && d.tblName ∈ bulkTables)).map Index.name
  exact hperm.nodup_iff.2 (c.nodup.sublist (List.filter_sublist.map _))

/-- A created index is one more row. -/
theorem mem_insert (h : ¬ c.Has d.name) {x : Index} :
    x ∈ (c.insert d h).rows ↔ x ∈ c.rows ∨ x = d := by
  rw [Catalog.insert, List.mem_append, List.mem_singleton]

/-- An index of another name can be created if it could be before. -/
theorem fails_insert (h : ¬ c.Has d.name) (hne : e.name ≠ d.name) :
    Fails S (c.insert d h) e ↔ Fails S c e := by
  unfold Fails Catalog.Has Catalog.insert
  rw [List.map_append, List.mem_append, List.map_singleton, List.mem_singleton]
  simp [hne]

/-- A create fails for the reasons of `Fails`. -/
theorem create_eq_none : create S d c = none ↔ Fails S c d := by
  unfold create Fails
  split_ifs with h <;> simp [h]

/-- A create that succeeds found the name free and adds the index. -/
theorem create_eq_some (h : create S d c = some c') :
    ∃ hhas : ¬ c.Has d.name, c' = c.insert d hhas := by
  unfold create at h
  split_ifs at h with hfails
  exact ⟨fun hhas => hfails (Or.inr hhas), (Option.some.inj h).symm⟩

end Defs

/-! ## The loops -/

section Loops

variable {S : Statements} {c c' : Catalog} {defs : List Index}

/-- The loop of drops that stops: what the statements before the failing one dropped is gone. -/
theorem dropAll_false (defs : List Index) : ∀ {c c' : Catalog}, dropAll S defs c = (false, c') →
    ∃ pre d post, defs = pre ++ d :: post ∧ (∀ e ∈ pre, S.drop e.name ≠ none) ∧
      S.drop d.name = none ∧
      ∀ x, x ∈ c'.rows ↔ x ∈ c.rows ∧ ∀ e ∈ pre, ∀ n ∈ S.drop e.name, x.name ≠ n := by
  induction defs with
  | nil => intro c c' h; simp [dropAll] at h
  | cons d defs ih =>
    intro c c' h
    rw [dropAll] at h
    cases hd : S.drop d.name with
    | none =>
      rw [hd] at h
      obtain rfl : c = c' := (Prod.mk.inj h).2
      exact ⟨[], d, defs, rfl, by simp, hd, by simp⟩
    | some n =>
      rw [hd] at h
      obtain ⟨pre, e, post, rfl, hpre, he, hrows⟩ := ih h
      refine ⟨d :: pre, e, post, rfl, ?_, he, fun x => ?_⟩
      · intro e' he'
        rcases List.mem_cons.1 he' with rfl | he'
        · simp [hd]
        · exact hpre e' he'
      · rw [hrows, Catalog.drop, List.mem_filter, List.forall_mem_cons, hd]
        simp [and_assoc]

/-- When all drops succeed, none of them failed. -/
theorem dropAll_true (defs : List Index) : ∀ {c c' : Catalog}, dropAll S defs c = (true, c') →
    ∀ d ∈ defs, S.drop d.name ≠ none := by
  induction defs with
  | nil => simp
  | cons d defs ih =>
    intro c c' h
    rw [dropAll] at h
    cases hd : S.drop d.name with
    | none =>
      rw [hd] at h
      simp at h
    | some n =>
      rw [hd] at h
      rw [List.forall_mem_cons]
      exact ⟨by simp [hd], ih h⟩

/-- A restore creates the indexes up to the first that fails. -/
theorem restore_rows (defs : List Index) : ∀ {c : Catalog} {b : Bool} {c' : Catalog},
    (defs.map Index.name).Nodup → restore S defs c = (b, c') →
      ∃ pre post, defs = pre ++ post ∧ (∀ x, x ∈ c'.rows ↔ x ∈ c.rows ∨ x ∈ pre) ∧
        (b = true → post = []) ∧ (b = false → ∃ d post', post = d :: post' ∧ Fails S c d) ∧
        ∀ e ∈ pre, ¬ Fails S c e := by
  -- By induction on the definitions: the first one fails and ends the loop, or it is created and
  -- the rest follows.
  induction defs with
  | nil =>
    intro c b c' _ h
    obtain ⟨rfl, rfl⟩ := Prod.mk.inj h
    exact ⟨[], [], rfl, by simp, fun _ => rfl, by simp, by simp⟩
  | cons d defs ih =>
    intro c b c' hnodup h
    rw [List.map_cons, List.nodup_cons] at hnodup
    rw [restore] at h
    cases hd : create S d c with
    | none =>
      rw [hd] at h
      obtain ⟨rfl, rfl⟩ := Prod.mk.inj h
      exact ⟨[], d :: defs,
        rfl, by simp, by simp, fun _ => ⟨d, defs, rfl, create_eq_none.1 hd⟩, by simp⟩
    | some c₁ =>
      rw [hd] at h
      obtain ⟨hhas, rfl⟩ := create_eq_some hd
      obtain ⟨pre, post, hdefs, hrows, hdone, hstop, hpre⟩ := ih hnodup.2 h
      have hother : ∀ e ∈ defs, Fails S (c.insert d hhas) e ↔ Fails S c e := fun e he =>
        fails_insert hhas fun heq => hnodup.1 (heq ▸ List.mem_map_of_mem he)
      refine ⟨d :: pre, post, by rw [hdefs]; rfl, fun x => ?_, hdone, fun hb => ?_, ?_⟩
      · rw [hrows, mem_insert, List.mem_cons, or_assoc]
      · obtain ⟨e, post', rfl, he⟩ := hstop hb
        exact ⟨e, post', rfl, (hother e (by simp [hdefs])).1 he⟩
      · intro e he
        rcases List.mem_cons.1 he with rfl | he
        · exact fun hf => absurd (create_eq_none.2 hf) (by simp [hd])
        · exact fun hf => hpre e he ((hother e (by simp [hdefs, he])).2 hf)

/-- The restore of a panic creates every index that can be created. -/
theorem restoreQuietly_rows (defs : List Index) : ∀ {c : Catalog}, (defs.map Index.name).Nodup →
    ∀ x, x ∈ (restoreQuietly S defs c).rows ↔ x ∈ c.rows ∨ x ∈ defs ∧ ¬ Fails S c x := by
  -- By induction on the definitions; a definition that fails is passed over.
  induction defs with
  | nil => intro c _ x; simp [restoreQuietly]
  | cons d defs ih =>
    intro c hnodup x
    rw [List.map_cons, List.nodup_cons] at hnodup
    rw [restoreQuietly, ih hnodup.2, List.mem_cons]
    cases hd : create S d c with
    | none =>
      have hfails := create_eq_none.1 hd
      rw [Option.getD_none]
      constructor
      · exact fun h => h.imp_right fun h => ⟨Or.inr h.1, h.2⟩
      · rintro (h | ⟨rfl | h, hx⟩)
        · exact Or.inl h
        · exact absurd hfails hx
        · exact Or.inr ⟨h, hx⟩
    | some c₁ =>
      have hcan : ¬ Fails S c d := fun hf => absurd (create_eq_none.2 hf) (by simp [hd])
      obtain ⟨hhas, rfl⟩ := create_eq_some hd
      have hother : ∀ e ∈ defs, Fails S (c.insert d hhas) e ↔ Fails S c e := fun e he =>
        fails_insert hhas fun heq => hnodup.1 (heq ▸ List.mem_map_of_mem he)
      rw [Option.getD_some, mem_insert]
      constructor
      · rintro ((h | rfl) | ⟨h, hx⟩)
        · exact Or.inl h
        · exact Or.inr ⟨Or.inl rfl, hcan⟩
        · exact Or.inr ⟨Or.inr h, fun hf => hx ((hother x h).2 hf)⟩
      · rintro (h | ⟨rfl | h, hx⟩)
        · exact Or.inl (Or.inl h)
        · exact Or.inl (Or.inr rfl)
        · exact Or.inr ⟨h, fun hf => hx ((hother x h).1 hf)⟩

end Loops

/-! ## The ways a call goes -/

section Calls

variable {S : Statements} {load : Catalog → Exit ε α × Catalog} {c c₀ c₁ : Catalog}

/-- When the query of the indexes fails, nothing is loaded and nothing has changed. -/
theorem run_query (load : Catalog → Exit ε α × Catalog) (c : Catalog) (h : S.queryFails = true) :
    withBulkIndexesDropped S load c = (.returned (.error .sqlite), c) ∧
    afterLoad S load c = none := by
  rw [withBulkIndexesDropped, afterLoad, if_pos h, if_pos h]
  exact ⟨rfl, rfl⟩

/-- When a drop fails, nothing is loaded and what was dropped stays so. -/
theorem run_drop (load : Catalog → Exit ε α × Catalog) (h : S.queryFails = false)
    (hd : dropAll S c.bulkIndexDefs c = (false, c₀)) :
    withBulkIndexesDropped S load c = (.returned (.error .sqlite), c₀) ∧
    afterLoad S load c = none := by
  rw [withBulkIndexesDropped, afterLoad, if_neg (by simp [h]), if_neg (by simp [h])]
  dsimp only
  rw [hd]
  exact ⟨rfl, rfl⟩

/-- When the load panics, the indexes are restored quietly. -/
theorem run_panic (h : S.queryFails = false) (hd : dropAll S c.bulkIndexDefs c = (true, c₀))
    (hl : load c₀ = (.panicked, c₁)) :
    withBulkIndexesDropped S load c = (.panicked, restoreQuietly S c.bulkIndexDefs c₁) ∧
      afterLoad S load c = some (.panicked, c₁) := by
  rw [withBulkIndexesDropped, afterLoad, if_neg (by simp [h]), if_neg (by simp [h])]
  dsimp only
  rw [hd]
  dsimp only
  rw [hl]
  exact ⟨rfl, rfl⟩

/-- When the load returns, the indexes are restored and their failure is reported. -/
theorem run_return {out : Except ε α} (h : S.queryFails = false)
    (hd : dropAll S c.bulkIndexDefs c = (true, c₀)) (hl : load c₀ = (.returned out, c₁)) :
    withBulkIndexesDropped S load c = (.returned (outcome out (restore S c.bulkIndexDefs c₁).1),
        (restore S c.bulkIndexDefs c₁).2) ∧
      afterLoad S load c = some (.returned out, c₁) := by
  rw [withBulkIndexesDropped, afterLoad, if_neg (by simp [h]), if_neg (by simp [h])]
  dsimp only
  rw [hd]
  dsimp only
  rw [hl]
  exact ⟨rfl, rfl⟩

/-- The report says that indexes are missing iff the restore failed. -/
theorem saysUnindexed_outcome (out : Except ε α) (restored : Bool) :
    SaysUnindexed (.returned (outcome out restored) : Exit (BulkErr ε) α) ↔ restored = false := by
  cases out <;> cases restored <;> simp [outcome, SaysUnindexed]

end Calls

/-! ## The promise -/

section Promise

variable {S : Statements} {load : Catalog → Exit ε α × Catalog} {c c₀ c₁ : Catalog}

/-- A list is split in one way at the first element that does not pass a test. -/
theorem split_unique {β : Type} {P : β → Prop} {l pre pre' post post' : List β} {a a' : β}
    (h : l = pre ++ a :: post) (h' : l = pre' ++ a' :: post') (hpre : ∀ e ∈ pre, P e) (ha : ¬ P a)
    (hpre' : ∀ e ∈ pre', P e) (ha' : ¬ P a') : pre = pre' := by
  induction pre generalizing l pre' with
  | nil =>
    rcases pre' with _ | ⟨b, pre'⟩
    · rfl
    · obtain ⟨rfl, -⟩ := List.cons.inj (h.symm.trans h')
      exact absurd (hpre' _ (by simp)) ha
  | cons b pre ih =>
    rcases pre' with _ | ⟨b', pre'⟩
    · obtain ⟨rfl, -⟩ := List.cons.inj (h.symm.trans h')
      exact absurd (hpre _ (by simp)) ha'
    · obtain ⟨rfl, htail⟩ := List.cons.inj (h.symm.trans h')
      rw [ih rfl htail (fun e he => hpre e (by simp [he])) fun e he => hpre' e (by simp [he])]

/-- A `DROP` that fails: the call gives back what it did not take. -/
theorem givesBack_drop (h : S.queryFails = false) (hd : dropAll S c.bulkIndexDefs c = (false, c₀)) :
    GivesBack S load c ↔ Provided S load c := by
  obtain ⟨hrun, hafter⟩ := run_drop load h hd
  -- The loop stopped at `d`: the indexes before it are dropped, and nothing creates them again.
  obtain ⟨pre, d, post, hsplit, hpre, hnone, hrows⟩ := dropAll_false _ hd
  constructor
  · intro hback
    refine ⟨fun _ pre' d' post' hsplit' hpre' hnone' e he n hn hmem => ?_, ?_, ?_⟩
    · obtain rfl :=
        split_unique (P := fun e => S.drop e.name ≠ none) hsplit' hsplit hpre' (by simp [hnone'])
        hpre (by simp [hnone])
      obtain ⟨x, hx, hname⟩ := List.mem_map.1 hmem
      have hall := hback.indexes
      rw [hrun] at hall
      have hin := hall.resolve_right (by simp [SaysUnindexed]) x hx
      exact ((hrows x).1 hin).2 e he n hn hname
    · intro out c₁ hout
      rw [hafter] at hout
      simp at hout
    · intro c₁ hout
      rw [hafter] at hout
      simp at hout
  · intro hprov
    refine ⟨Or.inl fun x hx => ?_, ?_, ?_⟩
    · rw [hrun]
      refine (hrows x).2 ⟨mem_rows_of_def hx, fun e he n hn hname => ?_⟩
      exact hprov.drops h pre d post hsplit hpre hnone e he n hn (List.mem_map.2 ⟨x, hx, hname⟩)
    · intro out c₁ hout
      rw [hafter] at hout
      simp at hout
    · intro e c₁ hout
      rw [hafter] at hout
      simp at hout

/-- When the load panics, the guard restores quietly what its conditions provide. -/
theorem givesBack_panic (h : S.queryFails = false) (hd : dropAll S c.bulkIndexDefs c = (true, c₀))
    (hl : load c₀ = (.panicked, c₁)) : GivesBack S load c ↔ Provided S load c := by
  obtain ⟨hrun, hafter⟩ := run_panic h hd hl
  -- After a panic the guard restores what it can, whatever fails, so only those that fail are
  -- missing.
  have hrows := restoreQuietly_rows (S := S) c.bulkIndexDefs (c := c₁) (nodup_defs c)
  have hdrops := dropAll_true _ hd
  constructor
  · intro hback
    refine ⟨fun _ pre d post hsplit _ hnone => ?_, fun out c₂ hout => ?_,
      fun c₂ hout d hmem hfails => ?_⟩
    · exact absurd hnone (hdrops d (by simp [hsplit]))
    · rw [hafter] at hout
      simp at hout
    · rw [hafter] at hout
      obtain rfl : c₁ = c₂ := by simpa using hout
      have hall := hback.indexes
      rw [hrun] at hall
      have hin := hall.resolve_right (by simp [SaysUnindexed]) d hmem
      exact ((hrows d).1 hin).resolve_right fun hx => hx.2 hfails
  · intro hprov
    refine ⟨Or.inl fun d hmem => ?_, fun out c₂ hout d hmem hfails => ?_, fun e c₂ hout => ?_⟩
    · rw [hrun]
      by_cases hfails : Fails S c₁ d
      · exact (hrows d).2 (Or.inl (hprov.panics c₁ hafter d hmem hfails))
      · exact (hrows d).2 (Or.inr ⟨hmem, hfails⟩)
    · rw [hafter] at hout
      obtain rfl : c₁ = c₂ := by simpa using (Prod.mk.inj (Option.some.inj hout)).2
      rw [hrun]
      exact (hrows d).2 (Or.inr ⟨hmem, hfails⟩)
    · rw [hafter] at hout
      simp at hout

/-- When the load returns, the indexes are restored or the caller is told, under the conditions. -/
theorem givesBack_return {out : Except ε α} (h : S.queryFails = false)
    (hd : dropAll S c.bulkIndexDefs c = (true, c₀)) (hl : load c₀ = (.returned out, c₁)) :
    GivesBack S load c ↔ Provided S load c := by
  obtain ⟨hrun, hafter⟩ := run_return h hd hl
  have hdrops := dropAll_true _ hd
  obtain ⟨b, c₂, hrestore⟩ : ∃ b c₂, restore S c.bulkIndexDefs c₁ = (b, c₂) := ⟨_, _, rfl⟩
  rw [hrestore] at hrun
  dsimp only at hrun
  obtain ⟨pre, post, hdefs, hrows, hdone, hstop, hpre⟩ := restore_rows _ (nodup_defs c) hrestore
  have hnodup := nodup_defs c
  -- what is behind the first failure is not in the catalogue, unless its name was
  have hgone : ∀ e ∈ post, ¬ Fails S c₁ e → e ∉ c₂.rows := by
    intro e he hfails hmem
    rcases (hrows e).1 hmem with hmem | hmem
    · exact hfails (Or.inr (List.mem_map_of_mem hmem))
    · rw [hdefs, List.map_append, List.nodup_append] at hnodup
      exact hnodup.2.2 _ (List.mem_map_of_mem hmem) _ (List.mem_map_of_mem he) rfl
  constructor
  · intro hback
    refine ⟨fun _ pre' d post' hsplit _ hnone => ?_,
      fun out' c₃ hout pre' d post' hsplit hfails e he => ?_,
      fun c₃ hout => ?_⟩
    · exact absurd hnone (hdrops d (by simp [hsplit]))
    · rw [hafter] at hout
      obtain ⟨-, rfl⟩ : out = out' ∧ c₁ = c₃ := by simpa using hout
      by_contra hcan
      have hin := hback.rebuilt _ _ hafter e (by simp [hsplit, he]) hcan
      rw [hrun] at hin
      -- the failing one comes first, so the other one is behind the first failure
      refine hgone e ?_ hcan hin
      rcases List.append_eq_append_iff.1 (hdefs.symm.trans hsplit) with ⟨mid, -, rfl⟩ | ⟨mid,
        rfl, hpost⟩
      · simp [he]
      · rcases mid with _ | ⟨d', mid⟩
        · rw [← List.nil_append post, ← hpost]
          simp [he]
        · obtain ⟨rfl, -⟩ := List.cons.inj hpost
          exact absurd hfails (hpre d (by simp))
    · rw [hafter] at hout
      simp at hout
  · intro hprov
    refine ⟨?_, fun out' c₃ hout d hmem hfails => ?_, fun e c₃ hout v => ?_⟩
    · rw [hrun, saysUnindexed_outcome]
      cases b with
      | false => exact Or.inr rfl
      | true =>
        left
        intro d hmem
        rw [hdefs, hdone rfl, List.append_nil] at hmem
        exact (hrows d).2 (Or.inr hmem)
    · rw [hafter] at hout
      obtain rfl : c₁ = c₃ := (Prod.mk.inj (Option.some.inj hout)).2
      rw [hrun]
      rw [hdefs] at hmem
      rcases List.mem_append.1 hmem with hmem | hmem
      · exact (hrows d).2 (Or.inr hmem)
      · cases b with
        | true =>
          rw [hdone rfl] at hmem
          simp at hmem
        | false =>
          obtain ⟨e, post', rfl, he⟩ := hstop rfl
          rcases List.mem_cons.1 hmem with rfl | hmem
          · exact absurd he hfails
          · exact absurd (hprov.creates _ _ hafter pre e post' hdefs he d hmem) hfails
    · rw [hafter] at hout
      obtain ⟨rfl, -⟩ : out = .error e ∧ c₁ = c₃ := by simpa using hout
      rw [hrun]
      cases b <;> simp [outcome]

/-- The call gives the indexes back exactly when no statement goes wrong where it does not provide
for it. -/
theorem givesBack_iff {ε α : Type} (S : Statements) (load : Catalog → Exit ε α × Catalog)
    (c : Catalog) :
    GivesBack S load c ↔ Provided S load c := by
  cases h : S.queryFails with
  | true =>
    obtain ⟨hrun, hafter⟩ := run_query load c h
    refine iff_of_true ⟨Or.inl fun d hd => ?_, ?_, ?_⟩ ⟨fun hfalse => ?_, ?_, ?_⟩
    · rw [hrun]
      exact mem_rows_of_def hd
    · simp [hafter]
    · simp [hafter]
    · simp [h] at hfalse
    · simp [hafter]
    · simp [hafter]
  | false =>
    obtain ⟨b, c₀, hd⟩ : ∃ b c₀, dropAll S c.bulkIndexDefs c = (b, c₀) := ⟨_, _, rfl⟩
    cases b with
    | false => exact givesBack_drop h hd
    | true =>
      obtain ⟨out, c₁, hl⟩ : ∃ out c₁, load c₀ = (out, c₁) := ⟨_, _, rfl⟩
      cases out with
      | panicked => exact givesBack_panic h hd hl
      | returned out => exact givesBack_return h hd hl

/-- Two indexes of `vm_fs`. -/
def twoIndexes : Catalog :=
  ⟨[⟨['a'], "vm_fs".toList, some ['A']⟩, ⟨['b'], "vm_fs".toList, some ['B']⟩], by decide⟩

/-- The `DROP` of the second of two indexes fails: the first is gone, and the error does not say so.
-/
theorem not_givesBack_drop :
    ¬ ∀ (S : Statements) (load : Catalog → Exit Unit Unit × Catalog) (c : Catalog),
    GivesBack S load c := by
  intro h
  have hprov :=
    (givesBack_iff _ _ _).1 (h ⟨false, fun n => if n = ['b'] then none else some n, fun _ => false⟩
    (fun c => (.returned (.ok ()), c)) twoIndexes)
  have hdefs : twoIndexes.bulkIndexDefs = [⟨['a'], "vm_fs".toList, some ['A']⟩] ++
      ⟨['b'], "vm_fs".toList, some ['B']⟩ :: [] := by decide
  exact hprov.drops rfl _ _ _ hdefs (by decide) (by decide) _ (List.mem_singleton_self _) ['a']
    (by decide)
    (by decide)

end Promise

end Dbvm.Bulk
