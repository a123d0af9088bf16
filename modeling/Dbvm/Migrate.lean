import Dbvm.Counters

/-!
# Older schemas

The upgrade of an older database (`vm_migrate` of `src/vm/schema.rs`). Up to schema 4 a file has one
blob, named by `vm_fs.hash`; up to schema 3 the names are texts. The counters come with schema 3,
and the upgrade to schema 4 computes them anew; from then on the triggers keep them, through the
deletion of blobs that the upgrade to schema 5 makes. The upgrades after that add tables and
columns.
-/

namespace Dbvm

open Lib Lib.Prog

/-- A database of the schemas 1 to 4. `H` is the type of the keys of blobs. The column `mtime_ns` is
0 and `dict_id` is 0: they come later. -/
structure OldDb (H : Type) where
  /-- `vm_fs`. -/
  fs : Table Str (FsRow H)
  /-- `vm_blobs`. -/
  blobs : Store H Block
  /-- `vm_snapshots`, rows without content. -/
  snapshots : Table ℕ Str
  /-- `vm_dict`. -/
  dict : Option Bytes
  /-- The counters of `vm_meta`; 0 where there is none. -/
  counters : Counters

variable {H K : Type} [DecidableEq H] [DecidableEq K]

/-- `VM_COUNTERS_INIT_SQL`. -/
def Counters.init (fs : Table Str (FsRow H)) (blobs : Store H Block) : Counters where
  countFile := ((fs.rows.filter fun r => r.2.kind = .file).length : ℤ)
  countDir := ((fs.rows.filter fun r => r.2.kind = .dir).length : ℤ)
  countSymlink := ((fs.rows.filter fun r => r.2.kind = .symlink).length : ℤ)
  logicalBytes := ((fs.rows.filter fun r => r.2.kind = .file).map fun r => (r.2.size : ℤ)).sum
  blobBytes := (blobs.rows.map fun r => (r.2.val.body.length : ℤ)).sum

/-- The counts of the blobs computed from a number of references, and the blobs without one deleted.
-/
def recount (blobs : Store H Block) (refs : H → ℕ) : Store H Block :=
  (blobs.mapRows fun k c => { c with refcnt := refs k }).deleteWhere fun _ c => c.refcnt = 0

/-- The number of rows of `vm_fs` with a hash. -/
def OldDb.hashRefs (fs : Table Str (FsRow H)) (k : H) : ℕ :=
  (fs.rows.filter fun r => r.2.hash = .key k).length

/-- `migrate_1_to_2`. -/
def migrate1to2 (db : OldDb H) : OldDb H :=
  { db with blobs := recount db.blobs (OldDb.hashRefs db.fs) }

/-- `migrate_2_to_3`. -/
def migrate2to3 (db : OldDb H) : OldDb H := { db with counters := Counters.init db.fs db.blobs }

/-- One blob of `migrate_3_to_4`: it is stored under the hash of its content, and the new key is
noted. -/
def rekeyBlob (E : Ext K) (st : Store K Block × List (Str × K)) (r : Str × Cell Block) :
    Except Err (Store K Block × List (Str × K)) := do
  let raw ← (decompressBytesRaw E r.2.val.body r.2.val.flag).mapError Err.codec
  let key := E.blobKey raw
  .ok (st.1.insertIgnore key ⟨⟨r.2.val.toEnc, raw.length⟩, 0⟩, (r.1, key) :: st.2)

/-- A hash under its new name; one that names no blob becomes `NULL`. -/
def rekeyHash (keyMap : List (Str × K)) : FileHash Str → FileHash K
  | .key k => (keyMap.lookup k).elim .null .key
  | _ => .null

/-- `migrate_3_to_4`. -/
def migrate3to4 (E : Ext K) (db : OldDb Str) : Except Err (OldDb K) := do
  let (blobs, keyMap) ← db.blobs.rows.foldlM (rekeyBlob E) (Table.empty, [])
  let fs := db.fs.mapRows fun _ row =>
    ({ row with hash := rekeyHash keyMap row.hash } : FsRow K)
  let blobs := recount blobs (OldDb.hashRefs fs)
  .ok { fs := fs, blobs := blobs, snapshots := db.snapshots, dict := db.dict
        counters := Counters.init fs blobs }

/-- The steps of `vm_migrate` from a schema up to 3 to schema 4. -/
def migrateTexts (E : Ext K) (ver : ℕ) (db : OldDb Str) : Except Err (OldDb K) :=
  let db := if ver ≤ 1 then migrate1to2 db else db
  let db := if ver ≤ 2 then migrate2to3 db else db
  migrate3to4 E db

/-- The chunk rows of `migrate_4_to_5`: one for each file that names a blob. -/
def oldChunks (fs : Table Str (FsRow K)) : Table (Str × ℕ) K :=
  fs.rows.foldl (fun t r => match r.2.kind, r.2.hash with
    | .file, .key k => t.insertIgnore (r.1, 0) k
    | _, _ => t) Table.empty

/-- `migrate_4_to_5`. The blobs that no chunk names are deleted under `vm_cnt_blob_del`. The tables
of later schemas are empty. -/
def migrate4to5 (db : OldDb K) : Db K :=
  let chunks := oldChunks db.fs
  let blobs := recount db.blobs chunks.count
  { fs := db.fs, chunks := chunks, blobs := blobs, dirty := [], dicts := Table.empty
    snapshots := db.snapshots, snapFs := Table.empty, snapChunks := Table.empty, undo := Table.empty
    undoFs := Table.empty, undoChunks := Table.empty
    counters := (db.blobs.rows.filter fun r => chunks.count r.1 = 0).foldl
      (fun c r => c.addBlobBytes (-(r.2.val.body.length : ℤ))) db.counters
    policies := [], bypass := false }

/-- `migrate_5_to_6`: the dictionary becomes the first of many, and the blobs that need it name it.
-/
def migrate5to6 (dict : Option Bytes) (db : Db K) : Db K :=
  { db with
    dicts := match dict with
      | some d => db.dicts.insertIgnore 1 d
      | none => db.dicts
    blobs := db.blobs.mapRows fun _ c =>
      if c.val.flag = 3 ∧
      c.val.dictId = 0 then { c with val := { c.val with dictId := 1 } } else c }

/-! ## Databases of older schemas -/

/-- A statement on a database of schema 4, under its counter triggers. -/
inductive OldDb.Write : OldDb K → OldDb K → Prop where
  /-- A new row. -/
  | addFs {db : OldDb K} {p : Str} (row : FsRow K) (h : db.fs.get? p = none) :
      Write db { db with fs := db.fs.insertIgnore p row, counters := db.counters.insFs row.toFsMeta
        }
  /-- A row changes. -/
  | setFs {db : OldDb K} {p : Str}
      {row : FsRow K} (f : FsRow K → FsRow K) (h : db.fs.get? p = some row) :
      Write db { db with
        fs := db.fs.update p f
        counters := db.counters.updFs row.toFsMeta (f row).toFsMeta }
  /-- Rows are deleted. -/
  | delFs {db : OldDb K} (sel : Str → FsRow K → Bool) :
      Write db { db with
        fs := db.fs.deleteWhere sel
        counters := (db.fs.select sel).foldl (fun c r => c.delFs r.2.toFsMeta) db.counters }
  /-- A new blob. -/
  | addBlob {db : OldDb K} {k : K} (b : Cell Block) (h : db.blobs.get? k = none) :
      Write db { db with
        blobs := db.blobs.insertIgnore k b
        counters := db.counters.addBlobBytes b.val.body.length }
  /-- A blob changes. -/
  | setBlob {db : OldDb K} {k : K} {b : Cell Block} (f : Cell Block → Cell Block)
      (h : db.blobs.get? k = some b) :
      Write db { db with
        blobs := db.blobs.update k f
        counters := db.counters.addBlobBytes ((f b).val.body.length - b.val.body.length) }
  /-- A reference to a blob is dropped, and the blob with the last one. -/
  | release {db : OldDb K} (k : K) :
      Write db { db with
        blobs := db.blobs.release k
        counters := Counters.released db.blobs db.counters [k] }
  /-- Snapshot rows and the dictionary change. -/
  | other {db : OldDb K} (snapshots : Table ℕ Str) (dict : Option Bytes) :
      Write db { db with snapshots := snapshots, dict := dict }

/-- The databases of schema 4: upgraded from any database with text keys, or created, and written
to. -/
inductive OldDb.Schema4 (E : Ext K) : OldDb K → Prop where
  /-- `vm_migrate`, from schema `ver`. -/
  | migrated (ver : ℕ) (old : OldDb Str) {db : OldDb K} (h : migrateTexts E ver old = .ok db) :
      Schema4 E db
  /-- `vm_schema_sql` of schema 4. -/
  | created : Schema4 E ⟨Table.empty, Table.empty, Table.empty, none, ⟨0, 0, 0, 0, 0⟩⟩
  /-- A statement. -/
  | write {db db' : OldDb K} (h : Schema4 E db) (hw : Write db db') : Schema4 E db'

/-- The databases of the schemas 5 to 13: upgraded from one of schema 4, or created, and written to.
The upgrades after schema 6 change no row. -/
inductive Db.Opened (E : Ext K) : Db K → Prop where
  /-- `init_vm_db`. -/
  | init (now : ℤ) : Opened E (initDb now)
  /-- The upgrade from schema 4. -/
  | migrated {old : OldDb K} (h : OldDb.Schema4 E old) : Opened E (migrate4to5 old)
  /-- The upgrade from schema 5. -/
  | dicts {db : Db K} (h : Opened E db) (dict : Option Bytes) : Opened E (migrate5to6 dict db)
  /-- A statement. -/
  | write {db db' : Db K} (h : Opened E db) (hw : Db.Effect db db') : Opened E db'

/-! ## The counters through the upgrades -/

omit [DecidableEq H] in
/-- The counters that a migration computes are exact. -/
theorem Counters.exact_init (fs : Table Str (FsRow H)) (blobs : Store H Block) :
    (Counters.init fs blobs).Exact fs blobs := by
  refine ⟨fun kind => ?_, rfl, rfl⟩
  rcases kind with _ | _ | _ <;> rfl

/-- Every write to an old database keeps its counters exact. -/
theorem OldDb.Write.countersExact {db db' : OldDb K} (hw : OldDb.Write db db')
    (h : db.counters.Exact db.fs db.blobs) : db'.counters.Exact db'.fs db'.blobs := by
  cases hw with
  | addFs row hp => exact h.insFs hp row
  | setFs f hp => exact h.updFs hp f
  | delFs sel => exact h.delFs sel
  | addBlob b hk => exact h.addBlobBytes (Table.total_insertIgnore hk _ _)
  | @setBlob k b f hk =>
    refine h.addBlobBytes ?_
    have htotal := Table.total_update hk f fun b => b.val.stored
    change Table.total _ _ = Table.total _ _ + _
    rw [htotal]
    simp only [Block.stored]
    omega
  | release k => exact h.released [k]
  | other _ _ => exact h

/-- From schema 4 on the counters are right, whatever they were before. -/
theorem OldDb.Schema4.countersExact {E : Ext K} {db : OldDb K} (h : OldDb.Schema4 E db) :
    db.counters.Exact db.fs db.blobs := by
  induction h with
  | migrated ver old hm =>
    unfold migrateTexts migrate3to4 at hm
    dsimp only at hm
    rcases hfold : (List.foldlM (rekeyBlob E) (Table.empty, [])
      (if ver ≤ 2 then migrate2to3 (if ver ≤ 1 then migrate1to2 _ else _) else
        (if ver ≤ 1 then migrate1to2 _ else _)).blobs.rows) with e | ⟨blobs, keyMap⟩
    · rw [hfold] at hm
      cases hm
    · rw [hfold] at hm
      cases hm
      exact Counters.exact_init _ _
  | created => exact Counters.exact_init Table.empty Table.empty
  | write _ hw ih => exact hw.countersExact ih

omit [DecidableEq K] in
/-- What the deletion of blobs takes from the counters. -/
theorem Counters.Exact.dropBlobs {fs : Table Str (FsRow K)} (dead : List (K × Cell Block)) :
    ∀ {c : Counters} {blobs blobs' : Store K Block}, c.Exact fs blobs →
      blobs.total Block.stored = blobs'.total Block.stored +
      (dead.map fun r => r.2.val.stored).sum →
      (dead.foldl (fun c r => c.addBlobBytes (-(r.2.val.body.length : ℤ))) c).Exact fs blobs' := by
  intro c blobs blobs' h hsum
  have hfold : ∀ (l : List (K × Cell Block)) (c : Counters),
      l.foldl (fun c r => c.addBlobBytes (-(r.2.val.body.length : ℤ))) c =
        c.addBlobBytes (-(l.map fun r => r.2.val.stored).sum) := by
    intro l
    induction l with
    | nil => exact fun c => by simp [Counters.addBlobBytes]
    | cons r l ih =>
      intro c
      rw [List.foldl_cons, ih, List.map_cons, List.sum_cons]
      simp only [Counters.addBlobBytes, Block.stored]
      congr 1
      omega
  rw [hfold]
  exact h.addBlobBytes (by omega)

/-- The upgrade to schema 5 deletes blobs under the triggers. -/
theorem countersExact_migrate4to5 {db : OldDb K} (h : db.counters.Exact db.fs db.blobs) :
    (migrate4to5 db).CountersExact := by
  refine Counters.Exact.dropBlobs _ h ?_
  have hmap :
    Store.total (db.blobs.mapRows fun k c => { c with refcnt := ((oldChunks db.fs).count k : ℤ) })
      Block.stored = db.blobs.total Block.stored := Table.total_mapRows fun _ _ => rfl
  have hdel := Table.total_deleteWhere
    (db.blobs.mapRows fun k c => { c with refcnt := ((oldChunks db.fs).count k : ℤ) })
    (fun _ c => c.refcnt = 0) fun c => c.val.stored
  -- The rows that are deleted are the ones whose key no chunk has.
  have hsel :
      (((db.blobs.mapRows fun k c => { c with refcnt := ((oldChunks db.fs).count k : ℤ) }).select
      fun _ c => c.refcnt = 0).map fun r => r.2.val.stored) =
        (db.blobs.rows.filter fun r => (oldChunks db.fs).count r.1 = 0).map fun r =>
        r.2.val.stored := by
    simp only [Table.select, Table.mapRows, List.filter_map, List.map_map]
    congr 1
    refine List.filter_congr fun r _ => ?_
    simp
  rw [hsel] at hdel
  rw [← hmap]
  exact hdel.symm

/-- A database that has been opened has exact counters. -/
theorem Db.Opened.countersExact {E : Ext K} {db : Db K} (h : Db.Opened E db) :
    db.CountersExact := by
  induction h with
  | init now => exact countersExact_initDb now
  | migrated h4 => exact countersExact_migrate4to5 h4.countersExact
  | @dicts db _ dict ih =>
    have htotal : (migrate5to6 dict db).blobs.total Block.stored = db.blobs.total Block.stored := by
      unfold migrate5to6 Store.total
      dsimp only
      refine Table.total_mapRows fun _ c => ?_
      split_ifs <;> rfl
    exact Counters.Exact.of_totals ih (fun _ => rfl) htotal
  | write _ hw ih => exact hw.countersExact ih

/-- A database of schema 1, with a file of two bytes, a blob that no row names, and no counters. -/
def schema1Db : OldDb Str where
  fs :=
    ⟨[(root, dirRow 493 0), ("/a".toList, (dirRow 420 0).toFile 420 0 2 (.key "k1".toList))],
      by decide⟩
  blobs :=
    ⟨[("k1".toList, ⟨⟨⟨[104, 105], 0, 0⟩, 2⟩, 1⟩), ("k2".toList, ⟨⟨⟨[7], 0, 0⟩, 1⟩, 5⟩)], by decide⟩
  snapshots := Table.empty
  dict := none
  counters := ⟨0, 0, 0, 0, 0⟩

end Dbvm
