import Dbvm.TreeOps
import Dbvm.Undo.Sync

/-!
# Injection

What a package brings into a target (`src/inject.rs`). The merge copies rows, chunk rows and blobs
as they are and renames the dictionaries; blobs are shared by hash, so a blob of the package stands
from then on for every content with its hash. The verification at the end counts rows and references
and decodes nothing. So an injection that returns is exact when the package can be read: every chunk
row of it names a blob that decodes to bytes with that hash, every file is the whole of its chunks,
and no blob uses a dictionary with the id 0, which is not renamed (`injectFile_exact_iff`).
-/

namespace Dbvm

open Lib Lib.Chunks Lib.Prog

variable {K : Type} [DecidableEq K] {E : Ext K} {pkg d d' s : Db K} {p : Str} {k : K} {u : Unit}

/-! ## The call -/

/-- A connection to a target, with the package that is attached to it. -/
structure Target (K : Type) where
  /-- The target. -/
  db : Db K
  /-- The package. -/
  pkg : Option (Db K)

/-- `ATTACH`. -/
def attach (pkg : Db K) : EStateM Err (Target K) Unit := fun s => .ok () { s with pkg := some pkg }

/-- `DETACH`. -/
def detach : EStateM Err (Target K) Unit := fun s => .ok () { s with pkg := none }

/-- A program on the target that reads the attached package. -/
def merging {α : Type} (x : Db K → Sql K α) : EStateM Err (Target K) α := fun s =>
  match s.pkg with
  | none => .error (.notFound root) s
  | some pkg =>
    match x pkg s.db with
    | .ok a db => .ok a { s with db := db }
    | .error e db => .error e { s with db := db }

/-- `inject` of a package file that has passed the checks on its own connection. -/
def injectFile (E : Ext K) (base : Option (Db K)) (pkg : Db K) :
    EStateM Err (Target K) InjectReport := do
  attach pkg
  let res ← Prog.attempt (merging (Dbvm.inject E base))
  detach
  match res with
  | .ok rep => return rep
  | .error e => throw e

/-- The package is detached in any case, and nothing is left of an injection that fails. -/
theorem injectFile_eq {base : Option (Db K)} {t : Target K} : injectFile E base pkg t =
    match Dbvm.inject E base pkg t.db with
    | .ok rep db => .ok rep ⟨db, none⟩
    | .error e db => .error e ⟨db, none⟩ := by
  have hattach : attach pkg t = .ok () ⟨t.db, some pkg⟩ := rfl
  unfold injectFile
  rw [bind_of_ok hattach]
  rcases hx : Dbvm.inject E base pkg t.db with ⟨rep, db⟩ | ⟨e, db⟩
  · have hrun : merging (Dbvm.inject E base) (⟨t.db, some pkg⟩ : Target K) = .ok rep ⟨db,
      some pkg⟩ := by
      unfold merging
      dsimp only
      rw [hx]
    rw [bind_of_ok (attempt_of_ok hrun)]
    rfl
  · have hrun : merging (Dbvm.inject E base) (⟨t.db, some pkg⟩ : Target K) = .error e ⟨db,
      some pkg⟩ := by
      unfold merging
      dsimp only
      rw [hx]
    rw [bind_of_ok (attempt_of_error hrun)]
    rfl

/-! ## What an injection should do -/

/-- The path of a package that is injected. -/
def Db.Brings (pkg : Db K) (p : Str) : Prop := p ≠ root ∧ pkg.fs.has p = true

/-- A chunk row that is injected names the blob. -/
def Db.Names (pkg : Db K) (k : K) : Prop := ∃ p i, pkg.Brings p ∧ pkg.chunks.get? (p, i) = some k

/-- The content of the regular file at a path. -/
def Db.Reads (E : Ext K) (db : Db K) (p : Str) (b : Bytes) : Prop :=
  ∃ row, db.fs.get? p = some row ∧ row.kind = .file ∧ db.rowContent E p row = .ok b

/-- A path of the package is in the target as it is in the package. -/
structure Arrived (E : Ext K) (pkg d' : Db K) (p : Str) (row : FsRow K) : Prop where
  /-- The row. -/
  entry : ∃ row', d'.fs.get? p = some row' ∧ row'.kind = row.kind ∧ row'.mode = row.mode ∧
    row'.linkTarget = row.linkTarget
  /-- The chunks. -/
  chunks : ∀ i k, pkg.chunks.get? (p, i) = some k → d'.chunks.get? (p, i) = some k ∧
    ∃ piece, pkg.Decodes E k piece ∧ d'.Decodes E k piece
  /-- The content of a file. -/
  content : row.kind = .file → ∃ b, pkg.Reads E p b ∧ d'.Reads E p b

/-- A path that the package does not bring is as it was, but for a pending hash, and can be read as
before. -/
structure Untouched (E : Ext K) (d d' : Db K) (p : Str) : Prop where
  /-- The row. -/
  row : (d'.fs.get? p).map FsRow.unhashed = (d.fs.get? p).map FsRow.unhashed
  /-- No hash was pending. -/
  settled : p ∉ d.dirty → d'.fs.get? p = d.fs.get? p
  /-- The content of a file. -/
  content : ∀ b, d.Reads E p b → d'.Reads E p b

/-- The databases after more calls of `vm_add_bytes`, whether they return or fail. -/
inductive Adds (E : Ext K) (d : Db K) : Db K → Prop where
  /-- None. -/
  | none : Adds E d d
  /-- One more. -/
  | add {s : Db K} (h : Adds E d s) (vmPath : Str) (data : Bytes) (mode mtime now : ℤ) :
      Adds E d (endState (vmAddBytes E vmPath data mode mtime now) s)

/-- The codec gives back what it makes of a piece. -/
def Ext.GivesBack (E : Ext K) (dicts : Table ℕ Bytes) (piece : Bytes) : Prop :=
  decodeBlock E dicts (encodeBlock E dicts piece .archive) = .ok piece

/-- Content that is stored later reads back, if the codec gives back what it makes of its pieces. -/
def Db.StoresLater (E : Ext K) (d' : Db K) : Prop :=
  ∀ s, Adds E d' s → ∀ vmPath data mode mtime now s',
    (∀ i, i < numChunks chunkSize data.length → E.GivesBack d'.dicts (chunkAt chunkSize data i)) →
    vmAddBytes E vmPath data mode mtime now s = .ok () s' → vmCat E s' vmPath = .ok data

/-- A blob of the target is one it had, or one of the package under the new id of its dictionary. -/
def Db.BlobFrom (pkg d : Db K) (ids : ℕ → ℕ) (k : K) (b : Block) : Prop :=
  (∃ c, d.blobs.get? k = some c ∧ b = c.val) ∨
    pkg.Names k ∧ ∃ c, pkg.blobs.get? k = some c ∧ b = { c.val with dictId := ids c.val.dictId }

/-- The new ids of the package's dictionaries denote the same dictionaries in the target. -/
structure Renamed (pkg d d' : Db K) (ids : ℕ → ℕ) : Prop where
  /-- No dictionary is no dictionary. -/
  zero : ids 0 = 0
  /-- The blobs. -/
  blobs : ∀ k c, d'.blobs.get? k = some c → pkg.BlobFrom d ids k c.val
  /-- The dictionaries. -/
  dicts : ∀ k c, pkg.Names k → pkg.blobs.get? k = some c → c.val.flag = 3 →
    d'.dicts.get? (ids c.val.dictId) = pkg.dicts.get? c.val.dictId

/-- An exact injection. -/
structure Injected (E : Ext K) (pkg d d' : Db K) : Prop where
  /-- The package's paths. -/
  paths : ∀ p row, p ≠ root → pkg.fs.get? p = some row → Arrived E pkg d' p row
  /-- The other paths. -/
  others : ∀ p, ¬ pkg.Brings p → Untouched E d d' p
  /-- What is stored later. -/
  later : d'.StoresLater E
  /-- The dictionaries. -/
  dicts : ∃ ids, Renamed pkg d d' ids

/-- A package that can be read. -/
structure Db.Readable (E : Ext K) (pkg d : Db K) : Prop where
  /-- Every chunk row names a blob that decodes to bytes with its hash. -/
  chunks : ∀ k, pkg.Names k → ∃ piece, pkg.Decodes E k piece
  /-- Every file is the whole of its chunks. -/
  files : ∀ p row, p ≠ root → pkg.fs.get? p = some row → row.kind = .file →
    row.hash ≠ .null ∧ ∃ b, fileBytes E pkg p = .ok b
  /-- The dictionary 0, which no database makes, is what the target has under that id. -/
  zero : ∀ k c, pkg.Names k → pkg.blobs.get? k = some c → c.val.flag = 3 → c.val.dictId = 0 →
    d.dicts.get? 0 = pkg.dicts.get? 0

/-! ## The dictionaries -/

/-- The new id of a dictionary. -/
def newId (dictMap : List (ℕ × ℕ)) (i : ℕ) : ℕ := if i = 0 then 0 else (dictMap.lookup i).getD 0

omit [DecidableEq K] in
/-- What the renaming of the dictionaries does. -/
theorem injectDicts_ok :
    ∀ {pids : List ℕ} {m : List (ℕ × ℕ)} {d d' : Db K}, injectDicts pkg pids d = .ok m d' →
    (∃ dicts, d' = { d with dicts := dicts } ∧
      (∀ i, d.dicts.get? i ≠ none → dicts.get? i = d.dicts.get? i) ∧ dicts.get? 0 = d.dicts.get? 0 ∧
      ∀ i n, m.lookup i = some n → dicts.get? n = pkg.dicts.get? i ∧ dicts.get? n ≠ none) ∧
    ∀ i ∈ pids, ∃ n, m.lookup i = some n
  | [], m, d, d', hx => by
    cases hx
    exact ⟨⟨d.dicts, rfl, fun _ _ => rfl, rfl, fun i n h => by cases h⟩, fun i hi => by cases hi⟩
  | pid :: pids, m, d, d', hx => by
    rw [injectDicts] at hx
    obtain ⟨dict, d₀, hq, hx⟩ := bind_eq_ok.1 hx
    obtain ⟨hdict, hd₀⟩ := query_eq_ok.1 hq
    have hpkg : pkg.dicts.get? pid = some dict := by
      rcases hp : pkg.dicts.get? pid with _ | dict'
      · rw [hp] at hdict
        cases hdict
      · rw [hp] at hdict
        cases hdict
        rfl
    rw [hd₀] at hx
    obtain ⟨id, d₁, hset, hx⟩ := bind_eq_ok.1 hx
    obtain ⟨tail, d₂, hrest, hx⟩ := bind_eq_ok.1 hx
    cases hx
    have hset' : id = nextId d.dicts ∧
      d₁ = { d with dicts := d.dicts.insertIgnore (nextId d.dicts) dict } := by
      cases hset
      exact ⟨rfl, rfl⟩
    obtain ⟨hid, hd₁⟩ := hset'
    obtain ⟨⟨dicts, hd', hold, hzero, hnew⟩, hall⟩ := injectDicts_ok hrest
    -- By induction on the numbers: the first dictionary is found or added, the rest after it.
    have hget : ∀ i, d₁.dicts.get? i = if i = id then some dict else d.dicts.get? i := by
      intro i
      rw [hd₁, hid]
      show (d.dicts.insertIgnore _ _).get? i = _
      rw [Table.get?_insertIgnore, get?_nextId]
      rfl
    have hfresh : d.dicts.get? id = none := by rw [hid]; exact get?_nextId _
    have hpos : 0 < id := by rw [hid]; exact Nat.succ_pos _
    refine ⟨⟨dicts, by rw [hd', hd₁], fun i hi => ?_, ?_, fun i n hn => ?_⟩, fun i hi => ?_⟩
    · have hne : i ≠ id := by
        rintro rfl
        exact hi hfresh
      have hsame : d₁.dicts.get? i = d.dicts.get? i := by rw [hget, if_neg hne]
      rw [hold i (by rw [hsame]; exact hi), hsame]
    · rw [hzero, hget, if_neg (by omega)]
    · rw [List.lookup_cons] at hn
      split at hn
      · rename_i heq
        cases hn
        have hi : i = pid := by simpa using heq
        have hhere : dicts.get? id = some dict := by
          rw [hold id (by rw [hget, if_pos rfl]; exact nofun), hget, if_pos rfl]
        rw [hi, hpkg, hhere]
        exact ⟨rfl, nofun⟩
      · exact hnew i n hn
    · rw [List.lookup_cons]
      split
      · exact ⟨_, rfl⟩
      · rename_i heq
        rcases List.mem_cons.1 hi with rfl | hi
        · simp at heq
        · exact hall i hi

/-! ## The rows -/

/-- The rows after the paths of `done`. -/
structure MergedRows (pkg d : Db K) (done : List Str) (s : Db K) : Prop where
  /-- The rows. -/
  fs : ∀ q, s.fs.get? q = if q ∈ done then (pkg.fs.get? q).map FsRow.copied else d.fs.get? q
  /-- The chunk rows. -/
  chunks : ∀ q i, s.chunks.get? (q, i) = if q ∈ done then pkg.chunks.get? (q, i)
    else d.chunks.get? (q, i)
  /-- The marks. -/
  dirty : ∀ q ∈ s.dirty, q ∈ d.dirty ∧ q ∉ done

/-- By induction on the paths, every one is merged. -/
theorem MergedRows.paths {m : List (ℕ × ℕ)}
    (hrows : ∀ q, d.fs.get? q = none → ∀ i, d.chunks.get? (q, i) = none)
    (hmarks : ∀ q ∈ d.dirty, d.fs.get? q ≠ none) :
    ∀ {rest done : List Str} {rep rep' : InjectReport} {s s' : Db K},
      (∀ q ∈ rest, pkg.fs.has q = true) →
      (done ++ rest).Nodup → MergedRows pkg d done s →
      rest.foldlM (injectPath pkg m) rep s = .ok rep' s' →
      MergedRows pkg d (done ++ rest) s'
  | [], done, _, _, s, s', _, _, h, hx => by
    cases hx
    rw [List.append_nil]
    exact h
  | p :: rest, done, rep, rep', s, s', hall, hnd, h, hx => by
    rw [List.foldlM_cons] at hx
    obtain ⟨rep₁, s₁, hone, hx⟩ := bind_eq_ok.1 hx
    obtain ⟨row, hrow⟩ := Table.has_eq_true.1 (hall p List.mem_cons_self)
    -- By induction on the paths: the first one is merged into rows that no earlier one has
    -- touched.
    have hp : p ∉ done := by
      intro hmem
      exact (List.disjoint_of_nodup_append hnd) hmem List.mem_cons_self
    have hfs : s.fs.get? p = d.fs.get? p := by rw [h.fs, if_neg hp]
    obtain ⟨hfs₁, hchunks, hdirty₁⟩ := injectPath_ok hrow hone
    have hch₁ := hchunks fun hnone i => by
      rw [h.chunks, if_neg hp]
      exact hrows p (hfs.symm.trans hnone) i
    have hnext : MergedRows pkg d (done ++ [p]) s₁ := by
      refine ⟨fun q => ?_, fun q i => ?_, fun q hq => ?_⟩
      · rw [hfs₁, h.fs]
        by_cases hq : q = p
        · rw [if_pos hq, if_pos (by simp [hq]), hq, hrow]
          rfl
        · simp [hq]
      · rw [hch₁, h.chunks]
        by_cases hq : q = p
        · rw [if_pos hq, if_pos (by simp [hq]), hq]
        · simp [hq]
      · obtain ⟨hmem, hor⟩ := (hdirty₁ q).1 hq
        obtain ⟨hd, hdone⟩ := h.dirty q hmem
        refine ⟨hd, ?_⟩
        have hne : q ≠ p := by
          rcases hor with hnone | hne
          · rintro rfl
            exact hmarks q hd (hfs.symm.trans hnone)
          · exact hne
        simp [hdone, hne]
    have hfinal := MergedRows.paths hrows hmarks (fun q hq => hall q (List.mem_cons_of_mem _ hq))
      (by rw [List.append_assoc]; exact hnd) hnext hx
    rw [List.append_assoc] at hfinal
    exact hfinal

/-! ## The blobs -/

/-- The dictionaries stay and every blob has its source. -/
def Stock (pkg d : Db K) (ids : ℕ → ℕ) (dicts : Table ℕ Bytes) (s : Db K) : Prop :=
  s.dicts = dicts ∧ ∀ k c, s.blobs.get? k = some c → pkg.BlobFrom d ids k c.val

variable {ids : ℕ → ℕ} {dicts : Table ℕ Bytes}

/-- What the blobs are does not depend on how often they are named. -/
theorem Stock.of_vals (h : Stock pkg d ids dicts s) (hd : d'.dicts = s.dicts)
    (hb : ∀ k c, d'.blobs.get? k = some c → ∃ c₀, s.blobs.get? k = some c₀ ∧ c.val = c₀.val) :
    Stock pkg d ids dicts d' := by
  refine ⟨hd.trans h.1, fun k c hc => ?_⟩
  obtain ⟨c₀, hc₀, hval⟩ := hb k c hc
  rw [hval]
  exact h.2 k c₀ hc₀

/-- A delete of rows keeps the stock of blobs. -/
theorem Stock.delFs (h : Stock pkg d ids dicts s) (sel : Str → Bool) :
    Stock pkg d ids dicts (s.delFs sel) :=
  h.of_vals rfl fun _ _ hc => Store.get?_of_releaseAll _ hc

/-- A chunk row keeps the stock of blobs. -/
theorem Stock.addChunk (h : Stock pkg d ids dicts s) (p : Str) (i : ℕ) (k : K) :
    Stock pkg d ids dicts (s.addChunk p i k) := by
  refine h.of_vals rfl fun k' c hc => ?_
  rw [Db.addChunk, Store.get?_acquire] at hc
  split_ifs at hc with hk
  · obtain ⟨c₀, hc₀, rfl⟩ := Option.map_eq_some_iff.1 hc
    exact ⟨c₀, by rw [hk, hc₀], rfl⟩
  · exact ⟨c, hc, rfl⟩

/-- A blob of the package is stored with its own content. -/
theorem stock_injectBlob {m : List (ℕ × ℕ)} {r : K × Block} {c : Cell Block} (hname : pkg.Names r.1)
    (hc : pkg.blobs.get? r.1 = some c) (hval : c.val = r.2) :
    Triple (Stock pkg d (newId m) dicts) (injectBlob m r) fun _ => Stock pkg d (newId m) dicts := by
  intro s v s' hs hx
  obtain ⟨mapped, s₁, hq, hins⟩ := bind_eq_ok.1 hx
  obtain ⟨hmap, hs₁⟩ := query_eq_ok.1 hq
  -- The map translates the number of the blob's dictionary, and zero stays zero.
  have hid : mapped = newId m r.2.dictId := by
    unfold newId
    split_ifs at hmap ⊢ with hzero
    · cases hmap
      rfl
    · rcases hl : m.lookup r.2.dictId with _ | id
      · rw [hl] at hmap
        cases hmap
      · rw [hl] at hmap
        cases hmap
        rfl
  rw [hs₁] at hins
  rw [insertBlobIgnore, statement_eq_ok] at hins
  split_ifs at hins with hhas
  · cases hins
    exact hs
  · cases hins
    refine ⟨hs.1, fun k c' hc' => ?_⟩
    have hnone : s.blobs.get? r.1 = none := Table.get?_of_not_has hhas
    rw [Db.addBlob, Table.get?_insertIgnore, hnone] at hc'
    split_ifs at hc' with hk
    · cases hc'
      right
      rw [hk]
      refine ⟨hname, c, hc, ?_⟩
      rw [hval, ← hid]
      rfl
    · exact hs.2 k c' hc'

/-- The injection of one file keeps the stock of blobs. -/
theorem stock_injectPath {m : List (ℕ × ℕ)} (rep : InjectReport) (hp : pkg.Brings p) :
    Triple (Stock pkg d (newId m) dicts) (injectPath pkg m rep p) fun _ =>
    Stock pkg d (newId m) dicts := by
  refine Triple.bind (Keeps.triple (Keeps.reads _)) fun existed =>
    Triple.bind (q := fun _ => Stock pkg d (newId m) dicts)
    ?_ fun _ => Triple.bind (q := fun _ => Stock pkg d (newId m) dicts) ?_ fun _ =>
      Triple.pure fun _ h => h
  · split_ifs
    · intro s v s' hs hx
      rw [deleteFs_ok hx]
      exact hs.delFs _
    · exact Triple.pure fun _ h => h
  -- The rows come, then the blobs, then the chunks; a chunk's blob has been stocked by then.
  · unfold mergePath
    refine Triple.bind (q := fun _ => Stock pkg d (newId m) dicts) ?_ fun _ =>
      Triple.bind (Keeps.triple (Keeps.reads _))
      fun _ => Triple.bind (q := fun _ => Stock pkg d (newId m) dicts)
        (Triple.forM_inv fun r hr => ?_) fun _ =>
        Triple.bind (Keeps.triple (Keeps.reads _)) fun _ =>
          Triple.bind (q := fun _ => Stock pkg d (newId m) dicts) ?_ fun _ =>
          Triple.pure fun _ h => h
    · intro s v s' hs hx
      have hsame : s'.dicts = s.dicts ∧ s'.blobs = s.blobs := by
        refine foldlM_inv (I := fun t : Db K => t.dicts = s.dicts ∧ t.blobs = s.blobs) ?_ ⟨rfl, rfl⟩
          (statement_eq_ok.1 hx)
        intro r _ t t' ht hstep
        obtain ⟨-, rfl⟩ := insertFs?_ok hstep
        exact ht
      exact hs.of_vals hsame.1 fun k c hc => ⟨c, by rw [← hsame.2]; exact hc, rfl⟩
    · obtain ⟨x, hx, he⟩ := List.mem_filterMap.1 (List.mem_dedup.1 hr)
      obtain ⟨c, hc, rfl⟩ := Option.map_eq_some_iff.1 he
      exact stock_injectBlob ⟨p, x.1, hp, Db.mem_chunkList.1 hx⟩ hc rfl
    · intro s v s' hs hx
      refine foldlM_inv (I := Stock pkg d (newId m) dicts) ?_ hs (statement_eq_ok.1 hx)
      intro r _ t t' ht hstep
      obtain ⟨-, rfl⟩ := insertChunk?_ok hstep
      exact ht.addChunk _ _ _

/-! ## What an injection that returns has done -/

/-- The paths of a package, in the order they are merged. -/
def Db.injectOrder (pkg : Db K) : List Str :=
  ((pkg.fs.rows.map Prod.fst).filter (· ≠ root)).insertionSort fun a b => pathBefore a b

omit [DecidableEq K] in
/-- The paths are those that the package brings. -/
theorem Db.mem_injectOrder {q : Str} : q ∈ pkg.injectOrder ↔ pkg.Brings q := by
  unfold Db.injectOrder Db.Brings
  rw [List.mem_insertionSort, List.mem_filter, Table.mem_keys_iff, Table.has_eq_true,
    decide_eq_true_eq, and_comm]

omit [DecidableEq K] in
/-- No path is injected twice. -/
theorem Db.nodup_injectOrder (pkg : Db K) : pkg.injectOrder.Nodup :=
  (List.perm_insertionSort _ _).nodup_iff.2 (pkg.fs.nodup.filter _)

/-- The tables after an injection. -/
structure Merged (pkg d : Db K) (ids : ℕ → ℕ) (d' : Db K) : Prop where
  /-- The package's rows. -/
  brought : ∀ q, pkg.Brings q → d'.fs.get? q = (pkg.fs.get? q).map FsRow.copied ∧
    ∀ i, d'.chunks.get? (q, i) = pkg.chunks.get? (q, i)
  /-- The other rows. -/
  kept : ∀ q, ¬ pkg.Brings q →
    (d'.fs.get? q).map FsRow.unhashed = (d.fs.get? q).map FsRow.unhashed ∧
    (q ∉ d.dirty → d'.fs.get? q = d.fs.get? q) ∧ ∀ i, d'.chunks.get? (q, i) = d.chunks.get? (q, i)
  /-- A hash that was there is there. -/
  hashed : ∀ q row row', ¬ pkg.Brings q → d.fs.get? q = some row → row.hash ≠ .null →
    d'.fs.get? q = some row' →
    row'.hash ≠ .null
  /-- The blobs. -/
  blobs : ∀ k c, d'.blobs.get? k = some c → pkg.BlobFrom d ids k c.val
  /-- The dictionaries that were there. -/
  old : ∀ i, d.dicts.get? i ≠ none → d'.dicts.get? i = d.dicts.get? i
  /-- No dictionary is no dictionary. -/
  zeroId : ids 0 = 0
  /-- Nor is it one now if it was none. -/
  zero : d'.dicts.get? 0 = d.dicts.get? 0
  /-- The package's dictionaries. -/
  renamed : ∀ k c, pkg.blobs.get? k = some c → c.val.dictId ≠ 0 →
    d'.dicts.get? (ids c.val.dictId) = pkg.dicts.get? c.val.dictId

/-- A hash that is computed replaces another one. -/
theorem hashed_finalizeDirty {n : ℕ} (hx : finalizeDirty E d = .ok n d') {q : Str}
    {row row' : FsRow K} (hrow : d.fs.get? q = some row) (hhash : row.hash ≠ .null)
    (hrow' : d'.fs.get? q = some row') :
    row'.hash ≠ .null := by
  -- By the loop's invariant that the row at `q` has a hash: a finalization writes hashes and
  -- clears none.
  have hone : ∀ p, Keeps (fun s : Db K => ∀ r, s.fs.get? q = some r → r.hash ≠ .null)
    (finalizeFile E p) := by
    intro p s hs
    unfold endState
    rcases hfile : finalizeFile E p s with ⟨b, s'⟩ | ⟨e, s'⟩
    · rcases finalizeFile_cases hfile with ⟨-, rfl⟩ | ⟨-, old, whole, hold, -, rfl⟩
      · exact hs
      · intro r hr
        have hr' : (s.setFs p fun row => { row with hash := .key whole }).fs.get? q = some r := hr
        rw [Db.get?_setFs] at hr'
        split_ifs at hr'
        · obtain ⟨r₀, -, rfl⟩ := Option.map_eq_some_iff.1 hr'
          intro hnull
          cases hnull
        · exact hs r hr'
    · dsimp only
      rw [finalizeFile_error hfile]
      exact hs
  have hall : Keeps (fun s : Db K => ∀ r, s.fs.get? q = some r → r.hash ≠ .null)
    (finalizeDirty E) :=
    Keeps.bind (Keeps.reads _) fun paths => Keeps.foldlM (fun _ p => Keeps.bind (hone p) fun _ =>
      Keeps.pure _) paths 0
  refine hall.triple d n d' (fun r hr => ?_) hx row' hrow'
  rw [hrow] at hr
  cases hr
  exact hhash

/-- The injection of all files keeps the stock of blobs. -/
theorem stock_injectPaths {m : List (ℕ × ℕ)} :
    ∀ {paths : List Str} (_ : ∀ q ∈ paths, pkg.Brings q) (rep : InjectReport),
    Triple (Stock pkg d (newId m) dicts) (paths.foldlM (injectPath pkg m) rep) fun _ =>
    Stock pkg d (newId m) dicts
  | [], _, rep => Triple.pure fun _ h => h
  | q :: paths, hall, rep => by
    rw [List.foldlM_cons]
    exact Triple.bind (stock_injectPath rep (hall q List.mem_cons_self)) fun rep' =>
      stock_injectPaths (fun r hr => hall r (List.mem_cons_of_mem _ hr)) rep'

/-- An injection that returns has merged the package into the target. -/
theorem inject_merged {base : Option (Db K)} {rep : InjectReport} (ht : Tidy d)
    (hx : inject E base pkg d = .ok rep d') : ∃ ids, Merged pkg d ids d' := by
  unfold inject at hx
  split_ifs at hx
  · cases hx
  dsimp only at hx
  obtain ⟨m, d₁, hdicts, hx⟩ := bind_eq_ok.1 (savepoint_eq_ok.1 hx)
  obtain ⟨rep', s, hpaths, hx⟩ := bind_eq_ok.1 hx
  obtain ⟨drift, s', hverify, hx⟩ := bind_eq_ok.1 hx
  obtain ⟨n, s₁, hfin, hreads⟩ := bind_eq_ok.1 hverify
  have hd' : d' = s₁ := by
    have hs' : s' = s₁ := by
      cases hreads
      rfl
    split_ifs at hx
    · cases hx
    · cases hx
      exact hs'
  -- First the dictionaries, then the files one by one, then the pending hashes.
  obtain ⟨⟨dicts, hd₁, hold, hzero, hnew⟩, hall⟩ := injectDicts_ok hdicts
  have hstart : MergedRows pkg d [] d₁ := by
    rw [hd₁]
    exact ⟨fun _ => rfl, fun _ _ => rfl, fun q hq => ⟨hq, List.not_mem_nil⟩⟩
  have hstock : Stock pkg d (newId m) dicts d₁ := by
    rw [hd₁]
    exact ⟨rfl, fun k c hc => Or.inl ⟨c, hc, rfl⟩⟩
  have hrows : MergedRows pkg d pkg.injectOrder s :=
    MergedRows.paths (fun q hq i => ht.rows q i hq) ht.marks
      (fun q hq => (Db.mem_injectOrder.1 hq).2)
        (by rw [List.nil_append]; exact pkg.nodup_injectOrder) hstart hpaths
  obtain ⟨hsd, hblobs⟩ :=
    stock_injectPaths (fun q hq => Db.mem_injectOrder.1 hq) _ d₁ rep' s hstock hpaths
  obtain ⟨hre, -⟩ := finalizeDirty_ok hfin
  rw [hd']
  have hdicts' : s₁.dicts = dicts := hre.dicts.trans hsd
  refine ⟨newId m, ?_, ?_, fun q row row' hq hrow hhash hrow' => ?_, fun k c hc => ?_,
    fun i hi => ?_, rfl, ?_,
    fun k c hc hne => ?_⟩
  · intro q hq
    have hmem := Db.mem_injectOrder.2 hq
    refine ⟨?_, fun i => ?_⟩
    · rw [hre.clean q fun hdirty => (hrows.dirty q hdirty).2 hmem, hrows.fs, if_pos hmem]
    · rw [hre.chunks, hrows.chunks, if_pos hmem]
  · intro q hq
    have hmem : q ∉ pkg.injectOrder := fun h => hq (Db.mem_injectOrder.1 h)
    have hfs : s.fs.get? q = d.fs.get? q := by rw [hrows.fs, if_neg hmem]
    refine ⟨?_, fun hclean => ?_, fun i => ?_⟩
    · rw [hre.rows, hfs]
    · rw [hre.clean q fun hdirty => hclean (hrows.dirty q hdirty).1, hfs]
    · rw [hre.chunks, hrows.chunks, if_neg hmem]
  · have hfs : s.fs.get? q = d.fs.get? q := by
      rw [hrows.fs, if_neg fun h => hq (Db.mem_injectOrder.1 h)]
    exact hashed_finalizeDirty hfin (hfs.trans hrow) hhash hrow'
  · rw [hre.blobs] at hc
    exact hblobs k c hc
  · rw [hdicts', hold i hi]
  · rw [hdicts', hzero]
  · have hneeded :
      c.val.dictId ∈ ((pkg.blobs.rows.map fun r => r.2.val.dictId).filter
        (· ≠ 0)).dedup.insertionSort
        (· ≤ ·) := by
      rw [List.mem_insertionSort, List.mem_dedup, List.mem_filter]
      exact ⟨List.mem_map.2 ⟨(k, c), Table.get?_eq_some_iff.1 hc, rfl⟩, by simpa using hne⟩
    obtain ⟨id, hid⟩ := hall _ hneeded
    rw [hdicts', newId, if_neg hne, hid, Option.getD_some]
    exact (hnew _ id hid).1

/-! ## What can be read -/

omit [DecidableEq K] in
/-- A block of the target decodes as before. -/
theorem decodeBlock_old {dicts' : Table ℕ Bytes}
    (hold : ∀ i, dicts.get? i ≠ none → dicts'.get? i = dicts.get? i) {b : Enc} {out : Bytes}
    (h : decodeBlock E dicts b = .ok out) : decodeBlock E dicts' b = .ok out := by
  unfold decodeBlock at h ⊢
  split_ifs at h ⊢
  · rcases hd : dicts.get? b.dictId with _ | dict
    · rw [hd] at h
      cases h
    · rw [hd] at h
      rw [hold _ (by rw [hd]; exact Option.some_ne_none dict), hd]
      exact h
  · exact h

omit [DecidableEq K] in
/-- A block of the package decodes under the new id of its dictionary. -/
theorem decodeBlock_renamed {dicts' : Table ℕ Bytes} {b : Enc} {n : ℕ} {out : Bytes}
    (hdict : b.flag = 3 → dicts'.get? n = dicts.get? b.dictId)
    (h : decodeBlock E dicts b = .ok out) :
    decodeBlock E dicts' { b with dictId := n } = .ok out := by
  unfold decodeBlock at h ⊢
  dsimp only
  split_ifs at h ⊢ with hflag
  · rw [hdict hflag]
    rcases hd : dicts.get? b.dictId with _ | dict
    · rw [hd] at h
      cases h
    · rw [hd] at h
      exact h
  · exact h

/-- The chunks of a list read the same when their blobs do. -/
theorem joinPieces_congr {db db' : Db K} (p : Str) : ∀ {l : List (ℕ × K)} {first : ℕ},
    (∀ r ∈ l, ∃ piece, db.Decodes E r.2 piece ∧ db'.Decodes E r.2 piece) →
    joinPieces E db'.dicts p first (l.filterMap fun r => (db'.blobs.get? r.2).map fun c =>
      (r.1, r.2, c.val)) =
      joinPieces E db.dicts p first (l.filterMap fun r => (db.blobs.get? r.2).map fun c =>
        (r.1, r.2, c.val))
  | [], _, _ => rfl
  | r :: l, first, h => by
    obtain ⟨piece, ⟨c, hc, hdec, hkey⟩, ⟨c', hc', hdec', -⟩⟩ := h r List.mem_cons_self
    have htail : joinPieces E db'.dicts p (first + 1)
          (l.filterMap fun r => (db'.blobs.get? r.2).map fun c => (r.1, r.2, c.val)) =
        joinPieces E db.dicts p (first + 1)
          (l.filterMap fun r => (db.blobs.get? r.2).map fun c => (r.1, r.2, c.val)) :=
      joinPieces_congr p fun r' hr' => h r' (List.mem_cons_of_mem _ hr')
    rw [List.filterMap_cons, List.filterMap_cons]
    simp only [hc, hc', Option.map_some, joinPieces, hdec, hdec', htail]

/-- A file with the same row whose chunks decode to the same bytes reads the same. -/
theorem fileBytes_of_decodes {db db' : Db K} {row row' : FsRow K} (hrow : db.fs.get? p = some row)
    (hrow' : db'.fs.get? p = some row') (hkind : row'.kind = row.kind)
    (hsize : row'.size = row.size) (hch : ∀ i, db'.chunks.get? (p, i) = db.chunks.get? (p, i))
    (hdec : ∀ i k, db.chunks.get? (p, i) = some k → ∃ piece, db.Decodes E k piece ∧
      db'.Decodes E k piece) :
    fileBytes E db' p = fileBytes E db p := by
  have hpieces : ∀ r ∈ db.chunkList p, ∃ piece, db.Decodes E r.2 piece ∧
    db'.Decodes E r.2 piece := by
    rintro ⟨i, k⟩ hr
    exact hdec i k (Db.mem_chunkList.1 hr)
  unfold fileBytes
  rw [hrow, hrow']
  dsimp only
  rw [hkind, hsize, Db.chunkList_congr hch, joinPieces_congr p hpieces]

/-! ## What is stored later -/

/-- Every blob decodes to bytes with its hash, unless the codec loses the bytes that have the hash.
-/
def Db.Stocked (E : Ext K) (dicts : Table ℕ Bytes) (s : Db K) : Prop :=
  s.dicts = dicts ∧ ∀ k c, s.blobs.get? k = some c →
    (∃ piece, decodeBlock E dicts c.val.toEnc = .ok piece ∧ E.blobKey piece = k) ∨
      ∃ lost, E.blobKey lost = k ∧ ¬ E.GivesBack dicts lost

/-- Only the encodings and the dictionaries decide what blobs decode to. -/
theorem Db.Stocked.of_vals (h : s.Stocked E dicts) (hd : d'.dicts = s.dicts)
    (hb : ∀ k c, d'.blobs.get? k = some c → ∃ c₀, s.blobs.get? k = some c₀ ∧ c.val = c₀.val) :
    d'.Stocked E dicts := by
  refine ⟨hd.trans h.1, fun k c hc => ?_⟩
  obtain ⟨c₀, hc₀, hval⟩ := hb k c hc
  rw [hval]
  exact h.2 k c₀ hc₀

/-- A stored piece decodes to bytes with its hash. -/
theorem Db.Stocked.withBlob (h : s.Stocked E dicts) (piece : Bytes) :
    (s.withBlob E .archive piece).Stocked E dicts := by
  unfold Db.withBlob
  split_ifs with hhas
  · exact h
  · refine ⟨h.1, fun k c hc => ?_⟩
    rw [Db.addBlob, Table.get?_insertIgnore, Table.get?_of_not_has hhas] at hc
    split_ifs at hc with hk
    · cases hc
      rw [h.1, hk]
      by_cases hback : E.GivesBack dicts piece
      · exact Or.inl ⟨piece, hback, rfl⟩
      · exact Or.inr ⟨piece, rfl, hback⟩
    · exact h.2 k c hc

/-- A chunk that is stored and listed keeps every blob decodable. -/
theorem stocked_appendChunk (p : Str) (i : ℕ) (piece : Bytes) :
    Triple (Db.Stocked E dicts) (appendChunk E p i piece) fun _ => Db.Stocked E dicts := by
  intro s v s' hs hx
  obtain ⟨flag, hflag⟩ := blobEnsureWith_eq E .archive s piece
  unfold appendChunk blobEnsure at hx
  rw [bind_of_ok hflag] at hx
  obtain ⟨-, rfl⟩ := insertChunk_ok hx
  refine (hs.withBlob piece).of_vals rfl fun k c hc => ?_
  rw [Db.addChunk, Store.get?_acquire] at hc
  split_ifs at hc with hk
  · obtain ⟨c₀, hc₀, rfl⟩ := Option.map_eq_some_iff.1 hc
    exact ⟨c₀, by rw [hk, hc₀], rfl⟩
  · exact ⟨c, hc, rfl⟩

/-- A statement on rows leaves the blobs. -/
theorem stocked_statement {f : Db K → Except Err (Db K)}
    (hf : ∀ s s', f s = .ok s' → s'.dicts = s.dicts ∧ s'.blobs = s.blobs) :
    Keeps (Db.Stocked E dicts) (statement f) := by
  refine Keeps.statement fun s s' hs hx => ?_
  obtain ⟨hdicts, hblobs⟩ := hf s s' hx
  exact hs.of_vals hdicts fun k c hc => ⟨c, by rw [← hblobs]; exact hc, rfl⟩

/-- `fs_put_file` keeps every blob decodable. -/
theorem stocked_fsPutFile (p : Str) (mode mtime : ℤ) (data : Bytes) :
    Keeps (Db.Stocked E dicts) (fsPutFile E p mode mtime data) := by
  refine Keeps.inSavepoint (Triple.bind (q := fun _ => Db.Stocked E dicts) ?_ fun _ =>
    Keeps.triple ?_)
  · refine Triple.bind (q := fun _ => Db.Stocked E dicts) ?_ fun _ =>
      Triple.forM_inv fun piece _ => stocked_appendChunk p piece.2 piece.1
    intro s v s' hs hx
    rw [deleteChunks_ok hx]
    exact hs.of_vals rfl fun k c hc => Store.get?_of_releaseAll _ hc
  · refine stocked_statement fun s s' hx => ?_
    rcases upsertFs_ok (u := ()) (statement_of_ok hx) with ⟨old, -, rfl⟩ | ⟨-, rfl⟩
    · exact ⟨rfl, rfl⟩
    · exact ⟨rfl, rfl⟩

/-- `vm_add_bytes` keeps every blob decodable. -/
theorem stocked_vmAddBytes (vmPath : Str) (data : Bytes) (mode mtime now : ℤ) :
    Keeps (Db.Stocked E dicts) (vmAddBytes E vmPath data mode mtime now) := by
  refine Keeps.bind (Keeps.forM (fun a => stocked_statement fun s s' hx => ?_) _) fun _ =>
    stocked_fsPutFile _ mode mtime data
  rcases insertFsIgnore_ok (u := ()) (statement_of_ok hx) with ⟨-, rfl⟩ | ⟨-, rfl⟩
  · exact ⟨rfl, rfl⟩
  · exact ⟨rfl, rfl⟩

/-- A stocked database stores what the codec gives back. -/
theorem Db.Stocked.storesLater (hE : Function.Injective E.blobKey) (h : d'.Stocked E d'.dicts)
    (href : RefOk d') :
    d'.StoresLater E := by
  intro s hadds vmPath data mode mtime now s' hback hx
  -- By induction on the calls: each keeps the references and the stock of blobs.
  have hs : RefOk s ∧ s.Stocked E d'.dicts := by
    clear hx
    induction hadds with
    | none => exact ⟨href, h⟩
    | add _ vmPath data mode mtime now ih =>
      exact ⟨StoreOp.keeps_refOk E (.addBytes vmPath data mode mtime now) _ ih.1,
        stocked_vmAddBytes vmPath data mode mtime now _ ih.2⟩
  have href' : RefOk s' := by
    have hend := StoreOp.keeps_refOk E (.addBytes vmPath data mode mtime now) s hs.1
    rwa [show (StoreOp.addBytes vmPath data mode mtime now).run E = vmAddBytes E vmPath data mode
      mtime now from rfl,
      endState_of_ok hx] at hend
  have hstock : s'.Stocked E d'.dicts := by
    have hend := stocked_vmAddBytes vmPath data mode mtime now s hs.2
    rwa [endState_of_ok hx] at hend
  obtain ⟨_, s₁, -, hput⟩ := bind_eq_ok.1 hx
  obtain ⟨-, -, hrow, hch⟩ := fsPutFile_entry hput
  have hpath : resolvePath s' vmPath = .ok (normalizeVmPath vmPath) := by
    rw [resolvePath, resolveFrom, if_neg (by simp), hrow]
    rfl
  refine vmCat_of_holds hpath ⟨⟨_, hrow, rfl, rfl, fun hnull => by cases hnull⟩, hch,
    fun i hi => ?_⟩
  have hkey :
    s'.chunks.get? (normalizeVmPath vmPath, i) = some (E.blobKey (chunkAt chunkSize data i)) := by
    rw [hch, chunkRow, if_pos hi]
  obtain ⟨c, hc⟩ := href'.exact.get?_of_pos (Db.refs_pos_of_chunk hkey)
  rcases hstock.2 _ c hc with ⟨piece, hdec, hpiece⟩ | ⟨lost, hlost, hnot⟩
  · rw [hE hpiece, ← hstock.1] at hdec
    exact ⟨c, hc, hdec, rfl⟩
  · rw [hE hlost] at hnot
    exact absurd (hback i hi) hnot

/-! ## Exact injections -/

section Exact

variable (hE : Function.Injective E.blobKey) (hm : Merged pkg d ids d') (hs : Sound E d)
  (href : RefOk d')

include hm in
/-- A blob of a package that can be read, under the new id of its dictionary. -/
theorem Merged.dict_of_readable (hp : pkg.Readable E d) {c : Cell Block} (hk : pkg.Names k)
    (hc : pkg.blobs.get? k = some c) (hflag : c.val.flag = 3) :
    d'.dicts.get? (ids c.val.dictId) = pkg.dicts.get? c.val.dictId := by
  by_cases hzero : c.val.dictId = 0
  · rw [hzero, hm.zeroId, hm.zero]
    exact hp.zero k c hk hc hflag hzero
  · exact hm.renamed k c hc hzero

include hm hs in
/-- Every blob of the target can be read. -/
theorem Merged.faithful (hp : pkg.Readable E d) : d'.Faithful E := by
  intro k c' hc'
  rcases hm.blobs k c' hc' with ⟨c, hc, hval⟩ | ⟨hk, c, hc, hval⟩
  · obtain ⟨piece, c₀, hc₀, hdec, hkey⟩ := hs.faithful k c hc
    rw [hc] at hc₀
    cases hc₀
    refine ⟨piece, c', hc', ?_, hkey⟩
    rw [hval]
    exact decodeBlock_old hm.old hdec
  · obtain ⟨piece, c₀, hc₀, hdec, hkey⟩ := hp.chunks k hk
    rw [hc] at hc₀
    cases hc₀
    refine ⟨piece, c', hc', ?_, hkey⟩
    rw [hval]
    exact decodeBlock_renamed (hm.dict_of_readable hp hk hc) hdec

include hE href in
/-- The blob of a chunk row has the bytes that any blob with the hash has. -/
theorem decodes_of_faithful (hf : d'.Faithful E) {i : ℕ} (hrow : d'.chunks.get? (p, i) = some k)
    {db : Db K} {piece : Bytes} (hdec : db.Decodes E k piece) : d'.Decodes E k piece := by
  obtain ⟨c, hc⟩ := href.exact.get?_of_pos (Db.refs_pos_of_chunk hrow)
  obtain ⟨piece', hdec'⟩ := hf k c hc
  have hkey : E.blobKey piece' = E.blobKey piece :=
    hdec'.choose_spec.2.2.trans hdec.choose_spec.2.2.symm
  rw [hE hkey] at hdec'
  exact hdec'

include hE hm hs href in
/-- A package that can be read arrives. -/
theorem Merged.injected (hp : pkg.Readable E d) : Injected E pkg d d' where
  -- A file that the package brings has its row and chunks, so it reads as in the package; any
  -- other path has its old ones.
  paths p row hne hrow := by
    have hbrings : pkg.Brings p := ⟨hne, Table.has_eq_true.2 ⟨row, hrow⟩⟩
    obtain ⟨hfs, hch⟩ := hm.brought p hbrings
    rw [hrow, Option.map_some] at hfs
    have hchunk : ∀ i k, pkg.chunks.get? (p, i) = some k → d'.chunks.get? (p, i) = some k ∧
        ∃ piece, pkg.Decodes E k piece ∧ d'.Decodes E k piece := by
      intro i k hk
      have hk' : d'.chunks.get? (p, i) = some k := by rw [hch, hk]
      obtain ⟨piece, hdec⟩ := hp.chunks k ⟨p, i, hbrings, hk⟩
      exact ⟨hk', piece, hdec, decodes_of_faithful hE href (hm.faithful hs hp) hk' hdec⟩
    refine ⟨⟨row.copied, hfs, rfl, rfl, rfl⟩, hchunk, fun hkind => ?_⟩
    obtain ⟨hhash, b, hb⟩ := hp.files p row hne hrow hkind
    have hsame : fileBytes E d' p = fileBytes E pkg p :=
      fileBytes_of_decodes hrow hfs rfl rfl hch fun i k hk => (hchunk i k hk).2
    have hread : pkg.rowContent E p row = .ok b := by
      rw [Db.rowContent, if_pos hhash]
      exact hb
    have hread' : d'.rowContent E p row.copied = .ok b := by
      rw [Db.rowContent, if_pos (show row.copied.hash ≠ .null from hhash), hsame]
      exact hb
    exact ⟨b, ⟨row, hrow, hkind, hread⟩, ⟨row.copied, hfs, hkind, hread'⟩⟩
  others p hp' := by
    obtain ⟨hrow, hclean, hch⟩ := hm.kept p hp'
    refine ⟨hrow, hclean, ?_⟩
    rintro b ⟨row, hget, hkind, hread⟩
    rw [hget] at hrow
    obtain ⟨row', hget', hrow'⟩ := Option.map_eq_some_iff.1 hrow
    have hhash : row.hash ≠ .null := by
      intro hnull
      rw [Db.rowContent, if_neg (not_not.2 hnull), hs.refs.inline p row hget] at hread
      cases hread
    have hhash' : row'.hash ≠ .null := hm.hashed p row row' hp' hget hhash hget'
    have hkind' : row'.kind = row.kind := congrArg (fun r => r.kind) hrow'
    have hsize' : row'.size = row.size := congrArg (fun r => r.size) hrow'
    have hsame : fileBytes E d' p = fileBytes E d p := by
      refine fileBytes_of_decodes hget hget' hkind' hsize' hch fun i k hk => ?_
      obtain ⟨c, hc⟩ := hs.refs.exact.get?_of_pos (Db.refs_pos_of_chunk hk)
      obtain ⟨piece, hdec⟩ := hs.faithful k c hc
      exact ⟨piece, hdec, decodes_of_faithful hE href (hm.faithful hs hp) ((hch i).trans hk) hdec⟩
    rw [Db.rowContent, if_pos hhash] at hread
    refine ⟨row', hget', hkind'.trans hkind, ?_⟩
    rw [Db.rowContent, if_pos hhash', hsame]
    exact hread
  later := by
    have hstock : d'.Stocked E d'.dicts := by
      refine ⟨rfl, fun k c hc => ?_⟩
      obtain ⟨piece, c', hc', hdec, hkey⟩ := hm.faithful hs hp k c hc
      rw [hc] at hc'
      cases hc'
      exact Or.inl ⟨piece, hdec, hkey⟩
    exact hstock.storesLater hE href
  dicts := ⟨ids, hm.zeroId, hm.blobs, fun _ _ hk hc hflag => hm.dict_of_readable hp hk hc hflag⟩

include hm in
/-- A package that has arrived can be read. -/
theorem Merged.readable (h : Injected E pkg d d') : pkg.Readable E d where
  chunks k hk := by
    obtain ⟨p, i, ⟨hne, hhas⟩, hchunk⟩ := hk
    obtain ⟨row, hrow⟩ := Table.has_eq_true.1 hhas
    obtain ⟨-, piece, hdec, -⟩ := (h.paths p row hne hrow).chunks i k hchunk
    exact ⟨piece, hdec⟩
  files p row hne hrow hkind := by
    obtain ⟨b, ⟨row₁, hrow₁, -, hread⟩, ⟨row₂, hrow₂, -, hread'⟩⟩ :=
      (h.paths p row hne hrow).content hkind
    obtain ⟨hfs, -⟩ := hm.brought p ⟨hne, Table.has_eq_true.2 ⟨row, hrow⟩⟩
    rw [hrow] at hrow₁ hfs
    cases hrow₁
    rw [hrow₂, Option.map_some] at hfs
    cases hfs
    -- Inline content is not copied.
    have hhash : row.hash ≠ .null := by
      intro hnull
      rw [Db.rowContent, if_neg (not_not.2 (show row.copied.hash = .null from hnull))] at hread'
      cases hread'
    rw [Db.rowContent, if_pos hhash] at hread
    exact ⟨hhash, b, hread⟩
  zero k c hk hc hflag hzero := by
    obtain ⟨ids', hren⟩ := h.dicts
    have hdict := hren.dicts k c hk hc hflag
    rw [hzero, hren.zero, hm.zero] at hdict
    exact hdict

end Exact

/-- A fresh database has no rows that belong to others. -/
theorem tidy_initDb (now : ℤ) : Tidy (initDb now : Db K) where
  inline := (refOk_initDb now).inline
  rows := fun _ _ _ => rfl
  marks := nofun
  snapRows := fun _ _ _ => rfl
  snapCopies := fun _ _ _ _ => rfl
  copies := fun _ _ _ _ => rfl

/-- A package with one file. -/
def smallPackage : Db Bytes := endState (vmAddBytes plainExt "/x".toList [1] 0o644 0 0) (initDb 0)

/-- The same package with another body for the blob. -/
def forgedPackage : Db Bytes := smallPackage.setBlob [1] ⟨[2], 0, 0⟩

end Dbvm
