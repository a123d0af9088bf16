import Dbvm.Overlay.Lookups

/-!
# What an operation leaves alone

The view of a path is what the overlay shows of it: its kind and mode, and what `read` and
`readlink` return. An operation at `p` changes the view of `p` alone; `write`, `mkdir` and `symlink`
also create the parents that are missing, and `remove` takes what is below (`OnlyNamed`). This holds
unless the operation makes something of the Base visible again or covers it with a directory of its
own (`Contained`).
-/

namespace Dbvm.Overlay

open Lib Lib.Chunks Lib.Prog

variable {K : Type} [DecidableEq K] {U : Str → Prop} {E : Ext K} {o o' : Overlay K}

/-! ## Reads that agree -/

/-- The bytes of a dense list are those of the single blobs. -/
theorem densePieces_congr {db db' : Db K} {p : Str} : ∀ {l : List (ℕ × K)} {n : ℕ},
    (∀ r ∈ l, db'.blobBytes E p r.1 r.2 = db.blobBytes E p r.1 r.2) →
      densePieces E db' p n l = densePieces E db p n l
  | [], _, _ => rfl
  | (idx, key) :: rest, n, h => by
    rw [densePieces, densePieces, h (idx, key) (by simp),
      densePieces_congr fun r hr => h r (by simp [hr])]

/-- The bytes of a list of chunks are those of the single reads. -/
theorem layeredPieces_congr {s : Schema} {p : Str} {size : ℕ} : ∀ {l : List ℕ},
    (∀ i ∈ l, o'.readChunkLayered E s p i = o.readChunkLayered E s p i) →
      o'.layeredPieces E s p size l = o.layeredPieces E s p size l
  | [], _ => rfl
  | idx :: rest, h => by
    rw [layeredPieces, layeredPieces, h idx (by simp),
      layeredPieces_congr fun i hi => h i (by simp [hi])]

/-- A file reads the same when its row, its chunk rows and their bytes are the same. -/
theorem readFrom_congr {s : Schema} {p : Str}
    (hrow : (o'.db s).fs.get? p = (o.db s).fs.get? p)
    (hch : ∀ i, (o'.db s).chunks.get? (p, i) = (o.db s).chunks.get? (p, i))
    (hblob : ∀ i k, (o.db s).chunks.get? (p, i) = some k →
      (o'.db s).blobBytes E p i k = (o.db s).blobBytes E p i k)
    (hlay : ∀ row, (o.db s).fs.get? p = some row → ∀ i < numChunks chunkSize row.size,
      o'.readChunkLayered E s p i = o.readChunkLayered E s p i) :
    o'.readFrom E s p = o.readFrom E s p := by
  have hlist := Db.chunkList_congr hch
  have hdense : o'.readDense E s p = o.readDense E s p := by
    unfold readDense
    rw [hrow, hlist, densePieces_congr]
    rintro ⟨i, k⟩ hr
    exact hblob i k (Db.mem_chunkList.1 hr)
  have hlayer : o'.readFileLayered E s p = o.readFileLayered E s p := by
    unfold readFileLayered
    rw [hrow]
    rcases hr : (o.db s).fs.get? p with _ | row
    · rfl
    · dsimp only
      rw [layeredPieces_congr fun i hi => hlay row hr i (List.mem_range.1 hi)]
  unfold readFrom chunksAreDense
  rw [hlist, hdense, hlayer]

/-- A chunk of a file of the Delta reads the same when its row and the bytes it names do. -/
theorem readChunkLayered_main_congr (hb : o'.base = o.base) {p : Str} {i : ℕ}
    (hch : o'.main.chunks.get? (p, i) = o.main.chunks.get? (p, i))
    (hblob : ∀ k, o.main.chunks.get? (p, i) = some k →
      o'.main.blobBytes E p i k = o.main.blobBytes E p i k) :
    o'.readChunkLayered E .main p i = o.readChunkLayered E .main p i := by
  have hhas : o'.main.chunks.has (p, i) = o.main.chunks.has (p, i) := by
    rw [Table.has, Table.has, hch]
  have hread : o'.readChunk E .main p i = o.readChunk E .main p i := by
    unfold readChunk
    simp only [Overlay.db]
    rw [hch]
    rcases hk : o.main.chunks.get? (p, i) with _ | k
    · rfl
    · exact hblob k hk
  have hbase : o'.readChunk E .base p i = o.readChunk E .base p i := by
    unfold readChunk
    simp only [Overlay.db, hb]
  unfold readChunkLayered
  rw [hhas, hread, hbase, hb]

/-- A file of the Delta reads the same once only files at other paths have changed. -/
theorem readFrom_main_of_kept {P : Str → Prop} (h : MainInv P o.main o.base o')
    (hok : RefOk o.main) {q : Str} (hq : ¬ P q) (hrow : o'.main.fs.get? q = o.main.fs.get? q) :
    o'.readFrom E .main q = o.readFrom E .main q := by
  have hch := fun i => h.1.kept.chunks q i hq
  have hblob : ∀ i k, o.main.chunks.get? (q, i) = some k →
      o'.main.blobBytes E q i k = o.main.blobBytes E q i k := by
    intro i k hk
    obtain ⟨c, hc⟩ := hok.exact.get?_of_pos (Db.refs_pos_of_chunk hk)
    exact h.1.kept.blobBytes hq hk hc
  refine readFrom_congr hrow hch hblob fun _ _ i _ => ?_
  exact readChunkLayered_main_congr h.2 (hch i) (hblob i)

/-- A file of the Base always reads the same. -/
theorem readFrom_base (hb : o'.base = o.base) (q : Str) :
    o'.readFrom E .base q = o.readFrom E .base q := by
  refine readFrom_congr ?_ (fun i => ?_) (fun i k _ => ?_) fun _ _ i _ => ?_
  · rw [Overlay.db, Overlay.db, hb]
  · rw [Overlay.db, Overlay.db, hb]
  · rw [Overlay.db, Overlay.db, hb]
  · have hread : o'.readChunk E .base q i = o.readChunk E .base q i := by
      unfold readChunk
      simp only [Overlay.db, hb]
    rw [readChunkLayered, readChunkLayered, if_neg (by simp), if_neg (by simp), hread]

/-! ## The view -/

/-- What the overlay shows of a path. -/
structure Seen where
  /-- The kind. -/
  kind : Kind
  /-- The mode. -/
  mode : ℤ
  /-- What `read` returns. -/
  content : Except Err Bytes
  /-- What `readlink` returns. -/
  link : Except Err Str

/-- The view of a path; none where nothing is shown. -/
def view (E : Ext K) (o : Overlay K) (p : Str) : Option Seen :=
  let seen := fun s => ((o.db s).fs.get? (normalizeVmPath p)).map fun row =>
    (⟨row.kind, row.mode, o.read E p, o.readlink p⟩ : Seen)
  match o.locate p with
  | .delta => seen .main
  | .base => seen .base
  | .missing => none

/-- What is shown of a row. -/
def seenRow (E : Ext K) (o : Overlay K) (s : Schema) (p : Str) (row : FsRow K) : Seen where
  kind := row.kind
  mode := row.mode
  content := if row.kind = .file then o.readFrom E s p else .error (.notFound p)
  link := (if row.kind = .symlink then row.linkTarget else none).elim (.error (.notLink p)) .ok

section View

variable {vmPath p : Str} (hp : normalizeVmPath vmPath = p)

include hp in
/-- A path with a row in the Delta shows that row. -/
theorem view_of_delta (h : Tidy U o) (hU : Plain U) {row : FsRow K}
    (hrow : o.main.fs.get? p = some row) : o.view E vmPath = some (seenRow E o .main p row) := by
  have hn := hU.normal (h.delta p row hrow)
  have hvis : ¬ o.whitedOut p = true := by
    rw [h.whitedOut_iff hU]
    exact h.shown p row hrow
  have hloc : ∀ q, normalizeVmPath q = p → o.locate q = .delta := by
    intro q hq
    unfold locate
    dsimp only
    rw [hq, if_neg hvis, if_pos (Table.has_eq_true.2 ⟨row, hrow⟩)]
  have hread : o.read E vmPath =
      if row.kind = .file then o.readFrom E .main p else .error (.notFound p) := by
    unfold read lookupFile kindIn
    simp only [Overlay.db, hp, hrow, Option.map_some]
    split_ifs <;> rfl
  unfold view readlink
  simp only [Overlay.db, hp, hloc vmPath hp, hloc p hn, hrow, hread, Option.map_some,
    Option.bind_some]
  rfl

include hp in
/-- A path with a row in the Base only shows it when no whiteout hides it. -/
theorem view_of_base (h : Tidy U o) (hU : Plain U) {row : FsRow K}
    (hnone : o.main.fs.get? p = none) (hrow : o.base.fs.get? p = some row)
    (hvis : ¬ Hides o.whiteouts p) : o.view E vmPath = some (seenRow E o .base p row) := by
  have hn := hU.normal (h.base p row hrow)
  have hwo : o.whitedOut p = false := by
    rw [← Bool.not_eq_true, h.whitedOut_iff hU]
    exact hvis
  have hloc : ∀ q, normalizeVmPath q = p → o.locate q = .base := by
    intro q hq
    unfold locate
    dsimp only
    rw [hq, hwo, Table.has_eq_false.2 hnone, Table.has_eq_true.2 ⟨row, hrow⟩]
    rfl
  have hread : o.read E vmPath =
      if row.kind = .file then o.readFrom E .base p else .error (.notFound p) := by
    unfold read lookupFile kindIn
    simp only [Overlay.db, hp, hnone, hrow, Option.map_none, Option.map_some, hwo, Bool.or_false,
      decide_eq_true_eq, ne_eq]
    split_ifs <;> rfl
  unfold view readlink
  simp only [Overlay.db, hp, hloc vmPath hp, hloc p hn, hrow, hread, Option.map_some,
    Option.bind_some]
  rfl

include hp in
/-- A path without a row that could show is missing. -/
theorem view_of_none (h : Tidy U o) (hU : Plain U) (hnone : o.main.fs.get? p = none)
    (hb : o.base.fs.get? p = none ∨ Hides o.whiteouts p) : o.view E vmPath = none := by
  have hloc : o.locate vmPath = .missing := by
    unfold locate
    dsimp only
    rw [hp, Table.has_eq_false.2 hnone]
    rcases hb with hb | hb
    · rw [Table.has_eq_false.2 hb]
      simp
    · rw [if_pos ((h.whitedOut_iff hU p).2 hb)]
  unfold view
  rw [hloc]

end View

/-! ## One operation -/

/-- What an operation at `op.path` may change. -/
structure OnlyNamed (E : Ext K) (op : OverlayOp) (o o' : Overlay K) : Prop where
  /-- A write changes the view of its path, and its missing ancestors may become directories. -/
  write : isRemove op = false → ∀ q, normalizeVmPath q ≠ op.path → o'.view E q = o.view E q ∨
    normalizeVmPath q ∈ ancestors op.path ∧ o.view E q = none ∧
      ∃ v, o'.view E q = some v ∧ v.kind = .dir
  /-- A removal changes the view of its path and of what is below. -/
  remove : isRemove op = true → ∀ q, normalizeVmPath q ≠ op.path →
    ¬ Below op.path (normalizeVmPath q) → o'.view E q = o.view E q
  /-- A range write leaves a regular file. -/
  file : ∀ vmPath off data mtime, op = .writeRange vmPath off data mtime →
    o'.kindInOverlay op.path = some .file

/-- The condition on an operation: nothing of the Base comes back and nothing else is covered. -/
structure Contained (o : Overlay K) (op : OverlayOp) : Prop where
  /-- A directory of the Base that gets a row in the Delta as a parent looks like that row. -/
  parents : ∀ d ∈ dirsOf op, o.main.fs.get? d = none → ¬ Hides o.whiteouts d →
    ∀ row, o.base.fs.get? d = some row → row.kind = .dir ∧ row.mode = 493
  /-- An ancestor that a range write makes visible again is a directory. -/
  reveals : isRemove op = false → ∀ a ∈ ancestors op.path, a ∉ dirsOf op → Hides o.whiteouts a →
    ∀ row, o.base.fs.get? a = some row → row.kind = .dir
  /-- A path that is hidden from above only has nothing of the Base below it. -/
  below : isRemove op = false → op.path ∉ o.whiteouts → ∀ q row, o.base.fs.get? q = some row →
    Below op.path q → Hides o.whiteouts op.path →
      ∃ a ∈ o.whiteouts, Below op.path a ∧ (a = q ∨ Below a q)
  /-- A range write of some bytes finds no directory or link in the Delta; one of no bytes finds a
  file. -/
  file : ∀ vmPath off data mtime, op = .writeRange vmPath off data mtime →
    (data = [] → o.kindInOverlay op.path = some .file) ∧
      ∀ row, o.main.fs.get? op.path = some row → row.kind = .file

/-- The rows and contents of the Delta that an operation leaves alone look the same. -/
theorem view_of_row {P : Str → Prop} (h : Tidy U o) (h' : Tidy U o') (hU : Plain U)
    (hm : MainInv P o.main o.base o') (hok : RefOk o.main) {vmPath : Str} {row : FsRow K}
    (hq : ¬ P (normalizeVmPath vmPath)) (hrow : o.main.fs.get? (normalizeVmPath vmPath) = some row)
    (hrow' : o'.main.fs.get? (normalizeVmPath vmPath) = o.main.fs.get? (normalizeVmPath vmPath)) :
    o'.view E vmPath = o.view E vmPath := by
  rw [view_of_delta rfl h hU hrow, view_of_delta rfl h' hU (hrow'.trans hrow)]
  unfold seenRow
  rw [readFrom_main_of_kept hm hok hq hrow']

/-- A row of the Base that stays visible looks the same. -/
theorem view_of_baseRow (h : Tidy U o) (h' : Tidy U o') (hU : Plain U) (hb : o'.base = o.base)
    {vmPath : Str} {row : FsRow K} (hnone : o.main.fs.get? (normalizeVmPath vmPath) = none)
    (hnone' : o'.main.fs.get? (normalizeVmPath vmPath) = none)
    (hrow : o.base.fs.get? (normalizeVmPath vmPath) = some row)
    (hvis : ¬ Hides o.whiteouts (normalizeVmPath vmPath))
    (hvis' : ¬ Hides o'.whiteouts (normalizeVmPath vmPath)) :
    o'.view E vmPath = o.view E vmPath := by
  rw [view_of_base rfl h hU hnone hrow hvis,
    view_of_base rfl h' hU hnone' (by rw [hb]; exact hrow) hvis']
  unfold seenRow
  rw [readFrom_base hb]

/-- A directory is seen with its mode and nothing else. -/
theorem seenRow_dir {s : Schema} {p : Str} {row : FsRow K} (hk : row.kind = .dir) :
    seenRow E o s p row = ⟨.dir, row.mode, .error (.notFound p), .error (.notLink p)⟩ := by
  unfold seenRow
  rw [hk]
  simp

/-- The view of the other paths after a write. -/
theorem view_of_wrote (h : Tidy U o) (hU : Plain U) (hok : RefOk o.main) {op : OverlayOp}
    (hop : U op.path) (hrem : isRemove op = false) (hc : Contained o op) {now : ℤ}
    (hw : Wrote op.path (dirsOf op) now o o') (hm : MainInv (· = op.path) o.main o.base o')
    {q : Str} (hq : normalizeVmPath q ≠ op.path) :
    o'.view E q = o.view E q ∨ normalizeVmPath q ∈ ancestors op.path ∧ o.view E q = none ∧
      ∃ v, o'.view E q = some v ∧ v.kind = .dir := by
  have h' : Tidy U o' := h.wrote hU hop (dirsOf_subset op) hw
  have hfs := hw.fs (normalizeVmPath q) hq
  -- What is seen at `q` depends on its row in the Delta, or on Base and whiteouts where there is
  -- none.
  rcases hrow : o.main.fs.get? (normalizeVmPath q) with _ | row
  · by_cases hdir : normalizeVmPath q ∈ dirsOf op
    · -- A parent that had no row in the Delta.
      rw [hrow, if_pos ⟨hdir, rfl⟩] at hfs
      have hview : o'.view E q = some ⟨.dir, 493, .error (.notFound (normalizeVmPath q)),
          .error (.notLink (normalizeVmPath q))⟩ := by
        rw [view_of_delta rfl h' hU hfs, seenRow_dir rfl]
        rfl
      rcases hbase : o.base.fs.get? (normalizeVmPath q) with _ | brow
      · exact Or.inr ⟨dirsOf_subset op _ hdir, view_of_none rfl h hU hrow (Or.inl hbase),
          _, hview, rfl⟩
      · by_cases hhid : Hides o.whiteouts (normalizeVmPath q)
        · exact Or.inr ⟨dirsOf_subset op _ hdir, view_of_none rfl h hU hrow (Or.inr hhid),
            _, hview, rfl⟩
        · obtain ⟨hk, hmode⟩ := hc.parents _ hdir hrow hhid brow hbase
          refine Or.inl ?_
          rw [hview, view_of_base rfl h hU hrow hbase hhid, seenRow_dir hk, hmode]
    · -- The Delta has no row there, before and after.
      rw [hrow, if_neg fun hd => hdir hd.1] at hfs
      rcases hbase : o.base.fs.get? (normalizeVmPath q) with _ | brow
      · refine Or.inl ?_
        rw [view_of_none rfl h hU hrow (Or.inl hbase),
          view_of_none rfl h' hU hfs (Or.inl (by rw [hw.base]; exact hbase))]
      by_cases hhid : Hides o.whiteouts (normalizeVmPath q)
      · have hnone := view_of_none (E := E) rfl h hU hrow (Or.inr hhid)
        by_cases hanc : normalizeVmPath q ∈ ancestors op.path
        · -- An ancestor that a range write reveals.
          have hk := hc.reveals hrem _ hanc hdir hhid brow hbase
          have hvis' : ¬ Hides o'.whiteouts (normalizeVmPath q) := by
            rw [hw.whiteouts]
            refine not_hides_cleared (fun a ha => ?_) (Or.inr hanc)
            rw [← hw.whiteouts] at ha
            exact (hU.normal (h'.white a ha)).ne_nil
          refine Or.inr ⟨hanc, hnone, _, view_of_base rfl h' hU hfs
            (by rw [hw.base]; exact hbase) hvis', ?_⟩
          rw [seenRow_dir hk]
        · -- Everything else stays hidden.
          refine Or.inl ?_
          rw [hnone]
          refine view_of_none rfl h' hU hfs (Or.inr ?_)
          rw [hw.whiteouts]
          refine hides_cleared hU h.base h.white hop hbase hhid hq hanc fun hb => ?_
          by_cases hself : op.path ∈ o.whiteouts
          · exact Or.inl hself
          · obtain ⟨a, ha, haq⟩ := hhid
            rcases haq with rfl | haq
            · exact Or.inr ⟨_, ha, hb, Or.inl rfl⟩
            · rcases haq.total hb with rfl | hap | hpa
              · exact absurd ha hself
              · exact Or.inr (hc.below hrem hself _ brow hbase hb ⟨a, ha, Or.inr hap⟩)
              · exact Or.inr ⟨a, ha, hpa, Or.inr haq⟩
      · refine Or.inl (view_of_baseRow h h' hU hw.base hrow hfs hbase hhid ?_)
        rw [hw.whiteouts]
        exact fun hh => hhid (hides_of_cleared hU h.base hop hh)
  · rw [hrow, if_neg (by simp)] at hfs
    exact Or.inl (view_of_row h h' hU hm hok hq hrow (by rw [hfs, hrow]))

/-- A removal leaves the view of every path that is neither it nor below it. -/
theorem view_of_removed (h : Tidy U o) (hU : Plain U) (hok : RefOk o.main) {p : Str} (hp : U p)
    (hroot : p ≠ root) (hr : Removed p o o')
    (hm : MainInv (fun q => inSubtree p q = true) o.main o.base o') {q : Str}
    (hne : normalizeVmPath q ≠ p) (hbelow : ¬ Below p (normalizeVmPath q)) :
    o'.view E q = o.view E q := by
  have h' : Tidy U o' := h.removed hU hp hroot hr
  have hhides : Hides o'.whiteouts (normalizeVmPath q) ↔ Hides o.whiteouts (normalizeVmPath q) := by
    rw [hr.whiteouts]
    split_ifs
    · constructor
      · rintro ⟨a, ha, haq⟩
        rcases mem_addWhiteout.1 ha with ha | rfl
        · exact ⟨a, ha, haq⟩
        · exact absurd haq (not_or.2 ⟨Ne.symm hne, hbelow⟩)
      · rintro ⟨a, ha, haq⟩
        exact ⟨a, mem_addWhiteout.2 (Or.inl ha), haq⟩
    · rfl
  -- The pattern of the removal takes no row that is not below.
  have hsub : ∀ row, o.main.fs.get? (normalizeVmPath q) = some row →
      inSubtree p (normalizeVmPath q) = false := by
    intro row hrow
    rw [← Bool.not_eq_true, hU.inSubtree_iff hp hroot (h.delta _ row hrow), not_or]
    exact ⟨hne, hbelow⟩
  have hfs : o'.main.fs.get? (normalizeVmPath q) = o.main.fs.get? (normalizeVmPath q) := by
    rw [hr.fs]
    rcases hrow : o.main.fs.get? (normalizeVmPath q) with _ | row
    · simp
    · rw [hsub row hrow, if_neg (by simp)]
  rcases hrow : o.main.fs.get? (normalizeVmPath q) with _ | row
  · rw [hrow] at hfs
    rcases hbase : o.base.fs.get? (normalizeVmPath q) with _ | brow
    · rw [view_of_none rfl h hU hrow (Or.inl hbase),
        view_of_none rfl h' hU hfs (Or.inl (by rw [hr.base]; exact hbase))]
    · by_cases hhid : Hides o.whiteouts (normalizeVmPath q)
      · rw [view_of_none rfl h hU hrow (Or.inr hhid),
          view_of_none rfl h' hU hfs (Or.inr (hhides.2 hhid))]
      · exact view_of_baseRow h h' hU hr.base hrow hfs hbase hhid fun hh => hhid (hhides.1 hh)
  · exact view_of_row h h' hU hm hok (by rw [hsub row hrow]; simp) hrow hfs

/-- A range write that returned leaves a regular file. -/
theorem kind_of_writeRange (h : Tidy U o) (hU : Plain U) {vmPath : Str} {off : ℕ} {data : Bytes}
    {mtime : ℤ} {u : Unit} (hp : U (normalizeVmPath vmPath))
    (hc : Contained o (.writeRange vmPath off data mtime))
    (hrun : writeRange E vmPath off data mtime o = .ok u o') :
    o'.kindInOverlay (normalizeVmPath vmPath) = some .file := by
  obtain ⟨hnil, hfile⟩ := hc.file vmPath off data mtime rfl
  by_cases hd : data = []
  · subst hd
    obtain ⟨_, _, h₁, hbody⟩ := bind_eq_ok.1 hrun
    rw [(query_eq_ok.1 h₁).2] at hbody
    cases hbody
    exact hnil rfl
  · obtain ⟨hr, -⟩ := writeRange_ok rfl hd hrun rfl
    have h' : Tidy U o' := h.wrote hU hp (by simp) hr.toWrote
    obtain ⟨row, hrow, -, hold, hnew⟩ := hr.row.row
    have hkind : row.kind = .file := by
      rcases hm : o.main.fs.get? (normalizeVmPath vmPath) with _ | old
      · exact (hnew hm).1
      · rw [(hold old hm).1]
        exact hfile old hm
    unfold kindInOverlay
    rw [h'.locate_delta hU hrow]
    simp only [kindIn, Overlay.db, hrow, Option.map_some, hkind]

/-- Only the chunks of its path are touched by an operation that removes nothing. -/
theorem touches_of_not_remove {op : OverlayOp} (hn : Normal op.path) (hrem : isRemove op = false)
    {q : Str} (h : op.Touches q) : q = op.path := by
  rcases op with _ | _ | _ | _ | _ | _
  · exact h.trans hn
  · exact h.trans hn
  · exact h.trans hn
  · exact h
  · exact h
  · cases hrem

/-! ## Runs -/

/-- An operation at a plain path that does not drop a blob and store it again. -/
def CleanOp (U : Str → Prop) (E : Ext K) (o : Overlay K) (op : OverlayOp) : Prop :=
  PlainOp U op ∧ NoRevival E o op

/-- The counts of the Delta are right along a run. -/
theorem refOk_of_reachable {base : Db K} (h : Reachable (CleanOp U E) E base o) : RefOk o.main := by
  induction h with
  | init now => exact refOk_initDb now
  | step h op hop ih =>
    exact (endState_op E (fun _ _ => trivial) ⟨ih.refInv fun _ => True, rfl⟩ hop.2).1.refOk

/-- In every state of a run at plain paths, an operation that returned has changed only what it
names, if it meets the condition. -/
theorem onlyNamed_of_reachable {K : Type} [DecidableEq K] {U : Str → Prop} {E : Ext K}
    {o o' : Overlay K} (hU : Plain U) {base : Db K}
    (hbase : ∀ q row, base.fs.get? q = some row → U q) (h : Reachable (CleanOp U E) E base o)
    {op : OverlayOp} (hop : CleanOp U E o op) (hc : Contained o op)
    (hrun : op.run E o = .ok () o') : OnlyNamed E op o o' := by
  have ht := tidy_of_reachable hU hbase (h.mono fun _ _ hop => hop.1)
  have hok := refOk_of_reachable h
  have hn := hU.normal hop.1.1
  -- The operation writes rows at what it touches only, and a path without a change there is
  -- looked up as before.
  have hinv : ∀ P : Str → Prop, (∀ q, op.Touches q → P q) → MainInv P o.main o.base o' := by
    intro P hP
    have hend := endState_op E hP ⟨hok.refInv P, rfl⟩ hop.2
    rwa [endState_of_ok hrun] at hend
  refine ⟨fun hrem q hq => ?_, fun hrem q hq hb => ?_, fun vmPath off data mtime he => ?_⟩
  · have hm := hinv (· = op.path) fun q hq => touches_of_not_remove hn hrem hq
    rcases run_ok hn hrun with rfl | ⟨vmPath, rfl, -⟩ | ⟨-, now, hw⟩
    · exact Or.inl rfl
    · cases hrem
    · exact view_of_wrote ht hU hok hop.1.1 hrem hc hw hm hq
  · obtain ⟨vmPath, rfl⟩ : ∃ vmPath, op = .remove vmPath := by
      rcases op with _ | _ | _ | _ | _ | vmPath
      · cases hrem
      · cases hrem
      · cases hrem
      · cases hrem
      · cases hrem
      · exact ⟨vmPath, rfl⟩
    exact view_of_removed ht hU hok hop.1.1 (hop.1.2 vmPath rfl) (remove_ok hrun)
      (hinv _ fun q hq => hq) hq hb
  · subst he
    exact kind_of_writeRange ht hU hop.1.1 hc hrun

/-- A directory is made in a directory of the Base. -/
theorem onlyNamed_of_mkdir : OnlyNamed plainExt (.mkdir "/a/b".toList 0)
    ⟨(initDb 0).addFs "/a".toList (dirRow 493 0), initDb 0, []⟩
    (endState ((OverlayOp.mkdir "/a/b".toList 0).run plainExt)
      ⟨(initDb 0).addFs "/a".toList (dirRow 493 0), initDb 0, []⟩) := by
  have hU : Plain (· ∈ [root, "/a".toList, "/a/b".toList]) := plain_of_list (by decide) (by decide)
  have hbase : ∀ q row, ((initDb 0).addFs "/a".toList (dirRow 493 0) : Db Bytes).fs.get? q =
      some row → q ∈ [root, "/a".toList, "/a/b".toList] := by
    intro q row hq
    have hmem := Table.mem_keys_iff.2 ⟨row, hq⟩
    revert hmem
    exact List.forall_mem_cons.2 ⟨by decide, by decide⟩ q
  refine onlyNamed_of_reachable hU hbase (Reachable.init 0)
    ⟨⟨by decide, by rintro _ ⟨⟩⟩, by rintro _ _ ⟨⟩⟩ ⟨?_, ?_, ?_, ?_⟩ rfl
  · intro d hd _ _ row hrow
    have hda : d = "/a".toList := by simpa using show d ∈ ["/a".toList] from hd
    subst hda
    cases hrow
    exact ⟨rfl, rfl⟩
  · rintro - a - - ⟨_, ha, -⟩
    cases ha
  · rintro - - q row - - ⟨_, ha, -⟩
    cases ha
  · rintro _ _ _ _ ⟨⟩

/-- A Base with `/a/b/c`. -/
def abcBase : Db Bytes :=
  (((initDb 0).addFs "/a".toList (dirRow 493 0)).addFs "/a/b".toList (dirRow 493 0)).addFs
    "/a/b/c".toList (dirRow 493 0)

/-- The directory `/a` of the Base is removed and `/a/b` made again: `/a/b/c` of the Base is back.
-/
theorem mkdir_reveals : ∃ o o' : Overlay Bytes, Reachable (fun _ _ => True) plainExt abcBase o ∧
    (OverlayOp.mkdir "/a/b".toList 0).run plainExt o = .ok () o' ∧
      o.locate "/a/b/c".toList = .missing ∧ o'.locate "/a/b/c".toList = .base ∧
      ¬ OnlyNamed plainExt (.mkdir "/a/b".toList 0) o o' := by
  have hrun : Reachable (fun _ _ => True) plainExt abcBase _ :=
    (Reachable.init 0).step (.remove "/a".toList) trivial
  refine ⟨_, endState ((OverlayOp.mkdir "/a/b".toList 0).run plainExt) (endState
    ((OverlayOp.remove "/a".toList).run plainExt) ⟨abcBase, initDb 0, []⟩), hrun, rfl, by decide,
    by decide, fun h => ?_⟩
  rcases h.write rfl "/a/b/c".toList (by decide) with hsame | ⟨hanc, -⟩
  · exact absurd (congrArg Option.isSome hsame) (by decide)
  · exact absurd hanc (by decide)

end Dbvm.Overlay
