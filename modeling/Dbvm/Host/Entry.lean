import Dbvm.Host.Sync
import Dbvm.Overlay.Rows

/-!
# What `sync_one` does

An entry of the host agrees with its row, or it can be written, or it is refused: the file cannot be
opened, or a policy rule forbids the write. A refused entry changes nothing. A written one gives its
path the row and the chunk list of the entry, so the row is no longer the one it was compared with.
-/

namespace Dbvm

open Lib Lib.Chunks Lib.Prog Lib.Posix

variable {K : Type} [DecidableEq K]

/-! ## What decides a refusal -/

section Policy

variable {db d d' : Db K}

/-- The parts of a database that decide whether a policy refuses a write. -/
structure SamePolicy (db d : Db K) : Prop where
  /-- The rows. -/
  fs : d.fs = db.fs
  /-- The rules. -/
  policies : d.policies = db.policies
  /-- The bypass. -/
  bypass : d.bypass = db.bypass
  /-- The total of the file sizes. -/
  bytes : d.counters.logicalBytes = db.counters.logicalBytes

omit [DecidableEq K] in
/-- A database has its own policies. -/
theorem SamePolicy.refl (db : Db K) : SamePolicy db db := ⟨rfl, rfl, rfl, rfl⟩

omit [DecidableEq K] in
/-- Two changes that leave the policies alone leave them alone together. -/
theorem SamePolicy.trans (h : SamePolicy db d) (h' : SamePolicy d d') : SamePolicy db d' :=
  ⟨h'.fs.trans h.fs, h'.policies.trans h.policies, h'.bypass.trans h.bypass, h'.bytes.trans h.bytes⟩

omit [DecidableEq K] in
/-- Policies that are the same refuse the same paths. -/
theorem SamePolicy.refusesPath (h : SamePolicy db d) (p : Str) :
    d.refusesPath p = db.refusesPath p := by
  unfold Db.refusesPath
  rw [h.policies, h.bypass]

omit [DecidableEq K] in
/-- Policies that are the same refuse the same rows. -/
theorem SamePolicy.refusesFs (h : SamePolicy db d) (p : Str) (m : FsMeta K) :
    d.refusesFs p m = db.refusesFs p m := by
  unfold Db.refusesFs
  rw [h.policies, h.bypass, h.bytes, h.fs]

omit [DecidableEq K] in
/-- A protected path takes no row. -/
theorem Db.refusesFs_of_path {p : Str} (h : db.refusesPath p = true) (m : FsMeta K) :
    db.refusesFs p m = true := by
  unfold Db.refusesPath at h
  unfold Db.refusesFs
  rw [Bool.and_eq_true] at h ⊢
  exact ⟨h.1, by rw [h.2]; rfl⟩

omit [DecidableEq K] in
/-- For a row that is not a file the path decides. -/
theorem Db.refusesFs_of_kind {p : Str} {m : FsMeta K} (hm : m.kind ≠ .file) :
    db.refusesFs p m = db.refusesPath p := by
  unfold Db.refusesPath Db.refusesFs
  have hnone : ∀ f : Rule → Bool, (∀ rule, f rule = false) → db.policies.any f = false := by
    intro f hf
    rw [List.any_eq_false]
    exact fun rule _ => by simp [hf rule]
  -- The rules on sizes are about files.
  refine congrArg (!db.bypass && ·)
    ((congrArg (_ || ·) (hnone _ fun rule => ?_)).trans (Bool.or_false _))
  rcases rule with _ | _ | _ <;> simp [hm]

/-- Releasing blobs does not change the count of logical bytes. -/
theorem Counters.released_bytes (s : Store K Block) (c : Counters) (ks : List K) :
    (Counters.released s c ks).logicalBytes = c.logicalBytes := by
  induction ks generalizing s c with
  | nil => rfl
  | cons k ks ih =>
    rw [Counters.released, ih]
    rcases s.get? k with _ | b
    · rfl
    · dsimp only
      split_ifs <;> rfl

/-- A delete of chunk rows leaves the policies alone. -/
theorem samePolicy_delChunks (db : Db K) (sel : Str → ℕ → Bool) :
    SamePolicy db (db.delChunks sel) :=
  ⟨rfl, rfl, rfl, Counters.released_bytes _ _ _⟩

/-- A stored blob leaves the policies alone. -/
theorem samePolicy_withBlob (E : Ext K) (effort : Effort) (db : Db K) (piece : Bytes) :
    SamePolicy db (db.withBlob E effort piece) := by
  unfold Db.withBlob
  split_ifs
  · exact SamePolicy.refl db
  · exact ⟨rfl, rfl, rfl, rfl⟩

end Policy

/-! ## Streams -/

section Stream

variable {E : Ext K} {p : Str} {db d : Db K}

/-- A stream of one piece gives its first chunk and the rest. -/
theorem fillChunk_got (b : Bytes) :
    ∃ rest, fillChunk chunkSize [.got b] = .ok (b.take chunkSize, rest) ∧
    (rest = [.got (b.drop chunkSize)] ∨ (rest = [] ∧ b.drop chunkSize = [])) := by
  obtain ⟨room, hroom⟩ : ∃ room, chunkSize = room + 1 := ⟨chunkSize - 1, by
    have := chunkSize_pos
    omega⟩
  rw [hroom, fillChunk]
  split_ifs with hb hle
  · exact ⟨[], by rw [hb, List.take_nil], Or.inr ⟨rfl, by rw [hb, List.drop_nil]⟩⟩
  · refine ⟨[], ?_, Or.inr ⟨rfl, List.drop_eq_nil_of_le hle⟩⟩
    have hend : ∀ n, fillChunk n [] = .ok ([], []) := by
      intro n
      cases n with
      | zero => rfl
      | succ n => rfl
    rw [hend, List.take_of_length_le hle]
    simp [bind, Except.bind]
  · exact ⟨[.got (b.drop (room + 1))], rfl, Or.inl rfl⟩

omit [DecidableEq K] in
/-- The chunk rows of what comes after the first chunk. -/
theorem chunkRow_drop (b : Bytes) (i : ℕ) :
    chunkRow E (b.drop chunkSize) i = chunkRow E b (i + 1) := by
  have hlt : i < numChunks chunkSize (b.drop chunkSize).length ↔
      i + 1 < numChunks chunkSize b.length := by
    rw [lt_numChunks_iff chunkSize_pos, lt_numChunks_iff chunkSize_pos, List.length_drop,
      Nat.add_mul, Nat.one_mul]
    omega
  have hat : chunkAt chunkSize (b.drop chunkSize) i = chunkAt chunkSize b (i + 1) := by
    unfold chunkAt slice
    rw [List.drop_drop, Nat.add_mul, Nat.one_mul, Nat.add_comm]
  unfold chunkRow
  rw [hat]
  simp only [hlt]

omit [DecidableEq K] in
/-- The first chunk of a file that is not empty has the key of its first piece. -/
theorem chunkRow_zero {b : Bytes} (hb : b ≠ []) :
    chunkRow E b 0 = some (E.blobKey (b.take chunkSize)) := by
  have hpos : 0 < numChunks chunkSize b.length := by
    rw [lt_numChunks_iff chunkSize_pos, Nat.zero_mul]
    exact List.length_pos_iff.2 hb
  rw [chunkRow, if_pos hpos, chunkAt, slice, Nat.zero_mul, List.drop_zero]

omit [DecidableEq K] in
/-- An empty file has no chunk. -/
theorem chunkRow_nil (i : ℕ) : chunkRow E [] i = none := by
  rw [chunkRow, List.length_nil, numChunks_zero chunkSize_pos, if_neg (Nat.not_lt_zero i)]

/-- A chunk is appended where there is none. -/
theorem appendChunk_of_path {idx : ℕ} (piece : Bytes) (hpath : d.refusesPath p = false)
    (hfree : d.chunks.get? (p, idx) = none) : appendChunk E p idx piece d =
      .ok () ((d.withBlob E .archive piece).addChunk p idx (E.blobKey piece)) := by
  have hsame := samePolicy_withBlob E .archive d piece
  obtain ⟨flag, hflag⟩ := blobEnsureWith_eq E .archive d piece
  have hins : insertChunk p idx (E.blobKey piece) (d.withBlob E .archive piece) =
      .ok () ((d.withBlob E .archive piece).addChunk p idx (E.blobKey piece)) := by
    refine statement_of_ok ?_
    rw [Db.insertChunk?, hsame.refusesPath, hpath, if_neg (by simp), Db.withBlob_chunks,
      Table.has_eq_false.2 hfree, if_neg (by simp)]
  unfold appendChunk blobEnsure
  rw [bind_of_ok hflag]
  exact hins

/-- A chunk is stored and listed when no policy protects the path and its number is free. -/
theorem appendChunk_total {idx : ℕ} (piece : Bytes) (hpath : d.refusesPath p = false)
    (hfree : d.chunks.get? (p, idx) = none) : ∃ d', appendChunk E p idx piece d = .ok () d' ∧
      SamePolicy d d' ∧ ∀ q i, d'.chunks.get? (q, i) =
        if (q, i) = (p, idx) then some (E.blobKey piece) else d.chunks.get? (q, i) := by
  have hrun := appendChunk_of_path (E := E) piece hpath hfree
  have hsame := samePolicy_withBlob E .archive d piece
  refine ⟨_, hrun, hsame.trans ⟨rfl, rfl, rfl, rfl⟩, (appendChunk_ok hrun).2⟩

/-- A chunk that is stored and listed leaves the policies alone. -/
theorem appendChunk_same {idx : ℕ} {piece : Bytes} {u : Unit} {d' : Db K}
    (h : appendChunk E p idx piece d = .ok u d') : SamePolicy d d' := by
  obtain ⟨flag, hflag⟩ := blobEnsureWith_eq E .archive d piece
  unfold appendChunk blobEnsure at h
  rw [bind_of_ok hflag] at h
  rw [(insertChunk_ok h).2]
  exact (samePolicy_withBlob E .archive d piece).trans ⟨rfl, rfl, rfl, rfl⟩

/-- So does the loop over the chunks of a stream. -/
theorem putStreamChunks_same : ∀ (fuel idx : ℕ) {src : Reader} {whole : Bytes} {d d' : Db K},
    putStreamChunks E p fuel idx src d = .ok whole d' → SamePolicy d d'
  | 0, _, _, _, d, _, h => by
    cases h
    exact SamePolicy.refl d
  | fuel + 1, idx, src, whole, d, d', h => by
    rw [putStreamChunks] at h
    obtain ⟨⟨piece, rest⟩, d₀, hquery, h⟩ := bind_eq_ok.1 h
    rw [(query_eq_ok.1 hquery).2] at h
    dsimp only at h
    by_cases hnil : piece = []
    · rw [if_pos hnil] at h
      cases h
      exact SamePolicy.refl d
    · rw [if_neg hnil] at h
      obtain ⟨_, d₁, happ, h⟩ := bind_eq_ok.1 h
      by_cases hshort : piece.length < chunkSize
      · rw [if_pos hshort] at h
        cases h
        exact appendChunk_same happ
      · rw [if_neg hshort] at h
        obtain ⟨tail, d₂, htail, h⟩ := bind_eq_ok.1 h
        cases h
        exact (appendChunk_same happ).trans (putStreamChunks_same fuel (idx + 1) htail)

/-- A stream of one piece is stored chunk by chunk. -/
theorem putStreamChunks_got : ∀ (fuel idx : ℕ) {b : Bytes} {src : Reader} {d : Db K},
    b.length < fuel → (src = [.got b] ∨ (src = [] ∧ b = [])) → d.refusesPath p = false →
      (∀ i, idx ≤ i → d.chunks.get? (p, i) = none) →
      ∃ d', putStreamChunks E p fuel idx src d = .ok b d' ∧ SamePolicy d d' ∧
        ∀ q i, d'.chunks.get? (q, i) =
          if q = p ∧ idx ≤ i then chunkRow E b (i - idx) else d.chunks.get? (q, i)
  | 0, _, _, _, _, hfuel, _, _, _ => absurd hfuel (Nat.not_lt_zero _)
  | fuel + 1, idx, b, src, d, hfuel, hsrc, hpath, hfree => by
    obtain ⟨rest, hfill, hrest⟩ : ∃ rest, fillChunk chunkSize src = .ok (b.take chunkSize, rest) ∧
        (rest = [.got (b.drop chunkSize)] ∨ (rest = [] ∧ b.drop chunkSize = [])) := by
      rcases hsrc with rfl | ⟨rfl, rfl⟩
      · exact fillChunk_got b
      · refine ⟨[], ?_, Or.inr ⟨rfl, List.drop_nil⟩⟩
        rw [List.take_nil]
        unfold fillChunk
        rfl
    have hquery : (Prog.query fun _ => fillChunk chunkSize src : Sql K _) d =
        .ok (b.take chunkSize, rest) d := query_of_ok hfill
    rw [putStreamChunks, bind_of_ok hquery]
    dsimp only
    -- By induction on the fuel: the first chunk is stored at `idx`, the rest of the stream from
    -- `idx + 1` on.
    by_cases hb : b = []
    · subst hb
      rw [if_pos List.take_nil]
      refine ⟨d, rfl, SamePolicy.refl d, fun q i => ?_⟩
      split_ifs with hq
      · rw [hq.1, hfree i hq.2, chunkRow_nil]
      · rfl
    · have htake : b.take chunkSize ≠ [] := by
        intro hnil
        rw [List.take_eq_nil_iff] at hnil
        exact hnil.elim (fun h0 => absurd h0 (Nat.ne_of_gt chunkSize_pos)) hb
      obtain ⟨d₁, happ, hsame₁, hch₁⟩ := appendChunk_total (E := E) (b.take chunkSize) hpath
        (hfree idx (le_refl idx))
      rw [if_neg htake, bind_of_ok happ]
      split_ifs with hshort
      · -- The chunk is not full: it is the last one.
        have hlen : b.length ≤ chunkSize := by
          rw [List.length_take] at hshort
          omega
        have hall : b.take chunkSize = b := List.take_of_length_le hlen
        refine ⟨d₁, by rw [hall]; rfl, hsame₁, fun q i => ?_⟩
        rw [hch₁]
        by_cases hq : q = p ∧ idx ≤ i
        · rw [if_pos hq]
          by_cases hi : i = idx
          · rw [if_pos (Prod.ext hq.1 hi), hi, Nat.sub_self, chunkRow_zero hb]
          · rw [if_neg fun he => hi (congrArg Prod.snd he), hq.1, hfree i hq.2]
            obtain ⟨j, hj⟩ : ∃ j, i - idx = j + 1 := ⟨i - idx - 1, by omega⟩
            rw [hj, ← chunkRow_drop, List.drop_eq_nil_of_le hlen, chunkRow_nil]
        · rw [if_neg hq, if_neg]
          rintro ⟨⟩
          exact hq ⟨rfl, le_refl idx⟩
      · have hlen : (b.drop chunkSize).length < fuel := by
          have := chunkSize_pos
          have := List.length_pos_iff.2 hb
          rw [List.length_drop]
          omega
        obtain ⟨d₂, hrun, hsame₂, hch₂⟩ := putStreamChunks_got fuel (idx + 1) (d := d₁) hlen hrest
          ((hsame₁.refusesPath p).trans hpath) fun i hi => by
            rw [hch₁, if_neg (by rintro ⟨⟩; omega)]
            exact hfree i (by omega)
        refine ⟨d₂, ?_, hsame₁.trans hsame₂, fun q i => ?_⟩
        · rw [bind_of_ok hrun, List.take_append_drop]
          rfl
        · rw [hch₂, hch₁]
          by_cases hq : q = p ∧ idx + 1 ≤ i
          · rw [if_pos hq, if_pos ⟨hq.1, by omega⟩, chunkRow_drop]
            congr 1
            omega
          · rw [if_neg hq]
            by_cases hi : (q, i) = (p, idx)
            · obtain ⟨rfl, rfl⟩ := Prod.mk.injEq .. ▸ hi
              rw [if_pos rfl, if_pos ⟨rfl, le_refl i⟩, Nat.sub_self, chunkRow_zero hb]
            · rw [if_neg hi, if_neg]
              rintro ⟨rfl, hle⟩
              exact hq ⟨rfl, Nat.lt_of_le_of_ne hle fun he => hi (by rw [he])⟩

end Stream

/-! ## Statements that are taken -/

section Taken

variable {E : Ext K} {p : Str} {d d' : Db K}

/-- What the quota counts beside the file at a path. -/
def Db.otherBytes (db : Db K) (p : Str) : ℤ :=
  db.counters.logicalBytes - (db.fs.get? p).elim 0 fun r => r.logical

omit [DecidableEq K] in
/-- A refusal depends on the rules, on the bytes of the other files, and on the kind and the size of
the new row. -/
theorem Db.refusesFs_congr {m m' : FsMeta K} (hpol : d'.policies = d.policies)
    (hby : d'.bypass = d.bypass) (hbytes : d'.otherBytes p = d.otherBytes p)
    (hkind : m'.kind = m.kind) (hsize : m'.size = m.size) :
    d'.refusesFs p m' = d.refusesFs p m := by
  unfold Db.otherBytes at hbytes
  unfold Db.refusesFs
  rw [hpol, hby, hbytes, hkind, hsize]

omit [DecidableEq K] in
/-- A path of which some row is allowed is not protected. -/
theorem refusesPath_of_refusesFs {m : FsMeta K} (h : d.refusesFs p m = false) :
    d.refusesPath p = false := by
  rcases hp : d.refusesPath p with _ | _
  · rfl
  · rw [Db.refusesFs_of_path hp] at h
    cases h

/-- The chunk rows of a path that is not protected can be deleted. -/
theorem deleteChunks_of_path (h : d.refusesPath p = false) :
    deleteChunks (fun q _ => q = p) d = .ok () (d.delChunks fun q _ => q = p) := by
  refine statement_of_ok (if_neg ?_)
  rw [List.any_eq_true]
  rintro ⟨⟨⟨q, i⟩, k⟩, hmem, href⟩
  have hq : q = p := by simpa using (List.mem_filter.1 hmem).2
  rw [hq, h] at href
  cases href

omit [DecidableEq K] in
/-- An update of a row does not change the bytes of the others. -/
theorem otherBytes_setFs {row : FsRow K} (hp : d.fs.get? p = some row) (f : FsRow K → FsRow K) :
    (d.setFs p f).otherBytes p = d.otherBytes p := by
  have hcount : (d.setFs p f).counters.logicalBytes =
      d.counters.logicalBytes - row.logical + (f row).logical := by
    unfold Db.setFs Counters.updFs
    rw [hp]
    dsimp only
    split_ifs <;> rfl
  unfold Db.otherBytes
  rw [hcount, Db.get?_setFs, if_pos rfl, hp]
  change _ - row.logical + (f row).logical - (f row).logical = _ - row.logical
  omega

omit [DecidableEq K] in
/-- A row that is written leaves the bytes of the other files. -/
theorem upsertFs_taken {row : FsRow K} (upd : FsRow K → FsRow K)
    (h : d.refusesFs p row.toFsMeta = false) : ∃ d', upsertFs p row upd d = .ok () d' ∧
      d'.policies = d.policies ∧ d'.bypass = d.bypass ∧ d'.otherBytes p = d.otherBytes p ∧
      d'.chunks = d.chunks ∧ d'.fs.get? p = some ((d.fs.get? p).elim row upd) ∧
      ∀ q, q ≠ p → d'.fs.get? q = d.fs.get? q := by
  have hput : upsertFs p row upd d =
      .ok () (if d.fs.has p then d.setFs p upd else d.addFs p row) := by
    refine statement_of_ok ?_
    rw [h, if_neg (by simp)]
    split_ifs <;> rfl
  -- A row is inserted where none is, and changed where one is.
  rcases hp : d.fs.get? p with _ | old
  · rw [Table.has_eq_false.2 hp, if_neg (by simp)] at hput
    have hget : ∀ q, (d.addFs p row).fs.get? q = if q = p then some row else d.fs.get? q :=
      Db.get?_addFs row hp
    refine ⟨_, hput, rfl, rfl, ?_, rfl, ?_, fun q hq => ?_⟩
    · unfold Db.otherBytes
      rw [hget, if_pos rfl, hp]
      change d.counters.logicalBytes + row.logical - row.logical = d.counters.logicalBytes - 0
      omega
    · rw [hget, if_pos rfl]
      rfl
    · rw [hget, if_neg hq]
  · rw [Table.has_eq_true.2 ⟨old, hp⟩, if_pos rfl] at hput
    refine ⟨_, hput, rfl, rfl, otherBytes_setFs hp upd, rfl, ?_, fun q hq => ?_⟩
    · rw [Db.get?_setFs, if_pos rfl, hp]
      rfl
    · rw [Db.get?_setFs, if_neg hq]

omit [DecidableEq K] in
/-- A change of a row is taken when neither the path nor the new row is refused. -/
theorem updateFs_taken {row : FsRow K} {f : FsRow K → FsRow K} (hp : d.fs.get? p = some row)
    (h : d.refusesFs p (f row).toFsMeta = false) : updateFs p f d = .ok () (d.setFs p f) := by
  refine statement_of_ok ?_
  rw [hp]
  dsimp only
  rw [h, refusesPath_of_refusesFs h, if_neg (by simp)]

/-- A directory or a link is written unless the path is protected. -/
theorem fsPutNode_taken {kind : Kind} (hkind : kind ≠ .file) (mode mtime : ℤ) (link : Option Str)
    (h : d.refusesPath p = false) : ∃ d', fsPutNode p kind mode mtime link d = .ok () d' := by
  have hrow : (d.delChunks fun q _ => q = p).refusesFs p
      ((dirRow mode mtime).toNode kind mode mtime link : FsRow K).toFsMeta = false := by
    rw [(samePolicy_delChunks d _).refusesFs, Db.refusesFs_of_kind hkind, h]
  obtain ⟨d', hput, -⟩ := upsertFs_taken (FsRow.toNode kind mode mtime link) hrow
  refine ⟨d', inSavepoint_of_ok ?_⟩
  rw [bind_of_ok (deleteChunks_of_path h)]
  exact hput

/-- `fs_put_node` fails at a protected path. -/
theorem fsPutNode_refused {kind : Kind} (mode mtime : ℤ) (link : Option Str)
    (h : d.refusesPath p = true) : fsPutNode p kind mode mtime link d ≠ .ok () d' := by
  intro hput
  unfold fsPutNode inSavepoint at hput
  obtain ⟨_, d₁, hdel, hups⟩ := bind_eq_ok.1 (savepoint_eq_ok.1 hput)
  rw [deleteChunks_ok hdel, upsertFs, statement_eq_ok,
    Db.refusesFs_of_path (((samePolicy_delChunks d _).refusesPath p).trans h), if_pos rfl] at hups
  cases hups

/-- The row of a file. -/
def fileRow (E : Ext K) (mode mtime ns : ℤ) (data : Bytes) : FsRow K :=
  { kind := .file, mode := mode, mtime := mtime, mtimeNs := ns, size := data.length
    linkTarget := none, hash := .key (E.blobKey data), content := none, compressed := 0 }

/-- A file is written unless its row is refused. Its row and its chunk rows are those of the data.
-/
theorem fsPutFileStreamNs_taken (mode mtime ns : ℤ) (data : Bytes)
    (h : d.refusesFs p (fileRow E mode mtime ns data).toFsMeta = false) :
    ∃ d', fsPutFileStreamNs E p mode mtime ns [.got data] d = .ok data.length d' ∧
      d'.policies = d.policies ∧ d'.bypass = d.bypass ∧ d'.otherBytes p = d.otherBytes p ∧
      d'.fs.get? p = some (fileRow E mode mtime ns data) ∧
      (∀ q, q ≠ p → d'.fs.get? q = d.fs.get? q) ∧
      ∀ q i, d'.chunks.get? (q, i) = if q = p then chunkRow E data i else d.chunks.get? (q, i) := by
  have hpath := refusesPath_of_refusesFs h
  have hdel := samePolicy_delChunks d fun q _ => decide (q = p)
  have hfuel : data.length < (Reader.bytes [.got data]).length + 1 := by
    rw [Reader.bytes, List.flatMap_singleton]
    exact Nat.lt_succ_self _
  -- The old chunks go, those of the stream come, and last the row; no rule refuses one of the
  -- three.
  obtain ⟨d₁, hch, hsame, hrows⟩ := putStreamChunks_got (E := E) (p := p)
    ((Reader.bytes [.got data]).length + 1) 0 (d := d.delChunks fun q _ => q = p) hfuel (Or.inl rfl)
    ((hdel.refusesPath p).trans hpath) fun i _ => by
      rw [Db.get?_delChunks, if_pos (decide_eq_true rfl)]
  have hsame₁ := hdel.trans hsame
  obtain ⟨d₂, hput, hpol, hby, hbytes, hchunks, hrow, hother⟩ := upsertFs_taken
    (fun _ => fileRow E mode mtime ns data)
    ((hsame₁.refusesFs p (fileRow E mode mtime ns data).toFsMeta).trans h)
  refine ⟨d₂, inSavepoint_of_ok ?_, hpol.trans hsame₁.policies, hby.trans hsame₁.bypass, ?_, ?_,
    fun q hq => ?_, fun q i => ?_⟩
  · rw [bind_of_ok (deleteChunks_of_path hpath), bind_of_ok hch]
    exact bind_of_ok hput
  · rw [hbytes]
    unfold Db.otherBytes
    rw [hsame₁.bytes, hsame₁.fs]
  · rw [hrow]
    rcases d₁.fs.get? p with _ | old <;> rfl
  · rw [hother q hq, hsame₁.fs]
  · rw [hchunks, hrows, Nat.sub_zero, Db.get?_delChunks]
    by_cases hq : q = p
    · rw [if_pos ⟨hq, Nat.zero_le i⟩, if_pos hq]
    · rw [if_neg fun hc => hq hc.1, if_neg (by simpa using hq), if_neg hq]

/-- `fs_put_file_stream_ns` fails when a policy refuses the file's row. -/
theorem fsPutFileStreamNs_refused (mode mtime ns : ℤ) (data : Bytes) {n : ℕ}
    (h : d.refusesFs p (fileRow E mode mtime ns data).toFsMeta = true) :
    fsPutFileStreamNs E p mode mtime ns [.got data] d ≠ .ok n d' := by
  intro hput
  unfold fsPutFileStreamNs inSavepoint at hput
  obtain ⟨_, d₁, hdel, hput⟩ := bind_eq_ok.1 (savepoint_eq_ok.1 hput)
  obtain ⟨whole, d₂, hch, hput⟩ := bind_eq_ok.1 hput
  obtain ⟨_, d₃, hups, -⟩ := bind_eq_ok.1 hput
  rw [deleteChunks_ok hdel] at hch
  have hdel := samePolicy_delChunks d fun q _ => decide (q = p)
  have hsame := hdel.trans (putStreamChunks_same _ _ hch)
  rw [upsertFs, statement_eq_ok] at hups
  -- A rule for the path refuses the chunks already, any other one refuses the row.
  rcases hpath : d.refusesPath p with _ | _
  · -- The path is free: the whole of the data was read.
    have hfuel : data.length < (Reader.bytes [.got data]).length + 1 := by
      rw [Reader.bytes, List.flatMap_singleton]
      exact Nat.lt_succ_self _
    obtain ⟨d₂', hch', -⟩ := putStreamChunks_got (E := E) (p := p)
      ((Reader.bytes [.got data]).length + 1) 0 (d := d.delChunks fun q _ => q = p) hfuel
        (Or.inl rfl)
      ((hdel.refusesPath p).trans hpath) fun i _ => by
        rw [Db.get?_delChunks, if_pos (decide_eq_true rfl)]
    rw [hch] at hch'
    cases hch'
    have href : d₂.refusesFs p (fileRow E mode mtime ns data).toFsMeta = true :=
      (hsame.refusesFs p _).trans h
    exact absurd ((if_pos href).symm.trans hups) (by simp)
  · rw [if_pos (Db.refusesFs_of_path ((hsame.refusesPath p).trans hpath) _)] at hups
    cases hups

/-- The file at `p` is written, and its time has no fraction of a second if the host's has none. -/
theorem writeFileChecked_taken (mode mtime ns : ℤ) (data : Bytes)
    (h : d.refusesFs p (fileRow E mode mtime ns data).toFsMeta = false) :
    ∃ d', writeFileChecked E p mode mtime ns [.got data] d = .ok () d' ∧
      d'.fs.get? p = some (fileRow E mode mtime ns data) ∧
      (∀ q, q ≠ p → d'.fs.get? q = d.fs.get? q) ∧
      ∀ q i, d'.chunks.get? (q, i) = if q = p then chunkRow E data i else d.chunks.get? (q, i) := by
  obtain ⟨d₁, hput, hpol, hby, hbytes, hrow, hother, hch⟩ :=
    fsPutFileStreamNs_taken mode mtime ns data h
  unfold writeFileChecked
  rw [bind_of_ok hput]
  by_cases hns : ns = 0
  · -- The second statement is checked again, against the same bytes.
    have hfree : d₁.refusesFs p
        ({ fileRow E mode mtime ns data with mtimeNs := 0 } : FsRow K).toFsMeta = false := by
      rw [← h]
      exact Db.refusesFs_congr hpol hby hbytes rfl rfl
    rw [if_pos hns]
    refine ⟨_, updateFs_taken hrow hfree, ?_, fun q hq => ?_, hch⟩
    · rw [Db.get?_setFs, if_pos rfl, hrow, hns]
      rfl
    · rw [Db.get?_setFs, if_neg hq, hother q hq]
  · rw [if_neg hns]
    exact ⟨d₁, rfl, hrow, hother, hch⟩

/-- A refused file changes nothing. -/
theorem writeFileChecked_refused (mode mtime ns : ℤ) (data : Bytes)
    (h : d.refusesFs p (fileRow E mode mtime ns data).toFsMeta = true) :
    ∃ e, writeFileChecked E p mode mtime ns [.got data] d = .error e d := by
  rcases hput : fsPutFileStreamNs E p mode mtime ns [.got data] d with ⟨n, d'⟩ | ⟨e, d'⟩
  · exact absurd hput (fsPutFileStreamNs_refused mode mtime ns data h)
  · refine ⟨e, ?_⟩
    unfold writeFileChecked
    rw [bind_of_error hput, inSavepoint_error hput]

end Taken

/-! ## One entry -/

section Entry

variable {E : Ext K} {ctx : SyncCtx} {p : Str} {d d' : Db K} {node : Node}
  {prev : Option (FsMeta K)}

/-- The row and the chunk rows an entry of the host is stored as. -/
def Mirrors (E : Ext K) (ctx : SyncCtx) (d : Db K) (p : Str) : Node → Prop
  | .file data mode ns readable =>
    d.fs.get? p = some (fileRow E (hostMode (.file data mode ns readable)) (hostMtime ns ctx.now)
      (hostMtimeNs ns) data) ∧ ∀ i, d.chunks.get? (p, i) = chunkRow E data i
  | .dir mode ns => ∃ row, d.fs.get? p = some row ∧ row.kind = .dir ∧
      row.mode = hostMode (.dir mode ns)
  | .link t => ∃ row, d.fs.get? p = some row ∧ row.kind = .symlink ∧ row.mode = hostMode (.link t) ∧
    row.linkTarget = some t
  | .special _ => False

/-- The row agrees with the entry, by what the sync compares. -/
def Current (E : Ext K) (ctx : SyncCtx) (node : Node) (prev : Option (FsMeta K)) : Bool :=
  match node, prev with
  | .special _, _ => true
  | _, none => false
  | .dir .., some m => m.kind = .dir && m.mode = hostMode node
  | .link t, some m => m.kind = .symlink && m.linkTarget = some t && m.mode = hostMode node
  | .file data _ ns _, some m => m.kind = .file && (m.size = data.length &&
      m.mtime = hostMtime ns ctx.now && m.mode = hostMode node && nsMatches m.mtimeNs
      (hostMtimeNs ns)) &&
      (!ctx.verifyContent || m.hash = .key (E.blobKey data))

/-- The entry can be stored: it can be read, and no rule refuses its row. -/
def Db.takes (E : Ext K) (ctx : SyncCtx) (d : Db K) (p : Str) (node : Node) : Bool :=
  match node with
  | .special _ => false
  | .file data _ ns readable => readable &&
      !d.refusesFs p (fileRow E (hostMode node) (hostMtime ns ctx.now)
        (hostMtimeNs ns) data).toFsMeta
  | _ => !d.refusesPath p

/-- What becomes of an entry: the row stays, or the write is refused and nothing changes, or the
path gets a row and chunks and nothing else changes. -/
inductive Became (C N : Prop) (W : Db K → Prop) (p : Str) (d : Db K) :
    EStateM.Result Err (Db K) (Option Bool) → Prop where
  /-- The row stays. -/
  | kept (hC : C) : Became C N W p d (.ok none d)
  /-- The entry is refused. -/
  | refused (hN : N) (e : Err) : Became C N W p d (.error e d)
  /-- The entry is written. -/
  | written (b : Bool) (d' : Db K) (hW : W d') (hfs : ∀ q, q ≠ p → d'.fs.get? q = d.fs.get? q)
      (hch : ∀ q i, q ≠ p → d'.chunks.get? (q, i) = d.chunks.get? (q, i)) :
      Became C N W p d (.ok (some b) d')

variable {C N : Prop} {W : Db K → Prop}

/-- A directory or a link is put. -/
theorem became_node {kind : Kind} {mode mtime : ℤ} {link : Option Str} (b : Bool)
    (hkind : kind ≠ .file) (hN : d.refusesPath p = true → N)
    (hW : d.refusesPath p = false → ∀ d' row, d'.fs.get? p = some row → row.kind = kind →
      row.mode = mode → row.linkTarget = link → W d') :
    Became C N W p d ((fsPutNode p kind mode mtime link >>= fun _ => pure (some b)) d) := by
  rcases hpath : d.refusesPath p with _ | _
  · obtain ⟨d', hput⟩ := fsPutNode_taken hkind mode mtime link hpath
    obtain ⟨⟨⟨row, hrow, hk, hm, -, hl⟩, hfs, hch⟩, -⟩ := fsPutNode_ok hput
    rw [bind_of_ok hput]
    exact .written b d' (hW hpath d' row hrow hk hm hl) hfs hch
  · rcases hput : fsPutNode p kind mode mtime link d with ⟨u, d'⟩ | ⟨e, d'⟩
    · exact absurd hput (fsPutNode_refused mode mtime link hpath)
    · rw [bind_of_error hput, inSavepoint_error hput]
      exact .refused (hN hpath) e

omit [DecidableEq K] in
/-- An update of a row that exists makes it that of the node. -/
theorem became_update {f : FsRow K → FsRow K} (b : Bool)
    (hN : ∀ row, d.fs.get? p = some row →
      (d.refusesPath p || d.refusesFs p (f row).toFsMeta) = true → N)
    (hW : ∀ d', d'.fs.get? p = (d.fs.get? p).map f →
      (∀ row, d.fs.get? p = some row →
        (d.refusesPath p || d.refusesFs p (f row).toFsMeta) = false) →
      W d') :
    Became C N W p d ((updateFs p f >>= fun _ => pure (some b)) d) := by
  -- Without a row the statement changes nothing. With one a rule may refuse it, and else the row
  -- is changed.
  rcases hp : d.fs.get? p with _ | row
  · have hrun : updateFs p f d = .ok () d := by
      refine statement_of_ok ?_
      rw [hp]
    rw [bind_of_ok hrun]
    exact .written b d (hW d (by rw [hp]; rfl) (by simp [hp])) (fun _ _ => rfl) fun _ _ _ => rfl
  · rcases href : d.refusesPath p || d.refusesFs p (f row).toFsMeta with _ | _
    · have hrun : updateFs p f d = .ok () (d.setFs p f) :=
        updateFs_taken hp (by simpa using (Bool.or_eq_false_iff.1 href).2)
      rw [bind_of_ok hrun]
      refine .written b _ (hW _ ?_ ?_) (fun q hq => ?_) fun _ _ _ => rfl
      · rw [Db.get?_setFs, if_pos rfl]
      · rintro row' hrow'
        rw [hp] at hrow'
        cases hrow'
        exact href
      · rw [Db.get?_setFs, if_neg hq]
    · have hrun : updateFs p f d = .error .refused d := by
        unfold updateFs statement
        dsimp only
        rw [hp]
        dsimp only
        rw [if_pos href]
      rw [bind_of_error hrun]
      exact .refused (hN row hp href) _

/-- Writing a file makes the row that of the file's content and metadata. -/
theorem became_file {mode mtime ns : ℤ} {data : Bytes} (b : Bool)
    (hN : d.refusesFs p (fileRow E mode mtime ns data).toFsMeta = true → N)
    (hW : d.refusesFs p (fileRow E mode mtime ns data).toFsMeta = false → ∀ d',
      d'.fs.get? p = some (fileRow E mode mtime ns data) →
      (∀ i, d'.chunks.get? (p, i) = chunkRow E data i) → W d') :
    Became C N W p d
      ((writeFileChecked E p mode mtime ns [.got data] >>= fun _ => pure (some b)) d) := by
  rcases href : d.refusesFs p (fileRow E mode mtime ns data).toFsMeta with _ | _
  · obtain ⟨d', hput, hrow, hfs, hch⟩ := writeFileChecked_taken mode mtime ns data href
    rw [bind_of_ok hput]
    refine .written b d' (hW href d' hrow fun i => ?_) hfs fun q i hq => ?_
    · rw [hch, if_pos rfl]
    · rw [hch, if_neg hq]
  · obtain ⟨e, hput⟩ := writeFileChecked_refused mode mtime ns data href
    rw [bind_of_error hput]
    exact .refused (hN href) e

/-- The row of `p` is not the one it was compared with. -/
def Changed (prev : Option (FsMeta K)) (p : Str) (d : Db K) : Prop :=
  ∃ row, d.fs.get? p = some row ∧ prev ≠ some row.toFsMeta

/-- What `sync_one` does with an entry. The metadata `prev` may have been read in an earlier state;
when it is that of the row, the outcome is decided by `Current` and `takes`. -/
def SyncsOne (E : Ext K) (ctx : SyncCtx) (node : Node) (p : Str) (prev : Option (FsMeta K))
    (d : Db K) :
    Prop :=
  Became (prev = (d.fs.get? p).map (fun r => r.toFsMeta) → Current E ctx node prev = true)
    (prev = (d.fs.get? p).map (fun r => r.toFsMeta) → d.takes E ctx p node = false)
    (fun d' => (ctx.verifyContent = false → (prev ≠ none → d.fs.has p = true) → Changed prev p d') ∧
      (prev = (d.fs.get? p).map (fun r => r.toFsMeta) →
        Current E ctx node prev = false ∧ d.takes E ctx p node = true ∧ Mirrors E ctx d' p node))
    p d (syncOne E ctx node p prev d)

variable {verify : Bool} {now : ℤ}

/-- A directory or a link of another kind than the row, or without a row. -/
theorem syncsOne_put (kind : Kind) {link : Option Str} {b : Bool} (hkind : kind ≠ .file)
    (hrun : syncOne E ⟨verify, none, now⟩ node p prev d =
      (fsPutNode p kind (hostMode node) now link >>= fun _ => pure (some b)) d)
    (hcur : Current E ⟨verify, none, now⟩ node prev = false)
    (htakes : d.takes E ⟨verify, none, now⟩ p node = !d.refusesPath p)
    (hprev : ∀ m, prev = some m → m.kind ≠ kind)
    (hmirrors : ∀ d' row, d'.fs.get? p = some row → row.kind = kind → row.mode = hostMode node →
      row.linkTarget = link → Mirrors E ⟨verify, none, now⟩ d' p node) :
    SyncsOne E ⟨verify, none, now⟩ node p prev d := by
  unfold SyncsOne
  rw [hrun]
  refine became_node b hkind (fun h _ => by rw [htakes, h]; rfl) fun h d' row hrow hk hm hl => ?_
  refine ⟨fun _ _ => ⟨row, hrow, fun he => hprev _ he hk⟩, fun _ => ⟨hcur, ?_, ?_⟩⟩
  · rw [htakes, h]
    rfl
  · exact hmirrors d' row hrow hk hm hl

/-- A directory or a link of the kind of its row is updated in place. -/
theorem syncsOne_update {m : FsMeta K} {f : FsRow K → FsRow K} {b : Bool} (hm : m.kind ≠ .file)
    (hrun : syncOne E ⟨verify, none, now⟩ node p (some m) d =
      (updateFs p f >>= fun _ => pure (some b)) d)
    (hcur : Current E ⟨verify, none, now⟩ node (some m) = false)
    (htakes : d.takes E ⟨verify, none, now⟩ p node = !d.refusesPath p)
    (hkind : ∀ row, (f row).kind = row.kind) (hne : ∀ row, m ≠ (f row).toFsMeta)
    (hmirrors : ∀ d' row, d'.fs.get? p = some (f row) → row.kind = m.kind →
      Mirrors E ⟨verify, none, now⟩ d' p node) :
    SyncsOne E ⟨verify, none, now⟩ node p (some m) d := by
  have hrow : some m = (d.fs.get? p).map (fun r => r.toFsMeta) →
      ∃ row, d.fs.get? p = some row ∧ row.kind = m.kind := by
    intro hprev
    obtain ⟨row, hrow, he⟩ := Option.map_eq_some_iff.1 hprev.symm
    exact ⟨row, hrow, by rw [← he]⟩
  -- The kind of the row is not that of a file: the path decides.
  have href : ∀ row, row.kind = m.kind →
      (d.refusesPath p || d.refusesFs p (f row).toFsMeta) = d.refusesPath p := by
    intro row hk
    rw [Db.refusesFs_of_kind (by rw [hkind, hk]; exact hm), Bool.or_self]
  unfold SyncsOne
  rw [hrun]
  refine became_update b (fun row hget h hprev => ?_) fun d' hget h =>
    ⟨fun _ hhas => ?_, fun hprev => ?_⟩
  · obtain ⟨row', hrow', hk⟩ := hrow hprev
    rw [hget] at hrow'
    cases hrow'
    rw [href row hk] at h
    rw [htakes, h]
    rfl
  · obtain ⟨row, hrow⟩ := Table.has_eq_true.1 (hhas (by simp))
    rw [hrow] at hget
    exact ⟨f row, hget, fun he => hne row (Option.some.inj he)⟩
  · obtain ⟨row, hrow, hk⟩ := hrow hprev
    have hfree := h row hrow
    rw [href row hk] at hfree
    rw [hrow] at hget
    refine ⟨hcur, ?_, hmirrors d' row hget hk⟩
    rw [htakes, hfree]
    rfl

/-- `sync_one` on a directory does what `SyncsOne` says. -/
theorem syncsOne_dir (mode : ℕ) (listable : Bool) :
    SyncsOne E ⟨verify, none, now⟩ (.dir mode listable) p prev d := by
  rcases prev with _ | m
  · exact syncsOne_put .dir (by simp) rfl rfl rfl (by simp)
      fun d' row hrow hk hm _ => ⟨row, hrow, hk, hm⟩
  · have hrun : syncOne E ⟨verify, none, now⟩ (.dir mode listable) p (some m) =
        if m.kind = .dir then
          if m.mode = hostMode (.dir mode listable) then pure none
          else updateFs
            p (fun row => { row with mode := hostMode (.dir mode listable), mtime := now }) >>=
            fun _ => pure (some true)
        else fsPutNode p .dir (hostMode (.dir mode listable)) now none >>= fun _ =>
          pure (some true) := by
      rfl
    by_cases hk : m.kind = .dir
    · by_cases hmode : m.mode = hostMode (.dir mode listable)
      · unfold SyncsOne
        rw [hrun, if_pos hk, if_pos hmode]
        exact .kept fun _ => by simp [Current, hk, hmode]
      · have hup := congrFun (hrun.trans ((if_pos hk).trans (if_neg hmode))) d
        refine syncsOne_update (by rw [hk]; simp) hup (by simp [Current, hmode]) rfl (fun _ => rfl)
          (fun row he => hmode (by rw [he])) ?_
        exact fun d' row hget hkind => ⟨_, hget, hkind.trans hk, rfl⟩
    · refine syncsOne_put .dir (by simp) (by rw [hrun, if_neg hk]) (by simp [Current, hk]) rfl
        (by rintro _ ⟨⟩; exact hk) fun d' row hrow hkind hm _ => ⟨row, hrow, hkind, hm⟩

/-- `sync_one` on a link does what `SyncsOne` says. -/
theorem syncsOne_link (t : Name) : SyncsOne E ⟨verify, none, now⟩ (.link t) p prev d := by
  rcases prev with _ | m
  · exact syncsOne_put .symlink (by simp) rfl rfl rfl (by simp)
      fun d' row hrow hk hm hl => ⟨row, hrow, hk, hm, hl⟩
  · have hrun : syncOne E ⟨verify, none, now⟩ (.link t) p (some m) =
        if m.kind = .symlink then
          if m.linkTarget = some t ∧ m.mode = hostMode (.link t) then pure none
          else updateFs p (fun row =>
            { row with mode := hostMode (.link t), linkTarget := some t, mtime := now }) >>=
            fun _ => pure (some true)
        else fsPutNode p .symlink (hostMode (.link t)) now (some t) >>= fun _ =>
          pure (some true) := by
      rfl
    -- A row that is a link of this text and mode is left alone, any other one is put anew.
    by_cases hk : m.kind = .symlink
    · by_cases hsame : m.linkTarget = some t ∧ m.mode = hostMode (.link t)
      · unfold SyncsOne
        rw [hrun, if_pos hk, if_pos hsame]
        exact .kept fun _ => by simp [Current, hk, hsame]
      · have hup := congrFun (hrun.trans ((if_pos hk).trans (if_neg hsame))) d
        refine syncsOne_update (by rw [hk]; simp) hup ?_ rfl (fun _ => rfl)
          (fun row he => hsame (by rw [he]; exact ⟨rfl, rfl⟩)) ?_
        · by_cases hl : m.linkTarget = some t
          · have hmode : m.mode ≠ hostMode (.link t) := fun hm => hsame ⟨hl, hm⟩
            simp [Current, hmode]
          · simp [Current, hl]
        · exact fun d' row hget hkind => ⟨_, hget, hkind.trans hk, rfl, rfl⟩
    · refine syncsOne_put .symlink (by simp) (by rw [hrun, if_neg hk]) (by simp [Current, hk]) rfl
        (by rintro _ ⟨⟩; exact hk) fun d' row hrow hkind hm hl => ⟨row, hrow, hkind, hm, hl⟩

/-- `sync_one` on a file that it opens and writes does what `SyncsOne` says. -/
theorem syncsOne_write {data : Bytes} {mode : ℕ} {ns : ℤ} {readable b : Bool}
    (hrun : syncOne E ⟨verify, none, now⟩ (.file data mode ns readable) p prev d =
      ((Prog.query fun _ => openFile data readable) >>= fun src =>
        writeFileChecked E p (hostMode (.file data mode ns readable)) (hostMtime ns now)
          (hostMtimeNs ns)
          src >>= fun _ => pure (some b)) d)
    (hcur : prev = (d.fs.get? p).map (fun r => r.toFsMeta) →
      Current E ⟨verify, none, now⟩ (.file data mode ns readable) prev = false)
    (hne : verify = false → prev ≠ some (fileRow E (hostMode (.file data mode ns readable))
      (hostMtime ns now) (hostMtimeNs ns) data).toFsMeta) :
    SyncsOne E ⟨verify, none, now⟩ (.file data mode ns readable) p prev d := by
  unfold SyncsOne
  rw [hrun]
  rcases readable with _ | _
  · have hopen : (Prog.query fun _ => openFile data false : Sql K _) d = .error .readFailed d := rfl
    rw [bind_of_error hopen]
    exact .refused (fun _ => rfl) _
  · have hopen : (Prog.query fun _ => openFile data true : Sql K _) d = .ok [.got data] d := rfl
    rw [bind_of_ok hopen]
    refine became_file b (fun h _ => by simp [Db.takes, h]) fun h d' hrow hch =>
      ⟨fun hv _ => ⟨_, hrow, hne hv⟩, fun hprev => ⟨hcur hprev, by simp [Db.takes, h], hrow, hch⟩⟩

/-- The metadata comparison of a file. -/
def metadataCurrent (m : FsMeta K) (data : Bytes) (mode ns now : ℤ) : Bool :=
  m.size = data.length && m.mtime = hostMtime ns now && m.mode = mode && nsMatches m.mtimeNs
  (hostMtimeNs ns)

/-- A file whose row is a file. -/
theorem syncsOne_sameKind {m : FsMeta K} (hk : m.kind = .file) (data : Bytes) (mode : ℕ) (ns : ℤ)
    (readable : Bool) :
    SyncsOne E ⟨verify, none, now⟩ (.file data mode ns readable) p (some m) d := by
  have hcur : Current E ⟨verify, none, now⟩ (.file data mode ns readable) (some m) =
      (metadataCurrent m data (hostMode (.file data mode ns readable)) ns now &&
        (!verify || m.hash = .key (E.blobKey data))) := by
    simp [Current, metadataCurrent, hk]
  -- When the metadata differs the file is written, whatever its content.
  rcases hmeta : metadataCurrent m data (hostMode (.file data mode ns readable)) ns now with _ | _
  · refine syncsOne_write (b := true) ?_ (fun _ => by rw [hcur, hmeta]; rfl) fun _ he => ?_
    · unfold syncOne
      dsimp only
      rw [if_pos hk]
      unfold metadataCurrent at hmeta
      rw [hmeta, Bool.and_false]
      rfl
    · rw [Option.some.inj he] at hmeta
      simp [metadataCurrent, fileRow, nsMatches] at hmeta
  · -- The metadata agrees: the content decides, if it is asked for.
    let write : Sql K (Option Bool) := (Prog.query fun _ => openFile data readable) >>= fun src =>
      writeFileChecked E p (hostMode (.file data mode ns readable)) (hostMtime ns now)
      (hostMtimeNs ns)
        src >>= fun _ => pure (some true)
    have hrun : syncOne E ⟨verify, none, now⟩ (.file data mode ns readable) p (some m) =
        if verify && metadataCurrent m data (hostMode (.file data mode ns readable)) ns now then
          (Prog.reads fun db => (db.fs.get? p).map fun row => row.hash) >>= fun stored =>
            (Prog.query fun _ => openFile data readable) >>= fun _ =>
              if decide (stored = some (.key (E.blobKey data))) then pure none else write
        else if metadataCurrent m data (hostMode (.file data mode ns readable)) ns
          now then pure none
          else write := by
      unfold syncOne
      dsimp only
      rw [if_pos hk]
      rfl
    rcases verify with _ | _
    · unfold SyncsOne
      rw [hrun, hmeta]
      exact .kept fun _ => by rw [hcur, hmeta]; rfl
    · rw [hmeta, if_pos (Bool.and_self true)] at hrun
      rcases readable with _ | _
      · unfold SyncsOne
        rw [hrun]
        exact .refused (fun _ => rfl) .readFailed
      · have hread : some m = (d.fs.get? p).map (fun r => r.toFsMeta) →
            (d.fs.get? p).map (fun row => row.hash) = some m.hash := by
          intro hprev
          obtain ⟨row, hrow, he⟩ := Option.map_eq_some_iff.1 hprev.symm
          rw [hrow, ← he]
          rfl
        by_cases hhash : (d.fs.get? p).map (fun row => row.hash) = some (.key (E.blobKey data))
        · have hkeep : syncOne E ⟨true, none, now⟩ (.file data mode ns true) p (some m) d = .ok
            none d := by
            rw [hrun, reads_bind, decide_eq_true hhash]
            rfl
          unfold SyncsOne
          rw [hkeep]
          refine .kept fun hprev => ?_
          rw [hread hprev] at hhash
          rw [hcur, hmeta, Option.some.inj hhash]
          simp
        · refine syncsOne_write (b := true) ?_ (fun hprev => ?_) fun hv => by cases hv
          · rw [hrun, reads_bind, decide_eq_false hhash]
            rfl
          · rw [hread hprev] at hhash
            rw [hcur, hmeta]
            simpa using hhash

/-- `sync_one` on a file: rewritten when the metadata differs or the content is compared and
differs. -/
theorem syncsOne_file (data : Bytes) (mode : ℕ) (ns : ℤ) (readable : Bool) :
    SyncsOne E ⟨verify, none, now⟩ (.file data mode ns readable) p prev d := by
  rcases prev with _ | m
  · exact syncsOne_write rfl (fun _ => rfl) (by simp)
  · by_cases hk : m.kind = .file
    · exact syncsOne_sameKind hk data mode ns readable
    · refine syncsOne_write (b := true) ?_ (fun _ => by simp [Current, hk]) fun _ he => hk ?_
      · unfold syncOne
        dsimp only
        rw [if_neg hk]
        rfl
      · rw [Option.some.inj he]
        rfl

/-- What a sync without an undo record does with one entry. -/
theorem syncsOne (E : Ext K) {ctx : SyncCtx} (hundo : ctx.undo = none) (node : Node) (p : Str)
    (prev : Option (FsMeta K)) (d : Db K) : SyncsOne E ctx node p prev d := by
  obtain ⟨verify, undo, now⟩ := ctx
  cases hundo
  cases node with
  | special mode => exact .kept fun _ => rfl
  | dir mode listable => exact syncsOne_dir mode listable
  | link t => exact syncsOne_link t
  | file data mode ns readable => exact syncsOne_file data mode ns readable

end Entry

end Dbvm
