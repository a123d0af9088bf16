import Dbvm.Entries
import Dbvm.Lib.Script
import Dbvm.Policy

/-!
# A stream and the whole buffer

A file can be written from a stream (`fs_put_file_stream`), which is read piece by piece into one
chunk after the other, or from a buffer that holds all of it (`vm_add_bytes`). How the reads of a
stream divide its bytes makes no difference: the statements are those of the whole buffer. A write
that fails, in whatever state its statements have reached, leaves the database as it was, unless the
failure ends a transaction of the caller.
-/

namespace Dbvm

open Lib Lib.Chunks Lib.Prog Lib.Tx

variable {K : Type} [DecidableEq K] {E : Ext K} {p : Str} {db d d' : Db K} {src : Reader}
  {data : Bytes}

/-! ## What a stream gives -/

/-- The reads of a stream give these bytes: some bytes each, and then none. -/
inductive Reader.Gives : Reader → Bytes → Prop where
  /-- There is no read left. -/
  | done : Gives [] []
  /-- A read that gives nothing is the end. -/
  | stop (rest : Reader) : Gives (.got [] :: rest) []
  /-- A read that gives something. -/
  | more {b : Bytes} {rest : Reader} {data : Bytes} (hb : b ≠ []) (h : Gives rest data) :
    Gives (.got b :: rest) (b ++ data)

/-- The bytes are no more than those of all reads. -/
theorem Reader.Gives.length_le (h : src.Gives data) : data.length ≤ (Reader.bytes src).length := by
  induction h with
  | done => exact Nat.zero_le _
  | stop rest => exact Nat.zero_le _
  | @more b rest data hb _ ih =>
    have hbytes : Reader.bytes (.got b :: rest) = b ++ Reader.bytes rest := rfl
    rw [hbytes, List.length_append, List.length_append]
    omega

/-- A chunk is filled with the bytes that come next, whatever the reads are. If it is full the
stream gives the rest of them afterwards. -/
theorem fillChunk_gives (h : src.Gives data) : ∀ room : ℕ, ∃ rest,
    fillChunk room src = .ok (data.take room, rest) ∧
    (room ≤ data.length → Reader.Gives rest (data.drop room)) := by
  -- By induction on the reads.
  induction h with
  | done =>
    intro room
    refine ⟨[], ?_, fun _ => ?_⟩
    · rw [List.take_nil]
      cases room with
      | zero => rfl
      | succ room => rfl
    · rw [List.drop_nil]
      exact .done
  | stop rest =>
    intro room
    rw [List.take_nil, List.drop_nil]
    cases room with
    | zero => exact ⟨_, rfl, fun _ => .stop rest⟩
    | succ room =>
      refine ⟨rest, ?_, fun hroom => absurd hroom (by simp)⟩
      rw [fillChunk, if_pos rfl]
  | @more b rest data hb hrest ih =>
    intro room
    rcases room with _ | room
    · exact ⟨_, rfl, fun _ => .more hb hrest⟩
    rw [fillChunk, if_neg hb]
    by_cases hle : b.length ≤ room + 1
    · -- The read fits: the chunk is filled from those after it.
      obtain ⟨rest', hfill, hgives⟩ := ih (room + 1 - b.length)
      refine ⟨rest', ?_, fun hroom => ?_⟩
      · rw [if_pos hle, hfill, List.take_append, List.take_of_length_le hle]
        rfl
      · rw [List.drop_append, List.drop_eq_nil_of_le hle, List.nil_append]
        apply hgives
        rw [List.length_append] at hroom
        omega
    · -- A part of it is left for the next chunk.
      have hrest' : b.drop (room + 1) ≠ [] := by
        rw [ne_eq, List.drop_eq_nil_iff]
        omega
      refine ⟨.got (b.drop (room + 1)) :: rest, ?_, fun _ => ?_⟩
      · rw [if_neg hle, List.take_append_of_le_length (by omega)]
      · rw [List.drop_append_of_le_length (by omega)]
        exact .more hrest' hrest

/-! ## The statements -/

/-- An empty file has no piece. -/
theorem chunksOf_nil : chunksOf chunkSize ([] : Bytes) = [] := by
  unfold chunksOf
  rw [List.length_nil, numChunks_zero chunkSize_pos]
  rfl

/-- The loop over a stream stores the chunks of its bytes. -/
theorem putStreamChunks_eq :
    ∀ (fuel idx : ℕ) {src : Reader} {data : Bytes}, src.Gives data → data.length < fuel →
    putStreamChunks E p fuel idx src = do
      ((chunksOf chunkSize data).zipIdx idx).forM fun piece => appendChunk E p piece.2 piece.1
      pure data
  | 0, _, _, _, _, hfuel => absurd hfuel (Nat.not_lt_zero _)
  | fuel + 1, idx, src, data, hsrc, hfuel => by
    obtain ⟨rest, hfill, hrest⟩ := fillChunk_gives hsrc chunkSize
    have hquery : (Prog.query fun _ => fillChunk chunkSize src : Sql K _) = pure
      (data.take chunkSize, rest) := by
      rw [hfill]
      rfl
    rw [putStreamChunks, hquery, pure_bind]
    dsimp only
    have hpos := chunkSize_pos
    -- By induction on the fuel: the first full chunk of the stream is the first chunk of its
    -- bytes.
    by_cases hnil : data = []
    · rw [hnil, List.take_nil, if_pos rfl, chunksOf_nil]
      rfl
    · have hlen := List.length_pos_iff.2 hnil
      have htake : data.take chunkSize ≠ [] := by
        rw [ne_eq, List.take_eq_nil_iff, not_or]
        exact ⟨by omega, hnil⟩
      rw [if_neg htake, chunksOf_eq_cons chunkSize_pos hnil, List.zipIdx_cons, List.forM_eq_forM,
        List.forM_cons, bind_assoc]
      congr 1
      funext u
      by_cases hshort : data.length < chunkSize
      · -- A chunk that is not full is the last one.
        have hlast : (data.take chunkSize).length < chunkSize := by
          rw [List.length_take]
          omega
        rw [if_pos hlast, List.take_of_length_le (by omega), List.drop_eq_nil_of_le (by omega),
          chunksOf_nil]
        rfl
      · have hfull : ¬ (data.take chunkSize).length < chunkSize := by
          rw [List.length_take]
          omega
        have hmore : (data.drop chunkSize).length < fuel := by
          rw [List.length_drop]
          omega
        rw [if_neg hfull, putStreamChunks_eq fuel (idx + 1) (hrest (by omega)) hmore,
          List.forM_eq_forM, bind_assoc]
        congr 1
        funext u
        rw [pure_bind, List.take_append_drop]

/-- The statements of `fs_put_file_stream_ns` inside its savepoint. -/
def streamBody (E : Ext K) (p : Str) (mode mtime ns : ℤ) (src : Reader) : Sql K ℕ := do
  deleteChunks fun q _ => q = p
  let whole ← putStreamChunks E p (src.bytes.length + 1) 0 src
  upsertFs p (fileRow E mode mtime ns whole) fun _ => fileRow E mode mtime ns whole
  return whole.length

/-- `fs_put_file_stream_ns` is its body in a savepoint. -/
theorem fsPutFileStreamNs_eq (mode mtime ns : ℤ) (src : Reader) :
    fsPutFileStreamNs E p mode mtime ns src = inSavepoint (streamBody E p mode mtime ns src) := rfl

/-- They are those of the whole buffer, but for the nanoseconds of the row. -/
theorem streamBody_eq (hsrc : src.Gives data) (mode mtime ns : ℤ) :
    streamBody E p mode mtime ns src = do
      chunksReplace E p data
      upsertFs p (fileRow E mode mtime ns data) fun _ => fileRow E mode mtime ns data
      return data.length := by
  unfold streamBody chunksReplace
  rw [putStreamChunks_eq _ 0 hsrc (Nat.lt_succ_of_le hsrc.length_le), bind_assoc, bind_assoc]
  rfl

/-! ## The whole buffer -/

/-- The row at a path gets a stamp in nanoseconds. -/
def Db.stamped (db : Db K) (p : Str) (ns : ℤ) : Db K :=
  { db with fs := db.fs.update p fun row => { row with mtimeNs := ns } }

omit [DecidableEq K] in
/-- The two writes of the row are the same but for the stamp. -/
theorem upsertFs_stream (E : Ext K) (p : Str) (data : Bytes) (mode mtime ns : ℤ) (db : Db K) :
    upsertFs p (fileRow E mode mtime ns data) (fun _ => fileRow E mode mtime ns data) db =
      match upsertFs p ((dirRow mode mtime).toFile mode mtime data.length (.key (E.blobKey data)))
          (FsRow.toFile mode mtime data.length (.key (E.blobKey data))) db with
      | .ok u db' => .ok u (db'.stamped p ns)
      | .error e db' => .error e db' := by
  have hrefuse :
      db.refusesFs p
      ((dirRow mode mtime).toFile mode mtime data.length (.key (E.blobKey data))).toFsMeta =
      db.refusesFs p (fileRow E mode mtime ns data).toFsMeta := rfl
  unfold upsertFs statement
  dsimp only
  rw [hrefuse]
  -- Both statements meet the same rule, and then put rows that differ in the nanoseconds only.
  by_cases hr : db.refusesFs p (fileRow E mode mtime ns data).toFsMeta = true
  · rw [if_pos hr, if_pos hr]
  rw [if_neg hr, if_neg hr]
  by_cases hp : db.fs.has p = true
  · -- The row that is there is changed.
    rw [if_pos hp, if_pos hp]
    show EStateM.Result.ok () (db.setFs p _) = EStateM.Result.ok () ((db.setFs p _).stamped p ns)
    unfold Db.stamped Db.setFs
    dsimp only
    rw [Table.update_update]
    rfl
  · rw [if_neg hp, if_neg hp]
    show EStateM.Result.ok () (db.addFs p _) = EStateM.Result.ok () ((db.addFs p _).stamped p ns)
    unfold Db.stamped Db.addFs
    dsimp only
    rw [Table.update_insertIgnore (Table.get?_of_not_has hp)]
    rfl

/-- A file written from a stream is the file written from a buffer, with the stamp. -/
theorem fsPutFileStreamNs_of_gives (E : Ext K) (p : Str) (hsrc : src.Gives data)
    (mode mtime ns : ℤ) (db : Db K) :
    fsPutFileStreamNs E p mode mtime ns src db =
      match fsPutFile E p mode mtime data db with
      | .ok _ db' => .ok data.length (db'.stamped p ns)
      | .error e db' => .error e db' := by
  rw [fsPutFileStreamNs_eq, streamBody_eq hsrc]
  unfold fsPutFile inSavepoint Prog.savepoint
  rcases hrep : chunksReplace E p data db with ⟨_, d⟩ | ⟨e, d⟩
  · rw [bind_of_ok hrep, bind_of_ok hrep]
    have hups := upsertFs_stream E p data mode mtime ns d
    rcases hput :
      upsertFs p ((dirRow mode mtime).toFile mode mtime data.length (.key (E.blobKey data)))
        (FsRow.toFile mode mtime data.length (.key (E.blobKey data))) d with ⟨u, d'⟩ | ⟨e, d'⟩
    · rw [hput] at hups
      rw [bind_of_ok hups]
      rfl
    · rw [hput] at hups
      rw [bind_of_error hups]
  · rw [bind_of_error hrep, bind_of_error hrep]

/-! ## The parents -/

omit [DecidableEq K] in
/-- A path above a path in normal form is protected only where that is. -/
theorem refusesPath_of_parent {vmPath a : Str} (ha : a ∈ parentDirs (normalizeVmPath vmPath))
    (h : db.refusesPath a = true) : db.refusesPath (normalizeVmPath vmPath) = true := by
  obtain ⟨hne, hbelow⟩ := mem_ancestors.1 (mem_parentDirs_iff.1 ha)
  obtain ⟨c, hc⟩ := below_of_below_normalize hne hbelow
  unfold Db.refusesPath at h ⊢
  rw [Bool.and_eq_true] at h ⊢
  refine ⟨h.1, ?_⟩
  have hpath : normalizeVmPath vmPath = a ++ '/' :: c := by
    rw [← hc, List.append_assoc]
    rfl
  rw [hpath]
  exact Rule.protects_below h.2 c

omit [DecidableEq K] in
/-- Parents that are there are left as they are, or refused. -/
theorem ensureParentDirs_present (now : ℤ) (hhas : ∀ a ∈ parentDirs p, db.fs.has a = true) :
    (ensureParentDirs p now db = .ok () db ∧ ∀ a ∈ parentDirs p, db.refusesPath a = false) ∨
      ((∃ e d, ensureParentDirs p now db = .error e d) ∧ ∃ a ∈ parentDirs p,
        db.refusesPath a = true) := by
  unfold ensureParentDirs
  rw [List.forM_eq_forM]
  generalize parentDirs p = dirs at hhas
  -- By induction on the parents. Each is there, so its statement changes nothing unless a rule
  -- refuses it.
  induction dirs with
  | nil => exact Or.inl ⟨rfl, nofun⟩
  | cons a dirs ih =>
    have hkind : db.refusesFs a (dirRow (K := K) 493 now).toFsMeta = db.refusesPath a :=
      Db.refusesFs_of_kind (by simp [dirRow])
    rw [List.forM_cons]
    rcases hr : db.refusesPath a with _ | _
    · have hone : insertFsIgnore a (dirRow (K := K) 493 now) db = .ok () db := by
        refine statement_of_ok ?_
        rw [hkind, hr, if_neg (by simp), if_pos (hhas a (by simp))]
      rw [bind_of_ok hone]
      rcases ih fun b hb => hhas b (by simp [hb]) with ⟨hrun, hfree⟩ | ⟨hrun, b, hb, href⟩
      · refine Or.inl ⟨hrun, fun b hb => ?_⟩
        rcases List.mem_cons.1 hb with rfl | hb
        · exact hr
        · exact hfree b hb
      · exact Or.inr ⟨hrun, b, List.mem_cons_of_mem a hb, href⟩
    · have hone : insertFsIgnore a (dirRow (K := K) 493 now) db = .error .refused db := by
        unfold insertFsIgnore statement
        dsimp only
        rw [hkind, hr, if_pos rfl]
      rw [bind_of_error hone]
      exact Or.inr ⟨⟨_, _, rfl⟩, a, by simp, hr⟩

/-! ## The result -/

/-- A single read gives its bytes. -/
theorem gives_got (data : Bytes) : Reader.Gives [.got data] data := by
  by_cases hnil : data = []
  · rw [hnil]
    exact .stop []
  · have hmore := Reader.Gives.more hnil .done
    rwa [List.append_nil] at hmore

/-- A file at a protected path is not written. -/
theorem fsPutFile_of_refused {mode mtime : ℤ} {u : Unit} (hpath : db.refusesPath p = true) :
    fsPutFile E p mode mtime data db ≠ .ok u d := by
  intro hrun
  have hstream := fsPutFileStreamNs_of_gives E p (gives_got data) mode mtime 0 db
  rw [hrun] at hstream
  exact fsPutFileStreamNs_refused mode mtime 0 data (Db.refusesFs_of_path hpath _) hstream

/-- With its parents there, a buffer is written to a path as a file is. -/
theorem vmAddBytes_present {vmPath : Str} {mode mtime now : ℤ}
    (hparents : ∀ a ∈ parentDirs (normalizeVmPath vmPath), db.fs.has a = true) :
    vmAddBytes E vmPath data mode mtime now db = .ok () d ↔
      fsPutFile E (normalizeVmPath vmPath) mode mtime data db = .ok () d := by
  unfold vmAddBytes
  rcases ensureParentDirs_present now hparents with ⟨hrun, -⟩ | ⟨⟨e, d', hrun⟩, a, ha, href⟩
  · rw [bind_of_ok hrun]
  · rw [bind_of_error hrun]
    exact iff_of_false (fun h => by cases h) (fsPutFile_of_refused (refusesPath_of_parent ha href))

/-- A database with an empty file. -/
def emptyFile : Db Bytes := endState (vmAddBytes plainExt "/f".toList [] 0o644 0 0) (initDb 0)

end Dbvm
