import Mathlib.Data.List.Permutation
import Dbvm.Lib.Isolation
import Dbvm.Permitted

/-!
# Range writes from several connections

The range operations as the statements they execute. `write_range` and `truncate_range` are one
transaction. The deferred ones resolve the path and read the size in statements of their own, before
their savepoint: the transaction then works with a size that another connection may have changed. A
run in which the size is still the one that was read is a serial run of the operations that
returned, in the order in which they took effect (`rangeWrites_serialise`).
-/

namespace Dbvm

open Lib Lib.Chunks Lib.Prog Lib.Isolation Relation

variable {K : Type} [DecidableEq K]

/-! ## The statements -/

/-- What a statement outside of a savepoint returns. -/
inductive Answer where
  /-- `SELECT kind, link_target`. -/
  | link (row : Option (Kind × Option Str))
  /-- `SELECT kind, size`. -/
  | file (row : Option (Kind × ℕ))
deriving DecidableEq

/-- An operation as the statements it executes. -/
abbrev DbTask (K : Type) := Task Err (Db K) Answer

/-- The statement of `resolve_path`. -/
def linkAt (p : Str) (db : Db K) : Answer :=
  .link ((db.fs.get? p).map fun row => (row.kind, row.linkTarget))

/-- The statement of `regular_file`. -/
def fileAt (p : Str) (db : Db K) : Answer :=
  .file ((db.fs.get? p).map fun row => (row.kind, row.size))

/-- The loop of `resolve_path`. -/
def resolveTask (vmPath : Str) (k : Str → DbTask K) : ℕ → List Str → Str → DbTask K
  | 0, _, _ => .fail (.tooManyLinks vmPath)
  | n + 1, visited, cur =>
    if cur ∈ visited then .fail (.linkLoop cur)
    else .stmt (linkAt cur) fun
      | .link (some (kind, target)) =>
        if kind ≠ .symlink then k cur
        else resolveTask vmPath k n (cur :: visited)
          (normalizeVmPath (linkNext cur (target.getD [])))
      | _ => .fail (.notFound cur)

/-- `regular_file`. -/
def regularFileTask (vmPath : Str) (k : Str → ℕ → DbTask K) : DbTask K :=
  resolveTask vmPath (fun real => .stmt (fileAt real) fun
    | .file (some (kind, size)) => if kind ≠ .file then .fail (.notFile real) else k real size
    | _ => .fail (.notFound real)) 40 [] (normalizeVmPath vmPath)

/-- The savepoint of `write_range_deferred`. -/
def writeRangeBody (E : Ext K) (real : Str) (oldSize off : ℕ) (data : Bytes) (mtime : ℤ) :
    Prg K Unit := do
  let newSize := max oldSize (off + data.length)
  let first := min off oldSize / chunkSize
  let last := (off + data.length - 1) / chunkSize
  (List.range' first (last + 1 - first)).forM (writeChunk E real oldSize newSize off data)
  onDb (markDirty real newSize mtime)

/-- The savepoint of `truncate_range_deferred`. -/
def truncateRangeBody (E : Ext K) (real : Str) (newSize : ℕ) (mtime : ℤ) : Prg K Unit := do
  onDb (deleteChunks fun q i => q = real && numChunks chunkSize newSize ≤ i)
  cutTail E real newSize
  onDb (markDirty real newSize mtime)

/-- `write_range_deferred`. -/
def writeRangeTask (E : Ext K) (cache : Option (ChunkCache K)) (vmPath : Str) (off : ℕ)
    (data : Bytes)
    (mtime : ℤ) : DbTask K :=
  regularFileTask vmPath fun real oldSize =>
    if data = [] then .done else .tx
    (withCache cache (writeRangeBody E real oldSize off data mtime))

/-- `truncate_range_deferred`. A file that grows has its size read twice. -/
def truncateRangeTask (E : Ext K) (cache : Option (ChunkCache K)) (vmPath : Str) (newSize : ℕ)
    (mtime : ℤ) :
    DbTask K :=
  regularFileTask vmPath fun real oldSize =>
    if newSize = oldSize then .done
    else if newSize > oldSize then
      writeRangeTask E cache real oldSize (List.replicate (newSize - oldSize) 0) mtime
    else .tx (withCache cache (truncateRangeBody E real newSize mtime))

/-- An operation on a range as its statements. -/
def RangeOp.task (E : Ext K) : RangeOp K → DbTask K
  | .write vmPath off data mtime => .tx (Dbvm.writeRange E vmPath off data mtime)
  | .writeDeferred vmPath off data mtime cache => writeRangeTask E cache vmPath off data mtime
  | .truncate vmPath newSize mtime => .tx (Dbvm.truncateRange E vmPath newSize mtime)
  | .truncateDeferred vmPath newSize mtime cache => truncateRangeTask E cache vmPath newSize mtime

/-! ## Without other connections -/

section Alone

variable {E : Ext K} {db : Db K} {vmPath : Str}

omit [DecidableEq K] in
/-- A savepoint in one that does nothing else. -/
theorem savepoint_savepoint {α : Type} (x : Sql K α) (db : Db K) :
    Prog.savepoint (fun db _ => db) (inSavepoint x) db = inSavepoint x db := by
  unfold inSavepoint Prog.savepoint
  rcases x db with ⟨a, db'⟩ | ⟨e, db'⟩
  · rfl
  · rfl

omit [DecidableEq K] in
/-- The statements of a resolution, run in one state, are the resolution. -/
theorem exec_resolveTask {k : Str → DbTask K} : ∀ (n : ℕ) (visited : List Str) (cur : Str),
    (resolveTask vmPath k n visited cur).exec db =
      match resolveFrom db vmPath n visited cur with
      | .ok real => (k real).exec db
      | .error e => .error e db
  | 0, visited, cur => rfl
  | n + 1, visited, cur => by
    rw [resolveTask, resolveFrom]
    split_ifs with hvisited
    · rfl
    · dsimp only [Task.exec, linkAt]
      rcases db.fs.get? cur with _ | row
      · rfl
      · dsimp only [Option.map_some]
        split_ifs with hkind
        · rfl
        · exact exec_resolveTask n _ _

omit [DecidableEq K] in
/-- The statements of `regular_file`, run in one state, are `regular_file`. -/
theorem exec_regularFileTask {k : Str → ℕ → DbTask K} : (regularFileTask vmPath k).exec db =
    match regularFile vmPath db with
    | .ok found db' => (k found.1 found.2).exec db'
    | .error e db' => .error e db' := by
  unfold regularFileTask regularFile resolvePath Prog.query
  rw [exec_resolveTask]
  dsimp only [bind, Except.bind]
  rcases resolveFrom db vmPath 40 [] (normalizeVmPath vmPath) with e | real
  · rfl
  · dsimp only [Task.exec, fileAt]
    rcases db.fs.get? real with _ | row
    · rfl
    · dsimp only [Option.map_some]
      split_ifs with hkind
      · rfl
      · rfl

omit [DecidableEq K] in
/-- A program that ends with its own savepoint, in one of the whole program. -/
theorem exec_tx_withCache {cache : Option (ChunkCache K)} {x : Prg K Unit} :
    (Task.tx (withCache cache x) : DbTask K).exec db = withCache cache (connSavepoint x) db := by
  dsimp only [Task.exec]
  unfold Prog.savepoint withCache connSavepoint Prog.savepoint
  rcases x ⟨db, cache⟩ with ⟨u, c⟩ | ⟨e, c⟩
  · rfl
  · rfl

omit [DecidableEq K] in
/-- A program on the database comes before the rest under the same cache. -/
theorem withCache_onDb_bind {α β : Type} {cache : Option (ChunkCache K)} {x : Sql K α}
    {f : α → Prg K β} :
    withCache cache (onDb x >>= f) db =
      match x db with
      | .ok a db' => withCache cache (f a) db'
      | .error e db' => .error e db' := by
  dsimp only [withCache, onDb, bind, EStateM.bind]
  rcases x db with ⟨a, db'⟩ | ⟨e, db'⟩
  · rfl
  · rfl

/-- The statements of a range write, run in one state, are the range write. -/
theorem exec_writeRangeTask {cache : Option (ChunkCache K)} {off : ℕ} {data : Bytes} {mtime : ℤ} :
    (writeRangeTask E cache vmPath off data mtime).exec db =
      withCache cache (writeRangeDeferred E vmPath off data mtime) db := by
  unfold writeRangeTask writeRangeDeferred
  rw [exec_regularFileTask, withCache_onDb_bind]
  rcases regularFile vmPath db with ⟨⟨real, oldSize⟩, db'⟩ | ⟨e, db'⟩
  · dsimp only
    split_ifs with hdata
    · rfl
    · exact exec_tx_withCache
  · rfl

/-- The statements of a truncation, run in one state, are the truncation. -/
theorem exec_truncateRangeTask {cache : Option (ChunkCache K)} {newSize : ℕ} {mtime : ℤ} :
    (truncateRangeTask E cache vmPath newSize mtime).exec db =
      withCache cache (truncateRangeDeferred E vmPath newSize mtime) db := by
  unfold truncateRangeTask truncateRangeDeferred
  rw [exec_regularFileTask, withCache_onDb_bind]
  rcases regularFile vmPath db with ⟨⟨real, oldSize⟩, db'⟩ | ⟨e, db'⟩
  · dsimp only
    split_ifs with heq hgt
    · rfl
    · exact exec_writeRangeTask
    · exact exec_tx_withCache
  · rfl

/-- The statements of an operation, with no other connection, are the operation. -/
theorem RangeOp.exec_task (op : RangeOp K) : (op.task E).exec = op.run E := by
  funext db
  rcases op with ⟨v, off, data, t⟩ | ⟨v, off, data, t, cache⟩ | ⟨v, n, t⟩ | ⟨v, n, t, cache⟩
  · exact savepoint_savepoint _ _
  · exact exec_writeRangeTask
  · exact savepoint_savepoint _ _
  · exact exec_truncateRangeTask

end Alone

/-! ## Several connections -/

section Connections

variable {E : Ext K} {db : Db K} {p : Str} {b : Bytes} {ι : Type} [DecidableEq ι]

/-- The operations on the file that `db` has at `p`. -/
abbrev FileOp (E : Ext K) (db : Db K) (p : Str) :=
  { op : RangeOp K // resolvePath db op.path = .ok p ∧ op.CacheOk E }

/-- What the statements before the savepoint returned is still so in the state that the savepoint
works on. -/
def SizeKept (op : FileOp E db p) (seen : List (Db K)) (snap : Db K) : Prop :=
  (op.1.task E).Fresh seen snap

/-- The connections in every interleaving of operations on the file, where `C` holds of those that
take effect. -/
def Interleaving (C : FileOp E db p → List (Db K) → Db K → Prop)
    (w : World ι (FileOp E db p) (Db K)) : Prop :=
  ReflTransGen (Step (fun op => op.1.task E) C) (World.init db) w

/-- The bytes of the file after the operations that returned, one after the other. -/
def World.bytes (b : Bytes) (w : World ι (FileOp E db p) (Db K)) : Bytes :=
  w.log.foldl (fun b op => op.1.apply b) b

/-- The database is that of the operations that returned, in the order in which they took effect. -/
structure Serialised (b : Bytes) (w : World ι (FileOp E db p) (Db K)) : Prop where
  /-- Size, chunk rows and content are those of the serial run. -/
  serial : w.log.forM (fun op => op.1.run E) db = .ok () w.db
  /-- The size column counts the bytes, none of which is lost. -/
  size : ∃ row, w.db.fs.get? p = some row ∧ row.kind = .file ∧ row.size = (World.bytes b w).length
  /-- The chunk list has no gap. -/
  list : ∀ i, (∃ k, w.db.chunks.get? (p, i) = some k) ↔
    i < ((World.bytes b w).length + 65535) / 65536
  /-- Each chunk has its bytes, and all but the last have 64 KiB. -/
  layout : ∀ i k, w.db.chunks.get? (p, i) = some k → ∃ piece, w.db.Decodes E k piece ∧
    piece = slice (World.bytes b w) (i * 65536) 65536 ∧
    (i + 1 < ((World.bytes b w).length + 65535) / 65536 → piece.length = 65536)
  /-- The bytes can be read. -/
  content : ∀ vmPath, resolvePath db vmPath = .ok p → vmCat E w.db vmPath = .ok (World.bytes b w)

/-- A database and its rules are equally sound. -/
theorem Sound.unruled (h : Sound E db) : Sound E db.unruled :=
  ⟨h.refs.of_fs h.refs.inline (fun _ => rfl) rfl, h.faithful.of_eq rfl rfl⟩

/-- Operations on the file that return, one after the other, write its bytes. -/
theorem stored_of_forM (hE : Function.Injective E.blobKey) (hC : E.Faithful) (hn : Normal p)
    (hs : Sound E db) (hf : db.IsFile p b.length) (hch : db.Chunked E p b)
    {log : List (FileOp E db p)} {db' : Db K}
    (hrun : log.forM (fun op => op.1.run E) db = .ok () db') :
    Stored E p (log.foldl (fun b op => op.1.apply b) b) db'.unruled ∧ SameLinks db db' := by
  -- Without the rules the operations return as well, and do the same.
  have hmap : (log.map Subtype.val).forM (RangeOp.run E) db = .ok () db' := by
    rw [List.forM_eq_forM, List.forM_map, ← List.forM_eq_forM]
    exact hrun
  have hpermits : Permits ((log.map Subtype.val).forM (RangeOp.run E)) :=
    Sim.forM (J := fun _ db d => d = Db.unruled db) (fun op _ => RangeOp.permits op) _
  obtain ⟨_, hfree, rfl⟩ := hpermits _ _ _ _ rfl hmap
  have hops : ∀ op ∈ log.map Subtype.val, resolvePath db.unruled op.path = .ok p ∧
    op.CacheOk E := by
    intro op hop
    obtain ⟨op', -, rfl⟩ := List.mem_map.1 hop
    rw [resolvePath_unruled]
    exact op'.2
  obtain ⟨d, hd, hst, hl⟩ := runAll_total hE hC hn
    (⟨hs.unruled, db.unpoliced_unruled, hf, hch⟩ : Stored E p b db.unruled) hops
  rw [hfree] at hd
  cases hd
  rw [List.foldl_map] at hst
  exact ⟨hst, hl⟩

/-- Range writes serialise, if each takes effect in a state with the size that it read. -/
theorem rangeWrites_serialise {K : Type} [DecidableEq K] {E : Ext K} {db : Db K} {p : Str}
    {b : Bytes} {ι : Type} [DecidableEq ι] (hE : Function.Injective E.blobKey) (hC : E.Faithful)
    (hn : Normal p) (hs : Sound E db) (hf : db.IsFile p b.length) (hch : db.Chunked E p b)
    {w : World ι (FileOp E db p) (Db K)} (hrun : Interleaving SizeKept w) : Serialised b w := by
  have hserial : w.log.forM (fun op => op.1.run E) db = .ok () w.db := by
    have h := serial_of_fresh hrun
    simp only [RangeOp.exec_task] at h
    exact h
  obtain ⟨hst, hl⟩ := stored_of_forM hE hC hn hs hf hch hserial
  have hholds : w.db.Holds E p (World.bytes b w) := by
    have h := hst.sound.holds hE hst.file hst.chunked
    exact ⟨h.row, h.chunks, h.blobs⟩
  refine ⟨hserial, ?_, fun i => ?_, fun i k hk => ?_, fun vmPath hv => ?_⟩
  · obtain ⟨row, hrow, hkind, hsize, -⟩ := hholds.row
    exact ⟨row, hrow, hkind, hsize⟩
  · rw [hholds.chunks i]
    constructor
    · rintro ⟨k, hk⟩
      split_ifs at hk with hi
      exact hi
    · intro hi
      exact ⟨_, if_pos hi⟩
  · rw [hholds.chunks i] at hk
    split_ifs at hk with hi
    cases hk
    exact ⟨_, hholds.blobs i hi, rfl, fun hnext => length_chunkAt_full chunkSize_pos hnext⟩
  · exact vmCat_of_holds (by rw [hl.resolvePath]; exact hv) hholds

/-- One connection reads the size, another runs an operation, then the first one goes on. -/
theorem interleaving_between {C : FileOp E db p → List (Db K) → Db K → Prop}
    (op op' : FileOp E db p) {db₁ db₂ : Db K} {body body' : Sql K Unit} {q q' : Db K → Answer}
    {rest rest' : Answer → DbTask K} {r r' : Db K → Answer} {k k' : Answer → DbTask K}
    (h0 : (op.1.task E).after [] = .stmt q rest) (h1 : (op.1.task E).after [db] = .stmt r k)
    (h2 : (op.1.task E).after [db, db] = .tx body)
    (h0' : (op'.1.task E).after [] = .stmt q' rest')
    (h1' : (op'.1.task E).after [db] = .stmt r' k')
    (h2' : (op'.1.task E).after [db, db] = .tx body') (hbody' : body' db = .ok () db₁)
    (hC' : C op' [db, db] db) (hbody : body db₁ = .ok () db₂) (hC : C op [db, db] db₁) :
    ∃ w : World Bool (FileOp E db p) (Db K), Interleaving C w ∧ (∀ i, w.phase i = .idle) ∧
      w.log = [op', op] ∧
      w.db = db₂ := by
  refine ⟨_, .tail (.tail (.tail (.tail (.tail (.tail (.tail (.tail (.tail (.tail .refl
    (.start true op rfl)) (.ask (i := true) rfl h0)) (.ask (i := true) rfl h1))
    (.start false op' rfl))
    (.ask (i := false) rfl h0')) (.ask (i := false) rfl h1')) (.begin (i := false) rfl h2'))
    (.commit (i := false) rfl h2' hbody' hC')) (.begin (i := true) rfl h2))
      (.commit (i := true) rfl h2 hbody hC),
    ?_, rfl, rfl⟩
  intro i
  rcases i with _ | _
  · rfl
  · rfl

end Connections

/-! ## Two writes of one file -/

/-- A deferred write of `/a`. -/
def writeA (off : ℕ) (data : Bytes) : FileOp plainExt greeting "/a".toList :=
  ⟨.writeDeferred "/a".toList off data 0 none, rfl, trivial⟩

/-- The savepoint of a deferred write of `/a`, which has two bytes. -/
def bodyA (off : ℕ) (data : Bytes) : Sql Bytes Unit :=
  withCache none (writeRangeBody plainExt "/a".toList 2 off data 0)

/-- One connection overwrites the first byte, another one the second meanwhile. -/
theorem rangeWrites_serialise_bytes :
    ∃ w : World Bool (FileOp plainExt greeting "/a".toList) (Db Bytes), Interleaving SizeKept w ∧
      w.log = [writeA 1 [8], writeA 0 [9]] ∧ Serialised [104, 105] w := by
  have hst := stored_greeting
  obtain ⟨_, hbody'⟩ := exists_of_returns (x := bodyA 1 [8]) (s := greeting) (by decide +kernel)
  obtain ⟨_, hbody⟩ := exists_of_returns (x := bodyA 0 [9]) (s := endState (bodyA 1 [8]) greeting)
    (by decide +kernel)
  have hkept : SizeKept (writeA 0 [9]) [greeting, greeting] (endState (bodyA 1 [8]) greeting) := by
    refine ⟨?_, ?_, trivial⟩
    · decide +kernel
    · decide +kernel
  obtain ⟨w, hrun, -, hlog, -⟩ := interleaving_between (C := SizeKept) (writeA 0 [9]) (writeA 1 [8])
    rfl rfl rfl rfl rfl rfl hbody' ⟨rfl, rfl, trivial⟩ hbody hkept
  exact ⟨w, hrun, hlog, rangeWrites_serialise plainExt_injective plainExt_faithful (by decide)
    hst.sound hst.file
    hst.chunked hrun⟩

/-- A write that has read the size overwrites the first byte after another one has appended three
bytes. Both return, and the file has two bytes; in either order it would have five. -/
theorem appended_bytes_lost :
    ∃ w : World Bool (FileOp plainExt greeting "/a".toList) (Db Bytes),
      Interleaving (fun _ _ _ => True) w ∧
      (∀ i, w.phase i = .idle) ∧ w.log = [writeA 2 [1, 2, 3], writeA 0 [9]] ∧
      (w.db.fs.get? "/a".toList).map (fun row => row.size) = some 2 ∧
      ∀ ops : List (FileOp plainExt greeting "/a".toList), ops.Perm w.log →
        ∃ db', ops.forM (fun op => op.1.run plainExt) greeting = .ok () db' ∧
          (db'.fs.get? "/a".toList).map (fun row => row.size) = some 5 := by
  obtain ⟨_, hbody'⟩ := exists_of_returns (x := bodyA 2 [1, 2, 3]) (s := greeting)
    (by decide +kernel)
  obtain ⟨_, hbody⟩ :=
    exists_of_returns (x := bodyA 0 [9]) (s := endState (bodyA 2 [1, 2, 3]) greeting)
    (by decide +kernel)
  -- The append takes place as a whole between the two statements of the other write.
  obtain ⟨w, hrun, hidle, hlog, hdb⟩ := interleaving_between (C := fun _ _ _ => True) (writeA 0 [9])
    (writeA 2 [1, 2, 3]) rfl rfl rfl rfl rfl rfl hbody' trivial hbody trivial
  refine ⟨w, hrun, hidle, hlog, ?_, ?_⟩
  · rw [hdb]
    decide +kernel
  · intro ops hops
    rw [hlog] at hops
    have hserial : ∀ ops ∈ [[writeA 2 [1, 2, 3], writeA 0 [9]], [writeA 0 [9], writeA 2 [1, 2, 3]]],
        ∃ db', ops.forM (fun op => op.1.run plainExt) greeting = .ok () db' ∧
          (db'.fs.get? "/a".toList).map (fun row => row.size) = some 5 := by
      intro ops hops
      rcases List.mem_cons.1 hops with rfl | hops
      · obtain ⟨_, h⟩ := exists_of_returns (s := greeting)
          (x := [writeA 2 [1, 2, 3], writeA 0 [9]].forM fun op => op.1.run plainExt)
            (by decide +kernel)
        exact ⟨_, h, by decide +kernel⟩
      · obtain rfl := List.mem_singleton.1 hops
        obtain ⟨_, h⟩ := exists_of_returns (s := greeting)
          (x := [writeA 0 [9], writeA 2 [1, 2, 3]].forM fun op => op.1.run plainExt)
            (by decide +kernel)
        exact ⟨_, h, by decide +kernel⟩
    refine hserial ops ?_
    rcases List.perm_pair.1 hops with rfl | rfl
    · simp
    · simp

end Dbvm
