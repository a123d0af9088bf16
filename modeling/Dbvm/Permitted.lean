import Dbvm.RangeWrite

/-!
# Operations that the policies permit

A policy refuses a statement or lets it be. So a program that returns does what it does in a
database without rules (`Permits`), and what is proved of range writes where no policy is in force
holds of those that return.
-/

namespace Dbvm

open Lib Lib.Chunks Lib.Prog

variable {K : Type} [DecidableEq K] {E : Ext K} {α β : Type}

/-- The database without its rules. -/
def Db.unruled (db : Db K) : Db K := { db with policies := [] }

omit [DecidableEq K] in
/-- A database without rules refuses nothing. -/
theorem Db.unpoliced_unruled (db : Db K) : db.unruled.Unpoliced := Or.inr rfl

/-- When the program returns, it returns the same without the rules. -/
abbrev Permits (x : Sql K α) : Prop :=
  Sim (fun db d => d = Db.unruled db) x x fun _ db d => d = Db.unruled db

/-- The connection without the rules of its database. -/
def Conn.unruled (c : Conn K) : Conn K := ⟨c.db.unruled, c.cache⟩

/-- The same of a program on a connection. -/
abbrev ConnPermits (x : Prg K α) : Prop :=
  Sim (fun c d => d = Conn.unruled c) x x fun _ c d => d = Conn.unruled c

/-! ## Statements -/

omit [DecidableEq K] in
/-- What a statement does under the rules it does without them. -/
theorem Permits.statement {f : Db K → Except Err (Db K)}
    (h : ∀ db db', f db = .ok db' → f db.unruled = .ok db'.unruled) :
    Permits (Dbvm.statement f) := by
  rintro db _ u db' rfl hrun
  exact ⟨_, statement_of_ok (h db db' (statement_eq_ok.1 hrun)), rfl⟩

omit [DecidableEq K] in
/-- What a read of the state does under the rules it does without them. -/
theorem Permits.reads {f : Db K → α} (h : ∀ db : Db K, f db.unruled = f db) :
    Permits (Prog.reads f : Sql K α) :=
  Sim.reads fun db d hd => ⟨by rw [hd, h], hd⟩

omit [DecidableEq K] in
/-- What a query does under the rules it does without them. -/
theorem Permits.query {f : Db K → Except Err α} (h : ∀ db : Db K, f db.unruled = f db) :
    Permits (Prog.query f : Sql K α) :=
  Sim.query fun db d a hd hf => ⟨by rw [hd, h, hf], hd⟩

omit [DecidableEq K] in
/-- What a value does under the rules it does without them. -/
theorem Permits.pure (a : α) : Permits (Pure.pure a : Sql K α) := Sim.pure fun _ _ h => h

omit [DecidableEq K] in
/-- What an update of a row of `vm_fs` does under the rules it does without them. -/
theorem Permits.updateFs (p : Str) (f : FsRow K → FsRow K) : Permits (Dbvm.updateFs p f) := by
  refine Permits.statement fun db db' h => ?_
  rw [show db.unruled.fs = db.fs from rfl]
  rcases hrow : db.fs.get? p with _ | row
  · rw [hrow] at h
    cases h
    rfl
  · rw [hrow] at h
    dsimp only at h ⊢
    split_ifs at h with hrefused
    cases h
    rw [db.unpoliced_unruled.refusesPath, db.unpoliced_unruled.refusesFs]
    rfl

/-- What a delete of chunk rows does under the rules it does without them. -/
theorem Permits.deleteChunks (sel : Str → ℕ → Bool) : Permits (Dbvm.deleteChunks (K := K) sel) := by
  refine Permits.statement fun db db' h => ?_
  split_ifs at h with hrefused
  cases h
  rw [if_neg (by simp [db.unpoliced_unruled.refusesPath])]
  rfl

/-- What an insert of a chunk row does under the rules it does without them. -/
theorem Permits.insertChunk (p : Str) (idx : ℕ) (k : K) : Permits (Dbvm.insertChunk p idx k) := by
  refine Permits.statement fun db db' h => ?_
  unfold Db.insertChunk? at h ⊢
  split_ifs at h with hrefused hthere
  cases h
  rw [db.unpoliced_unruled.refusesPath, if_neg (by simp), if_neg (by exact hthere)]
  rfl

/-- What an insert of a blob does under the rules it does without them. -/
theorem Permits.insertBlob (k : K) (b : Block) : Permits (Dbvm.insertBlob k b) := by
  refine Permits.statement fun db db' h => ?_
  split_ifs at h with hthere
  cases h
  rw [if_neg (by exact hthere)]
  rfl

omit [DecidableEq K] in
/-- What a mark in `vm_dirty` does under the rules it does without them. -/
theorem Permits.insertDirty (p : Str) : Permits (Dbvm.insertDirty (K := K) p) := by
  refine Permits.statement fun db db' h => ?_
  by_cases hthere : db.fs.has p = true
  · rw [if_pos hthere] at h
    cases h
    rw [if_pos (by exact hthere)]
    rfl
  · rw [if_neg hthere] at h
    cases h

omit [DecidableEq K] in
/-- What the end of a mark in `vm_dirty` does under the rules it does without them. -/
theorem Permits.deleteDirty (p : Str) : Permits (Dbvm.deleteDirty (K := K) p) := by
  refine Permits.statement fun db db' h => ?_
  cases h
  rfl

omit [DecidableEq K] in
/-- What a savepoint does under the rules it does without them. -/
theorem Permits.savepoint {x : Sql K α} (h : Permits x) : Permits (inSavepoint x) := Sim.savepoint h

/-- What `blob_ensure` does under the rules it does without them. -/
theorem Permits.blobEnsureWith (key : K) (data : Bytes) (effort : Effort) :
    Permits (Dbvm.blobEnsureWith E key data effort) := by
  refine Sim.bind (Permits.reads fun _ => rfl) fun found => ?_
  rcases found with _ | c
  · exact Sim.bind (Permits.reads fun _ => rfl) fun enc =>
      Sim.bind (Permits.insertBlob key _) fun _ => Permits.pure _
  · exact Permits.pure _

/-- What a chunk row that is replaced by one of another blob does under the rules it does without
them. -/
theorem Permits.swapChunk (effort : Effort) (p : Str) (idx : ℕ) (piece : Bytes) :
    Permits (Dbvm.swapChunk E effort p idx piece) :=
  Sim.bind (Permits.blobEnsureWith _ _ _) fun _ =>
    Sim.bind (Permits.deleteChunks _) fun _ => Permits.insertChunk _ _ _

omit [DecidableEq K] in
/-- What `mark_dirty` does under the rules it does without them. -/
theorem Permits.markDirty (p : Str) (size : ℕ) (mtime : ℤ) :
    Permits (Dbvm.markDirty (K := K) p size mtime) :=
  Sim.bind (Permits.updateFs _ _) fun _ => Permits.insertDirty _

omit [DecidableEq K] in
/-- Links do not depend on the rules. -/
theorem resolvePath_unruled (db : Db K) (vmPath : Str) :
    resolvePath db.unruled vmPath = resolvePath db vmPath :=
  (SameLinks.of_fs rfl).resolvePath vmPath

omit [DecidableEq K] in
/-- What `regular_file` does under the rules it does without them. -/
theorem Permits.regularFile (vmPath : Str) : Permits (Dbvm.regularFile (K := K) vmPath) := by
  refine Permits.query fun db => ?_
  rw [resolvePath_unruled]
  rfl

/-! ## Programs on a connection -/

omit [DecidableEq K] in
/-- What a program on the database, run on the connection, does under the rules it does without
them. -/
theorem ConnPermits.onDb {x : Sql K α} (h : Permits x) : ConnPermits (Dbvm.onDb x) := by
  rintro c _ a c' rfl hrun
  unfold Dbvm.onDb Conn.unruled at *
  rcases hx : x c.db with ⟨b, db'⟩ | ⟨e, db'⟩
  · rw [hx] at hrun
    cases hrun
    obtain ⟨d, hd, rfl⟩ := h _ _ _ _ rfl hx
    exact ⟨_, by rw [hd], rfl⟩
  · rw [hx] at hrun
    cases hrun

omit [DecidableEq K] in
/-- What a value does under the rules it does without them. -/
theorem ConnPermits.pure (a : α) : ConnPermits (Pure.pure a : Prg K α) := Sim.pure fun _ _ h => h

omit [DecidableEq K] in
/-- What an error does under the rules it does without them. -/
theorem ConnPermits.throw (e : Err) : ConnPermits (throw e : Prg K α) := Sim.throw

omit [DecidableEq K] in
/-- What a loop over a list does under the rules it does without them. -/
theorem ConnPermits.forM {f : β → Prg K PUnit} (h : ∀ x, ConnPermits (f x)) (xs : List β) :
    ConnPermits (xs.forM f) :=
  Sim.forM (J := fun _ c d => d = Conn.unruled c) (fun x _ => h x) xs

omit [DecidableEq K] in
/-- What a savepoint does under the rules it does without them. -/
theorem ConnPermits.savepoint {x : Prg K α} (h : ConnPermits x) :
    ConnPermits (connSavepoint x) := Sim.savepoint h

/-- What an entry of the chunk cache does under the rules it does without them. -/
theorem ConnPermits.cachePut (k : K) (piece : Bytes) : ConnPermits (Dbvm.cachePut k piece) := by
  rintro c _ _ _ rfl ⟨⟩
  exact ⟨_, rfl, rfl⟩

/-- What the read of a chunk by its key does under the rules it does without them. -/
theorem ConnPermits.chunkByKey (path : Str) (idx : ℕ) (key : K) :
    ConnPermits (Dbvm.chunkByKey E path idx key) := by
  rintro c _ a c' rfl hrun
  have hblob : c.unruled.db.blobBytes E path idx key = c.db.blobBytes E path idx key := rfl
  have hcache : c.unruled.cache = c.cache := rfl
  unfold Dbvm.chunkByKey at hrun ⊢
  rw [hblob, hcache]
  rcases hget : c.cache.bind fun m => m.get key with _ | ⟨piece, m⟩
  · rw [hget] at hrun
    rcases hbytes : c.db.blobBytes E path idx key with e | piece
    · rw [hbytes] at hrun
      cases hrun
    · rw [hbytes] at hrun
      cases hrun
      exact ⟨_, rfl, rfl⟩
  · rw [hget] at hrun
    cases hrun
    exact ⟨_, rfl, rfl⟩

/-- What `chunk_bytes` does under the rules it does without them. -/
theorem ConnPermits.chunkBytes (path : Str) (idx : ℕ) : ConnPermits (Dbvm.chunkBytes E path idx) :=
  Sim.bind (ConnPermits.onDb (Permits.query fun _ => rfl)) fun key =>
  ConnPermits.chunkByKey path idx key

/-- What the loop of a range read does under the rules it does without them. -/
theorem ConnPermits.readPieces (real : Str) (start stop : ℕ) :
    ∀ (keys : List (ℕ × K)) (expect : ℕ),
    ConnPermits (Dbvm.readPieces E real start stop expect keys)
  | [], _ => ConnPermits.pure _
  | (idx, key) :: rest, expect => by
    rw [Dbvm.readPieces]
    split_ifs
    · exact ConnPermits.throw _
    · exact Sim.bind (ConnPermits.chunkByKey real idx key) fun _ =>
        Sim.bind (ConnPermits.readPieces real start stop rest _) fun _ => ConnPermits.pure _

/-- What `read_range_cached` does under the rules it does without them. -/
theorem ConnPermits.readRangeCached (vmPath : Str) (off len : ℕ) :
    ConnPermits (Dbvm.readRangeCached E vmPath off len) := by
  refine Sim.bind (ConnPermits.onDb (Permits.query fun db => resolvePath_unruled db vmPath))
    fun real =>
    Sim.bind (ConnPermits.onDb (Permits.query fun _ => rfl)) fun size => ?_
  dsimp only
  split_ifs
  · exact ConnPermits.pure _
  · refine Sim.bind (ConnPermits.onDb (Permits.reads fun _ => rfl)) fun keys =>
      Sim.bind (ConnPermits.readPieces _ _ _ _ _) fun out => ?_
    split_ifs
    · exact ConnPermits.throw _
    · exact ConnPermits.pure _

/-- What `put_chunk` does under the rules it does without them. -/
theorem ConnPermits.putChunk (path : Str) (idx : ℕ) (piece : Bytes) :
    ConnPermits (Dbvm.putChunk E path idx piece) := by
  refine Sim.bind (ConnPermits.onDb (Permits.reads fun _ => rfl)) fun old => ?_
  split_ifs
  · exact ConnPermits.pure _
  · exact Sim.bind (ConnPermits.onDb (Permits.swapChunk _ _ _ _)) fun _ => ConnPermits.cachePut _ _

/-- What one chunk of a range write does under the rules it does without them. -/
theorem ConnPermits.writeChunk (real : Str) (oldSize newSize off : ℕ) (data : Bytes) (idx : ℕ) :
    ConnPermits (Dbvm.writeChunk E real oldSize newSize off data idx) := by
  unfold Dbvm.writeChunk
  dsimp only
  split_ifs
  · exact Sim.bind (ConnPermits.readRangeCached _ _ _) fun piece => ConnPermits.putChunk _ _ _
  · exact Sim.bind (ConnPermits.pure _) fun piece => ConnPermits.putChunk _ _ _

/-- What `write_range_deferred` does under the rules it does without them. -/
theorem ConnPermits.writeRangeDeferred (vmPath : Str) (off : ℕ) (data : Bytes) (mtime : ℤ) :
    ConnPermits (Dbvm.writeRangeDeferred E vmPath off data mtime) := by
  refine Sim.bind (ConnPermits.onDb (Permits.regularFile vmPath)) fun ⟨real, oldSize⟩ => ?_
  dsimp only
  split_ifs
  · exact ConnPermits.pure _
  · exact ConnPermits.savepoint
      (Sim.bind (ConnPermits.forM (fun idx => ConnPermits.writeChunk _ _ _ _ _ idx) _)
      fun _ => ConnPermits.onDb (Permits.markDirty _ _ _))

/-- What the cut of the last chunk in a truncation does under the rules it does without them. -/
theorem ConnPermits.cutTail (real : Str) (newSize : ℕ) :
    ConnPermits (Dbvm.cutTail E real newSize) := by
  unfold Dbvm.cutTail
  split_ifs
  · exact Sim.bind (ConnPermits.chunkBytes _ _) fun piece => ConnPermits.putChunk _ _ _
  · exact ConnPermits.pure _

/-- What `truncate_range_deferred` does under the rules it does without them. -/
theorem ConnPermits.truncateRangeDeferred (vmPath : Str) (newSize : ℕ) (mtime : ℤ) :
    ConnPermits (Dbvm.truncateRangeDeferred E vmPath newSize mtime) := by
  refine Sim.bind (ConnPermits.onDb (Permits.regularFile vmPath)) fun ⟨real, oldSize⟩ => ?_
  dsimp only
  split_ifs
  · exact ConnPermits.pure _
  · exact ConnPermits.writeRangeDeferred _ _ _ _
  · exact ConnPermits.savepoint (Sim.bind (ConnPermits.onDb (Permits.deleteChunks _)) fun _ =>
      Sim.bind (ConnPermits.cutTail _ _) fun _ => ConnPermits.onDb (Permits.markDirty _ _ _))

/-- What the loop that reads a whole file does under the rules it does without them. -/
theorem ConnPermits.collectPieces (path : Str) (size : ℕ) :
    ∀ idxs, ConnPermits (Dbvm.collectPieces E path size idxs)
  | [] => ConnPermits.pure _
  | idx :: rest => by
    rw [Dbvm.collectPieces]
    refine Sim.bind (ConnPermits.chunkBytes path idx) fun piece => ?_
    split_ifs
    · exact Sim.throw
    · exact Sim.bind (ConnPermits.collectPieces path size rest) fun _ => ConnPermits.pure _

/-! ## The operations -/

omit [DecidableEq K] in
/-- What a program with a cache does under the rules it does without them. -/
theorem Permits.withCache {x : Prg K α} (h : ConnPermits x) (cache : Option (ChunkCache K)) :
    Permits (Dbvm.withCache cache x) := by
  rintro db _ a db' rfl hrun
  unfold Dbvm.withCache at hrun ⊢
  rcases hx : x ⟨db, cache⟩ with ⟨b, c⟩ | ⟨e, c⟩
  · rw [hx] at hrun
    cases hrun
    obtain ⟨d, hd, rfl⟩ := h _ _ _ _ rfl hx
    rw [show x ⟨db.unruled, cache⟩ = _ from hd]
    exact ⟨_, rfl, rfl⟩
  · rw [hx] at hrun
    cases hrun

/-- What `finalize_file` does under the rules it does without them. -/
theorem Permits.finalizeFile (path : Str) : Permits (Dbvm.finalizeFile E path) := by
  refine Sim.bind (Permits.reads fun _ => rfl) fun dirty => ?_
  split_ifs
  · exact Permits.pure _
  · refine Permits.savepoint (Sim.bind (Permits.query fun _ => rfl) fun size =>
      Sim.bind ?_ fun whole =>
      Sim.bind (Permits.updateFs _ _) fun _ => Sim.bind (Permits.deleteDirty _) fun _ =>
      Permits.pure _)
    exact Sim.bind (Permits.withCache (ConnPermits.collectPieces _ _ _) _) fun _ => Permits.pure _

/-- A range operation that returns returns without the rules, and does the same. -/
theorem RangeOp.permits (op : RangeOp K) : Permits (op.run E) := by
  have hfinal : ∀ (x : Prg K Unit) (vmPath : Str), ConnPermits x → Permits (inSavepoint do
      uncached x
      let real ← Prog.query fun db => resolvePath db vmPath
      let _ ← Dbvm.finalizeFile E real) := fun x vmPath hx =>
    Permits.savepoint (Sim.bind (Permits.withCache hx none) fun _ =>
      Sim.bind (Permits.query fun db => resolvePath_unruled db vmPath) fun real =>
        Sim.bind (Permits.finalizeFile real) fun _ => Permits.pure _)
  rcases op with ⟨v, off, data, t⟩ | ⟨v, off, data, t, cache⟩ | ⟨v, n, t⟩ | ⟨v, n, t, cache⟩
  · exact hfinal _ v (ConnPermits.writeRangeDeferred v off data t)
  · exact Permits.withCache (ConnPermits.writeRangeDeferred v off data t) cache
  · exact hfinal _ v (ConnPermits.truncateRangeDeferred v n t)
  · exact Permits.withCache (ConnPermits.truncateRangeDeferred v n t) cache

end Dbvm
