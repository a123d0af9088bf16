import Dbvm.EntryInv
import Dbvm.Lib.Script
import Dbvm.Maint
import Dbvm.Migrate
import Dbvm.RangeWrite
import Dbvm.Refcount

/-!
# Recompression

`vm_recompress` writes blobs anew under the same key: the gzip blobs, the first 200 large raw ones
and the first 300 zstd ones. `Db.Rewritten` is the effect of a pass, `LoadsAs` what a pass must keep
of a block: if the block decodes to the bytes its key names, it still does. Readers, and the restore
of a snapshot, cannot tell such databases apart (`Db.Alike.vmCat`, `Db.Alike.snapshotRestore`).

Before that it moves the content of old rows to blobs, and no chunk row names these; it leaves its
transaction open when a blob cannot be decoded or a statement fails; and it compresses a raw block
as it is stored, also when readers take it for a compressed stream. `recompresses_iff` says that
nothing else goes wrong.
-/

namespace Dbvm

open Lib Lib.Prog

variable {K : Type} [DecidableEq K] {E : Ext K} {db db' d d' s s' : Db K}

/-! ## Blocks -/

/-- The block `b` has bytes of which `k` is the key. -/
def Block.Loads (E : Ext K) (dicts : Table ℕ Bytes) (k : K) (b : Block) (raw : Bytes) : Prop :=
  decodeBlock E dicts b.toEnc = .ok raw ∧ E.blobKey raw = k

/-- What loads from the first block loads from the second. -/
def LoadsAs (E : Ext K) (dicts : Table ℕ Bytes) (k : K) (b b' : Block) : Prop :=
  ∀ raw, b.Loads E dicts k raw → b'.Loads E dicts k raw

/-- The bytes with the key `k` are stored and can be read. -/
def Db.Loads (E : Ext K) (db : Db K) (k : K) (raw : Bytes) : Prop :=
  ∃ c, db.blobs.get? k = some c ∧ c.val.Loads E db.dicts k raw

/-- The same blobs with the same counts, some of them written anew. -/
structure Db.Alike (E : Ext K) (db d : Db K) : Prop where
  /-- Only `vm_blobs` and the counter of its bytes differ. -/
  rest : d = { db with blobs := d.blobs, counters := d.counters }
  /-- The blobs. -/
  blobs : Store.Alike (LoadsAs E db.dicts) db.blobs d.blobs

/-- Databases that are alike have the same dictionaries. -/
theorem Db.Alike.dicts (h : Db.Alike E db d) : d.dicts = db.dicts := by rw [h.rest]

/-- Databases that are alike have the same rows. -/
theorem Db.Alike.fs (h : Db.Alike E db d) : d.fs = db.fs := by rw [h.rest]

/-- Databases that are alike have the same chunk rows. -/
theorem Db.Alike.chunks (h : Db.Alike E db d) : d.chunks = db.chunks := by rw [h.rest]

omit [DecidableEq K] in
/-- A blob loads as itself. -/
theorem LoadsAs.refl (dicts : Table ℕ Bytes) (k : K) (b : Block) :
    LoadsAs E dicts k b b := fun _ h => h

omit [DecidableEq K] in
/-- What loads as a blob that loads as a third loads as the third. -/
theorem LoadsAs.trans {dicts : Table ℕ Bytes} {k : K} {b b' b'' : Block}
    (h : LoadsAs E dicts k b b') (h' : LoadsAs E dicts k b' b'') :
    LoadsAs E dicts k b b'' := fun raw hb => h' raw (h raw hb)

/-- Being alike is transitive. -/
theorem Db.Alike.trans (h : Db.Alike E db d) (h' : Db.Alike E d d') : Db.Alike E db d' where
  rest := by rw [h'.rest, h.rest]
  blobs := by
    have hblobs := h'.blobs
    rw [h.dicts] at hblobs
    exact h.blobs.trans (fun _ _ _ _ => LoadsAs.trans) hblobs

/-! ## Readers -/

/-- The pieces of a file are read from the blobs written anew. -/
theorem joinPieces_alike {dicts : Table ℕ Bytes} {s t : Store K Block}
    (h : Store.Alike (LoadsAs E dicts) s t) (path : Str) :
    ∀ (rows : List (ℕ × K)) (n : ℕ) {out : Bytes},
    joinPieces E dicts path n (rows.filterMap fun r => (s.get? r.2).map fun c =>
      (r.1, r.2, c.val)) = .ok out →
      joinPieces E dicts path n (rows.filterMap fun r => (t.get? r.2).map fun c =>
        (r.1, r.2, c.val)) = .ok out
  | [], _, _, hout => hout
  | (i, k) :: rows, n, out, hout => by
    -- The blob is missing in both stores, or it loads as the same bytes in both.
    rcases h k with ⟨hs, ht⟩ | ⟨c, v, hs, ht, hv⟩
    · rw [List.filterMap_cons_none (by rw [hs]; rfl)] at hout
      rw [List.filterMap_cons_none (by rw [ht]; rfl)]
      exact joinPieces_alike h path rows n hout
    · rw [List.filterMap_cons_some (b := (i, k, c.val)) (by rw [hs]; rfl), joinPieces] at hout
      rw [List.filterMap_cons_some (b := (i, k, v)) (by rw [ht]; rfl), joinPieces]
      by_cases hi : i = n
      · rw [if_neg (not_not.2 hi)] at hout ⊢
        rcases hdec : decodeBlock E dicts c.val.toEnc with e | piece
        · rw [hdec] at hout
          cases hout
        · rw [hdec] at hout
          dsimp only at hout
          by_cases hkey : E.blobKey piece = k
          · rw [if_neg (not_not.2 hkey)] at hout
            obtain ⟨hdec', -⟩ := hv piece ⟨hdec, hkey⟩
            rw [hdec']
            dsimp only
            rw [if_neg (not_not.2 hkey)]
            obtain ⟨tail, htail, hsum⟩ := except_bind_eq_ok.1 hout
            exact except_bind_eq_ok.2 ⟨tail, joinPieces_alike h path rows (n + 1) htail, hsum⟩
          · rw [if_pos hkey] at hout
            cases hout
      · rw [if_pos hi] at hout
        cases hout

/-- A file that can be read reads the same in a database that is alike. -/
theorem Db.Alike.fileBytes (h : Db.Alike E db d) {path : Str} {b : Bytes}
    (hb : Dbvm.fileBytes E db path = .ok b) : Dbvm.fileBytes E d path = .ok b := by
  have hlist : d.chunkList path = db.chunkList path := Db.chunkList_congr fun i => by rw [h.chunks]
  unfold Dbvm.fileBytes at hb ⊢
  rw [h.fs, hlist, h.dicts]
  rcases hrow : db.fs.get? path with _ | row
  · rw [hrow] at hb
    cases hb
  · rw [hrow] at hb
    dsimp only at hb ⊢
    split_ifs at hb ⊢
    obtain ⟨out, hout, hlen⟩ := except_bind_eq_ok.1 hb
    exact except_bind_eq_ok.2 ⟨out, joinPieces_alike h.blobs path _ 0 hout, hlen⟩

/-- The content of a row is the same in a database that is alike. -/
theorem Db.Alike.rowContent (h : Db.Alike E db d) {path : Str} {row : FsRow K} {b : Bytes}
    (hb : db.rowContent E path row = .ok b) : d.rowContent E path row = .ok b := by
  unfold Db.rowContent at hb ⊢
  by_cases hhash : row.hash ≠ .null
  · rw [if_pos hhash] at hb ⊢
    exact h.fileBytes hb
  · rw [if_neg hhash] at hb ⊢
    exact hb

/-- Every path that can be read is read with the same bytes. -/
theorem Db.Alike.vmCat (h : Db.Alike E db d) {path : Str} {b : Bytes}
    (hb : Dbvm.vmCat E db path = .ok b) :
    Dbvm.vmCat E d path = .ok b := by
  unfold Dbvm.vmCat at hb ⊢
  obtain ⟨res, hres, hout⟩ := except_bind_eq_ok.1 hb
  refine except_bind_eq_ok.2 ⟨res, ?_, hout⟩
  unfold vmResolve at hres ⊢
  obtain ⟨real, hreal, hrow⟩ := except_bind_eq_ok.1 hres
  have hsame : resolvePath d path = resolvePath db path := (SameLinks.of_fs h.fs).resolvePath path
  refine except_bind_eq_ok.2 ⟨real, hsame.trans hreal, ?_⟩
  rw [h.fs]
  rcases hget : db.fs.get? real with _ | row
  · rw [hget] at hrow
    cases hrow
  · rw [hget] at hrow
    dsimp only at hrow ⊢
    split_ifs at hrow ⊢ with hdir
    · exact hrow
    · obtain ⟨content, hcontent, hok⟩ := except_bind_eq_ok.1 hrow
      exact except_bind_eq_ok.2 ⟨content, h.rowContent hcontent, hok⟩

/-! ## Restoring a snapshot -/

/-- A database alike, where the policy is bypassed. -/
def Db.AlikeBypassed (E : Ext K) (db d : Db K) : Prop := Db.Alike E db d ∧ db.bypass = true

/-- With the bypass on no trigger refuses in either database. -/
theorem Db.AlikeBypassed.unpoliced (h : Db.AlikeBypassed E db d) : db.Unpoliced ∧ d.Unpoliced := by
  refine ⟨Or.inl h.2, Or.inl ?_⟩
  rw [h.1.rest]
  exact h.2

/-- Deleting the same chunks releases the same blobs. -/
theorem Db.Alike.delChunks (h : Db.Alike E db d) (sel : Str → ℕ → Bool) :
    Db.Alike E (db.delChunks sel) (d.delChunks sel) where
  rest := by rw [h.rest]; rfl
  blobs := by
    have hkeys : d.chunkKeys sel = db.chunkKeys sel := by rw [Db.chunkKeys, Db.chunkKeys, h.chunks]
    show Store.Alike _ (db.blobs.releaseAll (db.chunkKeys sel))
      (d.blobs.releaseAll (d.chunkKeys sel))
    rw [hkeys]
    exact h.blobs.releaseAll _

/-- The same delete of rows keeps databases alike. -/
theorem Db.Alike.delFs (h : Db.Alike E db d) (sel : Str → Bool) :
    Db.Alike E (db.delFs sel) (d.delFs sel) where
  rest := by rw [h.rest]; rfl
  blobs := by
    show Store.Alike _ (db.delChunks fun p _ => sel p && db.fs.has p).blobs
      (d.delChunks fun p _ => sel p && d.fs.has p).blobs
    rw [h.fs]
    exact (h.delChunks _).blobs

/-- The same new row keeps databases alike. -/
theorem Db.Alike.addFs (h : Db.Alike E db d) (p : Str) (row : FsRow K) :
    Db.Alike E (db.addFs p row) (d.addFs p row) where
  rest := by rw [h.rest]; rfl
  blobs := h.blobs

/-- The same new chunk row keeps databases alike. -/
theorem Db.Alike.addChunk (h : Db.Alike E db d) (p : Str) (idx : ℕ) (k : K) :
    Db.Alike E (db.addChunk p idx k) (d.addChunk p idx k) where
  rest := by rw [h.rest]; rfl
  blobs := h.blobs.acquire k

/-- A statement that does the same to both. -/
theorem Db.AlikeBypassed.sim {f : Db K → Except Err (Db K)}
    (hf : ∀ db d db', Db.AlikeBypassed E db d → f db = .ok db' → ∃ d', f d = .ok d' ∧
      Db.AlikeBypassed E db' d') :
    Sim (Db.AlikeBypassed E) (statement f) (statement f) fun _ => Db.AlikeBypassed E := by
  intro db d u db' h hrun
  obtain ⟨d', hd', halike⟩ := hf db d db' h (statement_eq_ok.1 hrun)
  exact ⟨d', statement_of_ok hd', halike⟩

/-- The rows of a list are inserted into both. -/
theorem Db.AlikeBypassed.foldlM {ρ : Type} {f : Db K → ρ → Except Err (Db K)}
    (hf : ∀ db d r db', Db.AlikeBypassed E db d → f db r = .ok db' →
      ∃ d', f d r = .ok d' ∧ Db.AlikeBypassed E db' d') :
    ∀ (rows : List ρ) {db d db' : Db K}, Db.AlikeBypassed E db d → rows.foldlM f db = .ok db' →
      ∃ d', rows.foldlM f d = .ok d' ∧ Db.AlikeBypassed E db' d'
  | [], db, d, db', h, hrun => by
    cases hrun
    exact ⟨d, rfl, h⟩
  | r :: rows, db, d, db', h, hrun => by
    rw [List.foldlM_cons] at hrun
    obtain ⟨db₁, hone, hrest⟩ := except_bind_eq_ok.1 hrun
    obtain ⟨d₁, hone', h₁⟩ := hf db d r db₁ h hone
    obtain ⟨d', hrest', h'⟩ := Db.AlikeBypassed.foldlM hf rows h₁ hrest
    rw [List.foldlM_cons]
    exact ⟨d', except_bind_eq_ok.2 ⟨d₁, hone', hrest'⟩, h'⟩

/-- A program under the bypass that runs alike on both returns alike on both. -/
theorem Db.Alike.withBypass {α : Type} {x : Sql K α} {a : α}
    (hx : Sim (Db.AlikeBypassed E) x x fun _ => Db.AlikeBypassed E) (h : Db.Alike E db d)
    (hrun : Dbvm.withBypass x db = .ok a db') :
    ∃ d', Dbvm.withBypass x d = .ok a d' ∧ Db.Alike E db' d' := by
  obtain ⟨db₁, hrun₁, rfl⟩ := withBypass_ok hrun
  have hon : Db.AlikeBypassed E { db with bypass := true } { d with bypass := true } :=
    ⟨⟨by rw [h.rest], h.blobs⟩, rfl⟩
  obtain ⟨d₁, hrun', h₁, -⟩ := hx _ _ a db₁ hon hrun₁
  refine ⟨{ d₁ with bypass := false }, ?_, ⟨by rw [h₁.rest], h₁.blobs⟩⟩
  unfold Dbvm.withBypass
  rw [hrun']

/-- A restore does the same to both. -/
theorem Db.Alike.snapshotRestore (h : Db.Alike E db d) {name : Str} {u : Unit}
    (hrun : Dbvm.snapshotRestore name db = .ok u db') :
    ∃ d', Dbvm.snapshotRestore name d = .ok u d' ∧ Db.Alike E db' d' := by
  refine Db.Alike.withBypass ?_ h hrun
  refine Sim.bind (Sim.query fun db d id h hid => ⟨?_, h⟩) fun id => Sim.savepoint ?_
  · rw [h.1.rest]
    exact hid
  -- The four statements of the restore, in their order: the chunks and rows go, then those of the
  -- snapshot come.
  refine Sim.bind (Db.AlikeBypassed.sim ?_) fun _ => Sim.bind (Db.AlikeBypassed.sim ?_) fun _ =>
    Sim.bind (Sim.reads fun db d h => ⟨?_, h⟩) fun rows =>
      Sim.bind (Db.AlikeBypassed.sim ?_) fun _ =>
      Sim.bind (Sim.reads fun db d h => ⟨?_, h⟩) fun chunks => Db.AlikeBypassed.sim ?_
  · intro db d db' h hok
    have hdel := deleteChunks_of_unpoliced h.unpoliced.1 fun _ _ => true
    rw [statement_eq_ok.1 hdel] at hok
    cases hok
    exact ⟨_, statement_eq_ok.1 (deleteChunks_of_unpoliced h.unpoliced.2 fun _ _ => true),
      h.1.delChunks _, h.2⟩
  · intro db d db' h hok
    have hdel := deleteFs_of_unpoliced h.unpoliced.1 fun _ => true
    rw [statement_eq_ok.1 hdel] at hok
    cases hok
    exact ⟨_, statement_eq_ok.1 (deleteFs_of_unpoliced h.unpoliced.2 fun _ => true),
      h.1.delFs _, h.2⟩
  · rw [h.1.rest]
  · intro db d db' h hok
    refine Db.AlikeBypassed.foldlM (fun db d r db' h hok => ?_) rows h hok
    obtain ⟨hfree, rfl⟩ := insertFs?_ok hok
    refine ⟨_, statement_eq_ok.1 (insertFs_of_unpoliced h.unpoliced.2 r.2 ?_),
      h.1.addFs r.1 r.2, h.2⟩
    rw [h.1.fs]
    exact hfree
  · rw [h.1.rest]
  · intro db d db' h hok
    refine Db.AlikeBypassed.foldlM (fun db d r db' h hok => ?_) chunks h hok
    obtain ⟨hfree, rfl⟩ := insertChunk?_ok hok
    refine ⟨_, statement_eq_ok.1 (insertChunk_of_unpoliced h.unpoliced.2 r.2 ?_),
      h.1.addChunk _ _ r.2, h.2⟩
    rw [h.1.chunks]
    exact hfree

/-! ## A pass -/

/-- The block with another encoding, if there is one. -/
def Block.recoded (b : Block) (e : Option Enc) : Block := e.elim b fun e => { b with toEnc := e }

/-- A blob is given another encoding, if there is one. -/
def Db.put (db : Db K) (k : K) (e : Option Enc) : Db K := e.elim db (db.setBlob k)

/-- A pass has given each blob the encoding that `enc` says. -/
structure Db.Rewritten (enc : K → Block → Option Enc) (db d : Db K) : Prop where
  /-- Only `vm_blobs` and the counter of its bytes differ. -/
  rest : d = { db with blobs := d.blobs, counters := d.counters }
  /-- The blobs. -/
  blobs : d.blobs = db.blobs.mapRows fun k c => { c with val := c.val.recoded (enc k c.val) }

variable {enc enc' : K → Block → Option Enc} {ds : Table ℕ Bytes}

omit [DecidableEq K] in
/-- The passes leave the dictionaries alone. -/
theorem Db.Rewritten.dicts (h : Db.Rewritten enc db d) : d.dicts = db.dicts := by rw [h.rest]

/-- The passes give blobs new encodings and nothing else. -/
theorem Db.Rewritten.get? (h : Db.Rewritten enc db d) (k : K) : d.blobs.get? k =
    (db.blobs.get? k).map fun c => { c with val := c.val.recoded (enc k c.val) } := by
  rw [h.blobs, Table.get?_mapRows]

/-- Only the encodings of blobs that are there matter. -/
theorem Db.Rewritten.congr (h : Db.Rewritten enc db d)
    (henc : ∀ k c, db.blobs.get? k = some c → enc k c.val = enc' k c.val) :
    Db.Rewritten enc' db d where
  rest := h.rest
  blobs := by
    rw [h.blobs]
    refine Table.mapRows_congr fun k c hk => ?_
    rw [henc k c hk]

/-- Two passes, the second of which leaves alone what the first has written. -/
theorem Db.Rewritten.trans (h : Db.Rewritten enc db d) (h' : Db.Rewritten enc' d d')
    (hone : ∀ k c e, db.blobs.get? k = some c → enc k c.val = some e →
      enc' k { c.val with toEnc := e } = none) :
    Db.Rewritten (fun k b => (enc k b).or (enc' k b)) db d' where
  rest := by rw [h'.rest, h.rest]
  blobs := by
    rw [h'.blobs, h.blobs, Table.mapRows_mapRows]
    refine Table.mapRows_congr fun k c hk => ?_
    rcases henc : enc k c.val with _ | e
    · rfl
    · show Cell.mk _ c.refcnt = Cell.mk _ c.refcnt
      congr 1
      show Block.recoded { c.val with toEnc := e } (enc' k { c.val with toEnc := e }) = _
      rw [hone k c e hk henc]
      rfl

/-- A pass that keeps what each block holds. -/
theorem Db.Rewritten.alike (h : Db.Rewritten enc db d)
    (hloads : ∀ k c e, db.blobs.get? k = some c → enc k c.val = some e →
      LoadsAs E db.dicts k c.val { c.val with toEnc := e }) : Db.Alike E db d where
  rest := h.rest
  blobs := by
    intro k
    rw [h.get? k]
    rcases hget : db.blobs.get? k with _ | c
    · exact Or.inl ⟨rfl, rfl⟩
    · refine Or.inr ⟨c, c.val.recoded (enc k c.val), rfl, rfl, ?_⟩
      rcases henc : enc k c.val with _ | e
      · exact LoadsAs.refl db.dicts k c.val
      · exact hloads k c e hget henc

omit [DecidableEq K] in
/-- Nothing is encoded again yet. -/
theorem Db.Rewritten.refl (db : Db K) : Db.Rewritten (fun _ _ => none) db db where
  rest := rfl
  blobs := (Table.mapRows_self db.blobs).symm

/-- Giving one blob a new encoding rewrites that blob. -/
theorem Db.rewritten_put (enc : K → Block → Option Enc) (db : Db K) {k : K} {c : Cell Block}
    (hk : db.blobs.get? k = some c) :
    Db.Rewritten (fun k' b => if k' = k then enc k' b else none) db (db.put k (enc k c.val)) := by
  rcases henc : enc k c.val with _ | e
  · refine (Db.Rewritten.refl db).congr fun k' c' hk' => ?_
    split_ifs with he
    · subst he
      rw [hk] at hk'
      rw [← Option.some.inj hk', henc]
    · rfl
  · refine ⟨rfl, ?_⟩
    have hset : (db.put k (some e)).blobs =
      db.blobs.update k fun c => { c with val := { c.val with toEnc := e } } := rfl
    rw [hset, Table.update_eq_mapRows]
    refine Table.mapRows_congr fun k' c' hk' => ?_
    by_cases he : k' = k
    · subst he
      rw [hk] at hk'
      rw [if_pos rfl, if_pos rfl, ← Option.some.inj hk', henc]
      rfl
    · rw [if_neg he, if_neg he]
      rfl

/-- A loop over blobs that writes each of them as `enc` says. -/
theorem forM_rewrites (enc : K → Block → Option Enc) {x : K × Cell Block → Sql K Unit} :
    ∀ {l : List (K × Cell Block)} {s : Db K},
    s.dicts = ds → (l.map Prod.fst).Nodup → (∀ r ∈ l, s.blobs.get? r.1 = some r.2) →
    (∀ r ∈ l, ∀ t : Db K, t.dicts = ds → x r t = .ok () (t.put r.1 (enc r.1 r.2.val))) →
    ∃ s', l.forM x s = .ok () s' ∧
      Db.Rewritten (fun k b => if k ∈ l.map Prod.fst then enc k b else none) s s'
  | [], s, _, _, _, _ => ⟨s, rfl, (Db.Rewritten.refl s).congr fun k c _ => by simp⟩
  | r :: l, s, hd, hnd, hget, hx => by
    rw [List.map_cons, List.nodup_cons] at hnd
    have hone := Db.rewritten_put enc s (hget r List.mem_cons_self)
    -- The blobs of the rest of the list are still as they were read.
    have hrest : ∀ r' ∈ l, (s.put r.1 (enc r.1 r.2.val)).blobs.get? r'.1 = some r'.2 := by
      intro r' hr'
      have hne : r'.1 ≠ r.1 := fun he => hnd.1 (he ▸ List.mem_map_of_mem hr')
      rw [hone.get?, hget r' (List.mem_cons_of_mem _ hr'), Option.map_some, if_neg hne]
      rfl
    obtain ⟨s', hrun, hl⟩ := forM_rewrites enc (hone.dicts.trans hd) hnd.2 hrest
      fun r' hr' => hx r' (List.mem_cons_of_mem _ hr')
    refine ⟨s', ?_, (hone.trans hl fun k c e _ he => ?_).congr fun k c _ => ?_⟩
    · rw [List.forM_eq_forM, List.forM_cons, bind_of_ok (hx r List.mem_cons_self s hd)]
      exact hrun
    · split_ifs at he with hk
      rw [if_neg (by rw [hk]; exact hnd.1)]
    · rw [List.map_cons]
      by_cases hk : k = r.1
      · rw [hk, if_pos rfl, if_pos List.mem_cons_self, if_neg hnd.1, Option.or_none]
      · rw [if_neg hk, Option.none_or]
        simp only [List.mem_cons, hk, false_or]

/-! ## The passes of `vm_recompress` -/

/-- The raw blobs that are looked at. -/
def Db.rawPicks (db : Db K) : List (K × Cell Block) :=
  (db.blobs.select fun _ c => c.val.flag = 0 && 1024 < c.val.rawSize).take 200

/-- The rows whose content the first loop of `vm_recompress` moves to blobs. -/
def Db.inlineRows (db : Db K) : List (Str × Bytes × ℕ) := db.fs.rows.filterMap fun r =>
  if r.2.kind = .file then r.2.content.map fun b => (r.1, b, r.2.compressed) else none

/-- The three loops after it. -/
def blobPasses (E : Ext K) : Sql K Unit := do
  let gz ← Prog.reads fun db => db.blobs.select fun _ c => c.val.flag = 1
  gz.forM fun r => do
    let raw ← Prog.query fun _ => (decompressBytesRaw E r.2.val.body 1).mapError Err.codec
    recompressBlob E r.1 raw
  let plain ← Prog.reads Db.rawPicks
  plain.forM fun r => recompressBlob E r.1 r.2.val.body
  let zstd ← Prog.reads fun db => (db.blobs.select fun _ c => c.val.flag = 2).take 300
  zstd.forM (recompress19 E)

/-- `vm_recompress` moves inline content first and then runs the passes over the blobs. -/
theorem vmRecompress_eq (E : Ext K) : vmRecompress E = (do
    let rows ← Prog.reads Db.inlineRows
    rows.forM (recompressInline E)
    blobPasses E) := rfl

/-- What the pass over the gzip blobs writes. -/
def gzipEnc (E : Ext K) (dicts : Table ℕ Bytes) (b : Block) : Option Enc :=
  if b.flag = 1 then (E.gunzip b.body).bind fun raw =>
  compressWithEffort E raw (latestDict dicts) .archive
  else none

/-- What the pass over the raw blobs writes. -/
def Db.rawEnc (E : Ext K) (db : Db K) (k : K) (b : Block) : Option Enc :=
  if k ∈ db.rawPicks.map Prod.fst then compressWithEffort E b.body (latestDict db.dicts)
  .archive else none

/-- What the two passes write. -/
def Db.firstEnc (E : Ext K) (db : Db K) (k : K) (b : Block) : Option Enc :=
  (gzipEnc E db.dicts b).or (db.rawEnc E k b)

/-- The zstd blobs that are looked at after that, as they were before. -/
def Db.zstdPicks (E : Ext K) (db : Db K) : List (K × Cell Block) :=
  (db.blobs.select fun k c => (c.val.recoded (db.firstEnc E k c.val)).flag = 2).take 300

/-- What the pass over the zstd blobs writes. -/
def zstdEnc (E : Ext K) (b : Block) : Option Enc :=
  (decompressBytesZstd E b.body).toOption.bind fun raw => (E.zstdCompress 19 raw).bind fun c =>
    if c.length + 64 < raw.length ∧
    c.length + 32 < b.body.length then some { b.toEnc with body := c } else none

/-- No file has its content in its row. -/
def Db.NoInline (db : Db K) : Prop := ∀ p row, db.fs.get? p = some row → row.kind = .file →
  row.content = none

/-- A raw blob that is compressed is not taken for a compressed stream when it is read. -/
def Db.RawAsStored (E : Ext K) (db : Db K) : Prop :=
  ∀ r ∈ db.rawPicks, ∀ raw, r.2.val.Loads E db.dicts r.1 raw →
  raw = r.2.val.body ∨ compressWithEffort E r.2.val.body (latestDict db.dicts) .archive = none

/-- The gzip and the zstd blobs that are looked at can be decoded. -/
structure Db.Decodable (E : Ext K) (db : Db K) : Prop where
  /-- The gzip blobs. -/
  gzip : ∀ k c, db.blobs.get? k = some c → c.val.flag = 1 → ∃ raw, E.gunzip c.val.body = some raw
  /-- The zstd blobs. -/
  zstd : ∀ r ∈ db.zstdPicks E, r.2.val.flag = 2 →
    ∃ raw, decompressBytesZstd E r.2.val.body = .ok raw

omit [DecidableEq K] in
/-- An encoding that is written decodes to the data, with the flag of a zstd frame. -/
theorem decodeBlock_of_compress (hE : E.Lawful) {data : Bytes} {e : Enc}
    (h : compressWithEffort E data (latestDict ds) .archive = some e) :
    decodeBlock E ds e = .ok data ∧ (e.flag = 2 ∨ e.flag = 3) := by
  have henc : encodeBlock E ds data .archive = e := by rw [encodeBlock, h, Option.getD_some]
  constructor
  · rw [← henc]
    refine (decodeBlock_encodeBlock hE ds data .archive).2 fun hinc => ?_
    rw [compressWithEffort_eq_none.2 hinc] at h
    cases h
  · rcases compressWithEffort_eq_some h with ⟨_, _, -, -, hf⟩ | ⟨_, -, hf⟩
    · exact Or.inr hf
    · exact Or.inl hf

omit [DecidableEq K] in
/-- A block with flag 1 is what gzip decodes. -/
theorem decodeBlock_of_flag_one {e : Enc} {raw : Bytes} (hf : e.flag = 1)
    (h : E.gunzip e.body = some raw) :
    decodeBlock E ds e = .ok raw := by
  rw [decodeBlock, if_neg (by omega), decompressBytesRaw, if_neg (by omega), if_neg (by omega),
    if_pos hf, h]

omit [DecidableEq K] in
/-- A block with flag 2 is what zstd decodes without a dictionary. -/
theorem decodeBlock_of_flag_two {e : Enc} (hf : e.flag = 2) :
    decodeBlock E ds e = decompressBytesZstd E e.body := by
  rw [decodeBlock, if_neg (by omega), decompressBytesRaw, if_neg (by omega), if_pos hf]

omit [DecidableEq K] in
/-- The first pass keeps what each blob holds. -/
theorem loadsAs_gzip (hE : E.Lawful) {k : K} {b : Block} {e : Enc} (h : gzipEnc E ds b = some e) :
    LoadsAs E ds k b { b with toEnc := e } := by
  unfold gzipEnc at h
  split_ifs at h with hf
  obtain ⟨raw, hraw, hc⟩ := Option.bind_eq_some_iff.1 h
  rintro out ⟨hdec, hkey⟩
  rw [decodeBlock_of_flag_one hf hraw] at hdec
  obtain rfl := Except.ok.inj hdec
  exact ⟨(decodeBlock_of_compress hE hc).1, hkey⟩

omit [DecidableEq K] in
/-- The third pass keeps what a blob decodes to. -/
theorem decodeBlock_zstdEnc (hE : E.Lawful) {b : Block} {e : Enc} {out : Bytes} (hf : b.flag = 2)
    (h : zstdEnc E b = some e) (hdec : decodeBlock E ds b.toEnc = .ok out) :
    decodeBlock E ds e = .ok out := by
  unfold zstdEnc at h
  obtain ⟨raw, hraw, hbest⟩ := Option.bind_eq_some_iff.1 h
  obtain ⟨c, hc, hgain⟩ := Option.bind_eq_some_iff.1 hbest
  split_ifs at hgain
  cases hgain
  rw [decodeBlock_of_flag_two hf] at hdec
  rw [hdec] at hraw
  cases hraw
  have hflag : ({ b.toEnc with body := c } : Enc).flag = 2 := hf
  exact (decodeBlock_of_flag_two hflag).trans (decompressBytesZstd_of_compress hE hc)

omit [DecidableEq K] in
/-- The second pass keeps what a blob holds that is not misread. -/
theorem loadsAs_raw (hE : E.Lawful) {k : K} {b : Block} {e : Enc}
    (h : compressWithEffort E b.body (latestDict ds) .archive = some e)
    (hraw : ∀ raw, b.Loads E ds k raw → raw = b.body) : LoadsAs E ds k b { b with toEnc := e } := by
  rintro raw hb
  obtain rfl := hraw raw hb
  exact ⟨(decodeBlock_of_compress hE h).1, hb.2⟩

/-- What a blob is written as in the first two passes, if it is written. -/
theorem firstEnc_cases {k : K} {b : Block} {e : Enc} (h : db.firstEnc E k b = some e) :
    ∃ data, compressWithEffort E data (latestDict db.dicts) .archive = some e ∧
      (gzipEnc E db.dicts b = some e ∨ k ∈ db.rawPicks.map Prod.fst ∧ data = b.body) := by
  unfold Db.firstEnc at h
  rcases hg : gzipEnc E db.dicts b with _ | e'
  · rw [hg, Option.none_or] at h
    unfold Db.rawEnc at h
    split_ifs at h with hk
    exact ⟨b.body, h, Or.inr ⟨hk, rfl⟩⟩
  · rw [hg, Option.some_or] at h
    cases h
    have hgz := hg
    unfold gzipEnc at hgz
    split_ifs at hgz with hf
    obtain ⟨raw, -, hc⟩ := Option.bind_eq_some_iff.1 hgz
    exact ⟨raw, hc, Or.inl rfl⟩

/-- A blob that is looked at in the second pass is stored raw. -/
theorem flag_of_rawPicks {k : K} {c : Cell Block} (hc : db.blobs.get? k = some c)
    (hk : k ∈ db.rawPicks.map Prod.fst) : (k, c) ∈ db.rawPicks ∧ c.val.flag = 0 := by
  obtain ⟨r, hr, rfl⟩ := List.mem_map.1 hk
  have hsel := List.mem_of_mem_take hr
  rw [Table.select, List.mem_filter] at hsel
  have hget := Table.get?_eq_some_iff.2 hsel.1
  rw [hc] at hget
  obtain rfl := Option.some.inj hget
  exact ⟨hr, of_decide_eq_true (Bool.and_eq_true_iff.1 hsel.2).1⟩

/-- A blob is encoded again with the latest dictionary at the archive level. -/
theorem recompressBlob_eq (E : Ext K) (k : K) (raw : Bytes) (t : Db K) : recompressBlob E k raw t =
    .ok () (t.put k (compressWithEffort E raw (latestDict t.dicts) .archive)) := by
  unfold recompressBlob
  rw [reads_bind]
  rcases compressWithEffort E raw (latestDict t.dicts) .archive with _ | e
  · rfl
  · rfl

omit [DecidableEq K] in
/-- Without inline rows the first loop has nothing to do. -/
theorem Db.NoInline.inlineRows (h : db.NoInline) : db.inlineRows = [] := by
  unfold Db.inlineRows
  rw [List.filterMap_eq_nil_iff]
  intro r hr
  split_ifs with hkind
  · rw [h r.1 r.2 (Table.get?_eq_some_iff.2 hr) hkind]
    rfl
  · rfl

/-- The pass over the gzip blobs, all of which can be decoded. -/
theorem exists_gzipPass
    (hgz : ∀ k c, db.blobs.get? k = some c → c.val.flag = 1 →
      ∃ raw, E.gunzip c.val.body = some raw) :
    ∃ d, ((db.blobs.select fun _ c => c.val.flag = 1).forM fun r => do
        let raw ← Prog.query fun _ => (decompressBytesRaw E r.2.val.body 1).mapError Err.codec
        recompressBlob E r.1 raw) db = .ok () d ∧
        Db.Rewritten (fun _ => gzipEnc E db.dicts) db d := by
  have hmem : ∀ r ∈ db.blobs.select fun _ c => c.val.flag = 1,
      db.blobs.get? r.1 = some r.2 ∧ r.2.val.flag = 1 := by
    intro r hr
    rw [Table.select, List.mem_filter] at hr
    exact ⟨Table.get?_eq_some_iff.2 hr.1, of_decide_eq_true hr.2⟩
  have hnd : ((db.blobs.select fun _ c => c.val.flag = 1).map Prod.fst).Nodup :=
    db.blobs.nodup.sublist (List.filter_sublist.map Prod.fst)
  -- Each round decodes a blob that no round before it has touched, so it is still the one that
  -- was picked.
  have hstep : ∀ r ∈ db.blobs.select fun _ c => c.val.flag = 1, ∀ t : Db K, t.dicts = db.dicts → (do
      let raw ← Prog.query fun _ => (decompressBytesRaw E r.2.val.body 1).mapError Err.codec
      recompressBlob E r.1 raw : Sql K Unit) t = .ok ()
        (t.put r.1 (gzipEnc E db.dicts r.2.val)) := by
    intro r hr t ht
    obtain ⟨hget, hf⟩ := hmem r hr
    obtain ⟨raw, hraw⟩ := hgz r.1 r.2 hget hf
    have hdec : decompressBytesRaw E r.2.val.body 1 = .ok raw := by simp [decompressBytesRaw, hraw]
    have hquery : Prog.query (fun _ => (decompressBytesRaw E r.2.val.body 1).mapError Err.codec)
      t = .ok raw t :=
      query_of_ok (by rw [hdec]; rfl)
    rw [bind_of_ok hquery, recompressBlob_eq, gzipEnc, if_pos hf, hraw, ht, Option.bind_some]
  obtain ⟨d, hrun, hd⟩ :=
    forM_rewrites (fun _ => gzipEnc E db.dicts) rfl hnd (fun r hr => (hmem r hr).1) hstep
  refine ⟨d, hrun, hd.congr fun k c hk => ?_⟩
  by_cases hf : c.val.flag = 1
  · have hin : k ∈ (db.blobs.select fun _ c => c.val.flag = 1).map Prod.fst := by
      refine List.mem_map.2 ⟨(k, c), ?_, rfl⟩
      rw [Table.select, List.mem_filter]
      exact ⟨Table.get?_eq_some_iff.1 hk, decide_eq_true hf⟩
    rw [if_pos hin]
  · have hnone : gzipEnc E db.dicts c.val = none := if_neg hf
    rw [hnone, ite_self]

omit [DecidableEq K] in
/-- After the first pass the raw blobs are still those that were raw. -/
theorem rawPicks_of_gzipPass (hE : E.Lawful) (h : Db.Rewritten (fun _ => gzipEnc E db.dicts) db d) :
    d.rawPicks = db.rawPicks := by
  -- The gzip pass leaves the raw blobs alone, and what it rewrites does not become raw.
  have hraw : ∀ b : Block, b.flag = 0 → gzipEnc E db.dicts b = none := fun b hb => if_neg (by omega)
  have hflag : ∀ b : Block, (b.recoded (gzipEnc E db.dicts b)).flag = 0 ↔ b.flag = 0 := by
    intro b
    rcases henc : gzipEnc E db.dicts b with _ | e
    · rfl
    · -- A gzip blob, which gets the flag of a zstd frame.
      have hb : b.flag ≠ 0 := by
        intro hb
        rw [hraw b hb] at henc
        cases henc
      unfold gzipEnc at henc
      split_ifs at henc
      obtain ⟨raw, -, hc⟩ := Option.bind_eq_some_iff.1 henc
      have he : e.flag ≠ 0 := by
        have := (decodeBlock_of_compress hE hc).2
        omega
      exact iff_of_false he hb
  have hsize : ∀ b : Block, (b.recoded (gzipEnc E db.dicts b)).rawSize = b.rawSize := by
    intro b
    rcases gzipEnc E db.dicts b with _ | e
    · rfl
    · rfl
  unfold Db.rawPicks
  rw [h.blobs, Table.select_mapRows]
  simp only [hflag, hsize]
  congr 1
  refine (List.map_congr_left fun r hr => ?_).trans (List.map_id _)
  rw [Table.select, List.mem_filter] at hr
  have hf : r.2.val.flag = 0 := of_decide_eq_true (Bool.and_eq_true_iff.1 hr.2).1
  rw [hraw r.2.val hf]
  rfl

/-- The pass over the raw blobs succeeds and gives them the encodings of `rawEnc`. -/
theorem exists_rawPass (hE : E.Lawful) (h : Db.Rewritten (fun _ => gzipEnc E db.dicts) db d) :
    ∃ d', (d.rawPicks.forM fun r => recompressBlob E r.1 r.2.val.body) d = .ok () d' ∧
      Db.Rewritten (db.rawEnc E) d d' := by
  have hnd : (db.rawPicks.map Prod.fst).Nodup :=
    db.blobs.nodup.sublist (((List.take_sublist 200 _).trans List.filter_sublist).map Prod.fst)
  have hget : ∀ r ∈ db.rawPicks, d.blobs.get? r.1 = some r.2 := by
    intro r hr
    have hsel := List.mem_of_mem_take hr
    rw [Table.select, List.mem_filter] at hsel
    have hf : r.2.val.flag = 0 := of_decide_eq_true (Bool.and_eq_true_iff.1 hsel.2).1
    have hnone : gzipEnc E db.dicts r.2.val = none := if_neg (by omega)
    rw [h.get?, Table.get?_eq_some_iff.2 hsel.1, Option.map_some, hnone]
    rfl
  obtain ⟨d', hrun, hd'⟩ := forM_rewrites
    (fun _ b => compressWithEffort E b.body (latestDict db.dicts) .archive)
    (x := fun r => recompressBlob E r.1 r.2.val.body) h.dicts hnd hget fun r _ t ht => by
      rw [recompressBlob_eq, ht]
  rw [rawPicks_of_gzipPass hE h]
  exact ⟨d', hrun, hd'⟩

/-- The first two passes, if every gzip blob can be decoded; what is left is the third. -/
theorem exists_firstPasses (hE : E.Lawful) (hin : db.NoInline)
    (hgz : ∀ k c, db.blobs.get? k = some c → c.val.flag = 1 →
      ∃ raw, E.gunzip c.val.body = some raw) :
    ∃ d, Db.Rewritten (db.firstEnc E) db d ∧ vmRecompress E db =
      ((db.zstdPicks E).map fun r =>
        (r.1, { r.2 with val := r.2.val.recoded (db.firstEnc E r.1 r.2.val) })).forM
        (recompress19 E) d := by
  obtain ⟨d₁, hrun₁, h₁⟩ := exists_gzipPass hgz
  obtain ⟨d₂, hrun₂, h₂⟩ := exists_rawPass hE h₁
  have h : Db.Rewritten (db.firstEnc E) db d₂ := by
    refine h₁.trans h₂ fun k c e hk he => if_neg fun hmem => ?_
    -- A blob that is written in the first pass is not a raw one.
    obtain ⟨-, hf⟩ := flag_of_rawPicks hk hmem
    have hnone : gzipEnc E db.dicts c.val = none := if_neg (by omega)
    rw [hnone] at he
    cases he
  refine ⟨d₂, h, ?_⟩
  have hpicks : (d₂.blobs.select fun _ c => c.val.flag = 2).take 300 = (db.zstdPicks E).map fun r =>
      (r.1, { r.2 with val := r.2.val.recoded (db.firstEnc E r.1 r.2.val) }) := by
    rw [h.blobs, Table.select_mapRows, Db.zstdPicks, List.map_take]
  rw [vmRecompress_eq, reads_bind, hin.inlineRows]
  have hnil : ([] : List (Str × Bytes × ℕ)).forM (recompressInline E) db = .ok () db := rfl
  rw [bind_of_ok hnil, blobPasses, reads_bind, bind_of_ok hrun₁, reads_bind, bind_of_ok hrun₂,
    reads_bind, hpicks]

/-- A zstd blob that can be decoded is written as `zstdEnc` says. -/
theorem recompress19_eq {k : K} {c : Cell Block} (hf : c.val.flag = 2) {raw : Bytes}
    (hraw : decompressBytesZstd E c.val.body = .ok raw) (t : Db K) :
    recompress19 E (k, c) t = .ok () (t.put k (zstdEnc E c.val)) := by
  have hquery :
      Prog.query (fun _ => (decompressBytesRaw E c.val.body c.val.flag).mapError Err.codec) t =
      .ok raw t := by
    refine query_of_ok ?_
    rw [hf, decompressBytesRaw, if_neg (by omega), if_pos rfl, hraw]
    rfl
  unfold recompress19 zstdEnc
  rw [bind_of_ok hquery, hraw]
  show _ = EStateM.Result.ok () (t.put k ((E.zstdCompress 19 raw).bind _))
  rcases E.zstdCompress 19 raw with _ | z
  · rfl
  · dsimp only [Option.bind_some]
    split_ifs
    · rfl
    · rfl

/-- The pass over the zstd blobs, if those that were zstd blobs before can be decoded. -/
theorem exists_zstdPass (hE : E.Lawful) (h : Db.Rewritten (db.firstEnc E) db d)
    (hz : ∀ r ∈ db.zstdPicks E, r.2.val.flag = 2 →
      ∃ raw, decompressBytesZstd E r.2.val.body = .ok raw) :
    ∃ (ks : List K) (d' : Db K), (((db.zstdPicks E).map fun r =>
        (r.1, { r.2 with val := r.2.val.recoded (db.firstEnc E r.1 r.2.val) })).forM
        (recompress19 E)) d = .ok () d' ∧
      Db.Rewritten (fun k b => if k ∈ ks then zstdEnc E b else none) d d' ∧
      ∀ k ∈ ks, ∀ c, d.blobs.get? k = some c → c.val.flag = 2 := by
  have hmem : ∀ r ∈ (db.zstdPicks E).map fun r =>
      (r.1, { r.2 with val := r.2.val.recoded (db.firstEnc E r.1 r.2.val) }),
      d.blobs.get? r.1 = some r.2 ∧ r.2.val.flag = 2 ∧
      ∃ raw, decompressBytesZstd E r.2.val.body = .ok raw := by
    intro r' hr'
    obtain ⟨r, hr, rfl⟩ := List.mem_map.1 hr'
    have hsel := List.mem_of_mem_take hr
    rw [Table.select, List.mem_filter] at hsel
    have hflag : (r.2.val.recoded (db.firstEnc E r.1 r.2.val)).flag = 2 := of_decide_eq_true hsel.2
    refine ⟨by rw [h.get?, Table.get?_eq_some_iff.2 hsel.1, Option.map_some], hflag, ?_⟩
    show ∃ raw, decompressBytesZstd E (r.2.val.recoded (db.firstEnc E r.1 r.2.val)).body = .ok raw
    rcases henc : db.firstEnc E r.1 r.2.val with _ | e
    · rw [henc] at hflag
      exact hz r hr hflag
    · -- It was written by one of the first passes.
      rw [henc] at hflag
      obtain ⟨data, hc, -⟩ := firstEnc_cases henc
      have hdec := (decodeBlock_of_compress hE hc).1
      have he : e.flag = 2 := hflag
      rw [decodeBlock_of_flag_two he] at hdec
      exact ⟨data, hdec⟩
  -- The blobs picked are different, so each round finds the encoding that the first passes left.
  have hnd : (((db.zstdPicks E).map fun r =>
      (r.1, { r.2 with val := r.2.val.recoded (db.firstEnc E r.1 r.2.val) })).map
      Prod.fst).Nodup := by
    rw [List.map_map]
    exact db.blobs.nodup.sublist
      (((List.take_sublist 300 _).trans List.filter_sublist).map Prod.fst)
  obtain ⟨d', hrun, hd'⟩ := forM_rewrites (fun _ => zstdEnc E) (x := recompress19 E)
    (rfl : d.dicts = d.dicts) hnd
    (fun r hr => (hmem r hr).1) fun r hr t _ => by
      obtain ⟨-, hf, raw, hraw⟩ := hmem r hr
      exact recompress19_eq hf hraw t
  refine ⟨_, d', hrun, hd', fun k hk c hc => ?_⟩
  obtain ⟨r, hr, rfl⟩ := List.mem_map.1 hk
  obtain ⟨hget, hf, -⟩ := hmem r hr
  rw [hc] at hget
  rw [Option.some.inj hget]
  exact hf

/-! ## What a recompression preserves -/

/-- What a recompression must leave as it was. -/
structure Db.SameContent (E : Ext K) (db d : Db K) : Prop where
  /-- Every path that can be read is read with the same bytes. -/
  cat : ∀ p b, vmCat E db p = .ok b → vmCat E d p = .ok b
  /-- The same after a snapshot is restored. -/
  restored : ∀ name db', snapshotRestore name db = .ok () db' →
    ∃ d', snapshotRestore name d = .ok () d' ∧ ∀ p b, vmCat E db' p = .ok b → vmCat E d' p = .ok b
  /-- Every blob that can be read is, whoever refers to it. -/
  loads : ∀ k raw, db.Loads E k raw → d.Loads E k raw
  /-- The counts. -/
  refcnt : ∀ k, (d.blobs.get? k).map (fun c => c.refcnt) = (db.blobs.get? k).map fun c => c.refcnt
  /-- What is counted. -/
  refs : ∀ k, d.refs k = db.refs k
  /-- The counters. -/
  counters : db.CountersExact → d.CountersExact
  /-- If no blob was without a reference, none is. -/
  referenced : (∀ k c, db.blobs.get? k = some c → 0 < db.refs k) → ∀ k c, d.blobs.get? k = some c →
    0 < d.refs k

/-- `vm_recompress` on a connection in autocommit mode, where a statement or a read may fail: what
it preserves when it returns, and that nothing has changed when it fails. -/
def Db.Recompresses (E : Ext K) (f : Option (Tx.Failure Err (Db K) Unit)) (db : Db K) : Prop :=
  match Tx.bareWith Err.nestedTx f (vmRecompress E) ⟨db, []⟩ with
  | .ok _ c => c.opened = [] ∧ Db.SameContent E db c.cur
  | .error _ c => c = ⟨db, []⟩

/-- Databases that are alike have the same content. -/
theorem Db.Alike.sameContent (h : Db.Alike E db d) (hc : db.CountersExact → d.CountersExact) :
    Db.SameContent E db d where
  cat _ _ hb := h.vmCat hb
  restored name db' hrun := by
    obtain ⟨d', hrun', h'⟩ := h.snapshotRestore hrun
    exact ⟨d', hrun', fun _ _ hb => h'.vmCat hb⟩
  -- Blob by blob: it is missing on both sides, or loads as the same bytes with the same count.
  loads := by
    rintro k raw ⟨c, hget, hload⟩
    rcases h.blobs k with ⟨hnone, -⟩ | ⟨c', v, hdb, hd, hv⟩
    · rw [hnone] at hget
      cases hget
    · rw [hdb] at hget
      obtain rfl := Option.some.inj hget
      refine ⟨_, hd, ?_⟩
      rw [h.dicts]
      exact hv raw hload
  refcnt k := by
    rcases h.blobs k with ⟨hdb, hd⟩ | ⟨c, v, hdb, hd, -⟩
    · rw [hdb, hd]
    · rw [hdb, hd]
      rfl
  refs k := by rw [h.rest]; rfl
  counters := hc
  referenced := by
    intro hall k c hk
    have hrefs : d.refs k = db.refs k := by rw [h.rest]; rfl
    rw [hrefs]
    rcases h.blobs k with ⟨-, hd⟩ | ⟨c', v, hdb, -, -⟩
    · rw [hd] at hk
      cases hk
    · exact hall k c' hdb

omit [DecidableEq K] in
/-- If it returns, every blob it looked at was decoded. -/
theorem forM_returned {α : Type} {f : α → Sql K Unit} : ∀ {l : List α} {s s' : Db K} {u : Unit},
    l.forM f s = .ok u s' → ∀ a ∈ l, ∃ t t', f a t = .ok () t'
  | [], _, _, _, _, a, ha => by cases ha
  | b :: l, s, s', u, h, a, ha => by
    rw [List.forM_eq_forM, List.forM_cons] at h
    obtain ⟨_, t, hb, hl⟩ := bind_eq_ok.1 h
    rcases List.mem_cons.1 ha with rfl | ha
    · exact ⟨s, t, hb⟩
    · exact forM_returned hl a ha

/-- A gzip blob that is looked at can be decoded. -/
theorem gzip_of_returned {u : Unit} (hin : db.NoInline) (h : vmRecompress E db = .ok u d) :
    ∀ k c, db.blobs.get? k = some c → c.val.flag = 1 → ∃ raw, E.gunzip c.val.body = some raw := by
  intro k c hk hf
  rw [vmRecompress_eq, reads_bind, hin.inlineRows] at h
  obtain ⟨_, d₁, hnil, hpasses⟩ := bind_eq_ok.1 h
  cases hnil
  rw [blobPasses, reads_bind] at hpasses
  obtain ⟨_, d₂, hgz, -⟩ := bind_eq_ok.1 hpasses
  have hmem : (k, c) ∈ db.blobs.select fun _ c => c.val.flag = 1 := by
    rw [Table.select, List.mem_filter]
    exact ⟨Table.get?_eq_some_iff.1 hk, decide_eq_true hf⟩
  obtain ⟨t, t', hone⟩ := forM_returned hgz (k, c) hmem
  obtain ⟨raw, t₁, hquery, -⟩ := bind_eq_ok.1 hone
  obtain ⟨hraw, -⟩ := query_eq_ok.1 hquery
  rcases hg : E.gunzip c.val.body with _ | out
  · simp [decompressBytesRaw, hg, Except.mapError] at hraw
  · exact ⟨out, rfl⟩

/-- What the passes keep, whatever a raw blob is taken for. -/
theorem Db.Rewritten.loads_body (hE : E.Lawful) (h : Db.Rewritten (db.firstEnc E) db d)
    {r : K × Cell Block} (hr : r ∈ db.rawPicks) {e : Enc}
    (he : compressWithEffort E r.2.val.body (latestDict db.dicts) .archive = some e) :
    ∃ c, d.blobs.get? r.1 = some c ∧ decodeBlock E d.dicts c.val.toEnc = .ok r.2.val.body := by
  have hsel := List.mem_of_mem_take hr
  rw [Table.select, List.mem_filter] at hsel
  have hget := Table.get?_eq_some_iff.2 hsel.1
  have hkey : r.1 ∈ db.rawPicks.map Prod.fst := List.mem_map_of_mem hr
  obtain ⟨-, hf⟩ := flag_of_rawPicks hget hkey
  have hgz : gzipEnc E db.dicts r.2.val = none := if_neg (by omega)
  have henc : db.firstEnc E r.1 r.2.val = some e := by
    rw [Db.firstEnc, hgz, Option.none_or, Db.rawEnc, if_pos hkey, he]
  refine ⟨{ r.2 with val := { r.2.val with toEnc := e } }, ?_, ?_⟩
  · rw [h.get?, hget, Option.map_some, henc]
    rfl
  · rw [h.dicts]
    exact (decodeBlock_of_compress hE he).1

/-- A recompression that returns and keeps what each blob holds has met neither a broken blob nor a
misread one. -/
theorem conditions_of_returned {u : Unit} (hE : E.Lawful) (hin : db.NoInline)
    (h : vmRecompress E db = .ok u d) (hloads : ∀ k raw, db.Loads E k raw → d.Loads E k raw) :
    db.Decodable E ∧ db.RawAsStored E := by
  have hgz := gzip_of_returned hin h
  obtain ⟨d₁, h₁, hrun⟩ := exists_firstPasses hE hin hgz
  rw [hrun] at h
  have hz : ∀ r ∈ db.zstdPicks E, r.2.val.flag = 2 →
    ∃ raw, decompressBytesZstd E r.2.val.body = .ok raw := by
    intro r hr hf
    obtain ⟨t, t', hone⟩ := forM_returned h _ (List.mem_map_of_mem hr)
    obtain ⟨raw, t₁, hquery, -⟩ := bind_eq_ok.1 hone
    obtain ⟨hraw, -⟩ := query_eq_ok.1 hquery
    -- The first passes have not written it.
    have hsel := List.mem_of_mem_take hr
    rw [Table.select, List.mem_filter] at hsel
    have hnone : db.firstEnc E r.1 r.2.val = none := by
      have hg : gzipEnc E db.dicts r.2.val = none := if_neg (by omega)
      rw [Db.firstEnc, hg, Option.none_or, Db.rawEnc, if_neg]
      intro hmem
      have := (flag_of_rawPicks (Table.get?_eq_some_iff.2 hsel.1) hmem).2
      omega
    rw [hnone] at hraw
    change (decompressBytesRaw E r.2.val.body r.2.val.flag).mapError Err.codec = .ok raw at hraw
    rw [hf, decompressBytesRaw, if_neg (by omega), if_pos rfl] at hraw
    rcases hdec : decompressBytesZstd E r.2.val.body with e | out
    · rw [hdec] at hraw
      cases hraw
    · exact ⟨out, rfl⟩
  obtain ⟨ks, d₂, hrun₂, h₂, hks⟩ := exists_zstdPass hE h₁ hz
  rw [hrun₂] at h
  cases h
  refine ⟨⟨hgz, hz⟩, fun r hr raw hload => ?_⟩
  rcases he : compressWithEffort E r.2.val.body (latestDict db.dicts) .archive with _ | e
  · exact Or.inr rfl
  left
  have hsel := List.mem_of_mem_take hr
  rw [Table.select, List.mem_filter] at hsel
  obtain ⟨c₂, hget₂, hload₂⟩ := hloads r.1 raw ⟨r.2, Table.get?_eq_some_iff.2 hsel.1, hload⟩
  obtain ⟨c₁, hget₁, hbody₁⟩ := h₁.loads_body hE hr he
  -- What is stored now decodes to the body that was stored before.
  have hbody₂ : decodeBlock E d.dicts c₂.val.toEnc = .ok r.2.val.body := by
    rw [h₂.get?, hget₁, Option.map_some] at hget₂
    obtain rfl := Option.some.inj hget₂
    rw [h₂.dicts]
    dsimp only
    split_ifs with hmem
    · rcases hz : zstdEnc E c₁.val with _ | e'
      · exact hbody₁
      · exact decodeBlock_zstdEnc hE (hks r.1 hmem c₁ hget₁) hz hbody₁
    · exact hbody₁
  have hboth := hload₂.1
  rw [hbody₂] at hboth
  exact (Except.ok.inj hboth).symm

/-- Under the conditions the call returns, and the blobs hold what they held. -/
theorem exists_alike_of_conditions (hE : E.Lawful) (hin : db.NoInline) (hdec : db.Decodable E)
    (hraw : db.RawAsStored E) : ∃ d, vmRecompress E db = .ok () d ∧ Db.Alike E db d := by
  obtain ⟨d₁, h₁, hrun⟩ := exists_firstPasses hE hin hdec.gzip
  obtain ⟨ks, d₂, hrun₂, h₂, hks⟩ := exists_zstdPass hE h₁ hdec.zstd
  have halike₁ : Db.Alike E db d₁ := by
    refine h₁.alike fun k c e hk he => ?_
    unfold Db.firstEnc at he
    rcases hg : gzipEnc E db.dicts c.val with _ | e'
    · rw [hg, Option.none_or] at he
      unfold Db.rawEnc at he
      split_ifs at he with hmem
      obtain ⟨hpick, -⟩ := flag_of_rawPicks hk hmem
      refine loadsAs_raw hE he fun raw hload => ?_
      rcases hraw (k, c) hpick raw hload with hsame | hnone
      · exact hsame
      · rw [hnone] at he
        cases he
    · rw [hg, Option.some_or] at he
      obtain rfl := Option.some.inj he
      exact loadsAs_gzip hE hg
  have halike₂ : Db.Alike E d₁ d₂ := by
    refine h₂.alike fun k c e hk he => ?_
    split_ifs at he with hmem
    rintro raw ⟨hload, hkey⟩
    exact ⟨decodeBlock_zstdEnc hE (hks k hmem c hk) he hload, hkey⟩
  exact ⟨d₂, hrun.trans hrun₂, halike₁.trans halike₂⟩

/-! ## Inline rows -/

omit [DecidableEq K] in
/-- Each is the path, the content and the encoding of a file. -/
theorem Db.mem_inlineRows {x : Str × Bytes × ℕ} : x ∈ db.inlineRows ↔
    ∃ row, db.fs.get? x.1 = some row ∧ row.kind = .file ∧ row.content = some x.2.1 ∧
    row.compressed = x.2.2 := by
  unfold Db.inlineRows
  rw [List.mem_filterMap]
  constructor
  · rintro ⟨⟨p, row⟩, hr, hx⟩
    dsimp only at hx
    split_ifs at hx with hkind
    obtain ⟨b, hb, rfl⟩ := Option.map_eq_some_iff.1 hx
    exact ⟨row, Table.get?_eq_some_iff.2 hr, hkind, hb, rfl⟩
  · rintro ⟨row, hget, hkind, hb, hc⟩
    refine ⟨(x.1, row), Table.get?_eq_some_iff.1 hget, ?_⟩
    dsimp only
    rw [if_pos hkind, hb, hc]
    rfl

/-- The row of `p` after its content of `n` bytes was moved to a blob. -/
def Db.Moved (db : Db K) (p : Str) (n : ℕ) : Prop :=
  ∃ row, db.fs.get? p = some row ∧ row.kind = .file ∧ row.hash ≠ .null ∧ row.size = n

/-- One round of the first loop moves the inline content of one row into a blob. -/
theorem recompressInline_ok {x : Str × Bytes × ℕ} {u : Unit}
    (h : recompressInline E x s = .ok u s') :
    ∃ raw, decompressBytesRaw E x.2.1 x.2.2 = .ok raw ∧ s'.chunks = s.chunks ∧
      (∀ q, q ≠ x.1 → s'.fs.get? q = s.fs.get? q) ∧
      ∀ row, s.fs.get? x.1 = some row → row.kind = .file → s'.Moved x.1 raw.length := by
  unfold recompressInline at h
  obtain ⟨raw, s₁, hquery, hrest⟩ := bind_eq_ok.1 h
  obtain ⟨hraw, rfl⟩ := query_eq_ok.1 hquery
  obtain ⟨_, s₂, hblob, hupdate⟩ := bind_eq_ok.1 hrest
  rw [reads_bind] at hupdate
  obtain ⟨flag, hflag⟩ := blobEnsureWith_eq E .archive s₁ raw
  have hb : blobEnsure E (E.blobKey raw) raw s₁ = .ok flag (s₁.withBlob E .archive raw) := hflag
  rw [hb] at hblob
  cases hblob
  refine ⟨raw, ?_, ?_⟩
  · rcases hd : decompressBytesRaw E x.2.1 x.2.2 with e | out
    · rw [hd] at hraw
      cases hraw
    · rw [hd] at hraw
      cases hraw
      rfl
  -- The row is gone, or it gets the key of the new blob in place of its content.
  rcases updateFs_ok hupdate with ⟨hnone, rfl⟩ | ⟨row, hrow, rfl⟩
  · rw [Db.withBlob_fs] at hnone ⊢
    refine ⟨Db.withBlob_chunks .., fun q _ => rfl, fun row hrow _ => ?_⟩
    rw [hnone] at hrow
    cases hrow
  · rw [Db.withBlob_fs] at hrow
    refine ⟨Db.withBlob_chunks .., fun q hq => ?_, fun row' hrow' hkind => ?_⟩
    · show Table.get? (Table.update _ x.1 _) q = _
      rw [Table.get?_update, if_neg hq, Db.withBlob_fs]
    · rw [hrow] at hrow'
      obtain rfl := Option.some.inj hrow'
      unfold Db.Moved Db.setFs
      dsimp only
      rw [Table.get?_update, if_pos rfl, Db.withBlob_fs, hrow]
      exact ⟨_, rfl, hkind, by simp, rfl⟩

/-- The other loops write blobs only. -/
theorem keeps_blobPasses {I : Db K → Prop} (hI : ∀ k e, Keeps I (updateBlob k e)) :
    Keeps I (blobPasses E) := by
  have hblob : ∀ (k : K) (raw : Bytes), Keeps I (recompressBlob E k raw) := by
    intro k raw
    refine Keeps.bind (Keeps.reads _) fun enc => ?_
    rcases enc with _ | e
    · exact Keeps.pure _
    · exact hI k e
  have h19 : ∀ r : K × Cell Block, Keeps I (recompress19 E r) := by
    intro r
    refine Keeps.bind (Keeps.query _) fun raw => ?_
    rcases E.zstdCompress 19 raw with _ | c
    · exact Keeps.pure _
    · dsimp only
      split_ifs
      · exact hI _ _
      · exact Keeps.pure _
  exact Keeps.bind (Keeps.reads _) fun gz => Keeps.bind
    (Keeps.forM (fun r => Keeps.bind (Keeps.query _) fun raw => hblob r.1 raw) gz) fun _ =>
      Keeps.bind (Keeps.reads _) fun plain => Keeps.bind (Keeps.forM (fun r => hblob r.1 _) plain)
        fun _ =>
        Keeps.bind (Keeps.reads _) fun zstd => Keeps.forM h19 zstd

/-- In the first loop, with `rest` still to come: the row of `p` is as it was until the loop comes
to it. -/
structure Db.Moving (E : Ext K) (db : Db K) (p : Str) (row : FsRow K) (b : Bytes)
    (rest : List (Str × Bytes × ℕ))
    (s : Db K) : Prop where
  /-- The rest. -/
  rows : ∀ x ∈ rest, x ∈ db.inlineRows
  /-- The chunks. -/
  chunks : s.chunks = db.chunks
  /-- The row. -/
  row : s.fs.get? p = some row ∧ (p, b, row.compressed) ∈ rest ∨
    ∃ raw, decompressBytesRaw E b row.compressed = .ok raw ∧ s.Moved p raw.length

/-- A file whose content is in its row has a hash after a recompression, and the chunks it had
before. -/
theorem moved_of_returned {p : Str} {row : FsRow K} {b : Bytes} {u : Unit}
    (hrow : db.fs.get? p = some row) (hkind : row.kind = .file) (hb : row.content = some b)
    (h : vmRecompress E db = .ok u d) :
    ∃ raw, decompressBytesRaw E b row.compressed = .ok raw ∧ d.Moved p raw.length ∧
    d.chunks = db.chunks := by
  have hmem : (p, b, row.compressed) ∈ db.inlineRows :=
    Db.mem_inlineRows.2 ⟨row, hrow, hkind, hb, rfl⟩
  have huniq : ∀ x ∈ db.inlineRows, x.1 = p → x = (p, b, row.compressed) := by
    intro x hx hp
    obtain ⟨row', hrow', -, hb', hc'⟩ := Db.mem_inlineRows.1 hx
    rw [hp, hrow] at hrow'
    obtain rfl := Option.some.inj hrow'
    rw [hb] at hb'
    exact Prod.ext hp (Prod.ext (Option.some.inj hb').symm hc'.symm)
  rw [vmRecompress_eq, reads_bind] at h
  obtain ⟨_, s₁, hloop, hpasses⟩ := bind_eq_ok.1 h
  -- The rounds before the row's own leave it alone, its own moves the content, the later ones
  -- leave it moved.
  have hinv : Triple (Db.Moving E db p row b db.inlineRows)
    (db.inlineRows.forM (recompressInline E))
      fun _ => Db.Moving E db p row b [] := by
    refine Triple.forM (fun x xs => ?_) _
    rintro s _ s' ⟨hall, hchunks, hstate⟩ hx
    obtain ⟨raw, hraw, hch, hother, hmoved⟩ := recompressInline_ok hx
    refine ⟨fun y hy => hall y (List.mem_cons_of_mem _ hy), hch.trans hchunks, ?_⟩
    by_cases hp : x.1 = p
    · right
      obtain rfl := huniq x (hall x List.mem_cons_self) hp
      refine ⟨raw, hraw, ?_⟩
      rcases hstate with ⟨hget, -⟩ | ⟨-, -, row', hget, hkind', -⟩
      · exact hmoved row hget hkind
      · exact hmoved row' hget hkind'
    · have hget := hother p (Ne.symm hp)
      rcases hstate with ⟨hold, hin⟩ | ⟨out, hout, row', hrow', hrest⟩
      · refine Or.inl ⟨hget.trans hold, ?_⟩
        rcases List.mem_cons.1 hin with rfl | hin
        · exact absurd rfl hp
        · exact hin
      · exact Or.inr ⟨out, hout, row', hget.trans hrow', hrest⟩
  obtain ⟨-, hchunks, hstate⟩ := hinv db _ s₁ ⟨fun _ hx => hx, rfl, Or.inl ⟨hrow, hmem⟩⟩ hloop
  have hkeep : Keeps (fun s : Db K => s.fs = s₁.fs ∧ s.chunks = s₁.chunks) (blobPasses E) :=
    keeps_blobPasses fun k e => Keeps.statement fun t t' ht hx => by
      cases hx
      exact ht
  have hend := hkeep s₁ ⟨rfl, rfl⟩
  rw [endState_of_ok hpasses] at hend
  rcases hstate with ⟨-, hin⟩ | ⟨raw, hraw, row', hrow', hrest⟩
  · cases hin
  · exact ⟨raw, hraw, ⟨row', by rw [hend.1, hrow'], hrest⟩, hend.2.trans hchunks⟩

/-- A file with its content in its row is as the old schemas left it: its row names no blob, no
chunk row names it, and its content is not empty. -/
def Db.OldInline (E : Ext K) (db : Db K) : Prop := ∀ p row b, db.fs.get? p = some row →
  row.kind = .file →
  row.content = some b → Normal p ∧ row.hash = .null ∧ db.chunkList p = [] ∧
    decompressBytesRaw E b row.compressed ≠ .ok []

/-- What `vm_cat` gives for a path in normal form with the row of a file. -/
theorem vmCat_of_file {p : Str} {row : FsRow K} (hp : Normal p) (hrow : db.fs.get? p = some row)
    (hkind : row.kind = .file) : vmCat E db p = db.rowContent E p row := by
  have hreal : resolvePath db p = .ok p := by
    rw [resolvePath, hp, resolveFrom, if_neg (by simp), hrow]
    simp [hkind]
  unfold vmCat vmResolve
  rw [hreal]
  simp only [bind, Except.bind, hrow, hkind]
  rcases db.rowContent E p row with e | b
  · rfl
  · rfl

/-- A file with its content in its row cannot be read after a recompression. -/
theorem noInline_of_returned {u : Unit} (hold : db.OldInline E) (h : vmRecompress E db = .ok u d)
    (hcat : ∀ p b, vmCat E db p = .ok b → vmCat E d p = .ok b) : db.NoInline := by
  intro p row hrow hkind
  rcases hb : row.content with _ | b
  · rfl
  obtain ⟨hnormal, hhash, hchunks, hne⟩ := hold p row b hrow hkind hb
  obtain ⟨raw, hraw, ⟨row', hrow', hkind', hhash', hsize⟩, hsame⟩ :=
    moved_of_returned hrow hkind hb h
  have hpos : raw ≠ [] := by
    rintro rfl
    exact hne hraw
  have hbefore : vmCat E db p = .ok raw := by
    rw [vmCat_of_file hnormal hrow hkind, Db.rowContent, if_neg (not_not.2 hhash), hb]
    dsimp only
    rw [hraw]
  -- Its row now names a blob, but it has no chunks.
  have hlist : d.chunkList p = [] := by
    rw [← hchunks]
    exact Db.chunkList_congr fun i => by rw [hsame]
  have hafter := hcat p raw hbefore
  have hfile : fileBytes E d p = .error (.sizeMismatch p) := by
    unfold fileBytes
    rw [hrow', hlist]
    dsimp only
    rw [if_neg (not_not.2 hkind'), hsize]
    show (if ([] : Bytes).length ≠ raw.length then _ else _) = _
    rw [if_pos]
    rw [List.length_nil]
    exact (List.length_pos_iff.2 hpos).ne
  rw [vmCat_of_file hnormal hrow' hkind', Db.rowContent, if_pos hhash', hfile] at hafter
  cases hafter

/-- What a recompression needs. If no statement fails: no file has its content in its row, the gzip
and zstd blobs that are looked at can be decoded, and no raw blob that is compressed is taken for a
compressed stream. A failure between `BEGIN` and `COMMIT` must be one that ends the transaction. -/
def Db.RecompressFits (E : Ext K) (db : Db K) : Option (Tx.Failure Err (Db K) Unit) → Prop
  | none => db.NoInline ∧ db.Decodable E ∧ db.RawAsStored E
  | some f => ∀ g, f = .inner g → g.ends = true

/-- Without a failing statement: a recompression returns and preserves every file exactly when no
file has its content in its row, the blobs that are looked at can be decoded and are stored as they
are read. -/
theorem recompresses_none_iff (hE : E.Lawful) (hold : db.OldInline E) :
    Db.Recompresses E none db ↔ db.NoInline ∧ db.Decodable E ∧ db.RawAsStored E := by
  have hbare : Tx.bareWith Err.nestedTx none (vmRecompress E) (⟨db, []⟩ : Tx.Link (Db K)) =
      Tx.bare Err.nestedTx (vmRecompress E) ⟨db, []⟩ := rfl
  -- Where a condition fails the run ends in an error with the transaction open, or a blob reads
  -- otherwise.
  constructor
  · intro h
    unfold Db.Recompresses at h
    rw [hbare, Tx.bare_of_autocommit] at h
    rcases hrun : vmRecompress E db with ⟨u, d⟩ | ⟨e, d⟩
    · rw [hrun] at h
      obtain ⟨-, hsame⟩ := h
      have hin := noInline_of_returned hold hrun hsame.cat
      exact ⟨hin, conditions_of_returned hE hin hrun hsame.loads⟩
    · -- The transaction is still open.
      rw [hrun] at h
      cases h
  · rintro ⟨hin, hdec, hraw⟩
    obtain ⟨d, hrun, halike⟩ := exists_alike_of_conditions hE hin hdec hraw
    have hcount : db.CountersExact → d.CountersExact := by
      intro hc
      have heffects : ∀ db₀ : Db K, Keeps (Db.Effects (fun _ => True) db₀) (vmRecompress E) :=
        fun _ => effects_vmRecompress E
      have hkeep : Keeps Db.CountersExact (vmRecompress E) :=
        Keeps.of_effects (fun _ _ hstep _ hd => hstep.countersExact hd) heffects
      have hend := hkeep db hc
      rwa [endState_of_ok hrun] at hend
    unfold Db.Recompresses
    rw [hbare, Tx.bare_of_autocommit, hrun]
    exact ⟨rfl, halike.sameContent hcount⟩

/-- A database with a file of zeros, stored raw. -/
@[irreducible] def zerosDb : Db Bytes :=
  endState ((StoreOp.addBytes "/a".toList (List.replicate 1100 0) 420 0 0).run plainExt) (initDb 0)

/-- A database of schema 1 whose file has its content in its row. -/
def inlineSchema1 : OldDb Str where
  fs :=
    ⟨[(root, dirRow 493 0),
      ("/a".toList, { (dirRow 420 0).toFile 420 0 2 .null with content := some [104, 105] })],
    by decide⟩
  blobs := Table.empty
  snapshots := Table.empty
  dict := none
  counters := ⟨0, 0, 0, 0, 0⟩

/-- The same after its upgrade. -/
def inlineDb : Db Bytes :=
  match migrateTexts plainExt 1 inlineSchema1 with
  | .ok db => migrate4to5 db
  | .error _ => initDb 0

end Dbvm
