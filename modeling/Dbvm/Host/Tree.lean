import Dbvm.Host.Copy
import Dbvm.TreeOps

/-!
# The shape of the tree after a sync

What one entry of a sync does to the kind of its row (`SyncStep`), what the walk and the deletions
after it do to all kinds, and when the tree keeps its shape. An entry that is refused for a
read-only prefix is refused with all that is below it, so refusals do no harm; a sync that keeps a
row and turns the row above it into a file does.
-/

namespace Dbvm

open Lib Lib.Prog Lib.Posix

variable {K : Type} [DecidableEq K] {E : Ext K} {p q : Str} {d d' d₁ d₂ : Db K} {u : Unit}
  {ctx : SyncCtx}
  {fs : Fs} {tree : Loc} {aliases : List (Str × Str)}

/-! ## What the writes leave alone -/

/-- The rules and the undo records are the same. -/
structure SameFrame (d₀ d : Db K) : Prop where
  /-- The rules. -/
  policies : d.policies = d₀.policies
  /-- The bypass. -/
  bypass : d.bypass = d₀.bypass
  /-- The records. -/
  undo : d.undo = d₀.undo
  /-- Their entries. -/
  undoFs : d.undoFs = d₀.undoFs
  /-- Their chunks. -/
  undoChunks : d.undoChunks = d₀.undoChunks

omit [DecidableEq K] in
/-- A database has its own frame. -/
theorem SameFrame.refl (d : Db K) : SameFrame d d := ⟨rfl, rfl, rfl, rfl, rfl⟩

omit [DecidableEq K] in
/-- Two changes within the frame are one. -/
theorem SameFrame.trans (h : SameFrame d d₁) (h' : SameFrame d₁ d₂) : SameFrame d d₂ :=
  ⟨h'.policies.trans h.policies, h'.bypass.trans h.bypass, h'.undo.trans h.undo,
    h'.undoFs.trans h.undoFs,
    h'.undoChunks.trans h.undoChunks⟩

omit [DecidableEq K] in
/-- The same paths are refused as long as the policies are the same. -/
theorem SameFrame.refusesPath (h : SameFrame d d') (p : Str) :
    d'.refusesPath p = d.refusesPath p := by
  rw [Db.refusesPath, Db.refusesPath, h.policies, h.bypass]

variable {d₀ : Db K}

omit [DecidableEq K] in
/-- A statement stays within the frame when its effect does. -/
theorem keeps_frame_of {f : Db K → Except Err (Db K)} (h : ∀ d d', f d = .ok d' → SameFrame d d') :
    Keeps (SameFrame d₀) (statement f) :=
  Keeps.statement fun d d' hI hf => hI.trans (h d d' hf)

/-- A delete of chunk rows stays within the frame. -/
theorem frame_deleteChunks (sel : Str → ℕ → Bool) : Keeps (SameFrame d₀) (deleteChunks sel) := by
  refine keeps_frame_of fun d d' hf => ?_
  split_ifs at hf
  cases hf
  exact ⟨rfl, rfl, rfl, rfl, rfl⟩

omit [DecidableEq K] in
/-- An upsert of a row stays within the frame. -/
theorem frame_upsertFs (p : Str) (row : FsRow K) (upd : FsRow K → FsRow K) :
    Keeps (SameFrame d₀) (upsertFs p row upd) := by
  refine keeps_frame_of fun d d' hf => ?_
  split_ifs at hf
  · cases hf
    exact ⟨rfl, rfl, rfl, rfl, rfl⟩
  · cases hf
    exact ⟨rfl, rfl, rfl, rfl, rfl⟩

omit [DecidableEq K] in
/-- An update of a row stays within the frame. -/
theorem frame_updateFs (p : Str) (f : FsRow K → FsRow K) : Keeps (SameFrame d₀) (updateFs p f) := by
  refine keeps_frame_of fun d d' hf => ?_
  rcases updateFs_ok (u := ()) (statement_of_ok hf) with ⟨-, rfl⟩ | ⟨_, -, rfl⟩
  · exact ⟨rfl, rfl, rfl, rfl, rfl⟩
  · exact ⟨rfl, rfl, rfl, rfl, rfl⟩

/-- A delete of rows stays within the frame. -/
theorem frame_deleteFs (sel : Str → Bool) : Keeps (SameFrame d₀) (deleteFs (K := K) sel) := by
  refine keeps_frame_of fun d d' hf => ?_
  rw [deleteFs_ok (u := ()) (statement_of_ok hf)]
  exact ⟨rfl, rfl, rfl, rfl, rfl⟩

/-- A chunk that is stored and listed stays within the frame. -/
theorem frame_appendChunk (E : Ext K) (p : Str) (idx : ℕ) (piece : Bytes) :
    Triple (SameFrame d₀) (appendChunk E p idx piece) fun _ => SameFrame d₀ := by
  intro d v d' hI h
  obtain ⟨flag, hflag⟩ := blobEnsureWith_eq E .archive d piece
  unfold appendChunk blobEnsure at h
  rw [bind_of_ok hflag] at h
  obtain ⟨-, rfl⟩ := insertChunk_ok h
  refine hI.trans ?_
  unfold Db.withBlob
  split_ifs
  · exact ⟨rfl, rfl, rfl, rfl, rfl⟩
  · exact ⟨rfl, rfl, rfl, rfl, rfl⟩

/-- The loop over the chunks of a stream stays within the frame. -/
theorem frame_putStreamChunks (E : Ext K) (p : Str) : ∀ (fuel idx : ℕ) (src : Reader),
    Triple (SameFrame d₀) (putStreamChunks E p fuel idx src) fun _ => SameFrame d₀
  | 0, _, _ => Triple.pure fun _ h => h
  | fuel + 1, idx, src => by
    rw [putStreamChunks]
    refine Triple.bind (q := fun _ => SameFrame d₀) (Triple.query fun _ _ h _ => h) ?_
    rintro ⟨piece, rest⟩
    dsimp only
    split_ifs
    · exact Triple.pure fun _ h => h
    · exact Triple.bind (frame_appendChunk E p idx piece) fun _ => Triple.pure fun _ h => h
    · refine Triple.bind (frame_appendChunk E p idx piece) fun _ => ?_
      exact Triple.bind (frame_putStreamChunks E p fuel (idx + 1) rest) fun _ =>
        Triple.pure fun _ h => h

/-- `fs_put_node` stays within the frame. -/
theorem frame_fsPutNode (p : Str) (kind : Kind) (mode mtime : ℤ) (link : Option Str) :
    Keeps (SameFrame d₀) (fsPutNode p kind mode mtime link) :=
  Keeps.saved (Keeps.bind (frame_deleteChunks _) fun _ => frame_upsertFs p _ _)

/-- `write_file_checked` stays within the frame, whatever the file does meanwhile. -/
theorem frame_writeFileChecked (E : Ext K) (p : Str) (mode mtime ns : ℤ) (src : Reader) :
    Keeps (SameFrame d₀) (writeFileChecked E p mode mtime ns src) := by
  unfold writeFileChecked fsPutFileStreamNs
  refine Keeps.bind (Keeps.inSavepoint ?_) fun _ => ?_
  · refine Triple.bind (Keeps.triple (frame_deleteChunks _)) fun _ => ?_
    refine Triple.bind (frame_putStreamChunks E p _ _ _) fun _ => ?_
    exact Triple.bind (Keeps.triple (frame_upsertFs p _ _)) fun _ => Triple.pure fun _ h => h
  · split_ifs
    · exact frame_updateFs p _
    · exact Keeps.pure _

/-! ## The undo record of a sync -/

/-- The record of the sync is there, and has chunks only for its entries. -/
def SyncCtx.Recording (ctx : SyncCtx) (d : Db K) : Prop := ∀ id, ctx.undo = some id →
  d.undo.has id = true ∧ ∀ p i, d.undoFs.get? (id, p) = none → d.undoChunks.get? (id, p, i) = none

omit [DecidableEq K] in
/-- A sync that records goes on recording as long as the frame is the same. -/
theorem SyncCtx.Recording.frame (h : ctx.Recording d) (hd : SameFrame d d') : ctx.Recording d' := by
  intro id hid
  rw [hd.undo, hd.undoFs, hd.undoChunks]
  exact h id hid

/-- The rules are the same. -/
def SameRules (d₀ d : Db K) : Prop := d.policies = d₀.policies ∧ d.bypass = d₀.bypass

omit [DecidableEq K] in
/-- Policies that are the same refuse the same paths. -/
theorem SameRules.refusesPath (h : SameRules d d') (p : Str) :
    d'.refusesPath p = d.refusesPath p := by
  rw [Db.refusesPath, Db.refusesPath, h.1, h.2]

omit [DecidableEq K] in
/-- What stays within the frame leaves the policies alone. -/
theorem SameFrame.rules (h : SameFrame d d') : SameRules d d' := ⟨h.policies, h.bypass⟩

omit [DecidableEq K] in
/-- Two changes that leave the policies alone leave them alone together. -/
theorem SameRules.trans (h : SameRules d d₁) (h' : SameRules d₁ d₂) : SameRules d d₂ :=
  ⟨h'.1.trans h.1, h'.2.trans h.2⟩

/-- The copy of a chunk list into an undo record leaves the policies alone. -/
theorem rules_copyUndoChunks (id : ℕ) (p : Str) :
    Keeps (SameRules d₀) (copyUndoChunks (K := K) id p) := by
  refine Keeps.statement fun d d' h hx => foldlM_inv (I := SameRules d₀) ?_ h hx
  intro r _ s s' hs hins
  unfold Db.insertUndoChunk? at hins
  split_ifs at hins
  cases hins
  exact hs

omit [DecidableEq K] in
/-- An entry of an undo record leaves the policies alone. -/
theorem rules_insertUndoFs (id : ℕ) (p : Str) (m : Option (FsMeta K)) :
    Keeps (SameRules d₀) (insertUndoFs id p m) := by
  refine Keeps.statement fun d d' h hx => ?_
  split_ifs at hx
  cases hx
  exact h

/-- `undo_capture` leaves the policies alone. -/
theorem rules_undoCapture (id : ℕ) (p : Str) :
    Keeps (SameRules d₀) (undoCapture (K := K) id p) := by
  refine Keeps.bind (Keeps.reads _) fun seen => ?_
  split_ifs
  · exact Keeps.pure _
  · refine Keeps.bind (Keeps.reads _) fun row => ?_
    cases row with
    | none => exact rules_insertUndoFs id p none
    | some r => exact Keeps.bind (rules_insertUndoFs id p _) fun _ => rules_copyUndoChunks id p

/-- A row can always be recorded. -/
theorem SyncCtx.Recording.capture (h : ctx.Recording d) (p : Str) :
    ∃ d', ctx.capture p d = .ok () d' ∧
    ctx.Recording d' ∧ SameRules d d' ∧ d'.fs = d.fs := by
  unfold SyncCtx.capture
  rcases hid : ctx.undo with _ | id
  · exact ⟨d, rfl, h, ⟨rfl, rfl⟩, rfl⟩
  obtain ⟨hthere, hchunks⟩ := h id hid
  -- The path is captured the first time; after that the capture changes nothing.
  by_cases hseen : d.undoFs.get? (id, p) = none
  · obtain ⟨d', hok, hcap⟩ := undoCapture_new hthere hseen (hchunks p · hseen)
    have hrules : SameRules d d' := (rules_undoCapture id p).triple d () d' ⟨rfl, rfl⟩ hok
    refine ⟨d', hok, fun id' hid' => ?_, hrules, hcap.fs⟩
    rw [hid] at hid'
    obtain rfl := Option.some.inj hid'
    rw [hcap.undo]
    refine ⟨hthere, fun q i hq => ?_⟩
    rw [hcap.entry] at hq
    split_ifs at hq with hqp
    refine Option.eq_none_iff_forall_ne_some.2 fun k hk => ?_
    rcases (hcap.chunks _ k).1 hk with hold | ⟨j, hj, -, -⟩
    · rw [hchunks q i hq] at hold
      cases hold
    · exact hqp (by rw [(Prod.mk.inj (Prod.mk.inj hj).2).1])
  · have hhas : d.undoFs.has (id, p) = true := by
      rw [Table.has_eq_true]
      exact Option.ne_none_iff_exists'.1 hseen
    refine ⟨d, ?_, h, ⟨rfl, rfl⟩, rfl⟩
    show undoCapture id p d = .ok () d
    unfold undoCapture
    rw [reads_bind, hhas]
    rfl

/-! ## One entry -/

/-- One entry was brought in line with the row at `p`: it was, or it was refused. -/
structure SyncStep (ctx : SyncCtx) (p : Str) (node : Node) (d d' : Db K) : Prop where
  /-- The undo record. -/
  recording : ctx.Recording d'
  /-- The rules. -/
  rules : SameRules d d'
  /-- The other rows. -/
  rows : ∀ q, q ≠ p → d'.fs.get? q = d.fs.get? q
  /-- The row. -/
  kind : d'.kindAt p = d.kindAt p ∨ ∃ k, nodeKind node = some k ∧ d'.kindAt p = some k
  /-- A directory or a link is refused for a read-only prefix only. -/
  taken : ∀ k, nodeKind node = some k → k ≠ .file → d.refusesPath p = false → d'.kindAt p = some k
  /-- Below a read-only prefix nothing changes. -/
  refused : d.refusesPath p = true → d'.kindAt p = d.kindAt p

omit [DecidableEq K] in
/-- Nothing is written, and nothing had to be. -/
theorem SyncStep.stays {node : Node} (h : ctx.Recording d') (hrules : SameRules d d')
    (hfs : d'.fs = d.fs)
    (hkind : ∀ k, nodeKind node = some k → k ≠ .file → d.refusesPath p = false →
      d.kindAt p = some k) :
    SyncStep ctx p node d d' := by
  have hsame : d'.kindAt = d.kindAt := by
    funext q
    exact Db.kindAt_congr (by rw [hfs])
  exact ⟨h, hrules, fun q _ => by rw [hfs], Or.inl (by rw [hsame]),
    fun k hk hne hp => by rw [hsame, hkind k hk hne hp], fun _ => by rw [hsame]⟩

omit [DecidableEq K] in
/-- A step after the row was recorded. -/
theorem SyncStep.after {node : Node} (hrules : SameRules d d₁) (hfs : d₁.fs = d.fs)
    (h : SyncStep ctx p node d₁ d') : SyncStep ctx p node d d' := by
  have hsame : d₁.kindAt = d.kindAt := by
    funext q
    exact Db.kindAt_congr (by rw [hfs])
  have href : d₁.refusesPath p = d.refusesPath p := hrules.refusesPath p
  refine ⟨h.recording, hrules.trans h.rules, fun q hq => ?_, ?_, fun k hk hne hp => ?_,
    fun hp => ?_⟩
  · rw [h.rows q hq, hfs]
  · rw [← hsame]
    exact h.kind
  · rw [← href] at hp
    exact h.taken k hk hne hp
  · rw [← href] at hp
    rw [h.refused hp, hsame]

/-- A directory or a link is written over whatever is there. -/
theorem syncStep_fsPutNode {node : Node} {kind : Kind} (hnode : nodeKind node = some kind)
    (hkind : kind ≠ .file) (mode mtime : ℤ) (link : Option Str) (h : ctx.Recording d) :
    SyncStep ctx p node d (endState (fsPutNode p kind mode mtime link) d) := by
  have hframe : SameFrame d (endState (fsPutNode p kind mode mtime link) d) :=
    frame_fsPutNode p kind mode mtime link d (SameFrame.refl d)
  cases href : d.refusesPath p with
  | true =>
    have hsame : endState (fsPutNode p kind mode mtime link) d = d := by
      refine Atomic.endState (Q := fun s => s = d) (Atomic.savepoint _) rfl fun a s hx => ?_
      exact absurd hx (fsPutNode_refused mode mtime link href)
    rw [hsame]
    exact SyncStep.stays h ⟨rfl, rfl⟩ rfl fun k _ _ hp => by rw [href] at hp; cases hp
  | false =>
    obtain ⟨d', hok⟩ := fsPutNode_taken hkind mode mtime link href
    rw [endState_of_ok hok] at hframe ⊢
    have hput := (fsPutNode_ok hok).1
    obtain ⟨row, hrow, hk, -⟩ := hput.row
    have hat : d'.kindAt p = some kind := by
      rw [Db.kindAt_of_get? hrow, hk]
    refine ⟨h.frame hframe, hframe.rules, hput.fs,
      Or.inr ⟨kind, hnode, hat⟩, fun k hk' _ _ => ?_, fun hp => ?_⟩
    · rw [hat]
      rw [hnode] at hk'
      exact hk'
    · rw [href] at hp
      cases hp

omit [DecidableEq K] in
/-- An update that keeps kinds keeps the kind of every path. -/
theorem kindAt_setFs {f : FsRow K → FsRow K} (hf : ∀ row, (f row).kind = row.kind) :
    (d.setFs p f).kindAt = d.kindAt := by
  funext q
  unfold Db.kindAt
  rw [Db.get?_setFs]
  split_ifs with hq
  · rw [hq, Option.map_map]
    exact congrArg (Option.map · _) (funext hf)
  · rfl

omit [DecidableEq K] in
/-- The mode, the time or the target of a row changes. -/
theorem syncStep_updateFs {node : Node} {f : FsRow K → FsRow K}
    (hf : ∀ row, (f row).kind = row.kind)
    (hnode : ∀ k, nodeKind node = some k → d.kindAt p = some k) (h : ctx.Recording d) :
    SyncStep ctx p node d (endState (updateFs p f) d) := by
  have hframe : SameFrame d (endState (updateFs p f) d) := frame_updateFs p f d (SameFrame.refl d)
  have hkeeps : Keeps (fun s : Db K => s.kindAt = d.kindAt ∧ ∀ q, q ≠ p → s.fs.get? q = d.fs.get? q)
      (updateFs p f) := by
    refine Keeps.statement fun s s' hs hx => ?_
    rcases updateFs_ok (u := ()) (statement_of_ok hx) with ⟨-, rfl⟩ | ⟨_, -, rfl⟩
    · exact hs
    · refine ⟨(kindAt_setFs hf).trans hs.1, fun q hq => ?_⟩
      rw [Db.get?_setFs, if_neg hq, hs.2 q hq]
  obtain ⟨hsame, hrows⟩ := hkeeps d ⟨rfl, fun _ _ => rfl⟩
  refine ⟨h.frame hframe, hframe.rules, hrows, Or.inl (by rw [hsame]), fun k hk _ _ => ?_,
    fun _ => by rw [hsame]⟩
  rw [hsame]
  exact hnode k hk

/-- Writing a file gives its path a file, or is refused and changes no kind. -/
theorem syncStep_writeFileChecked {node : Node} (E : Ext K) (hnode : nodeKind node = some .file)
    (mode mtime ns : ℤ) (data : Bytes) (h : ctx.Recording d) :
    SyncStep ctx p node d (endState (writeFileChecked E p mode mtime ns [.got data]) d) := by
  have hframe : SameFrame d (endState (writeFileChecked E p mode mtime ns [.got data]) d) :=
    frame_writeFileChecked E p mode mtime ns _ d (SameFrame.refl d)
  have hnot : ∀ k, nodeKind node = some k → k ≠ .file → False := by
    intro k hk hne
    rw [hnode] at hk
    exact hne (Option.some.inj hk).symm
  cases href : d.refusesFs p (fileRow E mode mtime ns data).toFsMeta with
  | true =>
    obtain ⟨e, herr⟩ := writeFileChecked_refused mode mtime ns data href
    have hsame : endState (writeFileChecked E p mode mtime ns [.got data]) d = d := by
      rw [endState, herr]
    rw [hsame]
    exact SyncStep.stays h ⟨rfl, rfl⟩ rfl fun k hk hne _ => (hnot k hk hne).elim
  | false =>
    obtain ⟨d', hok, hrow, hother, -⟩ := writeFileChecked_taken mode mtime ns data href
    rw [endState_of_ok hok] at hframe ⊢
    refine ⟨h.frame hframe, hframe.rules, hother,
      Or.inr ⟨.file, hnode, Db.kindAt_of_get? hrow⟩, fun k hk hne _ => (hnot k hk hne).elim,
      fun hp => ?_⟩
    rw [Db.refusesFs_of_path hp] at href
    cases href

/-- The write comes after the capture. -/
theorem SyncStep.captured {α : Type} {node : Node} {x : Sql K Unit} (b : α) (h : ctx.Recording d)
    (hx : ∀ d₁, ctx.Recording d₁ → d₁.fs = d.fs → SyncStep ctx p node d₁ (endState x d₁)) :
    SyncStep ctx p node d (endState (ctx.capture p >>= fun _ => x >>= fun _ => pure b) d) := by
  obtain ⟨d₁, hok, hrec, hrules, hfs⟩ := h.capture p
  have hend : endState (ctx.capture p >>= fun _ => x >>= fun _ => pure b) d = endState x d₁ := by
    rw [endState, bind_of_ok hok, endState]
    rcases hres : x d₁ with ⟨_, s⟩ | ⟨e, s⟩
    · rw [bind_of_ok hres]
      rfl
    · rw [bind_of_error hres]
  rw [hend]
  exact (hx d₁ hrec hfs).after hrules hfs

omit [DecidableEq K] in
/-- A step that opens the file first is the step on what the reader has got. -/
theorem SyncStep.opened {α : Type} {node : Node} {data : Bytes} {readable : Bool}
    {g : Reader → Sql K α} (h : ctx.Recording d) (hnode : nodeKind node = some .file)
    (hg : SyncStep ctx p node d (endState (g [.got data]) d)) :
    SyncStep ctx p node d (endState (Prog.query (fun _ => openFile data readable) >>= g) d) := by
  refine endState_query_bind (SyncStep.stays h ⟨rfl, rfl⟩ rfl fun k hk hne _ => ?_) fun src hsrc =>
    ?_
  · rw [hnode] at hk
    exact absurd (Option.some.inj hk).symm hne
  · unfold openFile at hsrc
    split_ifs at hsrc
    cases hsrc
    exact hg

/-- One entry, compared with the row it has. -/
theorem syncStep_syncOne (E : Ext K) (h : ctx.Recording d) (node : Node) :
    SyncStep ctx p node d
      (endState (syncOne E ctx node p ((d.fs.get? p).map fun r => r.toFsMeta)) d) := by
  have hstay : nodeKind node ≠ none → d.kindAt p = nodeKind node → SyncStep ctx p node d d := by
    intro _ hkind
    refine SyncStep.stays h ⟨rfl, rfl⟩ rfl fun k hk _ _ => ?_
    rw [hkind, hk]
  have hput : ∀ kind mode mtime link (b : Bool), nodeKind node = some kind → kind ≠ .file →
      SyncStep ctx p node d (endState (ctx.capture p >>= fun _ =>
        fsPutNode p kind mode mtime link >>= fun _ => pure (some b))
        d) := fun kind mode mtime link b hnode hkind =>
    SyncStep.captured _ h fun d₁ hrec _ => syncStep_fsPutNode hnode hkind mode mtime link hrec
  have hkindAt : ∀ row, d.fs.get? p = some row → d.kindAt p = some row.kind :=
    fun row hrow => Db.kindAt_of_get? hrow
  have hup : ∀ row f (b : Bool), d.fs.get? p = some row → nodeKind node = some row.kind →
      (∀ r : FsRow K, (f r).kind = r.kind) →
        SyncStep ctx p node d (endState (ctx.capture p >>= fun _ =>
        updateFs p f >>= fun _ => pure (some b)) d) := by
    intro row f b hrow hnode hf
    refine SyncStep.captured _ h fun d₁ hrec hfs => syncStep_updateFs hf (fun k hk => ?_) hrec
    rw [hnode] at hk
    have hat : d₁.kindAt p = some row.kind := Db.kindAt_of_get? (by rw [hfs, hrow])
    rw [hat]
    exact hk
  rcases hrow : d.fs.get? p with _ | row
  · cases node with
    | file data mode ns readable =>
      refine SyncStep.opened h rfl ?_
      exact SyncStep.captured _ h fun d₁ hrec _ => syncStep_writeFileChecked E rfl _ _ _ _ hrec
    | dir mode listable => exact hput _ _ _ _ _ rfl (by decide)
    | link t => exact hput _ _ _ _ _ rfl (by decide)
    | special mode => exact SyncStep.stays h ⟨rfl, rfl⟩ rfl fun k hk => by cases hk
  · cases node with
    | file data mode ns readable =>
      unfold syncOne
      dsimp only [Option.map_some]
      -- What is done once it is known whether the row is current.
      have hrest : row.kind = .file → ∀ current : Bool,
        SyncStep ctx p (.file data mode ns readable) d
          (endState (if current = true then pure none else do
            let src ← Prog.query fun _ => openFile data readable
            ctx.capture p
            writeFileChecked E p (hostMode (.file data mode ns readable)) (hostMtime ns ctx.now)
              (hostMtimeNs ns) src
            pure (some true)) d) := by
        intro hkind current
        split_ifs
        · exact hstay (by simp [nodeKind]) (by rw [hkindAt row hrow]; exact congrArg some hkind)
        · refine SyncStep.opened h rfl ?_
          exact SyncStep.captured _ h fun d₁ hrec _ => syncStep_writeFileChecked E rfl _ _ _ _ hrec
      split_ifs with hkind hverify
      · refine endState_bind (fun e s hx => by cases hx) fun stored s hx => ?_
        cases hx
        refine endState_query_bind (hrest hkind true) fun src _ => ?_
        exact hrest hkind _
      · exact hrest hkind _
      · -- The row is recorded before the file is opened.
        obtain ⟨d₁, hok, hrec, hrules, hfs⟩ := h.capture p
        rw [endState, bind_of_ok hok]
        refine SyncStep.after hrules hfs (SyncStep.opened hrec rfl ?_)
        have hone : SyncStep ctx p (.file data mode ns readable) d₁ (endState (writeFileChecked E p
            (hostMode (.file data mode ns readable)) (hostMtime ns ctx.now) (hostMtimeNs ns)
            [.got data]) d₁) :=
          syncStep_writeFileChecked E rfl _ _ _ data hrec
        refine endState_bind (fun e s hx => ?_) fun a s hx => ?_
        · rw [endState, hx] at hone
          exact hone
        · rw [endState, hx] at hone
          exact hone
    | dir mode listable =>
      unfold syncOne
      dsimp only [Option.map_some]
      split_ifs with hkind hmode
      · exact hstay (by simp [nodeKind]) (by rw [hkindAt row hrow]; exact congrArg some hkind)
      · exact hup row _ true hrow (by exact congrArg some hkind.symm) fun r => rfl
      · exact hput _ _ _ _ _ rfl (by decide)
    | link t =>
      unfold syncOne
      dsimp only [Option.map_some]
      split_ifs with hkind hsame
      · exact hstay (by simp [nodeKind]) (by rw [hkindAt row hrow]; exact congrArg some hkind)
      · exact hup row _ true hrow (by exact congrArg some hkind.symm) fun r => rfl
      · exact hput _ _ _ _ _ rfl (by decide)
    | special mode => exact SyncStep.stays h ⟨rfl, rfl⟩ rfl fun k hk => by cases hk

/-! ## The walk -/

/-- The entries a walk compares with rows. -/
def targets (fs : Fs) (tree : Loc) (aliases : List (Str × Str)) : List (Str × Node) :=
  (walk fs tree).filterMap (syncTarget tree aliases)

/-- The entries `done` have been brought in line. -/
structure SyncedKinds (ctx : SyncCtx) (d : Db K) (done : List (Str × Node)) (d' : Db K) : Prop where
  /-- The undo record. -/
  recording : ctx.Recording d'
  /-- The rules. -/
  rules : SameRules d d'
  /-- The other rows. -/
  rows : ∀ q, q ∉ done.map Prod.fst → d'.fs.get? q = d.fs.get? q
  /-- The rows. -/
  kind : ∀ r ∈ done, d'.kindAt r.1 = d.kindAt r.1 ∨ ∃ k, nodeKind r.2 = some k ∧
    d'.kindAt r.1 = some k
  /-- Directories and links. -/
  taken : ∀ r ∈ done, ∀ k, nodeKind r.2 = some k → k ≠ .file → d.refusesPath r.1 = false →
    d'.kindAt r.1 = some k
  /-- Below a read-only prefix. -/
  refused : ∀ q, d.refusesPath q = true → d'.kindAt q = d.kindAt q

omit [DecidableEq K] in
/-- Nothing is synced yet: every path has its kind. -/
theorem SyncedKinds.refl (h : ctx.Recording d) : SyncedKinds ctx d [] d where
  recording := h
  rules := ⟨rfl, rfl⟩
  rows _ _ := rfl
  kind r hr := by cases hr
  taken r hr := by cases hr
  refused _ _ := rfl

omit [DecidableEq K] in
/-- One more entry gives its path the kind of its node. -/
theorem SyncedKinds.step {done : List (Str × Node)} {node : Node} (h : SyncedKinds ctx d done d₁)
    (hp : p ∉ done.map Prod.fst) (hstep : SyncStep ctx p node d₁ d₂) :
    SyncedKinds ctx d (done ++ [(p, node)]) d₂ := by
  -- The path was not met before, so the kinds that the walk has put so far stay.
  have hne : ∀ r ∈ done, r.1 ≠ p := by
    rintro r hr rfl
    exact hp (List.mem_map.2 ⟨r, hr, rfl⟩)
  have hold : d₁.kindAt p = d.kindAt p := Db.kindAt_congr (h.rows p hp)
  have href : d₁.refusesPath p = d.refusesPath p := h.rules.refusesPath p
  refine ⟨hstep.recording, h.rules.trans hstep.rules, fun q hq => ?_, fun r hr => ?_,
    fun r hr k hk hkind hpath => ?_,
    fun q hq => ?_⟩
  · rw [List.map_append, List.mem_append, not_or] at hq
    rw [hstep.rows q (by simpa using hq.2), h.rows q hq.1]
  · rcases List.mem_append.1 hr with hr | hr
    · rw [Db.kindAt_congr (hstep.rows r.1 (hne r hr))]
      exact h.kind r hr
    · rw [List.mem_singleton.1 hr, ← hold]
      exact hstep.kind
  · rcases List.mem_append.1 hr with hr | hr
    · rw [Db.kindAt_congr (hstep.rows r.1 (hne r hr))]
      exact h.taken r hr k hk hkind hpath
    · rw [List.mem_singleton.1 hr] at hk hpath ⊢
      exact hstep.taken k hk hkind (href.trans hpath)
  · by_cases hqp : q = p
    · rw [hqp] at hq ⊢
      rw [hstep.refused (href.trans hq), hold]
    · rw [Db.kindAt_congr (hstep.rows q hqp)]
      exact h.refused q hq

/-- The walk, if it compares no path twice. -/
theorem SyncedKinds.walk (E : Ext K) :
    ∀ (es : List (Option (Loc × Node))) {done : List (Str × Node)}
    {seen : List Str} {rep : SyncReport} {d₁ : Db K}, SyncedKinds ctx d done d₁ →
      ((done ++ es.filterMap (syncTarget tree aliases)).map Prod.fst).Nodup →
      ∃ st d₂, es.foldlM (syncEntry E ctx tree d.fs aliases) (seen, rep) d₁ = .ok st d₂ ∧
        st.1 = es.foldl (seenStep tree aliases) seen ∧
        SyncedKinds ctx d (done ++ es.filterMap (syncTarget tree aliases)) d₂
  | [], done, seen, rep, d₁, h, _ => by
    refine ⟨_, d₁, rfl, rfl, ?_⟩
    rw [List.filterMap_nil, List.append_nil]
    exact h
  | e :: es, done, seen, rep, d₁, h, hnodup => by
    rw [List.foldlM_cons, List.foldl_cons]
    -- By induction on the entries: one that is not taken changes nothing, one that is taken gives
    -- its path a kind.
    rcases htarget : syncTarget tree aliases e with _ | ⟨p, node⟩
    · rw [bind_of_ok (syncEntry_of_none htarget d₁)]
      rw [List.filterMap_cons, htarget] at hnodup ⊢
      exact SyncedKinds.walk E es h hnodup
    · rw [List.filterMap_cons, htarget] at hnodup ⊢
      dsimp only at hnodup ⊢
      have hsplit : ∀ l, done ++ (p, node) :: l = done ++ [(p, node)] ++ l := fun l => by simp
      rw [hsplit] at hnodup ⊢
      have hp : p ∉ done.map Prod.fst := by
        rw [List.map_append, List.map_append, List.append_assoc] at hnodup
        exact fun hp => List.disjoint_of_nodup_append hnodup hp (by simp)
      have hone := syncStep_syncOne (p := p) E h.recording node
      rw [h.rows p hp] at hone
      have hrun := syncEntry_of_some E ctx d.fs seen rep htarget
      have hnext := h.step hp hone
      rcases hres : syncOne E ctx node p ((d.fs.get? p).map fun r => r.toFsMeta) d₁ with ⟨res,
        d₂⟩ | ⟨err, d₂⟩
      · rw [endState_of_ok hres] at hnext
        have hentry : syncEntry E ctx tree d.fs aliases (seen, rep) e d₁ =
            .ok (seenStep tree aliases seen e, rep.count p (.ok res)) d₂ := by
          rw [hrun, bind_of_ok (attempt_of_ok hres)]
          rfl
        rw [bind_of_ok hentry]
        exact SyncedKinds.walk E es hnext hnodup
      · rw [endState, hres] at hnext
        have hentry : syncEntry E ctx tree d.fs aliases (seen, rep) e d₁ =
            .ok (seenStep tree aliases seen e, rep.count p (.error err)) d₂ := by
          rw [hrun, bind_of_ok (attempt_of_error hres)]
          rfl
        rw [bind_of_ok hentry]
        exact SyncedKinds.walk E es hnext hnodup

/-! ## The deletions -/

/-- A deletion fails for a read-only row. -/
theorem deleteFs_error {sel : Str → Bool} {e : Err} (h : deleteFs sel d = .error e d') :
    ∃ q, sel q = true ∧ d.refusesPath q = true := by
  by_cases hany : ((d.fs.select fun p _ => sel p).any fun r => d.refusesPath r.1) = true
  · obtain ⟨r, hr, href⟩ := List.any_eq_true.1 hany
    exact ⟨r.1, (List.mem_filter.1 hr).2, href⟩
  · have hok : deleteFs sel d = .ok () (d.delFs sel) := statement_of_ok (if_neg hany)
    rw [hok] at h
    cases h

/-- The deletions stop at the first row that is read-only. -/
theorem syncDeletes_until : ∀ (l : List Str) (rep : SyncReport) {d : Db K}, ctx.Recording d →
    ∃ done rest, l = done ++ rest ∧ (rest = [] ∨ ∃ q ∈ rest, d.refusesPath q = true) ∧
      ∀ q, (endState (l.foldlM (syncDelete ctx) rep) d).fs.get? q = if q ∈ done then none
      else d.fs.get? q
  | [], _, d, _ => ⟨[], [], rfl, Or.inl rfl, fun q => by rw [if_neg (by simp)]; rfl⟩
  | p :: l, rep, d, h => by
    obtain ⟨d₁, hcap, hrec, hrules, hfs⟩ := h.capture p
    have hrun : ∀ rep, syncDelete ctx rep p d = (deleteFs (fun q => q = p) >>= fun _ =>
        (pure (if d₁.fs.has p = true then { rep with deleted := rep.deleted + 1 } else rep) :
          Sql K SyncReport)) d₁ := by
      intro rep
      unfold syncDelete
      rw [bind_of_ok hcap, reads_bind]
    -- By induction on the rows: the loop deletes them in order and stops at the first one that a
    -- policy protects.
    rcases hdel : deleteFs (fun q => q = p) d₁ with ⟨_, d₂⟩ | ⟨e, d₂⟩
    · have hd₂ : d₂ = d₁.delFs fun q => q = p := deleteFs_ok hdel
      have hrec₂ : ctx.Recording d₂ :=
        hrec.frame ((frame_deleteFs (fun q => q = p)).triple d₁ () d₂ (SameFrame.refl d₁) hdel)
      have href : ∀ q, d₂.refusesPath q = d.refusesPath q := by
        intro q
        rw [((frame_deleteFs (fun q => q = p)).triple d₁ () d₂ (SameFrame.refl d₁)
          hdel).refusesPath,
          hrules.refusesPath]
      have hone := (hrun rep).trans (bind_of_ok hdel)
      obtain ⟨done, rest, hl, hrest, hrows⟩ := syncDeletes_until l
        (if d₁.fs.has p = true then { rep with deleted := rep.deleted + 1 } else rep) hrec₂
      refine ⟨p :: done, rest, by rw [hl]; rfl, ?_, fun q => ?_⟩
      · rcases hrest with hnil | ⟨q, hq, hqref⟩
        · exact Or.inl hnil
        · exact Or.inr ⟨q, hq, by rw [← href, hqref]⟩
      · rw [List.foldlM_cons, endState, bind_of_ok hone]
        have hq := hrows q
        rw [endState] at hq
        rw [hq, hd₂, Db.get?_delFs, hfs]
        by_cases hqd : q ∈ done
        · rw [if_pos hqd, if_pos (List.mem_cons_of_mem p hqd)]
        · rw [if_neg hqd]
          by_cases hqp : q = p
          · rw [if_pos (by simpa using hqp), if_pos (by simp [hqp])]
          · rw [if_neg (by simpa using hqp), if_neg (by simp [hqp, hqd])]
    · obtain ⟨q, hq, href⟩ := deleteFs_error hdel
      have hqp : q = p := by simpa using hq
      refine ⟨[], p :: l, rfl, Or.inr ⟨p, List.mem_cons_self, ?_⟩, fun q => ?_⟩
      · rw [← hrules.refusesPath, ← hqp, href]
      · rw [List.foldlM_cons, endState, bind_of_error ((hrun rep).trans (bind_of_error hdel)),
          if_neg (by simp)]
        show d₂.fs.get? q = d.fs.get? q
        rw [statement_error hdel, hfs]

/-! ## What is below a path -/

/-- What lies below a path continues it with a slash. -/
theorem exists_of_below (h : Below p q) : ∃ c, q = p ++ '/' :: c := by
  obtain ⟨c, rfl⟩ := h
  exact ⟨c, by rw [List.append_assoc, List.singleton_append]⟩

/-- What lies below a path is longer. -/
theorem utf8Len_lt (h : Below p q) : utf8Len p < utf8Len q := by
  obtain ⟨c, rfl⟩ := exists_of_below h
  have hslash : '/'.utf8Size = 1 := rfl
  unfold utf8Len
  rw [List.map_append, List.sum_append, List.map_cons, List.sum_cons, hslash]
  omega

omit [DecidableEq K] in
/-- A policy that protects a path protects what lies below it. -/
theorem Db.refusesPath_below (h : Below p q) (hp : d.refusesPath p = true) :
    d.refusesPath q = true := by
  obtain ⟨c, rfl⟩ := exists_of_below h
  unfold Db.refusesPath at hp ⊢
  rw [Bool.and_eq_true] at hp ⊢
  exact ⟨hp.1, Rule.protects_below hp.2 c⟩

/-- A pattern without a NUL that matches a path matches what is below the path. -/
theorem like_below {pat : Str} (hpat : '\x00' ∉ pat) (h : Below p q)
    (hp : like (pat ++ ['%']) p = true) : like (pat ++ ['%']) q = true := by
  obtain ⟨c, rfl⟩ := exists_of_below h
  exact like_append hpat hp _

/-- The directories whose content is reserved. -/
def reservedDirs : List Str :=
  ["/dev".toList, "/proc".toList, "/sys".toList, "/tmp".toList, "/.selfdb".toList,
    "/opt/piagent".toList]

/-- The reserved paths: the root, the reserved directories with all below them, and what has
`/__pycache__` in it. -/
theorem isReservedVmPath_iff {s : Str} : isReservedVmPath s = true ↔ s = root ∨
    (∃ dir ∈ reservedDirs, s = dir ∨ Below dir s) ∨ hasInfix "/__pycache__".toList s = true := by
  have hdir : ∀ dir : Str, Below dir s ↔ (dir ++ ['/']).isPrefixOf s = true := fun dir =>
    List.isPrefixOf_iff_prefix.symm
  have hany : (∃ dir ∈ reservedDirs, s = dir ∨ Below dir s) ↔
      (reservedDirs.any fun dir => decide (s = dir) || (dir ++ ['/']).isPrefixOf s) = true := by
    simp only [List.any_eq_true, Bool.or_eq_true, decide_eq_true_iff, hdir]
  have hsplit : isReservedVmPath s = (decide (s = root) ||
      ((reservedDirs.any fun dir => decide (s = dir) || (dir ++ ['/']).isPrefixOf s) ||
        hasInfix "/__pycache__".toList s)) := by
    show isReservedVmPath s = (decide (s = root) ||
      ((decide (s = "/dev".toList) || "/dev/".toList.isPrefixOf s ||
        (decide (s = "/proc".toList) || "/proc/".toList.isPrefixOf s ||
        (decide (s = "/sys".toList) || "/sys/".toList.isPrefixOf s ||
        (decide (s = "/tmp".toList) || "/tmp/".toList.isPrefixOf s ||
        (decide (s = "/.selfdb".toList) || "/.selfdb/".toList.isPrefixOf s ||
        (decide (s = "/opt/piagent".toList) || "/opt/piagent/".toList.isPrefixOf s || false)))))) ||
        hasInfix "/__pycache__".toList s))
    unfold isReservedVmPath
    rw [Bool.or_false]
    ac_rfl
  rw [hsplit, Bool.or_eq_true, Bool.or_eq_true, decide_eq_true_iff, hany]

/-- What is below a reserved path other than the root is reserved. -/
theorem reserved_below (h : Below p q) (hne : p ≠ root) (hp : isReservedVmPath p = true) :
    isReservedVmPath q = true := by
  rw [isReservedVmPath_iff] at hp ⊢
  rcases hp with hroot | ⟨dir, hdir, hat⟩ | hcache
  · exact absurd hroot hne
  · refine Or.inr (Or.inl ⟨dir, hdir, Or.inr ?_⟩)
    rcases hat with hat | hat
    · rwa [← hat]
    · exact hat.trans h
  · refine Or.inr (Or.inr ?_)
    obtain ⟨c, rfl⟩ := exists_of_below h
    unfold hasInfix at hcache ⊢
    obtain ⟨t, ht, hpre⟩ := List.any_eq_true.1 hcache
    obtain ⟨a, rfl⟩ := (List.mem_tails t p).1 ht
    refine List.any_eq_true.2 ⟨t ++ '/' :: c,
      (List.mem_tails _ _).2 ⟨a, (List.append_assoc a t _).symm⟩, ?_⟩
    exact List.isPrefixOf_iff_prefix.2
      ((List.isPrefixOf_iff_prefix.1 hpre).trans (List.prefix_append t _))

/-! ## A sync of the whole tree -/

/-- When a sync of the whole tree keeps the shape: the host's tree is one, no name changes when it
is normalised, and where a row is kept without being compared the row above it stays and does not
become a file. -/
structure Db.SyncFits (ctx : SyncCtx) (fs : Fs) (tree : Loc) (d : Db K) : Prop where
  /-- The host's names. -/
  host : HostTree fs
  /-- The host's entries are in directories. -/
  dirs : ∀ loc c node, fs.get? (loc ++ [c]) = some node → Loc.below tree loc = true →
    ∃ mode listable, fs.get? loc = some (.dir mode listable)
  /-- The paths of the entries. -/
  names : ∀ loc node, some (loc, node) ∈ walk fs tree → vmPathOf tree loc = hostPath tree loc
  /-- The undo record. -/
  recording : ctx.Recording d
  /-- The root. -/
  top : d.HoldsEntries root
  /-- Rows that are kept without being compared. -/
  kept : ∀ q, d.fs.has q = true → q ≠ root → q ∉ d.gone fs tree →
    (∀ node, (q, node) ∉ targets fs tree (linkAliases d.links)) → parentOf q ∉ d.gone fs tree ∧
      ∀ node, (parentOf q, node) ∈ targets fs tree (linkAliases d.links) →
      nodeKind node ≠ some .file
  /-- The deletions are not cut short, or need not be made. -/
  deleted : (∀ q ∈ d.gone fs tree, d.refusesPath q = false) ∨
    ∀ q ∈ d.gone fs tree, ∀ node, (parentOf q, node) ∈ targets fs tree (linkAliases d.links) →
      nodeKind node ≠ some .file

/-- The path of an entry is that of its directory, a slash and its name. -/
theorem hostPath_concat (loc : Loc) (c : Name) (h : tree.length ≤ loc.length) :
    hostPath tree (loc ++ [c]) = hostPath tree loc ++ '/' :: c := by
  unfold hostPath
  rw [List.drop_append_of_le_length h, ofNames_append, ofNames_cons, ofNames_nil, List.append_nil]

/-- What a sync takes of an entry is its path in the guest and its node, when the path is not
reserved. -/
theorem eq_of_syncTarget {x : Loc × Node} {r : Str × Node}
    (h : syncTarget tree aliases (some x) = some r) :
    r = (vmPathOf tree x.1, x.2) ∧ isReservedVmPath r.1 = false := by
  obtain ⟨loc, node⟩ := x
  unfold syncTarget at h
  dsimp only at h ⊢
  split_ifs at h with hres
  have hr : r = (vmPathOf tree loc, node) := by
    rcases node with _ | _ | t | _
    · exact (Option.some.inj h).symm
    · exact (Option.some.inj h).symm
    · rcases hlook : aliases.lookup (vmPathOf tree loc) with _ | row
      · rw [hlook] at h
        exact (Option.some.inj h).symm
      · rw [hlook] at h
        cases h
    · exact (Option.some.inj h).symm
  refine ⟨hr, ?_⟩
  rw [hr]
  simpa using hres

/-- A target is what a sync takes of some entry of the walk. -/
theorem mem_targets {r : Str × Node} (h : r ∈ targets fs tree aliases) : ∃ loc,
    some (loc, r.2) ∈ walk fs tree ∧ r.1 = vmPathOf tree loc ∧ isReservedVmPath r.1 = false := by
  obtain ⟨e, he, htarget⟩ := List.mem_filterMap.1 h
  rcases e with _ | ⟨loc, node⟩
  · cases htarget
  obtain ⟨rfl, hres⟩ := eq_of_syncTarget htarget
  dsimp only at hres ⊢
  exact ⟨loc, he, rfl, hres⟩

/-- A directory that is walked is compared. -/
theorem mem_targets_dir {loc : Loc} {mode : ℕ} {listable : Bool}
    (h : some (loc, .dir mode listable) ∈ walk fs tree)
    (hres : isReservedVmPath (vmPathOf tree loc) = false) :
    (vmPathOf tree loc, .dir mode listable) ∈ targets fs tree aliases := by
  refine List.mem_filterMap.2 ⟨_, h, ?_⟩
  unfold syncTarget
  dsimp only
  rw [hres]
  rfl

omit [DecidableEq K] in
/-- No path is compared twice. -/
theorem Db.SyncFits.nodup (h : d.SyncFits ctx fs tree) :
    ((targets fs tree (linkAliases d.links)).map Prod.fst).Nodup := by
  unfold targets
  rw [List.Nodup, List.pairwise_map, List.pairwise_filterMap]
  refine (walk_pairwise fs tree).imp_of_mem fun {a b} ha hb hne r hr r' hr' he => ?_
  rcases a with _ | x
  · cases hr
  rcases b with _ | y
  · cases hr'
  obtain ⟨rfl, -⟩ := eq_of_syncTarget hr
  obtain ⟨rfl, -⟩ := eq_of_syncTarget hr'
  obtain ⟨hget, hbelow, -⟩ := mem_walk_iff.1 ha
  obtain ⟨hget', hbelow', -⟩ := mem_walk_iff.1 hb
  refine hne x y rfl rfl (hostPath_inj h.host hget hbelow hget' hbelow' ?_)
  rw [← h.names x.1 x.2 ha, ← h.names y.1 y.2 hb]
  dsimp only at he
  exact he

omit [DecidableEq K] in
/-- The row above the row of an entry: the root, or the row of a directory that is compared. -/
theorem Db.SyncFits.above (h : d.SyncFits ctx fs tree) {node : Node}
    (hp : (p, node) ∈ targets fs tree (linkAliases d.links)) : parentOf p = root ∨
      Below (parentOf p) p ∧ ∃ mode listable,
        (parentOf p, .dir mode listable) ∈ targets fs tree (linkAliases d.links) := by
  obtain ⟨loc, hwalk, hat, hres⟩ := mem_targets hp
  dsimp only at hwalk hat hres
  obtain ⟨hget, hbelow, -⟩ := mem_walk_iff.1 hwalk
  obtain ⟨ds, hds, rfl⟩ := Loc.below_iff.1 hbelow
  -- The last name of the entry.
  obtain ⟨cs, c, rfl⟩ : ∃ cs c, ds = cs ++ [c] :=
    ⟨ds.dropLast, ds.getLast hds, (List.dropLast_append_getLast hds).symm⟩
  have hname : IsName c := h.host.names _ node hget c (by simp)
  have hpath : p = hostPath tree (tree ++ cs) ++ '/' :: c := by
    rw [hat, h.names _ _ hwalk, ← List.append_assoc, hostPath_concat _ _ (by simp)]
  have hparent : parentOf (hostPath tree (tree ++ cs) ++ '/' :: c) =
      if hostPath tree (tree ++ cs) = [] then root else hostPath tree (tree ++ cs) :=
    parentOf_concat hname.no_slash hname.ne_nil
  rw [← hpath] at hparent
  by_cases hcs : cs = []
  · left
    rw [hparent, if_pos]
    rw [hcs, List.append_nil]
    unfold hostPath
    rw [List.drop_length, ofNames_nil]
  · right
    have hbelow' : Loc.below tree (tree ++ cs) = true := Loc.below_iff.2 ⟨cs, hcs, rfl⟩
    have hne : hostPath tree (tree ++ cs) ≠ [] := by
      unfold hostPath
      rw [List.drop_left, Ne, ofNames_eq_nil]
      exact hcs
    rw [if_neg hne] at hparent
    rw [← List.append_assoc] at hget hwalk
    obtain ⟨mode, listable, hdir⟩ := h.dirs (tree ++ cs) c node hget hbelow'
    have hup := mem_walk_up hwalk hdir hbelow'
    have hself : Below (parentOf p) p := by
      rw [hparent, hpath]
      exact ⟨c, by rw [List.append_assoc, List.singleton_append]⟩
    have hvm : vmPathOf tree (tree ++ cs) = parentOf p := by
      rw [h.names _ _ hup, hparent]
    have hnames : ∀ c' ∈ cs, IsName c' := fun c' hc' => h.host.names _ node hget c' (by simp [hc'])
    have hnotRoot : parentOf p ≠ root := by
      rw [hparent]
      unfold hostPath
      rw [List.drop_left]
      exact ofNames_ne_root hnames
    have hfree : isReservedVmPath (parentOf p) = false := by
      rw [← Bool.not_eq_true]
      intro hresUp
      have hresP := reserved_below hself hnotRoot hresUp
      rw [hres] at hresP
      cases hresP
    refine ⟨hself, mode, listable, ?_⟩
    rw [← hvm]
    exact mem_targets_dir hup (by rw [hvm, hfree])

omit [DecidableEq K] in
/-- A sync does not delete the root. -/
theorem root_notMem_gone (d : Db K) : root ∉ d.gone fs tree := by
  intro hmem
  have hres := (List.mem_filter.1 hmem).2
  rw [show isReservedVmPath root = true from rfl] at hres
  cases hres

omit [DecidableEq K] in
/-- The kinds after the walk and some of the deletions make a tree. -/
theorem Db.SyncFits.shaped (h : d.SyncFits ctx fs tree) (htree : d.TreeShaped) {del : List Str}
    (hwalk : SyncedKinds ctx d (targets fs tree (linkAliases d.links)) d₁)
    (hrows : ∀ q, d₂.fs.get? q = if q ∈ del then none else d₁.fs.get? q)
    (hdel : ∀ q ∈ del, q ∈ d.gone fs tree)
    (hclosed : ∀ q ∈ d.gone fs tree, q ≠ root → parentOf q ∈ del → q ∈ del)
    (hcut : (∀ q ∈ d.gone fs tree, q ∈ del) ∨ ∃ q ∈ d.gone fs tree, d.refusesPath q = true) :
    d₂.TreeShaped := by
  have hgone : ∀ q ∈ d.gone fs tree, ∀ node, (q, node) ∉ targets fs tree (linkAliases d.links) := by
    intro q hq node hnode
    have hseen := (List.mem_filter.1 hq).2
    rw [Bool.and_eq_true, decide_eq_true_iff] at hseen
    obtain ⟨e, he, htarget⟩ := List.mem_filterMap.1 hnode
    exact hseen.2 ((mem_foldl_seenStep _).2 (Or.inr ⟨e, he, mem_seenStep_of_target htarget⟩))
  have hdeleted : ∀ q ∈ del, d₂.kindAt q = none := by
    intro q hq
    rw [Db.kindAt, hrows, if_pos hq]
    rfl
  have hstays : ∀ q, q ∉ del → d₂.kindAt q = d₁.kindAt q := by
    intro q hq
    exact Db.kindAt_congr (by rw [hrows, if_neg hq])
  -- A path that is neither compared nor deleted has its old kind.
  have hold : ∀ q, q ∉ del → (∀ node, (q, node) ∉ targets fs tree (linkAliases d.links)) →
      d₂.kindAt q = d.kindAt q := by
    intro q hq hnot
    rw [hstays q hq]
    refine Db.kindAt_congr (hwalk.rows q fun hmem => ?_)
    obtain ⟨r, hr, rfl⟩ := List.mem_map.1 hmem
    exact hnot r.2 hr
  -- What carried something carries it, if it stays and does not become a file.
  have hcarries : ∀ q, q ∉ del → d.HoldsEntries q →
      (∀ node, (q, node) ∈ targets fs tree (linkAliases d.links) →
      nodeKind node ≠ some .file) → d₂.HoldsEntries q := by
    intro q hq hholds hfile
    by_cases hnot : ∀ node, (q, node) ∉ targets fs tree (linkAliases d.links)
    · exact hholds.congr (hold q hq hnot)
    · push Not at hnot
      obtain ⟨node, hnode⟩ := hnot
      rcases hwalk.kind _ hnode with hsame | ⟨k, hk, hat⟩
      · exact hholds.congr ((hstays q hq).trans hsame)
      · refine ⟨k, (hstays q hq).trans hat, ?_⟩
        rintro rfl
        exact hfile node hnode hk
  intro q k hk hq
  have hqdel : q ∉ del := by
    intro hmem
    rw [hdeleted q hmem] at hk
    cases hk
  by_cases hnot : ∀ node, (q, node) ∉ targets fs tree (linkAliases d.links)
  · -- The row was kept: what was above it is still there.
    rw [hold q hqdel hnot] at hk
    have hholds : d.HoldsEntries (parentOf q) := htree q k hk hq
    have hhas : d.fs.has q = true := by
      rw [Table.has_eq_true]
      obtain ⟨row, hrow, -⟩ := Option.map_eq_some_iff.1 hk
      exact ⟨row, hrow⟩
    by_cases hqg : q ∈ d.gone fs tree
    · refine hcarries _ (fun hup => hqdel (hclosed q hqg hq hup)) hholds ?_
      rcases hcut with hall | ⟨r, hr, href⟩
      · exact absurd (hall q hqg) hqdel
      · rcases h.deleted with hnone | hfile
        · rw [hnone r hr] at href
          cases href
        · exact hfile q hqg
    · obtain ⟨hup, hfile⟩ := h.kept q hhas hq hqg hnot
      exact hcarries _ (fun hmem => hup (hdel _ hmem)) hholds hfile
  · push Not at hnot
    obtain ⟨node, hnode⟩ := hnot
    rcases h.above hnode with hroot | ⟨hbelow, mode, listable, hdir⟩
    · rw [hroot]
      refine hcarries root (fun hmem => root_notMem_gone d (hdel _ hmem)) h.top fun node' hnode' =>
        ?_
      obtain ⟨loc, -, -, hres⟩ := mem_targets hnode'
      exact absurd hres (by rw [show isReservedVmPath (root, node').1 = true from rfl]; decide)
    · have hup : parentOf q ∉ del := fun hmem => hgone _ (hdel _ hmem) _ hdir
      cases href : d.refusesPath (parentOf q) with
      | false => exact ⟨.dir, (hstays _ hup).trans (hwalk.taken _ hdir .dir rfl (by decide) href),
          fun h => by cases h⟩
      | true =>
        -- Both rows are read-only: they are as they were.
        have hsame : d₂.kindAt q = d.kindAt q :=
          (hstays q hqdel).trans (hwalk.refused q (Db.refusesPath_below hbelow href))
        rw [hsame] at hk
        exact Carries.congr (htree q k hk hq) ((hstays _ hup).trans (hwalk.refused _ href))

/-- The body of a sync, whether it returns or is cut short by a row that cannot be deleted. -/
theorem Db.SyncFits.syncBody (h : d.SyncFits ctx fs tree) (htree : d.TreeShaped) (E : Ext K) :
    (endState (Dbvm.syncBody E ctx fs tree) d).TreeShaped := by
  -- First the walk, which puts the kinds of the host, then the deletion of what is gone.
  obtain ⟨st, d₁, hwalk, hseen, hkinds⟩ : ∃ st d₁,
      (walk fs tree).foldlM (syncEntry E ctx tree d.fs (linkAliases d.links))
        (d.servedLinks (linkAliases d.links), {}) d = .ok st d₁ ∧
      st.1 = d.seen fs tree ∧ SyncedKinds ctx d (targets fs tree (linkAliases d.links)) d₁ :=
    SyncedKinds.walk E (walk fs tree) (SyncedKinds.refl h.recording) h.nodup
  have hgone : ((d.fs.rows.map Prod.fst).filter fun p => !isReservedVmPath p && p ∉ st.1) = d.gone
    fs tree := by
    rw [hseen]
    rfl
  rw [endState, syncBody_eq, bind_of_ok hwalk, hgone]
  have hmem : ∀ q, q ∈ (d.gone fs tree).insertionSort (fun a b => utf8Len b ≤ utf8Len a) ↔
    q ∈ d.gone fs tree :=
    fun q => List.mem_insertionSort _
  have hsorted := List.pairwise_insertionSort (fun a b : Str => utf8Len b ≤ utf8Len a)
    (d.gone fs tree)
  obtain ⟨done, rest, hl, hrest, hrows⟩ := syncDeletes_until
    ((d.gone fs tree).insertionSort fun a b => utf8Len b ≤ utf8Len a) st.2 hkinds.recording
  rw [hl] at hmem hsorted
  refine h.shaped htree hkinds hrows (fun q hq => (hmem q).1 (List.mem_append_left _ hq)) ?_ ?_
  · intro q hq hne hup
    rcases List.mem_append.1 ((hmem q).2 hq) with hdone | hrest
    · exact hdone
    · -- A parent is shorter, and what is longer goes first.
      have hle := (List.pairwise_append.1 hsorted).2.2 _ hup q hrest
      have hparent : parentOf q ≠ root := by
        intro hp
        rw [hp] at hup
        exact root_notMem_gone d ((hmem root).1 (List.mem_append_left _ hup))
      have hlt := utf8Len_lt (below_parentOf hne hparent)
      omega
  · rcases hrest with hnil | ⟨q, hq, href⟩
    · refine Or.inl fun q hq => ?_
      have := (hmem q).2 hq
      rwa [hnil, List.append_nil] at this
    · refine Or.inr ⟨q, (hmem q).1 (List.mem_append_right _ hq), ?_⟩
      rw [← hkinds.rules.refusesPath, href]

/-- `finalize_dirty` stays within the frame. -/
theorem frame_finalizeDirty (E : Ext K) : Keeps (SameFrame d₀) (finalizeDirty E) := by
  refine keeps_finalizeDirty_of (fun p h => frame_updateFs p _)
    (fun p => Keeps.statement fun d d' hd hx => ?_) E
  cases hx
  exact ⟨hd.policies, hd.bypass, hd.undo, hd.undoFs, hd.undoChunks⟩

omit [DecidableEq K] in
/-- The condition is one on the paths, the kinds, the links and the rules. -/
theorem Db.SyncFits.congr (h : d.SyncFits ctx fs tree) (hshape : d'.shape = d.shape)
    (hkinds : d'.kindAt = d.kindAt) (hframe : SameFrame d d') : d'.SyncFits ctx fs tree := by
  have hgone : d'.gone fs tree = d.gone fs tree := gone_of_shape hshape
  have hlinks : d'.links = d.links := links_of_shape hshape
  have hhas : ∀ q, d'.fs.has q = true → d.fs.has q = true := by
    intro q hq
    obtain ⟨row, hrow⟩ := Table.has_eq_true.1 hq
    have hk : d.kindAt q = some row.kind := by rw [← hkinds, Db.kindAt_of_get? hrow]
    obtain ⟨row', hrow', -⟩ := Option.map_eq_some_iff.1 hk
    exact Table.has_eq_true.2 ⟨row', hrow'⟩
  refine ⟨h.host, h.dirs, h.names, h.recording.frame hframe, ?_, fun q hq hne hqg hnot => ?_, ?_⟩
  · exact h.top.congr (by rw [hkinds])
  · rw [hgone] at hqg ⊢
    rw [hlinks] at hnot ⊢
    exact h.kept q (hhas q hq) hne hqg hnot
  · rw [hgone, hlinks]
    simp only [hframe.refusesPath]
    exact h.deleted

/-- A full sync that fits keeps the tree shaped, whether it succeeds or fails. -/
theorem Db.SyncFits.syncReportImpl (h : d.SyncFits ctx fs tree) (htree : d.TreeShaped) (E : Ext K) :
    (endState (Dbvm.syncReportImpl E ctx fs tree) d).TreeShaped := by
  refine endState_bind (fun e s hx => ?_) fun n s hx => ?_
  · refine htree.of_kinds ?_
    have := finalizeDirty_kinds E d
    rwa [endState, hx] at this
  · have hkinds : s.kindAt = d.kindAt := by
      have := finalizeDirty_kinds E d
      rwa [endState_of_ok hx] at this
    have hframe : SameFrame d s := (frame_finalizeDirty E).triple d n s (SameFrame.refl d) hx
    exact (h.congr (shape_finalizeDirty hx) hkinds hframe).syncBody (htree.of_kinds hkinds) E

/-! ## A sync of some paths -/

/-- What is deleted with a row that is gone on the host. -/
def isOrLike (row q : Str) : Bool := q = row || like (trimEndSlashes row ++ ['/', '%']) q

/-- No row that stays is below a row that goes. The pattern of a path takes what is below its
matches, unless the path has a NUL, where the pattern ends. -/
def Db.TakesBelow (d : Db K) (row : Str) : Prop :=
  '\x00' ∈ row → ∀ q, d.fs.get? q ≠ none → q ≠ root → isOrLike row (parentOf q) = true →
    isOrLike row q = true

/-- When the sync of one path keeps the shape: what is written has a place, the root is not deleted,
and what is below a row that is deleted is deleted with it. -/
def Db.PathFits (fs : Fs) (tree : Loc) (aliases : List (Str × Str)) (d : Db K) (vmP : Str) : Prop :=
  isReservedVmPath vmP = true ∨
    match lstat fs tree (trimStartSlashes vmP) with
    | .ok (_, node) => d.refusesPath vmP = true ∨
        (∃ t row, node = .link t ∧ aliases.lookup vmP = some row) ∨
        ∀ k, nodeKind node = some k → d.HoldsEntries (parentOf vmP) ∧
        (k = .file → d.NothingBelow vmP)
    | .error .noent => (aliases.lookup vmP).getD vmP ≠ root ∧
        like (trimEndSlashes ((aliases.lookup vmP).getD vmP) ++ ['/', '%']) root = false ∧
        d.TakesBelow ((aliases.lookup vmP).getD vmP)
    | .error _ => True

/-- Every path fits when its turn comes. -/
def SyncPathsFit (E : Ext K) (ctx : SyncCtx) (fs : Fs) (tree : Loc) (aliases : List (Str × Str)) :
    List Str → Db K → Prop
  | [], _ => True
  | p :: ps, d => d.PathFits fs tree aliases p ∧ ∀ rep rep' d',
      syncPath E ctx fs tree aliases rep p d = .ok rep' d' →
      SyncPathsFit E ctx fs tree aliases ps d'

omit [DecidableEq K] in
/-- One row is brought in line with an entry. -/
theorem SyncStep.shaped {node : Node} (h : SyncStep ctx p node d d') (htree : d.TreeShaped)
    (hp : p ≠ root)
    (hfits : d.refusesPath p = true ∨
      ∀ k, nodeKind node = some k → d.HoldsEntries (parentOf p) ∧ (k = .file → d.NothingBelow p)) :
    d'.TreeShaped := by
  have hother : ∀ q, q ≠ p → d'.kindAt q = d.kindAt q := fun q hq => Db.kindAt_congr (h.rows q hq)
  have hstays : d'.kindAt p = d.kindAt p → d'.TreeShaped := by
    intro hsame
    refine htree.of_kinds (funext fun q => ?_)
    by_cases hq : q = p
    · rw [hq, hsame]
    · exact hother q hq
  rcases hfits with href | hfits
  · exact hstays (h.refused href)
  rcases h.kind with hsame | ⟨k, hk, hat⟩
  · exact hstays hsame
  · obtain ⟨hup, hbare⟩ := hfits k hk
    refine htree.put hat h.rows (fun _ => hup.congr (hother _ (parentOf_ne hp)))
      fun hfile q hq hqp => ?_
    rw [hother q]
    · exact hbare hfile q hq hqp
    · -- A path is not its own parent.
      rintro rfl
      exact parentOf_ne hq hqp

/-- Several rows can be recorded. -/
theorem SyncCtx.Recording.captures {id : ℕ} (hid : ctx.undo = some id) :
    ∀ (l : List Str) {d : Db K},
    ctx.Recording d → ∃ d', l.forM (undoCapture id) d = .ok () d' ∧ ctx.Recording d' ∧ d'.fs = d.fs
  | [], d, h => ⟨d, rfl, h, rfl⟩
  | p :: l, d, h => by
    obtain ⟨d₁, hok, hrec, -, hfs⟩ := h.capture p
    have hone : undoCapture id p d = .ok () d₁ := by
      unfold SyncCtx.capture at hok
      rw [hid] at hok
      exact hok
    obtain ⟨d₂, hrest, hrec₂, hfs₂⟩ := SyncCtx.Recording.captures hid l hrec
    refine ⟨d₂, ?_, hrec₂, hfs₂.trans hfs⟩
    rw [List.forM_eq_forM, List.forM_cons, bind_of_ok hone]
    exact hrest

/-- What is below a path matches the pattern that names the path's content. -/
theorem like_tree {row : Str} (h : Below row q) :
    like (trimEndSlashes row ++ ['/', '%']) q = true := by
  obtain ⟨c, rfl⟩ := exists_of_below h
  have hsplit : trimEndSlashes row ++ (row.reverse.takeWhile (· = '/')).reverse = row := by
    unfold trimEndSlashes
    rw [← List.reverse_append, List.takeWhile_append_dropWhile, List.reverse_reverse]
  have hslash : ∀ x ∈ (row.reverse.takeWhile (· = '/')).reverse, x = '/' := by
    intro x hx
    have hall := List.all_eq_true.1 List.all_takeWhile x (List.mem_reverse.1 hx)
    simpa using hall
  have hpat : trimEndSlashes row ++ ['/', '%'] = (trimEndSlashes row ++ ['/']) ++ ['%'] := by
    rw [List.append_assoc]
    rfl
  rw [hpat]
  refine like_of_prefix ?_
  rcases hs : (row.reverse.takeWhile (· = '/')).reverse with _ | ⟨x, s⟩
  · rw [hs, List.append_nil] at hsplit
    rw [hsplit]
    exact ⟨c, by rw [List.append_assoc, List.singleton_append]⟩
  · have hx : x = '/' := hslash x (by rw [hs]; exact List.mem_cons_self)
    rw [hs, hx] at hsplit
    refine ⟨s ++ '/' :: c, ?_⟩
    rw [List.append_assoc, List.singleton_append, ← List.cons_append, ← List.append_assoc, hsplit]

/-- Trimming slashes brings no NUL. -/
theorem not_mem_nul_trimEndSlashes {row : Str} (h : '\x00' ∉ row) :
    '\x00' ∉ trimEndSlashes row ++ ['/'] := by
  rw [List.mem_append, not_or]
  refine ⟨fun hmem => h ?_, by decide⟩
  unfold trimEndSlashes at hmem
  exact List.mem_reverse.1 ((List.dropWhile_sublist _).subset (List.mem_reverse.1 hmem))

/-- A path without a NUL: what is below a row that goes with it goes too. -/
theorem isOrLike_down {row q : Str} (hnul : '\x00' ∉ row) (hrow : row ≠ root)
    (hroot : like (trimEndSlashes row ++ ['/', '%']) root = false) (hq : q ≠ root)
    (hup : isOrLike row (parentOf q) = true) : isOrLike row q = true := by
  unfold isOrLike at hup ⊢
  have hne : parentOf q ≠ root := by
    intro hp
    rw [hp, hroot, Bool.or_false, decide_eq_true_iff] at hup
    exact hrow hup.symm
  have hbelow := below_parentOf hq hne
  rw [Bool.or_eq_true, decide_eq_true_iff] at hup ⊢
  right
  rcases hup with hup | hup
  · rw [hup] at hbelow
    exact like_tree hbelow
  · have hpat : trimEndSlashes row ++ ['/', '%'] = (trimEndSlashes row ++ ['/']) ++ ['%'] := by
      rw [List.append_assoc]
      rfl
    rw [hpat] at hup ⊢
    exact like_below (not_mem_nul_trimEndSlashes hnul) hbelow hup

omit [DecidableEq K] in
/-- A path and what is below it are deleted. -/
theorem treeShaped_deleteTree {row : Str} (h : d.TreeShaped) (hrow : row ≠ root)
    (hroot : like (trimEndSlashes row ++ ['/', '%']) root = false) (htakes : d.TakesBelow row)
    (hdel : ∀ q, d'.fs.get? q = if isOrLike row q = true then none else d.fs.get? q) :
    d'.TreeShaped := by
  intro q k hk hq
  have hstays : isOrLike row q ≠ true := by
    intro htaken
    rw [Db.kindAt, hdel, if_pos htaken] at hk
    cases hk
  have hsame : ∀ p, isOrLike row p ≠ true → d'.kindAt p = d.kindAt p := fun p hp =>
    Db.kindAt_congr (by rw [hdel, if_neg hp])
  rw [hsame q hstays] at hk
  -- A parent that goes would have taken the row with it.
  have hparent : isOrLike row (parentOf q) ≠ true := by
    intro hup
    by_cases hnul : '\x00' ∈ row
    · refine hstays (htakes hnul q (fun hnone => ?_) hq hup)
      rw [Db.kindAt, hnone] at hk
      cases hk
    · exact hstays (isOrLike_down hnul hrow hroot hq hup)
  exact (h q k hk hq).congr (hsame _ hparent)

/-- One path of a sync that fits keeps the tree shaped. -/
theorem Db.PathFits.syncPath {E : Ext K} {rep rep' : SyncReport}
    (hfits : d.PathFits fs tree aliases p) (h : d.TreeShaped) (hrec : ctx.Recording d)
    (hx : Dbvm.syncPath E ctx fs tree aliases rep p d = .ok rep' d') :
    d'.TreeShaped ∧ ctx.Recording d' := by
  unfold Dbvm.syncPath at hx
  split_ifs at hx with hres
  · cases hx
    exact ⟨h, hrec⟩
  have hp : p ≠ root := by
    rintro rfl
    exact hres rfl
  have hfits := hfits.resolve_left hres
  -- A path that is gone is deleted with what lies below it; a path that is there goes through
  -- `sync_one`, links with an alias aside.
  rcases hl : lstat fs tree (trimStartSlashes p) with e | ⟨loc, node⟩
  · rw [hl] at hx hfits
    cases e with
    | noent =>
      dsimp only at hx hfits
      generalize (aliases.lookup p).getD p = row at hx hfits
      have hcap : ∀ {x g : Sql K SyncReport}, (ctx.undo = none → x = g) →
          (∀ u, ctx.undo = some u → x = undoCaptureTree u row >>= fun _ => g) → x d = .ok rep' d' →
          ∃ d₁, g d₁ = .ok rep' d' ∧ ctx.Recording d₁ ∧ d₁.fs = d.fs := by
        intro x g hplain hcapture hg
        rcases hid : ctx.undo with _ | id
        · rw [hplain hid] at hg
          exact ⟨d, hg, hrec, rfl⟩
        · rw [hcapture id hid] at hg
          unfold undoCaptureTree at hg
          obtain ⟨_, d₁, hall, hg⟩ := bind_eq_ok.1 hg
          rw [reads_bind] at hall
          obtain ⟨d₂, hok, hrec₂, hfs₂⟩ := hrec.captures hid _
          rw [hok] at hall
          cases hall
          exact ⟨_, hg, hrec₂, hfs₂⟩
      obtain ⟨d₁, hrest, hrec₁, hfs₁⟩ := hcap (fun hid => by rw [hid]) (fun u hid => by rw [hid]) hx
      dsimp only at hrest
      rw [reads_bind] at hrest
      obtain ⟨_, d₂, hdel, hdone⟩ := bind_eq_ok.1 hrest
      cases hdone
      have hframe := (frame_deleteFs _).triple d₁ _ d' (SameFrame.refl d₁) hdel
      refine ⟨?_, hrec₁.frame hframe⟩
      have hrows : ∀ q, d'.fs.get? q = if isOrLike row q = true then none else d.fs.get? q := by
        intro q
        rw [deleteFs_ok hdel, Db.get?_delFs, hfs₁]
        rfl
      exact treeShaped_deleteTree h hfits.1 hfits.2.1 hfits.2.2 hrows
    | _ =>
      cases hx
      exact ⟨h, hrec⟩
  · rw [hl] at hx hfits
    dsimp only at hx hfits
    have hone :
        (Prog.reads (fun db : Db K => (db.fs.get? p).map fun r => r.toFsMeta) >>= fun prev =>
        attempt (syncOne E ctx node p prev) >>= fun res => pure (rep.count p res)) d = .ok rep' d' →
        (∀ t row, node = .link t → aliases.lookup p ≠ some row) → d'.TreeShaped ∧
        ctx.Recording d' := by
      intro hx halias
      rw [reads_bind] at hx
      obtain ⟨res, d₁, hres₁, hdone⟩ := bind_eq_ok.1 hx
      cases hdone
      have hend : endState (syncOne E ctx node p ((d.fs.get? p).map fun r => r.toFsMeta)) d = d' :=
        endState_of_attempt hres₁
      have hstep := syncStep_syncOne (p := p) E hrec node
      rw [hend] at hstep
      refine ⟨hstep.shaped h hp ?_, hstep.recording⟩
      rcases hfits with href | ⟨t, row, ht, hrow⟩ | hfits
      · exact Or.inl href
      · exact absurd hrow (halias t row ht)
      · exact Or.inr hfits
    rcases node with _ | _ | t | _
    · exact hone hx fun t row ht => by cases ht
    · exact hone hx fun t row ht => by cases ht
    · rcases hlook : aliases.lookup p with _ | row
      · rw [hlook] at hx
        exact hone hx fun t row _ => by rw [hlook]; simp
      · rw [hlook] at hx
        cases hx
        exact ⟨h, hrec⟩
    · exact hone hx fun t row ht => by cases ht

/-- By induction on the paths, a sync of paths that fits keeps the tree shaped. -/
theorem SyncPathsFit.all {E : Ext K} : ∀ {ps : List Str} {rep rep' : SyncReport} {d d' : Db K},
    SyncPathsFit E ctx fs tree aliases ps d → d.TreeShaped → ctx.Recording d →
      ps.foldlM (syncPath E ctx fs tree aliases) rep d = .ok rep' d' → d'.TreeShaped
  | [], _, _, _, _, _, h, _, hx => by
    cases hx
    exact h
  | p :: ps, rep, rep', d, d', hfits, h, hrec, hx => by
    rw [List.foldlM_cons] at hx
    obtain ⟨rep₁, d₁, hone, hrest⟩ := bind_eq_ok.1 hx
    obtain ⟨h₁, hrec₁⟩ := hfits.1.syncPath h hrec hone
    exact SyncPathsFit.all (hfits.2 rep rep₁ d₁ hone) h₁ hrec₁ hrest

/-- When a sync of some paths keeps the shape. -/
def Db.SyncPathsFits (E : Ext K) (fs : Fs) (tree : Loc) (paths : List Str) (undo : Option ℕ)
    (now : ℤ) (d : Db K) :
    Prop :=
  (⟨false, undo, now⟩ : SyncCtx).Recording d ∧ ∀ n d₁, finalizeDirty E d = .ok n d₁ →
    SyncPathsFit E ⟨false, undo, now⟩ fs tree (linkAliases d₁.links) paths d₁

/-- A sync of paths that fits keeps the tree shaped, whether it succeeds or fails. -/
theorem Db.SyncPathsFits.vmSyncPaths {E : Ext K} {paths : List Str} {undo : Option ℕ} {now : ℤ}
    (hfits : d.SyncPathsFits E fs tree paths undo now) (h : d.TreeShaped) :
    (endState (Dbvm.vmSyncPaths E fs tree paths undo now) d).TreeShaped := by
  have hfin := finalizeDirty_kinds E d
  refine endState_bind (fun e s hx => ?_) fun n s hx => ?_
  · rw [endState, hx] at hfin
    exact h.of_kinds hfin
  rw [endState_of_ok hx] at hfin
  have hs : s.TreeShaped := h.of_kinds hfin
  have hframe : SameFrame d s := (frame_finalizeDirty E).triple d n s (SameFrame.refl d) hx
  refine endState_bind (fun e s' hr => by cases hr) fun aliases s' hr => ?_
  cases hr
  refine Atomic.endState (Atomic.savepoint _) hs fun rep s' hrun => ?_
  exact (hfits.2 n s hx).all hs (hfits.1.frame hframe) (savepoint_eq_ok.1 hrun)

end Dbvm
