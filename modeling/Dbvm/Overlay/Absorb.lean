import Mathlib.Data.List.TakeWhile
import Dbvm.Host.Sync
import Dbvm.Overlay.Rows

/-!
# Absorbing a tree

The write-back of a host tree into the Delta (`Overlay::absorb_tree`): every entry is compared with
the merged view, what differs is written through the operations of the overlay, and what the tree no
longer has is removed. Each of these operations commits on its own. Any inner operation may fail:
`Absorbing.faults` says what becomes of them, in the order in which they are called.
-/

namespace Dbvm

open Lib Lib.Chunks Lib.Posix Lib.Prog

variable {K : Type} [DecidableEq K] {E : Ext K}

/-- An overlay, and what becomes of the inner operations to come: each runs, or fails with an error.
-/
structure Absorbing (K : Type) where
  /-- The overlay. -/
  overlay : Overlay K
  /-- The errors of the operations to come. -/
  faults : List (Option Err)

/-- A program that calls operations of an overlay. -/
abbrev Absorb (K α : Type) := EStateM Err (Absorbing K) α

namespace Overlay

/-- An inner operation. -/
def inner {α : Type} (x : Ov K α) : Absorb K α := fun s =>
  match s.faults.head?.join with
  | some e => .error e { s with faults := s.faults.tail }
  | none =>
    match x s.overlay with
    | .ok a o => .ok a ⟨o, s.faults.tail⟩
    | .error e o => .error e ⟨o, s.faults.tail⟩

/-- `view_links`: the links of the merged view. -/
def viewLinks (o : Overlay K) : List (Str × Str) := o.allPaths.foldl (fun m r =>
  if r.2 = .symlink then
    match o.readlink r.1 with
    | .ok t => mapInsert m r.1 t
    | .error _ => m
  else m) []

/-- `entry(..).or_insert(..)`. -/
def orInsert (m : List (Str × Str)) (k v : Str) : List (Str × Str) :=
  if (m.lookup k).isSome then m else m ++ [(k, v)]

/-- Whether an ancestor of the path is a link. -/
def underLink (links : List (Str × Str)) (p : Str) : Bool :=
  (ancestors p).any fun a => (links.lookup a).isSome

/-- The database path of each path of the view. A path that is not behind a link wins, and a real
path over one that a link translates. -/
def viewToDb (paths : List (Str × Kind)) (links : List (Str × Str)) : List (Str × Str) :=
  let translated := paths.foldl (fun m r =>
    if translatedLink r.1 links ≠ r.1 then mapInsert m (translatedLink r.1 links) r.1 else m) []
  let literal := paths.foldl (fun m r => if underLink links r.1 then m else mapInsert m r.1 r.1) []
  let literal := paths.foldl (fun m r => orInsert m r.1 r.1) literal
  translated.foldl (fun m r => orInsert m r.1 r.2) literal

/-- What stays the same for every entry of one absorption. -/
structure AbsorbCtx where
  /-- The tree. -/
  tree : Loc
  /-- `links`. -/
  links : List (Str × Str)
  /-- `view_to_db`. -/
  viewToDb : List (Str × Str)
  /-- The time. -/
  now : ℤ

/-- What an absorption keeps of the entries it has met: `seen`, `view_seen` and `written`. -/
structure Absorbed where
  /-- Paths that are not gone. -/
  seen : List Str
  /-- Paths of the view that the tree holds. -/
  viewSeen : List Str
  /-- The number of changes. -/
  written : ℕ

/-- The kind a host entry is stored as. -/
def hostKind : Node → Kind
  | .link _ => .symlink
  | .dir .. => .dir
  | _ => .file

/-- `std::fs::read`. -/
def readHost : Node → Except Err Bytes
  | .file data _ _ true => .ok data
  | _ => .error .readFailed

/-- `std::fs::read_link`. -/
def readLinkHost : Node → Except Err Str
  | .link t => .ok t
  | _ => .error .readFailed

/-- The chunks in which two contents of one length differ. -/
def changedChunks (disk now : Bytes) : List ℕ :=
  (List.range (numChunks chunkSize disk.length)).filter fun i =>
  chunkAt chunkSize disk i ≠ chunkAt chunkSize now i

/-- `write_smallest`. -/
def writeSmallest (E : Ext K) (p : Str) (disk now : Bytes) (time : ℤ) : Ov K Unit :=
  match changedChunks disk now with
  | [i] =>
    if disk.length = now.length ∧ 1 < numChunks chunkSize disk.length then
      writeRange E p (i * chunkSize) (chunkAt chunkSize disk i) time
    else write E p disk 0o644 time time
  | _ => write E p disk 0o644 time time

/-- The database path of a path of the tree. -/
def AbsorbCtx.dbPath (ctx : AbsorbCtx) (p : Str) : Str := (ctx.viewToDb.lookup p).getD p

/-- What is written for an entry; nothing when the view has it already. -/
def absorbNode (E : Ext K) (ctx : AbsorbCtx) (p : Str) (node : Node) : Absorb K Bool := do
  let dbP := ctx.dbPath p
  let layerKind ← inner (Prog.reads fun o => o.kindInOverlay dbP)
  match hostKind node, layerKind with
  | .dir, some .dir => return false
  | .symlink, some .symlink => do
    let stored ← inner (Prog.query fun o => o.readlink dbP)
    let disk ← inner (Prog.query fun _ => readLinkHost node)
    if stored = disk then return false
    else do
      inner (symlink dbP disk ctx.now)
      return true
  | .file, some .file => do
    let disk ← inner (Prog.query fun _ => readHost node)
    let now ← inner (Prog.query fun o => o.read E p)
    if disk = now then return false
    else do
      inner (writeSmallest E dbP disk now ctx.now)
      return true
  | .dir, _ => do
    inner (mkdir dbP ctx.now)
    return true
  | .symlink, _ => do
    let disk ← inner (Prog.query fun _ => readLinkHost node)
    inner (symlink dbP disk ctx.now)
    return true
  | .file, _ => do
    let disk ← inner (Prog.query fun _ => readHost node)
    inner (write E dbP disk 0o644 ctx.now ctx.now)
    return true

/-- One entry of the walk. An entry below a link is not stored here. -/
def absorbEntry (E : Ext K) (ctx : AbsorbCtx) (st : Absorbed) : Option (Loc × Node) →
    Absorb K Absorbed
  | none => return st
  | some (loc, node) => do
    let p := vmPathOf ctx.tree loc
    if isReservedVmPath p then return st
    else do
      let st : Absorbed :=
        { st with seen := ctx.dbPath p :: p :: st.seen, viewSeen := p :: st.viewSeen }
      if underLink ctx.links p then return st
      else do
        let changed ← absorbNode E ctx p node
        return { st with written := if changed then st.written + 1 else st.written }

/-- The paths of the view that the tree no longer has. -/
def AbsorbCtx.gone (ctx : AbsorbCtx) (st : Absorbed) (o : Overlay K) : List Str :=
  (o.allPaths.map Prod.fst).filter fun p =>
    !isReservedVmPath p && p ∉ st.seen &&
      !(translatedLink p ctx.links ≠ p && translatedLink p ctx.links ∈ st.viewSeen)

/-- The removal of one path. -/
def absorbGone (written : ℕ) (p : Str) : Absorb K ℕ := do
  inner (remove p)
  return written + 1

/-- The context of an absorption. -/
def absorbCtx (o : Overlay K) (tree : Loc) (now : ℤ) : AbsorbCtx :=
  ⟨tree, o.viewLinks, viewToDb o.allPaths o.viewLinks, now⟩

/-- `absorb_tree`. -/
def absorbTree (E : Ext K) (fs : Fs) (tree : Loc) (now : ℤ) : Absorb K ℕ := do
  let ctx ← inner (Prog.reads fun o => o.absorbCtx tree now)
  let st ← (walk fs tree).foldlM (absorbEntry E ctx) ⟨[], [], 0⟩
  let gone ← inner (Prog.reads fun o => ctx.gone st o)
  gone.foldlM absorbGone st.written

/-! ## An inner operation that fails -/

section Inner

variable {α : Type} {s s' : Absorbing K}

omit [DecidableEq K] in
/-- An operation on the overlay that returns returns what it returns there. -/
theorem inner_ok {x : Ov K α} {a : α} (h : inner x s = .ok a s') :
    x s.overlay = .ok a s'.overlay := by
  unfold inner at h
  rcases hf : s.faults.head?.join with _ | e
  · rw [hf] at h
    rcases hx : x s.overlay with ⟨b, o⟩ | ⟨e, o⟩
    · rw [hx] at h
      cases h
      rfl
    · rw [hx] at h
      cases h
  · rw [hf] at h
    cases h

omit [DecidableEq K] in
/-- One that fails was not begun, or failed there. -/
theorem inner_error {x : Ov K α} {e : Err} (h : inner x s = .error e s') :
    s'.overlay = s.overlay ∨ x s.overlay = .error e s'.overlay := by
  unfold inner at h
  rcases hf : s.faults.head?.join with _ | e'
  · rw [hf] at h
    rcases hx : x s.overlay with ⟨b, o⟩ | ⟨e', o⟩
    · rw [hx] at h
      cases h
    · rw [hx] at h
      cases h
      exact Or.inr rfl
  · rw [hf] at h
    cases h
    exact Or.inl rfl

omit [DecidableEq K] in
/-- A query of the overlay leaves it. -/
theorem silent_query (f : Overlay K → Except Err α) :
    Silent Absorbing.overlay (inner (Prog.query f)) := by
  intro s
  unfold endState
  rcases h : inner (Prog.query f) s with ⟨a, s'⟩ | ⟨e, s'⟩
  · exact (query_eq_ok.1 (inner_ok h)).2
  · rcases inner_error h with hsame | herr
    · exact hsame
    · unfold Prog.query at herr
      rcases hf : f s.overlay with e' | a
      · rw [hf] at herr
        exact (EStateM.Result.error.inj herr).2.symm
      · rw [hf] at herr
        cases herr

omit [DecidableEq K] in
/-- A read of the overlay leaves it. -/
theorem silent_reads (f : Overlay K → α) : Silent Absorbing.overlay (inner (Prog.reads f)) :=
  silent_query fun o => .ok (f o)

omit [DecidableEq K] in
/-- An operation that rolls back leaves no trace when it fails, or is not even carried out. -/
theorem atomicOn_inner {x : Ov K α} (hx : Overlay.Atomic x) :
    AtomicOn Absorbing.overlay (inner x) := by
  intro s e s' h
  rcases inner_error h with hsame | herr
  · exact hsame
  · exact hx _ _ _ herr

/-- The smallest write of a changed file is atomic. -/
theorem atomic_writeSmallest (p : Str) (disk now : Bytes) (time : ℤ) :
    Overlay.Atomic (writeSmallest E p disk now time : Ov K Unit) := by
  have hwrite : Overlay.Atomic (write E p disk 0o644 time time : Ov K Unit) :=
    atomic_run (.write p disk 0o644 time time)
  rw [writeSmallest]
  split
  · split_ifs
    · exact atomic_run (.writeRange p _ _ time)
    · exact hwrite
  · exact hwrite

/-- Only the last inner operation of an entry changes the overlay. -/
theorem atomicOn_absorbNode (ctx : AbsorbCtx) (p : Str) (node : Node) :
    AtomicOn Absorbing.overlay (absorbNode E ctx p node : Absorb K Bool) := by
  have hmkdir : Overlay.Atomic (mkdir (ctx.dbPath p) ctx.now : Ov K Unit) :=
    atomic_run (E := E) (.mkdir _ _)
  have hlink : ∀ t, Overlay.Atomic (symlink (ctx.dbPath p) t ctx.now : Ov K Unit) := fun t =>
    atomic_run (E := E) (.symlink _ t _)
  have hwrite : ∀ data,
    Overlay.Atomic (write E (ctx.dbPath p) data 0o644 ctx.now ctx.now : Ov K Unit) := fun data =>
    atomic_run (.write _ data _ _ _)
  -- After the reads each branch has one call that writes.
  refine (silent_reads _).bind_atomicOn fun layerKind => ?_
  split
  · exact .pure _
  · refine (silent_query _).bind_atomicOn fun stored => (silent_query _).bind_atomicOn fun disk =>
      ?_
    split_ifs
    · exact .pure _
    · exact (atomicOn_inner (hlink disk)).bind_pure
  · refine (silent_query _).bind_atomicOn fun disk => (silent_query _).bind_atomicOn fun now => ?_
    split_ifs
    · exact .pure _
    · exact (atomicOn_inner (atomic_writeSmallest _ disk now _)).bind_pure
  · exact (atomicOn_inner hmkdir).bind_pure
  · exact (silent_query _).bind_atomicOn fun disk => (atomicOn_inner (hlink disk)).bind_pure
  · exact (silent_query _).bind_atomicOn fun disk => (atomicOn_inner (hwrite disk)).bind_pure

/-- The absorption of one entry is atomic on the overlay. -/
theorem atomicOn_absorbEntry (ctx : AbsorbCtx) (st : Absorbed) (e : Option (Loc × Node)) :
    AtomicOn Absorbing.overlay (absorbEntry E ctx st e : Absorb K Absorbed) := by
  rcases e with _ | ⟨loc, node⟩
  · exact .pure _
  · unfold absorbEntry
    dsimp only
    split_ifs
    · exact .pure _
    · exact .pure _
    · exact (atomicOn_absorbNode ctx _ node).bind_pure

/-- The absorption of one removal is atomic on the overlay. -/
theorem atomicOn_absorbGone (written : ℕ) (p : Str) :
    AtomicOn Absorbing.overlay (absorbGone written p : Absorb K ℕ) := by
  have hremove : Overlay.Atomic (remove p : Ov K Unit) := .query fun _ => .writeTx _
  exact (atomicOn_inner hremove).bind_pure

end Inner

/-! ## Entries that need no change -/

/-- Whether an entry of the tree is in the view as it is. -/
def agrees (E : Ext K) (ctx : AbsorbCtx) (o : Overlay K) : Option (Loc × Node) → Bool
  | none => true
  | some (loc, node) =>
    let p := vmPathOf ctx.tree loc
    isReservedVmPath p || underLink ctx.links p ||
      match hostKind node, o.kindInOverlay (ctx.dbPath p) with
      | .dir, some .dir => true
      | .symlink, some .symlink =>
        match o.readlink (ctx.dbPath p), readLinkHost node with
        | .ok stored, .ok disk => stored = disk
        | _, _ => false
      | .file, some .file =>
        match readHost node, o.read E p with
        | .ok disk, .ok now => disk = now
        | _, _ => false
      | _, _ => false

/-- The absorption up to its first change: the entries that the view has, then the first one that it
does not have, or else the first path that is gone. -/
def absorbFirst (E : Ext K) (fs : Fs) (tree : Loc) (now : ℤ) (o : Overlay K) : Absorb K Unit := do
  let ctx ← inner (Prog.reads fun o => o.absorbCtx tree now)
  let same := (walk fs tree).takeWhile (agrees E (o.absorbCtx tree now) o)
  let st ← same.foldlM (absorbEntry E ctx) ⟨[], [], 0⟩
  match (walk fs tree).dropWhile (agrees E (o.absorbCtx tree now) o) with
  | e :: _ => do
    let _ ← absorbEntry E ctx st e
  | [] => do
    let gone ← inner (Prog.reads fun o => ctx.gone st o)
    let _ ← (gone.take 1).foldlM absorbGone st.written

section Agrees

variable {ctx : AbsorbCtx} {s s' : Absorbing K} {fs : Fs} {tree : Loc} {now : ℤ}

omit [DecidableEq K] in
/-- A read of the overlay answers with it. -/
theorem inner_reads_ok {α : Type} {f : Overlay K → α} {a : α}
    (h : inner (Prog.reads f) s = .ok a s') :
    a = f s.overlay ∧ s'.overlay = s.overlay := by
  obtain ⟨hval, hsame⟩ := EStateM.Result.ok.inj (inner_ok h)
  exact ⟨hval.symm, hsame.symm⟩

omit [DecidableEq K] in
/-- A query of the overlay answers as it does there. -/
theorem inner_query_ok {α : Type} {f : Overlay K → Except Err α} {a : α}
    (h : inner (Prog.query f) s = .ok a s') :
    f s.overlay = .ok a ∧ s'.overlay = s.overlay := query_eq_ok.1 (inner_ok h)

/-- An entry that the view has is not written. -/
theorem absorbNode_of_agrees {p : Str} {loc : Loc} {node : Node} {b : Bool}
    (hp : vmPathOf ctx.tree loc = p) (hres : isReservedVmPath p = false)
    (hlink : underLink ctx.links p = false)
    (ha : agrees E ctx s.overlay (some (loc, node)) = true)
    (h : absorbNode E ctx p node s = .ok b s') :
    s'.overlay = s.overlay := by
  unfold agrees at ha
  simp only [hp, hres, hlink, Bool.false_or] at ha
  obtain ⟨layerKind, s₁, hkind, hrest⟩ := bind_eq_ok.1 h
  obtain ⟨rfl, hs₁⟩ := inner_reads_ok hkind
  -- The kinds agree, so one of three cases is left: a directory, a link, a file. In each the
  -- stored content is the one on the disk.
  split at ha
  · next hhost hlayer =>
    simp only [hhost, hlayer] at hrest
    cases hrest
    exact hs₁
  · next hhost hlayer =>
    simp only [hhost, hlayer] at hrest
    obtain ⟨stored, s₂, hstored, hrest⟩ := bind_eq_ok.1 hrest
    obtain ⟨disk, s₃, hdisk, hrest⟩ := bind_eq_ok.1 hrest
    obtain ⟨hstored, hs₂⟩ := inner_query_ok hstored
    obtain ⟨hdisk, hs₃⟩ := inner_query_ok hdisk
    rw [hs₁] at hstored
    rw [hstored, hdisk] at ha
    rw [if_pos (of_decide_eq_true ha)] at hrest
    cases hrest
    exact hs₃.trans (hs₂.trans hs₁)
  · next hhost hlayer =>
    simp only [hhost, hlayer] at hrest
    obtain ⟨disk, s₂, hdisk, hrest⟩ := bind_eq_ok.1 hrest
    obtain ⟨now, s₃, hnow, hrest⟩ := bind_eq_ok.1 hrest
    obtain ⟨hdisk, hs₂⟩ := inner_query_ok hdisk
    obtain ⟨hnow, hs₃⟩ := inner_query_ok hnow
    rw [hs₂, hs₁] at hnow
    rw [hdisk, hnow] at ha
    rw [if_pos (of_decide_eq_true ha)] at hrest
    cases hrest
    exact hs₃.trans (hs₂.trans hs₁)
  · cases ha

/-- An entry that agrees with the overlay changes nothing. -/
theorem absorbEntry_of_agrees {st st' : Absorbed} {e : Option (Loc × Node)}
    (ha : agrees E ctx s.overlay e = true) (h : absorbEntry E ctx st e s = .ok st' s') :
    s'.overlay = s.overlay := by
  rcases e with _ | ⟨loc, node⟩
  · cases h
    rfl
  · unfold absorbEntry at h
    dsimp only at h
    split_ifs at h with hres hlink
    · cases h
      rfl
    · cases h
      rfl
    · obtain ⟨changed, s₁, hnode, hpure⟩ := bind_eq_ok.1 h
      cases hpure
      exact absorbNode_of_agrees rfl (Bool.eq_false_of_not_eq_true hres)
        (Bool.eq_false_of_not_eq_true hlink) ha hnode

/-- Entries that the view has are not written, whatever fails. -/
theorem silent_foldlM_agrees (o : Overlay K) :
    ∀ (entries : List (Option (Loc × Node))) (st : Absorbed)
    (s : Absorbing K), s.overlay = o → (∀ e ∈ entries, agrees E ctx o e = true) →
      (endState (entries.foldlM (absorbEntry E ctx) st) s).overlay = o
  | [], _, _, hs, _ => hs
  | e :: entries, st, s, hs, hall => by
    rw [List.foldlM_cons]
    unfold endState
    rcases he : absorbEntry E ctx st e s with ⟨st', s'⟩ | ⟨err, s'⟩
    · rw [bind_of_ok he]
      have hsame : s'.overlay = o := by
        rw [absorbEntry_of_agrees (hs ▸ hall e List.mem_cons_self) he, hs]
      exact silent_foldlM_agrees o entries st' s' hsame fun e' he' =>
        hall e' (List.mem_cons_of_mem e he')
    · rw [bind_of_error he]
      exact (atomicOn_absorbEntry ctx st e s err s' he).trans hs

end Agrees

/-- An overlay whose Base has a read-only prefix. -/
def guardedOverlay : Overlay Bytes :=
  ⟨{ (initDb 0 : Db Bytes) with policies := [.readonlyPrefix "/ro".toList] }, initDb 0, []⟩

/-- A tree with a directory in the read-only prefix. -/
def refusedTree : Fs := (Table.empty.insertIgnore ["t".toList] (.dir 0o755 true)).insertIgnore
  ["t".toList, "ro".toList] (.dir 0o755 true)

/-- The same with a directory before it. -/
def mixedTree : Fs := ((Table.empty.insertIgnore ["t".toList] (.dir 0o755 true)).insertIgnore
  ["t".toList, "a".toList] (.dir 0o755 true)).insertIgnore ["t".toList, "ro".toList]
  (.dir 0o755 true)

end Overlay

end Dbvm
