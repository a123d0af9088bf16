import Dbvm.Host.Entry

/-!
# The walk of a full sync

Which entries of the tree `sync_report_impl` compares with a row (`syncTarget`), which rows it then
counts as seen (`Db.seen`), and what a sync without an undo record does to the rows: nothing, when
every entry is current or refused and every row is seen (`Db.Idle`), and otherwise at least one row
is not what it was.
-/

namespace Dbvm

open Lib Lib.Prog Lib.Posix

variable {K : Type} [DecidableEq K]

/-! ## What is compared -/

/-- The path whose row an entry is compared with; none for a reserved path, for a link that stands
for a row elsewhere, and for an error of the walk. -/
def syncTarget (tree : Loc) (aliases : List (Str × Str)) (e : Option (Loc × Node)) :
    Option (Str × Node) :=
  match e with
  | none => none
  | some (loc, node) =>
    if isReservedVmPath (vmPathOf tree loc) then none
    else
      match node, aliases.lookup (vmPathOf tree loc) with
      | .link _, some _ => none
      | _, _ => some (vmPathOf tree loc, node)

/-- The rows that count as seen after an entry. -/
def seenStep (tree : Loc) (aliases : List (Str × Str)) (seen : List Str) (e : Option (Loc × Node)) :
    List Str :=
  match e with
  | none => seen
  | some (loc, node) =>
    if isReservedVmPath (vmPathOf tree loc) then seen
    else
      match node, aliases.lookup (vmPathOf tree loc) with
      | .link _, some row => row :: seen
      | _, _ => vmPathOf tree loc :: seen

/-- The rows that a sync of the tree counts as seen. -/
def Db.seen (db : Db K) (fs : Fs) (tree : Loc) : List Str :=
  (walk fs tree).foldl (seenStep tree (linkAliases db.links))
  (db.servedLinks (linkAliases db.links))

/-- The rows that a sync of the tree deletes. -/
def Db.gone (db : Db K) (fs : Fs) (tree : Loc) : List Str :=
  (db.fs.rows.map Prod.fst).filter fun p => !isReservedVmPath p && p ∉ db.seen fs tree

section Step

variable {tree : Loc} {aliases : List (Str × Str)} {seen : List Str} {e : Option (Loc × Node)}

/-- What has been seen stays seen. -/
theorem subset_seenStep {p : Str} (h : p ∈ seen) : p ∈ seenStep tree aliases seen e := by
  unfold seenStep
  split
  · exact h
  · split_ifs
    · exact h
    · split
      · exact List.mem_cons_of_mem _ h
      · exact List.mem_cons_of_mem _ h

/-- What a sync takes has been seen. -/
theorem mem_seenStep_of_target {p : Str} {node : Node}
    (h : syncTarget tree aliases e = some (p, node)) :
    p ∈ seenStep tree aliases seen e := by
  unfold syncTarget at h
  unfold seenStep
  split at h
  · cases h
  · split_ifs at h with hres
    rw [if_neg hres]
    split at h
    · cases h
    · obtain ⟨rfl, rfl⟩ := Prod.mk.inj (Option.some.inj h)
      exact List.mem_cons_self

variable {E : Ext K} {ctx : SyncCtx} {rows : Table Str (FsRow K)} {rep : SyncReport}

/-- An entry that is not compared changes no row; an error of the walk counts as a failure. -/
theorem syncEntry_of_none (h : syncTarget tree aliases e = none) (d : Db K) :
    syncEntry E ctx tree rows aliases (seen, rep) e d =
      .ok (seenStep tree aliases seen e, e.elim (rep.fail none .readFailed) fun _ => rep) d := by
  rcases e with _ | ⟨loc, node⟩
  · rfl
  · unfold syncTarget at h
    unfold seenStep syncEntry
    dsimp only at h ⊢
    by_cases hres : isReservedVmPath (vmPathOf tree loc) = true
    · rw [if_pos hres, if_pos hres]
      rfl
    · rw [if_neg hres] at h
      rw [if_neg hres, if_neg hres]
      rcases node with _ | _ | t | _
      · cases h
      · cases h
      · rcases hlook : aliases.lookup (vmPathOf tree loc) with _ | row
        · rw [hlook] at h
          cases h
        · rfl
      · cases h

/-- An entry that a sync takes goes through `sync_one` and is remembered as seen. -/
theorem syncEntry_of_some (E : Ext K) (ctx : SyncCtx) (rows : Table Str (FsRow K)) (seen : List Str)
    (rep : SyncReport) {p : Str} {node : Node} (h : syncTarget tree aliases e = some (p, node)) :
    syncEntry E ctx tree rows aliases (seen, rep) e =
      attempt (syncOne E ctx node p ((rows.get? p).map fun r => r.toFsMeta)) >>= fun res =>
        pure (seenStep tree aliases seen e, rep.count p res) := by
  rcases e with _ | ⟨loc, node'⟩
  · cases h
  · unfold syncTarget at h
    unfold seenStep syncEntry
    dsimp only at h ⊢
    split_ifs at h with hres
    rw [if_neg hres, if_neg hres]
    rcases node' with _ | _ | t | _
    · obtain ⟨rfl, rfl⟩ := Prod.mk.inj (Option.some.inj h)
      rfl
    · obtain ⟨rfl, rfl⟩ := Prod.mk.inj (Option.some.inj h)
      rfl
    · rcases hlook : aliases.lookup (vmPathOf tree loc) with _ | row
      · rw [hlook] at h
        obtain ⟨rfl, rfl⟩ := Prod.mk.inj (Option.some.inj h)
        rfl
      · rw [hlook] at h
        cases h
    · obtain ⟨rfl, rfl⟩ := Prod.mk.inj (Option.some.inj h)
      rfl

end Step

/-! ## A sync that changes nothing -/

section Idle

variable {E : Ext K} {ctx : SyncCtx} {fs : Fs} {tree : Loc} {aliases : List (Str × Str)}
  {d₀ d d' : Db K}

/-- The entry agrees with its row, or cannot be stored. -/
def IdleEntry (E : Ext K) (ctx : SyncCtx) (tree : Loc) (aliases : List (Str × Str)) (d : Db K)
    (e : Option (Loc × Node)) : Prop :=
  ∀ p node, syncTarget tree aliases e = some (p, node) →
    Current E ctx node ((d.fs.get? p).map fun r => r.toFsMeta) = true ∨ d.takes E ctx p node = false

/-- Nothing that the tree holds is to be written or can be, and nothing is to be deleted. -/
structure Db.Idle (E : Ext K) (ctx : SyncCtx) (fs : Fs) (tree : Loc) (d : Db K) : Prop where
  /-- Nothing is written. -/
  entries : ∀ e ∈ walk fs tree, IdleEntry E ctx tree (linkAliases d.links) d e
  /-- Nothing is deleted. -/
  rows : d.gone fs tree = []

/-- The state of a walk after the entries `done`: it is the first state and they were idle, or one
was not and a row that has been seen is not the one it was. No row is lost. -/
structure Walked (E : Ext K) (ctx : SyncCtx) (tree : Loc) (aliases : List (Str × Str)) (d₀ : Db K)
    (done : List (Option (Loc × Node))) (seen : List Str) (d : Db K) : Prop where
  /-- No row is lost. -/
  has : ∀ q, d₀.fs.has q = true → d.fs.has q = true
  /-- Nothing, or something, has changed. -/
  changed : (d = d₀ ∧ ∀ e ∈ done, IdleEntry E ctx tree aliases d₀ e) ∨
    ((∃ e ∈ done, ¬ IdleEntry E ctx tree aliases d₀ e) ∧
      ∃ p ∈ seen, Changed ((d₀.fs.get? p).map fun r => r.toFsMeta) p d)

/-- One more entry of the walk extends what has been walked. -/
theorem Walked.step (rep : SyncReport) (e : Option (Loc × Node)) (hundo : ctx.undo = none)
    (hverify : ctx.verifyContent = false) {done : List (Option (Loc × Node))} {seen : List Str}
    (h : Walked E ctx tree aliases d₀ done seen d) :
    ∃ st d', syncEntry E ctx tree d₀.fs aliases (seen, rep) e d = .ok st d' ∧
      st.1 = seenStep tree aliases seen e ∧ Walked E ctx tree aliases d₀ (done ++ [e]) st.1 d' := by
  rcases htarget : syncTarget tree aliases e with _ | ⟨p, node⟩
  · refine ⟨_, d, syncEntry_of_none htarget d, rfl, h.has, ?_⟩
    rcases h.changed with ⟨hd, hidle⟩ | ⟨⟨e', he', hbusy⟩, p, hp, hch⟩
    · refine Or.inl ⟨hd, fun e' he' => ?_⟩
      rcases List.mem_append.1 he' with he' | he'
      · exact hidle e' he'
      · rw [List.mem_singleton.1 he']
        intro p node hsome
        rw [htarget] at hsome
        cases hsome
    · exact Or.inr ⟨⟨e', List.mem_append_left _ he', hbusy⟩, p, subset_seenStep hp, hch⟩
  · have hrun := syncEntry_of_some E ctx d₀.fs seen rep htarget
    have hone := syncsOne E hundo node p ((d₀.fs.get? p).map fun r => r.toFsMeta) d
    unfold SyncsOne at hone
    have hstay : Current E ctx node ((d₀.fs.get? p).map fun r => r.toFsMeta) = true ∨
        d₀.takes E ctx p node = false ∨ d ≠ d₀ →
        Walked E ctx tree aliases d₀ (done ++ [e]) (seenStep tree aliases seen e) d := by
      intro hcase
      refine ⟨h.has, ?_⟩
      rcases h.changed with ⟨hd, hidle⟩ | ⟨⟨e', he', hbusy⟩, q, hq, hch⟩
      · refine Or.inl ⟨hd, fun e' he' => ?_⟩
        rcases List.mem_append.1 he' with he' | he'
        · exact hidle e' he'
        · rw [List.mem_singleton.1 he']
          intro p' node' hsome
          rw [htarget] at hsome
          cases hsome
          rcases hcase with hcur | htakes | hne
          · exact Or.inl hcur
          · exact Or.inr htakes
          · exact absurd hd hne
      · exact Or.inr ⟨⟨e', List.mem_append_left _ he', hbusy⟩, q, subset_seenStep hq, hch⟩
    rw [hrun]
    generalize hres : syncOne E ctx node p ((d₀.fs.get? p).map fun r => r.toFsMeta) d = res at hone
    cases hone with
    | kept hC =>
      refine ⟨_, d, by rw [bind_of_ok (attempt_of_ok hres)]; rfl, rfl, hstay ?_⟩
      by_cases hd : d = d₀
      · exact Or.inl (hC (by rw [hd]))
      · exact Or.inr (Or.inr hd)
    | refused hN e =>
      refine ⟨_, d, by rw [bind_of_ok (attempt_of_error hres)]; rfl, rfl, hstay ?_⟩
      by_cases hd : d = d₀
      · exact Or.inr (Or.inl (by rw [← hd]; exact hN (by rw [hd])))
      · exact Or.inr (Or.inr hd)
    | written b d' hW hfs hch =>
      -- The row of the entry is not the one it was compared with, whatever was there before.
      have hchanged : Changed ((d₀.fs.get? p).map fun r => r.toFsMeta) p d' := by
        refine hW.1 hverify fun hsome => h.has p ?_
        rcases hp : d₀.fs.get? p with _ | row
        · rw [hp] at hsome
          exact absurd rfl hsome
        · exact Table.has_eq_true.2 ⟨row, hp⟩
      have hbusy : ∃ e' ∈ done ++ [e], ¬ IdleEntry E ctx tree aliases d₀ e' := by
        rcases h.changed with ⟨hd, -⟩ | ⟨⟨e', he', hbusy⟩, -⟩
        · obtain ⟨hcur, htakes, -⟩ := hW.2 (by rw [hd])
          refine ⟨e, by simp, fun hidle => ?_⟩
          rcases hidle p node htarget with hc | ht
          · rw [hcur] at hc
            cases hc
          · rw [← hd, htakes] at ht
            cases ht
        · exact ⟨e', List.mem_append_left _ he', hbusy⟩
      refine ⟨_, d', by rw [bind_of_ok (attempt_of_ok hres)]; rfl, rfl, fun q hq => ?_,
        Or.inr ⟨hbusy, p, mem_seenStep_of_target htarget, hchanged⟩⟩
      by_cases hqp : q = p
      · obtain ⟨row, hrow, -⟩ := hchanged
        rw [hqp]
        exact Table.has_eq_true.2 ⟨row, hrow⟩
      · obtain ⟨row, hrow⟩ := Table.has_eq_true.1 (h.has q hq)
        exact Table.has_eq_true.2 ⟨row, (hfs q hqp).trans hrow⟩

/-- By induction on the entries, the whole walk succeeds. -/
theorem Walked.all (tree : Loc) (aliases : List (Str × Str)) (hundo : ctx.undo = none)
    (hverify : ctx.verifyContent = false) (es : List (Option (Loc × Node))) (seen₀ : List Str)
    (rep₀ : SyncReport) :
    ∃ st d', es.foldlM (syncEntry E ctx tree d.fs aliases) (seen₀, rep₀) d = .ok st d' ∧
      st.1 = es.foldl (seenStep tree aliases) seen₀ ∧ Walked E ctx tree aliases d es st.1 d' := by
  obtain ⟨st, d', hrun, done, hdone, hseen, hw⟩ := foldlM_total
    (f := syncEntry E ctx tree d.fs aliases)
    (J := fun rest st c => ∃ done, es = done ++ rest ∧
      st.1 = done.foldl (seenStep tree aliases) seen₀ ∧
      Walked E ctx tree aliases d done st.1 c)
    (by
      rintro e rest ⟨seen, rep⟩ c ⟨done, hes, hseen, hw⟩
      obtain ⟨st, c', hrun, hst, hw'⟩ := hw.step rep e hundo hverify
      refine ⟨st, c', hrun, done ++ [e], by simp [hes], ?_, hw'⟩
      have hseen' : seen = done.foldl (seenStep tree aliases) seen₀ := hseen
      rw [hst, hseen', List.foldl_append]
      rfl) es (b := (seen₀, rep₀)) (s := d)
    ⟨[], rfl, rfl, fun _ h => h, Or.inl ⟨rfl, by simp⟩⟩
  rw [List.append_nil] at hdone
  rw [← hdone] at hseen hw
  exact ⟨st, d', hrun, hseen, hw⟩

/-- The deletions: the rows of the list are gone, the others and their chunks stay, and nothing
fails. -/
theorem syncDeletes_ok (hundo : ctx.undo = none) :
    ∀ (l : List Str) {rep rep' : SyncReport} {d d' : Db K},
    l.foldlM (syncDelete ctx) rep d = .ok rep' d' →
      (∀ q, d'.fs.get? q = if q ∈ l then none else d.fs.get? q) ∧
      (∀ q i, q ∉ l → d'.chunks.get? (q, i) = d.chunks.get? (q, i)) ∧ rep'.failed = rep.failed
  | [], rep, rep', d, d', h => by
    cases h
    exact ⟨fun q => by rw [if_neg (by simp)], fun _ _ _ => rfl, rfl⟩
  | p :: l, rep, rep', d, d', h => by
    rw [List.foldlM_cons] at h
    -- By induction on the list: one row is deleted, with its chunks, and nothing else.
    obtain ⟨rep₁, d₁, hone, hrest⟩ := bind_eq_ok.1 h
    have hdel : d₁ = (d.delFs fun q => q = p) ∧ rep₁.failed = rep.failed := by
      unfold syncDelete SyncCtx.capture at hone
      rw [hundo] at hone
      obtain ⟨_, d₂, hcap, hone⟩ := bind_eq_ok.1 hone
      cases hcap
      rw [reads_bind] at hone
      obtain ⟨_, d₃, hdel, hone⟩ := bind_eq_ok.1 hone
      cases hone
      refine ⟨deleteFs_ok hdel, ?_⟩
      split_ifs <;> rfl
    obtain ⟨hrows, hchunks, hfailed⟩ := syncDeletes_ok hundo l hrest
    refine ⟨fun q => ?_, fun q i hq => ?_, hfailed.trans hdel.2⟩
    · rw [hrows, hdel.1, Db.get?_delFs]
      by_cases hql : q ∈ l
      · rw [if_pos hql, if_pos (List.mem_cons_of_mem p hql)]
      · rw [if_neg hql]
        by_cases hqp : q = p
        · rw [if_pos (by simpa using hqp), if_pos (by simp [hqp])]
        · rw [if_neg (by simpa using hqp), if_neg (by simp [hqp, hql])]
    · rw [List.mem_cons, not_or] at hq
      rw [hchunks q i hq.2, hdel.1, Db.get?_chunks_delFs i (by simpa using hq.1)]

/-- The sync of a tree is its walk and its deletions. -/
theorem syncBody_eq (d : Db K) : syncBody E ctx fs tree d =
    ((walk fs tree).foldlM (syncEntry E ctx tree d.fs (linkAliases d.links))
        (d.servedLinks (linkAliases d.links), {}) >>= fun st =>
      (((d.fs.rows.map Prod.fst).filter fun p => !isReservedVmPath p && p ∉ st.1).insertionSort
        fun a b => utf8Len b ≤ utf8Len a).foldlM (syncDelete ctx) st.2) d := by
  unfold syncBody
  rw [reads_bind]

/-- An idle sync returns and changes nothing. -/
theorem syncBody_idle (hundo : ctx.undo = none) (hverify : ctx.verifyContent = false)
    (h : d.Idle E ctx fs tree) : ∃ rep, syncBody E ctx fs tree d = .ok rep d := by
  obtain ⟨st, d₁, hwalk, hseen, hw⟩ := Walked.all (E := E) (d := d) tree (linkAliases d.links)
    hundo hverify (walk fs tree) (d.servedLinks (linkAliases d.links)) {}
  have hgone : ((d.fs.rows.map Prod.fst).filter fun p => !isReservedVmPath p && p ∉ st.1) = [] := by
    rw [hseen]
    exact h.rows
  rcases hw.changed with ⟨hd, -⟩ | ⟨⟨e, he, hbusy⟩, -⟩
  · refine ⟨st.2, ?_⟩
    rw [syncBody_eq, bind_of_ok hwalk, hgone, hd]
    rfl
  · exact absurd (h.entries e he) hbusy

/-- A sync that is not idle and returns has changed a row. -/
theorem syncBody_busy (hundo : ctx.undo = none) (hverify : ctx.verifyContent = false)
    (h : ¬ d.Idle E ctx fs tree) {rep : SyncReport} (hrun : syncBody E ctx fs tree d = .ok rep d') :
    ∃ p, (d'.fs.get? p).map (fun r => r.toFsMeta) ≠ (d.fs.get? p).map fun r => r.toFsMeta := by
  obtain ⟨st, d₁, hwalk, hseen, hw⟩ := Walked.all (E := E) (d := d) tree (linkAliases d.links)
    hundo hverify (walk fs tree) (d.servedLinks (linkAliases d.links)) {}
  rw [syncBody_eq, bind_of_ok hwalk] at hrun
  have hgone : ((d.fs.rows.map Prod.fst).filter fun p => !isReservedVmPath p && p ∉ st.1) =
      d.gone fs tree := by
    rw [hseen]
    rfl
  rw [hgone] at hrun
  obtain ⟨hrows, -, -⟩ := syncDeletes_ok hundo _ hrun
  simp only [List.mem_insertionSort] at hrows
  by_cases hnil : d.gone fs tree = []
  · -- Nothing was deleted, so an entry was written.
    rcases hw.changed with ⟨hd, hidle⟩ | ⟨-, p, hp, row, hrow, hne⟩
    · exact absurd ⟨hidle, hnil⟩ h
    · refine ⟨p, ?_⟩
      rw [hrows, hnil, if_neg (by simp), hrow]
      exact fun he => hne he.symm
  · obtain ⟨p, hp⟩ := List.exists_mem_of_ne_nil _ hnil
    refine ⟨p, ?_⟩
    obtain ⟨row, hrow⟩ := Table.mem_keys_iff.1 (List.mem_filter.1 hp).1
    rw [hrows, if_pos hp, hrow]
    simp

end Idle

end Dbvm
