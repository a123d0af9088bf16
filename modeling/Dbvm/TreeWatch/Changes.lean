import Dbvm.TreeWatch.Cover

/-!
# What the watcher is told of a change

A change of the tree with the events it queues, as the invariants need it (`Happens`): what has
changed, and which events are in the queue when it has not overflowed. The order of watches,
descriptors and events (`Orderly`) stays in every step.
-/

namespace Dbvm.Watcher

open Lib Lib.NameTree

variable {s s' : Sys} {t : DirTree Str} {c : Change Str} {p q d : List Str} {x y : Str} {i j wd : ℕ}
  {e : Event} {es : List Event}
  {n : Notice} {f : ℕ → Event}

/-! ## Notices -/

/-- A directory gets the notice. -/
theorem noticeAt_of_isDir (h : t.IsDir p i) (f : ℕ → Event) : noticeAt t p f = [⟨i, f⟩] := by
  obtain ⟨since, hp⟩ := h
  rw [noticeAt, hp]

/-- A notice goes to a directory at the path. -/
theorem of_mem_noticeAt (h : n ∈ noticeAt t p f) : t.IsDir p n.dir ∧ n.event = f := by
  unfold noticeAt at h
  split at h
  · next i since hp =>
    obtain rfl := List.mem_singleton.1 h
    exact ⟨⟨since, hp⟩, rfl⟩
  · cases h

/-- The test finds a directory. -/
theorem hasDir_iff : hasDir t p = true ↔ ∃ i, t.IsDir p i := by
  unfold hasDir DirTree.IsDir
  constructor
  · intro h
    split at h
    · next i since hp => exact ⟨i, since, hp⟩
    · cases h
  · rintro ⟨i, since, hp⟩
    rw [hp]

/-- A notice to a directory that is watched is queued. -/
theorem mem_notify {k : Kernel} {ns : List Notice} (hn : n ∈ ns) (hwd : k.wdOf n.dir = some wd) :
    n.event wd ∈ k.notify ns := by
  refine List.mem_flatMap.2 ⟨n, hn, ?_⟩
  rw [hwd]
  exact List.mem_singleton.2 rfl

/-- An event is a notice to a directory with a watch. -/
theorem of_mem_notify {k : Kernel} {ns : List Notice} (h : e ∈ k.notify ns) :
    ∃ n ∈ ns, ∃ wd, k.active.get? wd = some n.dir ∧ e = n.event wd := by
  obtain ⟨n, hn, he⟩ := List.mem_flatMap.1 h
  obtain ⟨wd, hwd, rfl⟩ := List.mem_map.1 he
  exact ⟨n, hn, wd, Kernel.wdOf_spec (Option.mem_toList.1 hwd), rfl⟩

/-- The events of a change are for their watches, and end none. -/
theorem wd?_of_mem_notices (h : n ∈ notices t c) (wd : ℕ) :
    (n.event wd).wd? = some wd ∧ ∀ wd', n.event wd ≠ .ignored wd' := by
  have hat : ∀ {p f}, n ∈ noticeAt t p f → (f wd).wd? = some wd ∧ (∀ wd', f wd ≠ .ignored wd') →
      (n.event wd).wd? = some wd ∧ ∀ wd', n.event wd ≠ .ignored wd' := by
    intro p f hn hf
    rwa [(of_mem_noticeAt hn).2]
  cases c with
  | make p x b => exact hat h ⟨rfl, by simp⟩
  | alter p x =>
    rcases List.mem_append.1 h with h | h
    · exact hat h ⟨rfl, by simp⟩
    · exact hat h ⟨rfl, by simp⟩
  | remove p x => exact hat h ⟨rfl, by simp⟩
  | move p x q y =>
    rcases List.mem_append.1 h with h | h
    · exact hat h ⟨rfl, by simp⟩
    · rcases List.mem_append.1 h with h | h
      · exact hat h ⟨rfl, by simp⟩
      · exact hat h ⟨rfl, by simp⟩

/-- What an event says to have appeared in a directory has got its name in this change. -/
theorem since_of_mem_notices (h : n ∈ notices t c) (hc : c.May t) (hg : t.Grown) {wd wd' : ℕ}
    {what : What} {isDir : Bool} (he : n.event wd = .entry wd' what isDir x)
    (hwhat : what = .created ∨ what = .movedTo) (hd : (c.after t).IsDir d n.dir)
    {e : NameTree.Entry} (hentry : (c.after t).entry (d ++ [x]) = some e) :
    e.since = t.clock + 1 := by
  have hg' := hg.after hc
  -- the directory of such a notice stays where it is
  have hnew : ∀ {p y f}, n ∈ noticeAt t p f → (∃ b w, f wd = .entry wd w b y) →
      ((c.after t).IsDir p n.dir) →
      (∀ e, (c.after t).entry (p ++ [y]) = some e → e.since = t.clock + 1) →
      e.since = t.clock + 1 := by
    rintro p y f hn ⟨b, w, hf⟩ hstays hsince
    rw [(of_mem_noticeAt hn).2, hf] at he
    injection he with _ _ _ hxy
    rw [← hg'.inj p d n.dir hstays hd] at hentry
    exact hsince e (by rw [hxy, hentry])
  have hnot : ∀ {p f}, n ∈ noticeAt t p f → (∀ what isDir x, f wd = .entry wd' what isDir x →
      what ≠ .created ∧ what ≠ .movedTo) → e.since = t.clock + 1 := by
    intro p f hn hf
    rw [(of_mem_noticeAt hn).2] at he
    obtain ⟨hcreated, hmoved⟩ := hf _ _ _ he
    rcases hwhat with rfl | rfl
    · exact absurd rfl hcreated
    · exact absurd rfl hmoved
  cases c with
  | make p y b =>
    have hne : p ≠ p ++ [y] := by simp
    obtain ⟨since, hp⟩ := (of_mem_noticeAt h).1
    refine hnew h ⟨b, _, rfl⟩ ⟨since, ?_⟩ fun e he => ?_
    · rw [(touches_make hc).other p hne, hp]
    · rw [show ((Change.make p y b).after t).entry (p ++ [y]) = _ from Function.update_self _
        _ _] at he
      rw [← Option.some.inj he]
  | alter p y =>
    rcases List.mem_append.1 h with h | h
    · exact hnot h (by rintro _ _ _ heq; injection heq with _ hw; subst hw; simp)
    · exact hnot h (by rintro _ _ _ heq; injection heq with _ hw; subst hw; simp)
  | remove p y => exact hnot h (by rintro _ _ _ heq; injection heq with _ hw; subst hw; simp)
  | move p y q z =>
    rcases List.mem_append.1 h with h | h
    · exact hnot h (by rintro _ _ _ heq; injection heq with _ hw; subst hw; simp)
    · rcases List.mem_append.1 h with h | h
      · have hmoves := moves_move hc
        refine hnew h ⟨_, _, rfl⟩ ?_ fun e he => ?_
        · refine (hmoves.isDir_iff hg).2 (Or.inr ⟨fun hpre => ?_, hc.2.2.1, (of_mem_noticeAt h).1⟩)
          simpa using hpre.length_le
        · rw [hmoves.entry_dst] at he
          obtain ⟨e', -, rfl⟩ := Option.map_eq_some_iff.1 he
          rfl
      · exact hnot h (by rintro _ _ _ heq; cases heq)

/-! ## Changes -/

/-- What has changed, and what is queued of it. -/
inductive Happens (s s' : Sys) : Prop
  /-- An entry of a directory. -/
  | touch {d : List Str} {x : Str} {i : ℕ} {what : What} {isDir : Bool} : s.tree.IsDir d i →
      NameTree.Touches s.tree s'.tree (d ++ [x]) →
      (∀ wd, s.kernel.active.get? wd = some i → .entry wd what isDir x ∈ s'.kernel.queue) →
      (s.tree.entry (d ++ [x]) = none → ∀ j, s'.tree.IsDir (d ++ [x]) j → what = .created ∧
        isDir = true) → Happens s s'
  /-- An entry has moved to another directory. -/
  | move {d q : List Str} {x y : Str} {i j : ℕ} : s.tree.IsDir d i → s.tree.IsDir q j →
      ¬ d ++ [x] <+: q →
      Moves s.tree s'.tree (d ++ [x]) (q ++ [y]) →
      (∀ wd, s.kernel.active.get? wd = some i → ∃ isDir,
        .entry wd .movedFrom isDir x ∈ s'.kernel.queue) →
      (∀ wd, s.kernel.active.get? wd = some j → ∃ isDir,
        .entry wd .movedTo isDir y ∈ s'.kernel.queue ∧
        ∀ k, s.tree.IsDir (d ++ [x]) k → isDir = true) →
      (∀ k wd, s.tree.IsDir (d ++ [x]) k → s.kernel.active.get? wd = some k →
        .moveSelf wd ∈ s'.kernel.queue) → Happens s s'

/-- A change, when the queue has not overflowed. -/
theorem Orderly.happens (h : Orderly s) (hc : c.May s.tree)
    (hq : Queues s.kernel.queue (s.kernel.notify (notices s.tree c)) es) (hover : .overflow ∉ es) :
    Happens s { s with tree := c.after s.tree, kernel := { s.kernel with queue := es } } := by
  have htold : ∀ {p f i wd}, s.tree.IsDir p i → s.kernel.active.get? wd = some i →
      noticeAt s.tree p f ⊆ notices s.tree c →
      f wd ∈ es := by
    intro p f i wd hp hwd hsub
    refine hq.mem (mem_notify (n := ⟨i, f⟩) (hsub ?_) (h.wdOf hwd)) hover
    rw [noticeAt_of_isDir hp]
    exact List.mem_singleton.2 rfl
  -- Each change gives notice in the directories it touches, and a watched directory has its
  -- notice queued.
  cases c with
  | make p x b =>
    obtain ⟨i, hi⟩ := hc.1
    refine .touch hi (touches_make hc) (fun wd hwd => htold hi hwd (List.Subset.refl _))
      fun _ j hj => ⟨rfl, ?_⟩
    obtain ⟨since, hj⟩ := hj
    rw [show ((Change.make p x b).after s.tree).entry (p ++ [x]) = _ from Function.update_self _
      _ _] at hj
    cases b with
    | true => rfl
    | false => cases hj
  | alter p x =>
    obtain ⟨i, hi⟩ := h.grown.parent p x hc
    exact .touch hi touches_alter (fun wd hwd => htold hi hwd (List.subset_append_left _ _))
      fun hnone => absurd hnone hc
  | remove p x =>
    obtain ⟨i, hi⟩ := h.grown.parent p x hc.1
    exact .touch hi (touches_remove hc) (fun wd hwd => htold hi hwd (List.Subset.refl _))
      fun hnone => absurd hnone hc.1
  | move p x q y =>
    obtain ⟨i, hi⟩ := h.grown.parent p x hc.1
    obtain ⟨j, hj⟩ := hc.2.1
    have hto : noticeAt s.tree q (fun wd => .entry wd .movedTo (hasDir s.tree (p ++ [x])) y) ⊆
      notices s.tree (.move p x q y) :=
      List.Subset.trans (List.subset_append_left _ _) (List.subset_append_right _ _)
    have hself : noticeAt s.tree (p ++ [x]) (fun wd => .moveSelf wd) ⊆ notices s.tree
      (.move p x q y) :=
      List.Subset.trans (List.subset_append_right _ _) (List.subset_append_right _ _)
    exact .move hi hj hc.2.2.1 (moves_move hc)
      (fun wd hwd => ⟨_, htold hi hwd (List.subset_append_left _ _)⟩)
      (fun wd hwd => ⟨_, htold hj hwd hto, fun k hk => hasDir_iff.2 ⟨k, hk⟩⟩) fun k wd hk hwd =>
        htold hk hwd hself

/-! ## Walks -/

/-- What a step of a walk does to the watches, `At` being which directory it finds at a path. -/
inductive Watches (At : List Str → ℕ → Prop) (k : Kernel) (w : TreeWatch) : Kernel →
    TreeWatch → Prop
  /-- Nothing. -/
  | none {w' : TreeWatch} : w'.dirs = w.dirs → Watches At k w k w'
  /-- A directory is watched. -/
  | watch {w' : TreeWatch} {q : List Str} {i : ℕ} : At q i →
      w'.dirs = w.dirs.put (k.addWatch i).1 (vmPathOf q) →
      Watches At k w (k.addWatch i).2 w'

/-- Recording a path changes the paths only. -/
theorem TreeWatch.dirs_record (w : TreeWatch) (m : Bool) (q : List Str) :
    (w.record m q).dirs = w.dirs ∧
    (w.record m q).full = w.full ∧ w.paths ⊆ (w.record m q).paths := by
  unfold TreeWatch.record
  cases m with
  | true => exact ⟨rfl, rfl, List.subset_cons_self _ _⟩
  | false => exact ⟨rfl, rfl, List.Subset.refl _⟩

/-- What a step of a walk leaves as it is. -/
theorem WalkStep.frame {k k' : Kernel} {w w' : TreeWatch} {wk : Walk} {wk' : Option Walk}
    (h : WalkStep t k w wk k' w' wk') :
    Watches t.IsDir k w k' w' ∧ w.paths ⊆ w'.paths ∧ (w.full = true → w'.full = true) ∧
      ∀ wk'', wk' = some wk'' → wk''.mark = wk.mark := by
  have hrecord : ∀ q m, (if skips q then w else w.record m q).dirs = w.dirs ∧
      (if skips q then w else w.record m q).full = w.full ∧
      w.paths ⊆ (if skips q then w else w.record m q).paths := by
    intro q m
    by_cases hq : skips q = true
    · rw [if_pos hq]
      exact ⟨rfl, rfl, List.Subset.refl _⟩
    · rw [if_neg hq]
      exact w.dirs_record m q
  -- Only the steps that record a path touch the paths, and only `watch` touches the watches.
  cases h with
  | missing => exact ⟨.none rfl, List.Subset.refl _, fun _ => rfl, fun _ hnone => by cases hnone⟩
  | @file m q since =>
    obtain ⟨hdirs, hfull, hpaths⟩ := hrecord q m
    exact ⟨.none hdirs, hpaths, fun h => by rw [hfull, h], fun _ hnone => by cases hnone⟩
  | dir => exact ⟨.none rfl, List.Subset.refl _, id, fun _ hsome => by rw [← Option.some.inj hsome]⟩
  | opened => exact ⟨.none rfl, List.Subset.refl _, id,
      fun _ hsome => by rw [← Option.some.inj hsome]⟩
  | unopened => exact ⟨.none rfl, List.Subset.refl _, id,
      fun _ hsome => by rw [← Option.some.inj hsome]⟩
  | skip => exact ⟨.none rfl, List.Subset.refl _, id,
      fun _ hsome => by rw [← Option.some.inj hsome]⟩
  | @watch m q _ st i since hskip hdir =>
    obtain ⟨hdirs, hfull, hpaths⟩ := w.dirs_record m q
    exact ⟨.watch ⟨since, hdir⟩ rfl, hpaths,
      fun h => by rw [← h, ← hfull], fun _ hsome => by rw [← Option.some.inj hsome]⟩
  | @unwatched m q _ st =>
    obtain ⟨hdirs, -, hpaths⟩ := w.dirs_record m q
    exact ⟨.none hdirs, hpaths, fun _ => rfl, fun _ hsome => by rw [← Option.some.inj hsome]⟩
  | unread => exact ⟨.none rfl, List.Subset.refl _, fun _ => rfl,
      fun _ hsome => by rw [← Option.some.inj hsome]⟩
  | lost => exact ⟨.none rfl, List.Subset.refl _, fun _ => rfl,
      fun _ hsome => by rw [← Option.some.inj hsome]⟩
  | foundDir => exact ⟨.none rfl, List.Subset.refl _, id,
      fun _ hsome => by rw [← Option.some.inj hsome]⟩
  | @foundFile m f st x _ _ =>
    obtain ⟨hdirs, hfull, hpaths⟩ := hrecord (f.path ++ [x]) m
    exact ⟨.none hdirs, hpaths,
      fun h => by rw [hfull, h], fun _ hsome => by rw [← Option.some.inj hsome]⟩
  | leave => exact ⟨.none rfl, List.Subset.refl _, id,
      fun _ hsome => by rw [← Option.some.inj hsome]⟩
  | done => exact ⟨.none rfl, List.Subset.refl _, id, fun _ hnone => by cases hnone⟩

/-- A step through a link watches a directory that has a number. -/
theorem FollowStep.frame {k k' : Kernel} {w w' : TreeWatch} {wk : Walk} {wk' : Option Walk}
    (h : FollowStep t k w wk k' w' wk') :
    Watches (fun _ i => i < t.next) k w k' w' ∧ ∀ wk'', wk' = some wk'' → wk''.mark = wk.mark := by
  have hrecord : ∀ q m, (if skips q then w else w.record m q).dirs = w.dirs := by
    intro q m
    by_cases hq : skips q = true
    · rw [if_pos hq]
    · rw [if_neg hq, (w.dirs_record m q).1]
  cases h with
  | root _ => exact ⟨.none (hrecord _ _), fun _ hsome => by rw [← Option.some.inj hsome]⟩
  | file _ => exact ⟨.none (hrecord _ _), fun _ hnone => by cases hnone⟩
  | dir _ => exact ⟨.none rfl, fun _ hsome => by rw [← Option.some.inj hsome]⟩
  | opened _ => exact ⟨.none rfl, fun _ hsome => by rw [← Option.some.inj hsome]⟩
  | @watch m q _ st i _ _ hi =>
      exact ⟨.watch (q := q) hi rfl, fun _ hsome => by rw [← Option.some.inj hsome]⟩

section Watches

variable {At : List Str → ℕ → Prop} {k' : Kernel} {w' : TreeWatch} {v : Str}

/-- A new watch of a directory adds no event. -/
theorem Watches.queue (h : Watches At s.kernel s.w k' w') : k'.queue = s.kernel.queue := by
  cases h with
  | none _ => rfl
  | watch _ _ => exact Kernel.queue_addWatch _ _

/-- What the watcher knows of an active watch stays. -/
theorem Watches.active (h : Watches At s.kernel s.w k' w') (ho : Orderly s)
    (hwd : s.kernel.active.get? wd = some i) :
    k'.active.get? wd = some i := by
  cases h with
  | none _ => exact hwd
  | @watch _ q j hdir _ =>
    obtain ⟨hnew, hother⟩ := Kernel.active_addWatch s.kernel j
    by_cases heq : wd = (s.kernel.addWatch j).1
    · rcases Kernel.addWatch_cases s.kernel j with ⟨hold, hsame⟩ | ⟨hnext, -, -⟩
      · rw [hsame, hwd]
      · obtain ⟨v, hv⟩ := ho.listed wd i hwd
        have hlt := ho.dirs wd v hv
        omega
    · rw [hother wd heq, hwd]

/-- A watch was there, or is the first of its directory and no event is queued for it. -/
theorem Watches.active_back (h : Watches At s.kernel s.w k' w') (hwd : k'.active.get? wd = some i) :
    s.kernel.active.get? wd = some i ∨
      (wd = s.kernel.nextWd ∧ (∃ q, At q i) ∧ ∀ wd', s.kernel.active.get? wd' ≠ some i) := by
  cases h with
  | none _ => exact Or.inl hwd
  | @watch _ q j hdir _ =>
    obtain ⟨hnew, hother⟩ := Kernel.active_addWatch s.kernel j
    by_cases heq : wd = (s.kernel.addWatch j).1
    · rw [heq, hnew] at hwd
      obtain rfl : j = i := Option.some.inj hwd
      rcases Kernel.addWatch_cases s.kernel j with ⟨hold, -⟩ | ⟨hnext, -, hnone⟩
      · exact Or.inl (by rw [heq, hold])
      · exact Or.inr ⟨by rw [heq, hnext], ⟨q, hdir⟩, hnone⟩
    · rw [hother wd heq] at hwd
      exact Or.inl hwd

/-- A path that is known for a watch stays, unless the directory has been found at another one. -/
theorem Watches.dirs (h : Watches At s.kernel s.w k' w') (ho : Orderly s)
    (hv : s.w.dirs.get? wd = some v)
    (hdir : ∀ q i, s.kernel.active.get? wd = some i → At q i → vmPathOf q = v) :
    w'.dirs.get? wd = some v := by
  cases h with
  | none hdirs => rw [hdirs, hv]
  | @watch _ q j hq hdirs =>
    rw [hdirs, Table.get?_put]
    split_ifs with heq
    · rcases Kernel.addWatch_cases s.kernel j with ⟨hold, -⟩ | ⟨hnext, -, -⟩
      · rw [hdir q j (by rw [heq, hold]) hq]
      · have hlt := ho.dirs wd v hv
        omega
    · exact hv

/-- A watch that the watcher knows stays known. -/
theorem Watches.listed (h : Watches At s.kernel s.w k' w') (hv : ∃ v, s.w.dirs.get? wd = some v) :
    ∃ v, w'.dirs.get? wd = some v := by
  cases h with
  | none hdirs => rwa [hdirs]
  | @watch _ q j hq hdirs =>
    rw [hdirs, Table.get?_put]
    split_ifs
    · exact ⟨_, rfl⟩
    · exact hv

end Watches

/-! ## The order of watches and events -/

/-- A change of the tree keeps the watches in order. -/
theorem Orderly.change (h : Orderly s) (hc : c.May s.tree)
    (hq : Queues s.kernel.queue (s.kernel.notify (notices s.tree c)) es) :
    Orderly { s with tree := c.after s.tree, kernel := { s.kernel with queue := es } } := by
  obtain ⟨b, rfl, hb⟩ := hq.append
  -- the new events are for watches that are active, and end none of them
  have hnew : ∀ e ∈ b, (∀ wd, e ≠ .ignored wd) ∧ ∀ wd, e.wd? = some wd → wd < s.kernel.nextWd := by
    intro e he
    rcases hb e he with hmem | rfl
    · obtain ⟨n, hn, wd, hwd, rfl⟩ := of_mem_notify hmem
      obtain ⟨hfor, hends⟩ := wd?_of_mem_notices hn wd
      refine ⟨hends, fun wd' hwd' => ?_⟩
      rw [hfor] at hwd'
      obtain ⟨v, hv⟩ := h.listed wd _ hwd
      rw [← Option.some.inj hwd']
      exact h.dirs wd v hv
    · exact ⟨by simp, fun _ hnone => by cases hnone⟩
  have hclock := c.clock_after s.tree
  have hsince := h.since
  have hupto := h.upto
  refine
    { h with
      grown := h.grown.after hc
      goes := ?_
      ids := ?_
      events := ?_
      since := ?_
      upto := ?_ }
  · intro wd i hwd hmem
    rcases List.mem_append.1 hmem with hmem | hmem
    · exact h.goes wd i hwd hmem
    · exact (hnew _ hmem).1 wd rfl
  · intro wd i hwd
    exact (h.ids wd i hwd).trans_le (hc.next_le h.grown)
  · intro e wd he hwd
    rcases List.mem_append.1 he with he | he
    · exact h.events e wd he hwd
    · exact (hnew e he).2 wd hwd
  · dsimp only
    omega
  · dsimp only
    omega

/-- An event comes for a watch and does not end it. -/
theorem Orderly.outside (h : Orderly s) (hwd : s.kernel.active.get? wd = some i)
    (hfor : e.wd? = some wd) (hends : ∀ wd', e ≠ .ignored wd') (hq : Queues s.kernel.queue [e] es) :
    Orderly { s with kernel := { s.kernel with queue := es } } := by
  obtain ⟨b, rfl, hb⟩ := hq.append
  refine { h with goes := ?_, events := ?_ }
  · intro wd' j hwd' hmem
    rcases List.mem_append.1 hmem with hmem | hmem
    · exact h.goes wd' j hwd' hmem
    · rcases hb _ hmem with hmem | hover
      · exact hends wd' (List.mem_singleton.1 hmem).symm
      · cases hover
  · intro e' wd' he hwd'
    rcases List.mem_append.1 he with he | he
    · exact h.events e' wd' he hwd'
    · rcases hb e' he with he | rfl
      · obtain ⟨v, hv⟩ := h.listed wd i hwd
        rw [List.mem_singleton.1 he, hfor] at hwd'
        rw [← Option.some.inj hwd']
        exact h.dirs wd v hv
      · cases hwd'

/-- A watch ends, with events that say so. -/
theorem Orderly.ended (h : Orderly s) (wd : ℕ) {b : List Event} (hq : Queues s.kernel.queue b es)
    (hb : ∀ e ∈ b, e.wd? = some wd ∧ s.kernel.active.has wd = true) :
    Orderly { s with kernel := {
      s.kernel with active := s.kernel.active.deleteWhere fun wd' _ => wd' = wd, queue :=
      es } } := by
  obtain ⟨b', rfl, hb'⟩ := hq.append
  have hactive : ∀ wd' i, (s.kernel.active.deleteWhere fun wd' _ => wd' = wd).get? wd' = some i →
      wd' ≠ wd ∧ s.kernel.active.get? wd' = some i := by
    intro wd' i hwd'
    rw [Table.get?_deleteWhere_key] at hwd'
    split_ifs at hwd' with heq
    exact ⟨by simpa using heq, hwd'⟩
  -- The watch goes and at most its end or an overflow is queued.
  refine
    { h with
      listed := ?_
      goes := ?_
      one := ?_
      ids := ?_
      events := ?_
      unwatches := ?_
      cleared := ?_ }
  · exact fun wd' i hwd' => h.listed wd' i (hactive wd' i hwd').2
  · intro wd' i hwd' hmem
    obtain ⟨hne, hwd'⟩ := hactive wd' i hwd'
    rcases List.mem_append.1 hmem with hmem | hmem
    · exact h.goes wd' i hwd' hmem
    · rcases hb' _ hmem with hmem | hover
      · exact hne (Option.some.inj (hb _ hmem).1)
      · cases hover
  · exact fun wd₁ wd₂ i h₁ h₂ => h.one wd₁ wd₂ i (hactive wd₁ i h₁).2 (hactive wd₂ i h₂).2
  · exact fun wd' i hwd' => h.ids wd' i (hactive wd' i hwd').2
  · intro e wd' he hwd'
    rcases List.mem_append.1 he with he | he
    · exact h.events e wd' he hwd'
    · rcases hb' e he with he | rfl
      · obtain ⟨hfor, hhas⟩ := hb e he
        obtain ⟨i, hi⟩ := Option.isSome_iff_exists.1 hhas
        obtain ⟨v, hv⟩ := h.listed wd i hi
        rw [hfor] at hwd'
        rw [← Option.some.inj hwd']
        exact h.dirs wd v hv
      · cases hwd'
  · exact fun wds hmode wd' i hwd' => h.unwatches wds hmode wd' i (hactive wd' i hwd').2
  · intro hmode wd'
    obtain ⟨hnone, hdirs⟩ := h.cleared hmode wd'
    refine ⟨?_, hdirs⟩
    rw [Table.get?_deleteWhere_key]
    split_ifs
    · rfl
    · exact hnone

/-- A walk goes on, along directories or through a link. -/
theorem Orderly.walk (h : Orderly s) {At : List Str → ℕ → Prop} {wk : Walk} {k : Kernel}
    {w : TreeWatch} {wk' : Option Walk} (hwk : s.walk = some wk)
    (hw : Watches At s.kernel s.w k w) (hat : ∀ q i, At q i → i < s.tree.next)
    (hmark : ∀ wk'', wk' = some wk'' → wk''.mark = wk.mark) (b : Bool) :
    Orderly { s with kernel := k, w := w, walk := wk', followed := b } := by
  have hbusy : s.mode = .scan ∨ s.mode = .drain := (h.walks wk hwk).imp_right And.left
  have hnext : s.kernel.nextWd ≤ k.nextWd := by
    cases hw with
    | none _ => exact le_refl _
    | @watch _ q j _ _ =>
      rcases Kernel.addWatch_cases s.kernel j with ⟨-, hsame⟩ | ⟨-, hsucc, -⟩
      · rw [hsame]
      · omega
  -- A step of a walk adds at most one watch, of a directory that had none.
  refine { grown := h.grown, listed := ?_, goes := ?_, one := ?_, ids := ?_, dirs := ?_,
           events := ?_, walks := ?_, unwatches := ?_,
           cleared := ?_, since := h.since, upto := h.upto }
  · intro wd i hwd
    dsimp only at hwd ⊢
    cases hw with
    | none hdirs => rw [hdirs]; exact h.listed wd i hwd
    | @watch _ q j _ hdirs =>
      rw [hdirs, Table.get?_put]
      by_cases heq : wd = (s.kernel.addWatch j).1
      · exact ⟨_, if_pos heq⟩
      · rw [(Kernel.active_addWatch s.kernel j).2 wd heq] at hwd
        rw [if_neg heq]
        exact h.listed wd i hwd
  · intro wd i hwd
    dsimp only at hwd ⊢
    rw [hw.queue]
    rcases hw.active_back hwd with hwd | ⟨rfl, -⟩
    · exact h.goes wd i hwd
    · exact fun hmem => absurd (h.events _ _ hmem rfl) (lt_irrefl _)
  · intro wd wd' i hwd hwd'
    rcases hw.active_back hwd with hold | ⟨rfl, -, hnone⟩
    · rcases hw.active_back hwd' with hold' | ⟨rfl, -, hnone⟩
      · exact h.one wd wd' i hold hold'
      · exact absurd hold (hnone wd)
    · rcases hw.active_back hwd' with hold' | ⟨rfl, -⟩
      · exact absurd hold' (hnone wd')
      · rfl
  · intro wd i hwd
    rcases hw.active_back hwd with hwd | ⟨-, ⟨q, hq⟩, -⟩
    · exact h.ids wd i hwd
    · exact hat q i hq
  · intro wd v hv
    dsimp only at hv ⊢
    cases hw with
    | none hdirs =>
      rw [hdirs] at hv
      exact h.dirs wd v hv
    | @watch _ q j _ hdirs =>
      rw [hdirs, Table.get?_put] at hv
      split_ifs at hv with heq
      · rcases Kernel.addWatch_cases s.kernel j with ⟨hold, hsame⟩ | ⟨hnew, hsucc, -⟩
        · obtain ⟨v', hv'⟩ := h.listed _ _ hold
          rw [heq]
          exact (h.dirs _ v' hv').trans_le hnext
        · omega
      · exact (h.dirs wd v hv).trans_le hnext
  · intro e wd he hwd
    dsimp only at he ⊢
    rw [hw.queue] at he
    exact (h.events e wd he hwd).trans_le hnext
  · intro wk'' hwk''
    rw [hmark wk'' hwk'']
    exact h.walks wk hwk
  · intro wds hmode
    rw [show s.mode = .unwatch wds from hmode] at hbusy
    rcases hbusy with hscan | hdrain
    · cases hscan
    · cases hdrain
  · intro hmode
    rw [show s.mode = .redrain from hmode] at hbusy
    rcases hbusy with hscan | hdrain
    · cases hscan
    · cases hdrain

/-! ## Events -/

section Events

variable {w : TreeWatch} {v : Str}

/-- The path of an event. -/
def entryPath (dir name : Str) : Str :=
  if name = [] then dir else normalizeVmPath (dir ++ '/' :: name)

/-- An event of a watch that is not known is dropped. -/
theorem TreeWatch.event_of_none {what : What} {isDir : Bool} {name : Str}
    (h : w.dirs.get? wd = none) :
    w.event (.entry wd what isDir name) = (w, none) := by
  simp only [TreeWatch.event, h]

/-- An event of a watch names the entry in its directory, unless the path is reserved. -/
theorem TreeWatch.event_of_some {what : What} {isDir : Bool} {name : Str}
    (h : w.dirs.get? wd = some v) :
    w.event (.entry wd what isDir name) = if isReservedVmPath (entryPath v name) then (w, none) else
      ({ w with paths := entryPath v name :: w.paths, full := w.full ||
        (isDir && (what = .movedFrom || what = .movedTo)) },
        if isDir && (what = .created || what = .movedTo) then some (entryPath v name)
        else none) := by
  simp only [TreeWatch.event, h, entryPath]
  rfl

/-- An event ends what is known for a watch only when it says so. -/
theorem TreeWatch.get?_dirs_event (w : TreeWatch) (e : Event) :
    (w.event e).1.dirs.get? wd = some v ↔ w.dirs.get? wd = some v ∧ e ≠ .ignored wd := by
  have hsame : ∀ {w' : TreeWatch}, w'.dirs = w.dirs → (∀ wd, e ≠ .ignored wd) →
      (w'.dirs.get? wd = some v ↔ w.dirs.get? wd = some v ∧ e ≠ .ignored wd) := by
    intro w' hdirs hne
    rw [hdirs]
    exact ⟨fun h => ⟨h, hne wd⟩, And.left⟩
  -- Only the end of a watch takes it out of the table.
  cases e with
  | overflow => exact hsame rfl (by simp)
  | ignored wd' =>
    rw [show (w.event (.ignored wd')).1.dirs = w.dirs.deleteWhere fun wd _ => wd = wd' from rfl,
      Table.get?_deleteWhere_key]
    by_cases heq : wd = wd'
    · subst heq
      simp
    · rw [if_neg (by simpa using heq)]
      exact ⟨fun h => ⟨h, fun hi => heq (Event.ignored.inj hi).symm⟩, And.left⟩
  | deleteSelf wd' =>
    unfold TreeWatch.event
    dsimp only
    split
    · exact hsame rfl (by simp)
    · exact hsame rfl (by simp)
  | moveSelf wd' =>
    unfold TreeWatch.event
    dsimp only
    split
    · exact hsame rfl (by simp)
    · exact hsame rfl (by simp)
  | entry wd' what isDir name =>
    cases hdir : w.dirs.get? wd' with
    | none =>
      rw [TreeWatch.event_of_none hdir]
      exact hsame rfl (by simp)
    | some dir =>
      rw [TreeWatch.event_of_some hdir]
      by_cases hres : isReservedVmPath (entryPath dir name) = true
      · rw [if_pos hres]
        exact hsame rfl (by simp)
      · rw [if_neg hres]
        exact hsame rfl (by simp)

/-- What is to be walked has appeared in a directory whose watch is known. -/
theorem TreeWatch.event_walk {w : TreeWatch} {e : Event} {dir : Str}
    (h : (w.event e).2 = some dir) :
    ∃ wd v, w.dirs.get? wd = some v := by
  cases e with
  | overflow => cases h
  | ignored wd => cases h
  | deleteSelf wd =>
    unfold TreeWatch.event at h
    dsimp only at h
    split at h
    · cases h
    · cases h
  | moveSelf wd =>
    unfold TreeWatch.event at h
    dsimp only at h
    split at h
    · cases h
    · cases h
  | entry wd what isDir name =>
    unfold TreeWatch.event at h
    dsimp only at h
    split at h
    · cases h
    · next v hv => exact ⟨wd, v, hv⟩

end Events

/-- Reading an event keeps the watches in order. -/
theorem Orderly.event (h : Orderly s) (hmode : s.mode = .drain ∨ s.mode = .redrain)
    (hq : s.kernel.queue = e :: es) :
    Orderly { s with kernel := { s.kernel with queue := es }, w := (s.w.event e).1,
                     walk := (s.w.event e).2.map fun d => ⟨true, .start (hostNames d), []⟩ } := by
  have hmem : ∀ e' ∈ es, e' ∈ s.kernel.queue := fun e' he' => by
    rw [hq]
    exact List.mem_cons_of_mem _ he'
  refine { grown := h.grown, listed := ?_, goes := ?_, one := h.one, ids := h.ids, dirs := ?_,
           events := ?_, walks := ?_,
           unwatches := ?_, cleared := ?_, since := h.since, upto := h.upto }
  · intro wd i hwd
    obtain ⟨v, hv⟩ := h.listed wd i hwd
    refine ⟨v, (s.w.get?_dirs_event e).2 ⟨hv, fun heq => h.goes wd i hwd ?_⟩⟩
    rw [hq, heq]
    exact List.mem_cons_self
  · exact fun wd i hwd hi => h.goes wd i hwd (hmem _ hi)
  · exact fun wd v hv => h.dirs wd v ((s.w.get?_dirs_event e).1 hv).1
  · exact fun e' wd he' hwd => h.events e' wd (hmem e' he') hwd
  · intro wk hwk
    obtain ⟨dir, hdir, rfl⟩ := Option.map_eq_some_iff.1 hwk
    -- A drain begins a walk where an event asks for one; a scan only drops the watches of removed
    -- directories.
    rcases hmode with hdrain | hredrain
    · exact Or.inr ⟨hdrain, rfl⟩
    · obtain ⟨wd, v, hv⟩ := TreeWatch.event_walk hdir
      rw [(h.cleared hredrain wd).2] at hv
      cases hv
  · intro wds hunwatch
    rw [show s.mode = .unwatch wds from hunwatch] at hmode
    rcases hmode with hdrain | hredrain
    · cases hdrain
    · cases hredrain
  · intro hredrain wd
    obtain ⟨hactive, hdirs⟩ := h.cleared hredrain wd
    refine ⟨hactive, Option.eq_none_iff_forall_ne_some.2 fun v hv => ?_⟩
    rw [((s.w.get?_dirs_event e).1 hv).1] at hdirs
    cases hdirs

/-- Every step keeps the order of watches and events. -/
theorem Orderly.step {c : Option Changes} (h : Orderly s) (hstep : Step s c s') : Orderly s' := by
  -- Changes, events and walks have their own lemmas. The steps between the modes change no watch.
  cases hstep with
  | change hc hq => exact h.change hc hq
  | reap hwd _ hq =>
    refine h.ended _ hq fun e he => ⟨?_, Option.isSome_iff_exists.2 ⟨_, hwd⟩⟩
    rcases List.mem_cons.1 he with rfl | he
    · rfl
    · rw [List.mem_singleton.1 he]
      rfl
  | take hmode =>
    refine { h with walks := ?_, unwatches := fun _ hm => (by cases hm), cleared := fun hm =>
      (by cases hm) }
    intro wk hwk
    rcases h.walks wk hwk with hscan | ⟨hdrain, -⟩
    · rw [hmode] at hscan
      cases hscan
    · rw [hmode] at hdrain
      cases hdrain
  | event hmode _ hq => exact h.event hmode hq
  | walk hwk hstep =>
    obtain ⟨hw, -, -, hmark⟩ := hstep.frame
    exact h.walk hwk hw h.grown.fresh hmark s.followed
  | follow hwk hstep =>
    obtain ⟨hw, hmark⟩ := hstep.frame
    exact h.walk hwk hw (fun _ _ hi => hi) hmark true
  | outside _ hwd _ hfor hends hq => exact h.outside hwd hfor hends hq
  | drained hmode hwalk hq =>
    refine { h with walks := ?_, unwatches := ?_, cleared := ?_, since := ?_, upto := ?_ }
    · intro wk hwk
      rw [show s.walk = some wk from hwk] at hwalk
      cases hwalk
    · intro wds hm wd i hwd
      dsimp only at hm
      split_ifs at hm with hfull
      obtain rfl := Mode.unwatch.inj hm
      obtain ⟨v, hv⟩ := h.listed wd i hwd
      exact List.mem_map.2 ⟨_, Table.get?_eq_some_iff.1 hv, rfl⟩
    · intro hm
      dsimp only at hm
      split_ifs at hm
    · dsimp only
      split_ifs
      · exact h.since
      · exact le_refl _
    · dsimp only
      split_ifs
      · exact h.upto
      · exact le_refl _
  | @unwatch wd wds q hmode hq =>
    have hended := h.ended wd hq fun e he => by
      split_ifs at he with hhas
      · rw [List.mem_singleton.1 he]
        exact ⟨rfl, hhas⟩
      · cases he
    refine { hended with walks := ?_, unwatches := ?_, cleared := fun hm => (by cases hm) }
    · intro wk hwk
      rcases h.walks wk hwk with hscan | ⟨hdrain, -⟩
      · rw [hmode] at hscan
        cases hscan
      · rw [hmode] at hdrain
        cases hdrain
    · intro wds' hm wd' i hwd'
      obtain rfl := Mode.unwatch.inj hm
      dsimp only at hwd'
      rw [Table.get?_deleteWhere_key] at hwd'
      split_ifs at hwd' with heq
      have hmem := h.unwatches _ hmode wd' i hwd'
      exact (List.mem_cons.1 hmem).resolve_left (by simpa using heq)
  | cleared hmode =>
    have hnone : ∀ wd, s.kernel.active.get? wd = none := by
      intro wd
      refine Option.eq_none_iff_forall_ne_some.2 fun i hi => ?_
      exact absurd (h.unwatches _ hmode wd i hi) List.not_mem_nil
    refine
      { h with
        listed := ?_
        dirs := ?_
        walks := ?_
        unwatches := fun _ hm => (by cases hm)
        cleared := ?_ }
    · intro wd i hi
      dsimp only at hi
      rw [hnone wd] at hi
      cases hi
    · intro wd v hv
      dsimp only at hv
      rw [Table.get?_empty] at hv
      cases hv
    · intro wk hwk
      rcases h.walks wk hwk with hscan | ⟨hdrain, -⟩
      · rw [hmode] at hscan
        cases hscan
      · rw [hmode] at hdrain
        cases hdrain
    · exact fun _ wd => ⟨hnone wd, Table.get?_empty wd⟩
  | redrained _ _ _ =>
    exact { h with walks := fun _ _ => Or.inl rfl, unwatches := fun _ hm => (by cases hm),
                   cleared := fun hm => (by cases hm),
                   since := le_refl _ }
  | scanned _ hwalk =>
    refine { h with walks := ?_, unwatches := fun _ hm => (by cases hm), cleared := fun hm =>
      (by cases hm), upto := le_refl _ }
    intro wk hwk
    rw [show s.walk = some wk from hwk] at hwalk
    cases hwalk

end Dbvm.Watcher
