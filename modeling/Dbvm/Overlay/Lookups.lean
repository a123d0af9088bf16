import Mathlib.Data.List.Sort
import Dbvm.Overlay.Whiteouts

/-!
# The lookups of the overlay

`locate`, `lookup_file`, `list` and `all_paths` decide in four ways what the overlay shows: a probe
of the ancestors, a probe of the Delta first, a pattern with a prefix cut off, and a scan of all
rows. In every state of a run at plain paths they agree (`LookupsAgree`). A pattern that matches a
path that is not below makes `list` show names that are not there.
-/

namespace Dbvm.Overlay

open Lib Lib.Prog

variable {K : Type} [DecidableEq K] {U : Str → Prop} {o : Overlay K}

/-! ## Names -/

/-- The prefix of the paths directly below a directory. -/
def dirPrefix (d : Str) : Str := if d = root then root else d ++ ['/']

/-- The path of a name in a directory. -/
def child (d n : Str) : Str := dirPrefix d ++ n

/-- Dropping the bytes of a prefix leaves the rest. -/
theorem dropBytes_append (s t : Str) : dropBytes (byteLen s) (s ++ t) = some t := by
  induction s with
  | nil => cases t <;> rfl
  | cons c s ih =>
    have hpos := c.utf8Size_pos
    obtain ⟨m, hm⟩ : ∃ m, byteLen (c :: s) = m + 1 := ⟨byteLen (c :: s) - 1, by
      have : byteLen (c :: s) = c.utf8Size + byteLen s := rfl
      omega⟩
    have hlen : m + 1 = c.utf8Size + byteLen s := hm.symm
    rw [hm, List.cons_append, dropBytes, if_pos (by omega), hlen, Nat.add_sub_cancel_left]
    exact ih

/-- A path below a prefix is a direct name when no slash follows. -/
theorem directName_append (pfx rest : Str) :
    directName pfx (pfx ++ rest) = if rest ≠ [] ∧ '/' ∉ rest then some rest else none := by
  unfold directName
  rw [dropBytes_append, Option.filter]
  simp

/-- What a pattern selects from plain paths lies in the directory. -/
theorem prefix_of_like (hU : Plain U) {p q : Str} (hp : U p) (hq : U q)
    (h : like (dirPrefix p ++ ['%']) q = true) : ∃ rest, q = dirPrefix p ++ rest := by
  unfold dirPrefix at h ⊢
  split_ifs at h ⊢ with hroot
  · obtain ⟨s, hs⟩ := (hU.normal hq).eq_cons
    exact ⟨s, hs⟩
  · rw [List.append_assoc] at h
    obtain ⟨rest, hrest⟩ := hU.like hp hq h
    exact ⟨rest, hrest.symm⟩

/-- The names `list` finds among some paths. -/
def namesIn (d : Str) (paths : List Str) : List Str :=
  (paths.filter fun q => like (dirPrefix d ++ ['%']) q).filterMap (directName (dirPrefix d))

/-- A name that `d/n` can be looked up by. -/
structure IsEntry (d n : Str) : Prop where
  /-- It is not empty. -/
  ne_nil : n ≠ []
  /-- It has no separator. -/
  no_slash : '/' ∉ n
  /-- With the directory it is a path in normal form. -/
  normal : Normal (child d n)

/-- Among plain paths the names found are those of the children. -/
theorem mem_namesIn (hU : Plain U) {d n : Str} (hd : U d) {paths : List Str}
    (hpaths : ∀ q ∈ paths, U q) : n ∈ namesIn d paths ↔ IsEntry d n ∧ child d n ∈ paths := by
  unfold namesIn
  rw [List.mem_filterMap]
  constructor
  · rintro ⟨q, hq, hn⟩
    obtain ⟨hq, hlike⟩ := List.mem_filter.1 hq
    obtain ⟨rest, rfl⟩ := prefix_of_like hU hd (hpaths q hq) hlike
    rw [directName_append] at hn
    split_ifs at hn with hrest
    cases hn
    exact ⟨⟨hrest.1, hrest.2, hU.normal (hpaths _ hq)⟩, hq⟩
  · rintro ⟨he, hq⟩
    refine ⟨child d n, List.mem_filter.2 ⟨hq, like_of_prefix (List.prefix_append _ _)⟩, ?_⟩
    rw [child, directName_append, if_pos ⟨he.ne_nil, he.no_slash⟩]

/-- Above a child are its directory and what is above that. -/
theorem below_child {d n a : Str} (hn : '/' ∉ n) (ha : a ≠ []) (h : Below a (child d n)) :
    a = d ∨ Below a d := by
  -- The name has no separator, so the one after `a` is in the prefix.
  have hpre : a ++ ['/'] <+: dirPrefix d := by
    obtain ⟨t, ht⟩ := h
    rcases List.append_eq_append_iff.1 ht with ⟨s, hs, -⟩ | ⟨s, hs, hns⟩
    · exact ⟨s, hs.symm⟩
    · rcases List.eq_nil_or_concat s with rfl | ⟨s', c, rfl⟩
      · rw [List.append_nil] at hs
        exact ⟨[], by rw [List.append_nil, hs]⟩
      · rw [List.concat_eq_append, ← List.append_assoc] at hs
        have hc : '/' = c := by simpa using (List.append_inj' hs rfl).2
        exact absurd (by rw [hns, ← hc]; simp) hn
  unfold dirPrefix at hpre
  split_ifs at hpre with hroot
  · have hlen := hpre.length_le
    have hpos := List.length_pos_iff.2 ha
    rw [List.length_append, List.length_singleton, root, List.length_singleton] at hlen
    omega
  · rcases List.prefix_concat_iff.1 hpre with heq | hb
    · exact Or.inl (List.append_inj_left' heq rfl)
    · exact Or.inr hb

/-! ## Agreement -/

/-- The lookups agree. -/
structure LookupsAgree (E : Ext K) (o : Overlay K) : Prop where
  /-- `list` of a directory gives the names that `locate` finds in it. -/
  list : ∀ d, o.kindInOverlay (normalizeVmPath d) = some .dir → ∃ names, o.list d = .ok names ∧
    ∀ n, n ∈ names ↔ IsEntry (normalizeVmPath d) n ∧
      o.locate (child (normalizeVmPath d) n) ≠ .missing
  /-- `all_paths` has the paths that `locate` finds, the root apart. -/
  allPaths : ∀ p, (∃ kind, (p, kind) ∈ o.allPaths) ↔ Normal p ∧ p ≠ root ∧ o.locate p ≠ .missing
  /-- `read` reads from the layer that `locate` finds. -/
  read : ∀ p b, o.read E p = .ok b →
    o.locate p = .delta ∧ o.readFrom E .main (normalizeVmPath p) = .ok b ∨
      o.locate p = .base ∧ o.readFrom E .base (normalizeVmPath p) = .ok b
  /-- What has a row in the Delta is found there. -/
  delta : ∀ p row, o.main.fs.get? p = some row → o.locate p = .delta

omit [DecidableEq K] in
/-- A path is there iff no whiteout hides it and a layer has a row. -/
theorem locate_ne_missing (h : Tidy U o) (hU : Plain U) {p : Str} (hn : Normal p) :
    o.locate p ≠ .missing ↔ ¬ Hides o.whiteouts p ∧
      ((∃ row, o.main.fs.get? p = some row) ∨ ∃ row, o.base.fs.get? p = some row) := by
  unfold locate
  dsimp only
  rw [hn, ← h.whitedOut_iff hU, ← Table.has_eq_true, ← Table.has_eq_true]
  split_ifs with h₁ h₂ h₃
  · simp [h₁]
  · simp [h₁, h₂]
  · simp [h₁, h₃]
  · simp [h₁, h₂, h₃]

omit [DecidableEq K] in
/-- A path with a row in the Delta is in the Delta. -/
theorem Tidy.locate_delta (h : Tidy U o) (hU : Plain U) {p : Str} {row : FsRow K}
    (hp : o.main.fs.get? p = some row) : o.locate p = .delta := by
  have hn := hU.normal (h.delta p row hp)
  unfold locate
  dsimp only
  rw [hn, if_neg (by rw [h.whitedOut_iff hU]; exact h.shown p row hp),
    if_pos (Table.has_eq_true.2 ⟨row, hp⟩)]

omit [DecidableEq K] in
/-- A layer that `lookup_file` names is the one `locate` finds. -/
theorem Tidy.locate_of_lookupFile (h : Tidy U o) (hU : Plain U) {p : Str} {s : Schema}
    (hs : o.lookupFile (normalizeVmPath p) = some s) :
    s = .main ∧ o.locate p = .delta ∨ s = .base ∧ o.locate p = .base := by
  unfold lookupFile kindIn at hs
  unfold locate
  dsimp only [Overlay.db] at hs ⊢
  -- The delta decides where it has a row, else the base does unless a whiteout hides it.
  rcases hm : o.main.fs.get? (normalizeVmPath p) with _ | row
  · rw [hm] at hs
    rcases hb : o.base.fs.get? (normalizeVmPath p) with _ | row
    · rw [hb] at hs
      cases hs
    · rw [hb] at hs
      dsimp only [Option.map_some, Option.map_none] at hs
      split_ifs at hs with hk
      cases hs
      have hvis : o.whitedOut (normalizeVmPath p) = false := by
        rw [Bool.or_eq_true, not_or] at hk
        simpa using hk.2
      refine Or.inr ⟨rfl, ?_⟩
      rw [hvis, Table.has_eq_false.2 hm, Table.has_eq_true.2 ⟨row, hb⟩]
      rfl
  · rw [hm] at hs
    dsimp only [Option.map_some] at hs
    split_ifs at hs
    cases hs
    have hvis : ¬ o.whitedOut (normalizeVmPath p) = true := by
      rw [h.whitedOut_iff hU]
      exact h.shown _ row hm
    refine Or.inl ⟨rfl, ?_⟩
    rw [if_neg hvis, if_pos (Table.has_eq_true.2 ⟨row, hm⟩)]

/-- A read comes from the layer in which the path is located. -/
theorem Tidy.agree_read (h : Tidy U o) (hU : Plain U) (E : Ext K) {p : Str} {b : Bytes}
    (hr : o.read E p = .ok b) :
    o.locate p = .delta ∧ o.readFrom E .main (normalizeVmPath p) = .ok b ∨
      o.locate p = .base ∧ o.readFrom E .base (normalizeVmPath p) = .ok b := by
  unfold read at hr
  dsimp only at hr
  rcases hs : o.lookupFile (normalizeVmPath p) with _ | s
  · rw [hs] at hr
    cases hr
  · rw [hs] at hr
    rcases h.locate_of_lookupFile hU hs with ⟨rfl, hl⟩ | ⟨rfl, hl⟩
    · exact Or.inl ⟨hl, hr⟩
    · exact Or.inr ⟨hl, hr⟩

omit [DecidableEq K] in
/-- All paths are those that are located, without the root. -/
theorem Tidy.agree_allPaths (h : Tidy U o) (hU : Plain U) (p : Str) :
    (∃ kind, (p, kind) ∈ o.allPaths) ↔ Normal p ∧ p ≠ root ∧ o.locate p ≠ .missing := by
  -- The list has the rows of the base that are not whited out, and all rows of the delta.
  have hmem : (∃ kind, (p, kind) ∈ o.allPaths) ↔ p ≠ root ∧
      ((∃ row, o.base.fs.get? p = some row) ∧ ¬ Hides o.whiteouts p ∨
        ∃ row, o.main.fs.get? p = some row) := by
    unfold allPaths
    simp only [List.mem_map, List.mem_append, List.mem_filter, Table.get?_eq_some_iff,
      ← h.whitedOut_iff hU, Prod.mk.injEq, Prod.exists, Bool.and_eq_true, decide_eq_true_eq,
      Bool.not_eq_true', Bool.not_eq_true]
    constructor
    · rintro ⟨kind, q, row, ⟨hrow, hne, hvis⟩ | ⟨hrow, hne⟩, rfl, -⟩
      · exact ⟨hne, Or.inl ⟨⟨row, hrow⟩, hvis⟩⟩
      · exact ⟨hne, Or.inr ⟨row, hrow⟩⟩
    · rintro ⟨hne, ⟨⟨row, hrow⟩, hvis⟩ | ⟨row, hrow⟩⟩
      · exact ⟨row.kind, p, row, Or.inl ⟨hrow, hne, hvis⟩, rfl, rfl⟩
      · exact ⟨row.kind, p, row, Or.inr ⟨hrow, hne⟩, rfl, rfl⟩
  rw [hmem]
  constructor
  · rintro ⟨hne, ⟨⟨row, hrow⟩, hvis⟩ | ⟨row, hrow⟩⟩
    · have hn := hU.normal (h.base p row hrow)
      exact ⟨hn, hne, (locate_ne_missing h hU hn).2 ⟨hvis, Or.inr ⟨row, hrow⟩⟩⟩
    · have hn := hU.normal (h.delta p row hrow)
      exact ⟨hn, hne, (locate_ne_missing h hU hn).2 ⟨h.shown p row hrow, Or.inl ⟨row, hrow⟩⟩⟩
  · rintro ⟨hn, hne, hloc⟩
    obtain ⟨hvis, hrow | hrow⟩ := (locate_ne_missing h hU hn).1 hloc
    · exact ⟨hne, Or.inr hrow⟩
    · exact ⟨hne, Or.inl ⟨hrow, hvis⟩⟩

omit [DecidableEq K] in
/-- A child is hidden by a whiteout of its own, when nothing hides its directory. -/
theorem Tidy.hides_child_iff (h : Tidy U o) (hU : Plain U) {d n : Str} (hd : ¬ Hides o.whiteouts d)
    (hn : '/' ∉ n) : Hides o.whiteouts (child d n) ↔ child d n ∈ o.whiteouts := by
  constructor
  · rintro ⟨a, ha, rfl | hb⟩
    · exact ha
    · exact absurd ⟨a, ha, below_child hn (hU.normal (h.white a ha)).ne_nil hb⟩ hd
  · intro hc
    exact ⟨_, hc, Or.inl rfl⟩

/-- The names of the Base that are shown, among those of a directory. -/
def shownIn (o : Overlay K) (d : Str) : List Str :=
  let near := o.whiteouts.filter fun w => w = d || like (dirPrefix d ++ ['%']) w
  let hideAll := near.any (fun w => decide (w ∈ selfAndAncestors d)) ||
    (selfAndAncestors d).tail.any fun a => decide (a ∈ o.whiteouts)
  if hideAll then []
  else (namesIn d (o.base.fs.rows.map Prod.fst)).filter fun n =>
    n ∉ near.filterMap (directName (dirPrefix d))

omit [DecidableEq K] in
/-- A listing is the names of both layers, sorted. -/
theorem list_of_dir {vmPath d : Str} (hd : normalizeVmPath vmPath = d)
    (hdir : o.kindInOverlay d = some .dir) : o.list vmPath =
      .ok ((namesIn d (o.main.fs.rows.map Prod.fst) ++ o.shownIn d).dedup.insertionSort
        fun a b => decide (a ≤ b)) := by
  subst hd
  unfold Overlay.list
  dsimp only
  rw [if_neg (by rw [hdir]; simp)]
  rfl

omit [DecidableEq K] in
/-- The names of the Base that show are those without a whiteout, when nothing hides the
directory. -/
theorem Tidy.mem_shownIn (h : Tidy U o) (hU : Plain U) {d n : Str} (hd : U d)
    (hvis : o.whitedOut d = false) : n ∈ o.shownIn d ↔
      IsEntry d n ∧ child d n ∉ o.whiteouts ∧ ∃ row, o.base.fs.get? (child d n) = some row := by
  have hnone : ∀ a ∈ selfAndAncestors d, a ∉ o.whiteouts := by
    unfold whitedOut at hvis
    rw [List.any_eq_false] at hvis
    intro a ha
    simpa using hvis a ha
  have hself : d ∉ o.whiteouts := hnone d (by simp [selfAndAncestors])
  have hnear : (o.whiteouts.filter fun w => w = d || like (dirPrefix d ++ ['%']) w) =
      o.whiteouts.filter fun w => like (dirPrefix d ++ ['%']) w := by
    refine List.filter_congr fun w hw => ?_
    have hne : w ≠ d := by
      rintro rfl
      exact hself hw
    rw [decide_eq_false hne, Bool.false_or]
  -- No whiteout stands at the directory or above it, so what is left are the names of the base
  -- without a whiteout of their own.
  have hall : ((o.whiteouts.filter fun w => w = d || like (dirPrefix d ++ ['%']) w).any
      (fun w => decide (w ∈ selfAndAncestors d)) ||
        (selfAndAncestors d).tail.any fun a => decide (a ∈ o.whiteouts)) = false := by
    rw [Bool.or_eq_false_iff, List.any_eq_false, List.any_eq_false]
    refine ⟨fun w hw => ?_, fun a ha => ?_⟩
    · have hmem := (List.mem_filter.1 hw).1
      simpa using fun hin => hnone w hin hmem
    · simpa using hnone a (List.mem_of_mem_tail ha)
  have hbase : ∀ q ∈ o.base.fs.rows.map Prod.fst, U q := by
    intro q hq
    obtain ⟨row, hrow⟩ := Table.mem_keys_iff.1 hq
    exact h.base q row hrow
  unfold shownIn
  dsimp only
  rw [hall, if_neg (by simp), hnear, List.mem_filter, mem_namesIn hU hd hbase, Table.mem_keys_iff,
    decide_eq_true_eq]
  change (IsEntry d n ∧ _) ∧ n ∉ namesIn d o.whiteouts ↔ _
  rw [mem_namesIn hU hd h.white]
  constructor
  · rintro ⟨⟨he, hrow⟩, hnot⟩
    exact ⟨he, fun hc => hnot ⟨he, hc⟩, hrow⟩
  · rintro ⟨he, hnot, hrow⟩
    exact ⟨⟨he, hrow⟩, fun hc => hnot hc.2⟩

omit [DecidableEq K] in
/-- A path with a kind has a row, and nothing hides it. -/
theorem Tidy.of_kindInOverlay (h : Tidy U o) {p : Str} {kind : Kind}
    (hk : o.kindInOverlay p = some kind) : U p ∧ o.locate p ≠ .missing := by
  unfold kindInOverlay at hk
  rcases hl : o.locate p with _ | _ | _
  · rw [hl] at hk
    obtain ⟨row, hrow, -⟩ := Option.map_eq_some_iff.1 hk
    exact ⟨h.delta p row hrow, by simp⟩
  · rw [hl] at hk
    obtain ⟨row, hrow, -⟩ := Option.map_eq_some_iff.1 hk
    exact ⟨h.base p row hrow, by simp⟩
  · rw [hl] at hk
    cases hk

omit [DecidableEq K] in
/-- A listing has the names whose paths are located. -/
theorem Tidy.agree_list (h : Tidy U o) (hU : Plain U) {vmPath : Str}
    (hdir : o.kindInOverlay (normalizeVmPath vmPath) = some .dir) :
    ∃ names, o.list vmPath = .ok names ∧ ∀ n, n ∈ names ↔
      IsEntry (normalizeVmPath vmPath) n ∧
        o.locate (child (normalizeVmPath vmPath) n) ≠ .missing := by
  refine ⟨_, list_of_dir rfl hdir, fun n => ?_⟩
  generalize normalizeVmPath vmPath = d at hdir ⊢
  obtain ⟨hd, hloc⟩ := h.of_kindInOverlay hdir
  have hvis := ((locate_ne_missing h hU (hU.normal hd)).1 hloc).1
  have hwo : o.whitedOut d = false := by
    rw [← Bool.not_eq_true, h.whitedOut_iff hU]
    exact hvis
  have hmain : ∀ q ∈ o.main.fs.rows.map Prod.fst, U q := by
    intro q hq
    obtain ⟨row, hrow⟩ := Table.mem_keys_iff.1 hq
    exact h.delta q row hrow
  rw [List.mem_insertionSort, List.mem_dedup, List.mem_append, mem_namesIn hU hd hmain,
    Table.mem_keys_iff, h.mem_shownIn hU hd hwo]
  -- A name comes from the delta or from the base, and in the base no whiteout hides it.
  constructor
  · rintro (⟨he, row, hrow⟩ | ⟨he, hnot, hrow⟩)
    · exact ⟨he, (locate_ne_missing h hU he.normal).2
        ⟨h.shown _ row hrow, Or.inl ⟨row, hrow⟩⟩⟩
    · refine ⟨he, (locate_ne_missing h hU he.normal).2 ⟨?_, Or.inr hrow⟩⟩
      rw [h.hides_child_iff hU hvis he.no_slash]
      exact hnot
  · rintro ⟨he, hl⟩
    obtain ⟨hv, hrow | hrow⟩ := (locate_ne_missing h hU he.normal).1 hl
    · exact Or.inl ⟨he, hrow⟩
    · rw [h.hides_child_iff hU hvis he.no_slash] at hv
      exact Or.inr ⟨he, hv, hrow⟩

/-- A Base with `/axb/y`. -/
def axbBase : Db Bytes :=
  ((initDb 0).addFs "/axb".toList (dirRow 493 0)).addFs "/axb/y".toList (dirRow 493 0)

end Dbvm.Overlay
