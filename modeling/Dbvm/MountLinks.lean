import Dbvm.LinkParents

/-!
# Link texts of a mounted VM

A mount shows a stored symlink target under another text (`mount_link_text` in `src/owner.rs`): the
kernel would resolve an absolute target against the root of the host, so it is shown as a path from
the directory of the link. The text is compared with the hop the VM itself takes at the link
(`linkNext`, normalised, the step of `resolve_path`): the kernel walks it component by component
inside the mount, where a `..` at the mount root leaves the mount.
-/

namespace Dbvm

open Lib Lib.Namei

/-! ## The text -/

/-- The components of a VM path with `.` and `..` resolved, not climbing above the root:
`split_components`. -/
def splitComponents (p : Str) : List Str := (p.splitOn '/').foldl pushSegment []

/-- The components of the directory that contains `p`: `parent_components`. -/
def parentComponents (p : Str) : List Str := (splitComponents p).dropLast

/-- The number of components two paths have in common at their beginning. -/
def commonLength (src dst : List Str) : ℕ := ((src.zip dst).takeWhile fun ab => ab.1 == ab.2).length

/-- The text a mounted VM shows for a stored symlink target: `mount_link_text`. -/
def mountLinkText (linkVmPath storedTarget : Str) : Str :=
  if storedTarget.head? ≠ some '/' then storedTarget
  else
    let src := parentComponents linkVmPath
    let dst := splitComponents storedTarget
    let common := commonLength src dst
    let out := List.replicate (src.length - common) ['.', '.'] ++ dst.drop common
    if out = [] then ['.'] else List.intercalate ['/'] out

/-! ## The walk of the kernel -/

/-- One component of a text inside the mount. Above the mount root lies the host. -/
def mountHop (dir : List Str) : Hop Str → Option (List Str)
  | .up => if dir = [] then none else some dir.dropLast
  | .into n => some (dir ++ [n])

/-- Where a link text leads from a directory of the mount, component by component; `none` when it
leaves the mount, as a text with a slash in front does at once. -/
def mountWalk (dir : List Str) (text : Str) : Option (List Str) :=
  if text.head? = some '/' then none else (hopsOf text).foldlM mountHop dir

/-- The place of a link in the mount. -/
structure LinkView where
  /-- The directory of the link. -/
  dir : List Str
  /-- Its name. -/
  name : Str
  isName : ∀ c ∈ dir ++ [name], IsName c

/-- Its view path. -/
def LinkView.path (v : LinkView) : Str := ofNames (v.dir ++ [v.name])

/-- The text the mount shows for a target stays in the mount, and leads where the VM's own hop
leads. -/
def KeepsMeaning (v : LinkView) (target : Str) : Prop :=
  ∃ dir, mountWalk v.dir (mountLinkText v.path target) = some dir ∧
    pathOf dir = normalizeVmPath (linkNext v.path target)

/-! ## When it does -/

/-- A text ends in white space. -/
def EndsBlank (s : Str) : Prop := ∃ c ∈ s.getLast?, isWhitespace c = true

/-- At no point of a walk that begins `depth` levels down have there been more steps up than levels
to leave. -/
def StaysBelow (depth : ℕ) (hops : List (Hop Str)) : Prop :=
  ∀ taken, taken <+: hops → taken.count .up ≤ depth + taken.countP (· ≠ .up)

/-- The targets whose text keeps its meaning. -/
def Mountable (v : LinkView) (target : Str) : Prop :=
  ¬ EndsBlank target ∧
    if target.head? = some '/' then ¬ EndsBlank (normalizeVmPath target)
    else StaysBelow v.dir.length (hopsOf target)

/-! ## Components as steps -/

section Hops

variable {dir cs : List Str} {s t : Str}

/-- One component of a VM path: the root is above itself. -/
def vmHop (dir : List Str) : Hop Str → List Str
  | .up => dir.dropLast
  | .into n => dir ++ [n]

/-- The loop of `normalize_vm_path` takes the steps of the components. -/
theorem foldl_pushSegment_eq (segs : List Str) : ∀ dir : List Str,
    segs.foldl pushSegment dir = (segs.filterMap fun seg =>
      if seg = [] ∨ seg = ['.'] then none else if seg = ['.', '.'] then some .up
      else some (.into seg)).foldl vmHop dir := by
  induction segs with
  | nil => exact fun _ => rfl
  | cons seg segs ih =>
    intro dir
    rw [List.foldl_cons, ih, List.filterMap_cons]
    by_cases hskip : seg = [] ∨ seg = ['.']
    · simp only [pushSegment, if_pos hskip]
    · by_cases hup : seg = ['.', '.']
      · simp only [pushSegment, if_neg hskip, if_pos hup, List.foldl_cons, vmHop]
      · simp only [pushSegment, if_neg hskip, if_neg hup, List.foldl_cons, vmHop]

/-- The components of a path are where its steps lead from the root. -/
theorem splitComponents_eq (s : Str) : splitComponents s = (hopsOf s).foldl vmHop [] :=
  foldl_pushSegment_eq _ []

/-- The components of a text are names. -/
theorem isName_splitComponents (s : Str) : ∀ c ∈ splitComponents s, IsName c :=
  foldl_pushSegment_isName (fun _ hseg => not_mem_of_mem_splitOn hseg) (by simp)

/-- The empty text has no step. -/
@[simp] theorem hopsOf_nil : hopsOf [] = [] := by decide

/-- The steps of a text are those before a slash and those after it. -/
theorem hopsOf_append_slash (s t : Str) : hopsOf (s ++ '/' :: t) = hopsOf s ++ hopsOf t := by
  have hsplit : (s ++ '/' :: t).splitOn '/' = s.splitOn '/' ++ t.splitOn '/' :=
    List.splitOnP_append_cons s t (by simp)
  rw [hopsOf, hsplit, List.filterMap_append]
  rfl

/-- A slash in front adds no step. -/
theorem hopsOf_slash_cons (s : Str) : hopsOf ('/' :: s) = hopsOf s := by
  have h := hopsOf_append_slash [] s
  rwa [List.nil_append, hopsOf_nil, List.nil_append] at h

/-- A text without slashes is one component. -/
theorem hopsOf_of_not_mem (h : '/' ∉ s) : hopsOf s =
    if s = [] ∨ s = ['.'] then [] else if s = ['.', '.'] then [.up] else [.into s] := by
  have hsplit : s.splitOn '/' = [s] :=
    List.splitOnP_eq_singleton fun c hc => beq_eq_false_iff_ne.2 fun he : c = '/' => h (he ▸ hc)
  rw [hopsOf, hsplit]
  split_ifs <;> simp [*]

/-- A round of `replace("//", "/")` removes empty components. -/
theorem hopsOf_replaceDoubleSlash (s : Str) : ∀ t, '/' ∉ t →
    hopsOf (t ++ replaceDoubleSlash s) = hopsOf (t ++ s) := by
  induction s using replaceDoubleSlash.induct with
  | case1 s ih =>
    intro t _
    rw [replaceDoubleSlash, hopsOf_append_slash, hopsOf_append_slash, hopsOf_slash_cons]
    exact congrArg _ (ih [] (by simp))
  | case2 c s hne ih =>
    intro t ht
    rw [replaceDoubleSlash]
    · by_cases hc : c = '/'
      · rw [hc, hopsOf_append_slash, hopsOf_append_slash]
        exact congrArg _ (ih [] (by simp))
      · have hstep := ih (t ++ [c]) (by simp [ht, Ne.symm hc])
        simpa using hstep
    · exact hne
  | case3 => exact fun _ _ => rfl

/-- Collapsing slashes changes no step. -/
theorem hopsOf_collapseSlashes (fuel : ℕ) : ∀ s, hopsOf (collapseSlashes fuel s) = hopsOf s := by
  induction fuel with
  | zero => exact fun _ => rfl
  | succ fuel ih =>
    intro s
    rw [collapseSlashes]
    split_ifs
    · rw [ih]
      exact hopsOf_replaceDoubleSlash s [] (by simp)
    · rfl

/-- Slashes in front and at the end, and doubled ones, add no component. -/
theorem hopsOf_slashForm (p : Str) : hopsOf (slashForm p) = hopsOf (trim p) := by
  have hfront : hopsOf (if (trim p).head? = some '/' then trim p else '/' :: trim p) = hopsOf
    (trim p) := by
    split_ifs
    · rfl
    · exact hopsOf_slash_cons _
  unfold slashForm
  dsimp only
  rw [hopsOf_collapseSlashes, ← hfront]
  generalize (if (trim p).head? = some '/' then trim p else '/' :: trim p) = s
  split_ifs with hlast
  · -- the last character is a slash
    obtain ⟨r, rfl⟩ : ∃ r, s = r ++ ['/'] := by
      obtain ⟨c, hc⟩ := List.getLast?_eq_some_iff.1 hlast.2
      exact ⟨c, hc⟩
    rw [List.dropLast_concat, hopsOf_append_slash, hopsOf_nil, List.append_nil]
  · rfl

/-- Normalisation keeps the components of the trimmed text. -/
theorem normalizeVmPath_eq (p : Str) : normalizeVmPath p = pathOf (splitComponents (trim p)) := by
  have hparts : ((slashForm p).splitOn '/').foldl pushSegment [] = splitComponents (trim p) := by
    rw [splitComponents_eq, ← hopsOf_slashForm]
    exact foldl_pushSegment_eq _ []
  unfold normalizeVmPath pathOf
  dsimp only
  rw [hparts]
  split_ifs with hnil
  · rfl
  · exact (ofNames_eq_intercalate hnil).symm

end Hops

/-! ## White space at the end -/

section Blanks

variable {cs : List Str} {s t : Str}

/-- A slash is no white space. -/
theorem not_isWhitespace_slash : isWhitespace '/' = false := by decide

/-- What trimming a text with a slash in front leaves, and the blanks it takes away. -/
theorem exists_blanks (s : Str) : ∃ w, '/' :: s = trim ('/' :: s) ++ w ∧
    (∀ c ∈ w, isWhitespace c = true) ∧ (w = [] ↔ ¬ EndsBlank ('/' :: s)) := by
  obtain ⟨w, hw⟩ := trim_prefix (s := s)
  have htrim : trim ('/' :: s) = (('/' :: s).reverse.dropWhile isWhitespace).reverse := by
    rw [trim, List.dropWhile_cons_of_neg (by decide)]
  have hblank : w.reverse = ('/' :: s).reverse.takeWhile isWhitespace := by
    have hsplit := List.takeWhile_append_dropWhile (p := isWhitespace) (l := ('/' :: s).reverse)
    have hrev := congrArg List.reverse hw
    rw [List.reverse_append, htrim, List.reverse_reverse] at hrev
    exact List.append_cancel_right (hrev.trans hsplit.symm)
  refine ⟨w, hw.symm, fun c hc => ?_, ?_⟩
  · have hmem : c ∈ ('/' :: s).reverse.takeWhile isWhitespace := by rw [← hblank]; simpa using hc
    exact List.mem_takeWhile_imp hmem
  · have hself : w = [] ↔ trim ('/' :: s) = '/' :: s := by
      constructor
      · rintro rfl
        rwa [List.append_nil] at hw
      · intro ht
        rw [ht] at hw
        exact List.append_right_eq_self.1 hw
    rw [hself, trim_eq_self_iff, EndsBlank]
    simp

/-- A path of names is normal when it does not end in a blank. -/
theorem normal_pathOf_iff (h : ∀ c ∈ cs, IsName c) :
    Normal (pathOf cs) ↔ ¬ EndsBlank (pathOf cs) := by
  by_cases hne : cs = []
  · subst hne
    exact iff_of_true (by decide) (by simp [EndsBlank, root, not_isWhitespace_slash])
  · obtain ⟨s, hs⟩ : ∃ s, ofNames cs = '/' :: s := by
      obtain ⟨d, ds, rfl⟩ := List.exists_cons_of_ne_nil hne
      exact ⟨d ++ ofNames ds, rfl⟩
    rw [pathOf, if_neg hne]
    have hiff : trim (ofNames cs) = ofNames cs ↔ ¬ EndsBlank (ofNames cs) := by
      rw [hs, trim_eq_self_iff, EndsBlank]
      simp
    rw [← hiff]
    constructor
    · intro hnormal
      by_contra hall
      have hlt := shorter_of_trim hne h hall
      rw [hnormal] at hlt
      omega
    · exact normal_of_trim hne h

/-- Normalising a path of names does not lengthen it. -/
theorem length_normalizeVmPath_pathOf (h : ∀ c ∈ cs, IsName c) :
    (normalizeVmPath (pathOf cs)).length ≤ (pathOf cs).length := by
  by_cases hne : cs = []
  · subst hne
    decide
  · rw [pathOf, if_neg hne]
    rcases normal_or_shorter hne h with hnormal | hlt
    · rw [hnormal]
    · exact hlt.le

/-- A text that does not end in a blank is normalised to the path of its components. -/
theorem normalizeVmPath_of_not_endsBlank (h : ¬ EndsBlank ('/' :: s)) :
    normalizeVmPath ('/' :: s) = pathOf (splitComponents ('/' :: s)) := by
  obtain ⟨w, hw, -, hiff⟩ := exists_blanks s
  rw [hiff.2 h, List.append_nil] at hw
  rw [normalizeVmPath_eq, ← hw]

/-- A text that ends in a blank has a last component that does, and loses it in normalisation. -/
theorem length_lt_of_endsBlank (h : EndsBlank ('/' :: s)) :
    (normalizeVmPath ('/' :: s)).length < (pathOf (splitComponents ('/' :: s))).length := by
  obtain ⟨w, hw, hblank, hiff⟩ := exists_blanks s
  have hwne : w ≠ [] := fun hnil => hiff.1 hnil h
  have hslash : '/' ∉ w := fun hmem => by simpa [not_isWhitespace_slash] using hblank _ hmem
  -- the trimmed text and its last component
  obtain ⟨v, l, hu, hl⟩ : ∃ v l, trim ('/' :: s) = v ++ '/' :: l ∧ '/' ∉ l := by
    have hmem : '/' ∈ (trim ('/' :: s)).reverse := by
      have : '/' ∈ trim ('/' :: s) ++ w := by rw [← hw]; simp
      simpa [hslash] using this
    obtain ⟨as, bs, hrev, hnot⟩ := List.eq_append_cons_of_mem hmem
    exact ⟨bs.reverse,
      as.reverse, by rw [← List.reverse_reverse (trim _), hrev]; simp, by simpa using hnot⟩
  have hlast : hopsOf (l ++ w) = [.into (l ++ w)] := by
    obtain ⟨b, hb⟩ := List.exists_mem_of_ne_nil w hwne
    have hdot : ∀ d : Str, (∀ c ∈ d, c = '.') → l ++ w ≠ d := by
      intro d hd he
      have hc : b = '.' := hd b (by rw [← he]; simp [hb])
      have hws := hblank b hb
      rw [hc] at hws
      exact absurd hws (by decide)
    rw [hopsOf_of_not_mem (by simp [hl, hslash]), if_neg, if_neg (hdot _ (by simp))]
    exact not_or.2 ⟨hdot _ (by simp), hdot _ (by simp)⟩
  have hwhole : splitComponents ('/' :: s) = splitComponents v ++ [l ++ w] := by
    rw [splitComponents_eq, hw, hu, List.append_assoc, List.cons_append, hopsOf_append_slash, hlast,
      List.foldl_append, ← splitComponents_eq]
    rfl
  have htrimmed : splitComponents (trim ('/' :: s)) = pushSegment (splitComponents v) l := by
    have hsplit : (v ++ '/' :: l).splitOn '/' = v.splitOn '/' ++ [l] := by
      have hone : l.splitOn '/' = [l] :=
        List.splitOnP_eq_singleton fun c hc => beq_eq_false_iff_ne.2 fun he : c = '/' =>
        hl (he ▸ hc)
      rw [← hone]
      exact List.splitOnP_append_cons v l (by simp)
    rw [hu, splitComponents, hsplit, List.foldl_append]
    rfl
  have hlen := length_pushSegment_le (splitComponents v) l
  have hpos := List.length_pos_iff.2 hwne
  have hlong : (pathOf (splitComponents v ++ [l ++ w])).length =
      (ofNames (splitComponents v)).length + (l.length + w.length + 1) := by
    rw [pathOf_concat, ofNames_append, ofNames_cons]
    simp
  rw [normalizeVmPath_eq, hwhole, htrimmed, hlong, pathOf]
  split_ifs
  · rw [root, List.length_singleton]
    omega
  · omega

end Blanks

/-! ## The walk -/

section Walk

variable {dir cs src dst : List Str} {s t : Str} {hops : List (Hop Str)}

/-- Without a step left nothing climbs. -/
theorem staysBelow_nil (depth : ℕ) : StaysBelow depth [] := by
  intro taken h
  rw [List.prefix_nil.1 h]
  simp

/-- A step into a name goes one level deeper. -/
theorem staysBelow_into {depth : ℕ} {n : Str} :
    StaysBelow depth (.into n :: hops) ↔ StaysBelow (depth + 1) hops := by
  constructor
  · intro h taken htaken
    have hle := h (.into n :: taken) (List.cons_prefix_cons.2 ⟨rfl, htaken⟩)
    rw [List.count_cons_of_ne (by simp), List.countP_cons_of_pos (by simp)] at hle
    omega
  · intro h taken htaken
    rcases taken with _ | ⟨x, taken⟩
    · simp
    · obtain ⟨rfl, htail⟩ := List.cons_prefix_cons.1 htaken
      have hle := h taken htail
      rw [List.count_cons_of_ne (by simp), List.countP_cons_of_pos (by simp)]
      omega

/-- A step up needs a level to climb. -/
theorem staysBelow_up {depth : ℕ} :
    StaysBelow depth (.up :: hops) ↔ depth ≠ 0 ∧ StaysBelow (depth - 1) hops := by
  constructor
  · intro h
    have hpos := h [.up] (by simp)
    rw [List.count_singleton_self, List.countP_cons_of_neg (by simp), List.countP_nil] at hpos
    refine ⟨by omega, fun taken htaken => ?_⟩
    have hle := h (.up :: taken) (List.cons_prefix_cons.2 ⟨rfl, htaken⟩)
    rw [List.count_cons_self, List.countP_cons_of_neg (by simp)] at hle
    omega
  · rintro ⟨hpos, h⟩ taken htaken
    rcases taken with _ | ⟨x, taken⟩
    · simp
    · obtain ⟨rfl, htail⟩ := List.cons_prefix_cons.1 htaken
      have hle := h taken htail
      rw [List.count_cons_self, List.countP_cons_of_neg (by simp)]
      omega

/-- The kernel walks as the VM does as long as it stays in the mount. -/
theorem foldlM_mountHop (hops : List (Hop Str)) : ∀ dir r : List Str,
    hops.foldlM mountHop dir = some r ↔ StaysBelow dir.length hops ∧ hops.foldl vmHop dir = r := by
  induction hops with
  | nil => simp [staysBelow_nil]
  | cons hop hops ih =>
    intro dir r
    cases hop with
    | up =>
      rw [List.foldlM_cons, List.foldl_cons, staysBelow_up, mountHop, vmHop]
      by_cases hnil : dir = []
      · simp [hnil]
      · rw [if_neg hnil, Option.bind_eq_bind, Option.bind_some, ih, List.length_dropLast]
        simp [hnil]
    | into n =>
      rw [List.foldlM_cons, List.foldl_cons, staysBelow_into, mountHop, vmHop, Option.bind_eq_bind,
        Option.bind_some, ih, List.length_append, List.length_singleton]

/-- Names lead down and never out of the mount. -/
theorem foldlM_mountHop_names (cs : List Str) : ∀ dir : List Str,
    (cs.map Hop.into).foldlM mountHop dir = some (dir ++ cs) := by
  induction cs with
  | nil => simp
  | cons c cs ih =>
    intro dir
    rw [List.map_cons, List.foldlM_cons, mountHop, Option.bind_eq_bind, Option.bind_some, ih,
      List.append_assoc]
    rfl

/-- As many steps up as there are names lead above the names. -/
theorem foldlM_mountHop_ups (dir cs : List Str) :
    (List.replicate cs.length Hop.up).foldlM mountHop (dir ++ cs) = some dir := by
  induction cs using List.reverseRecOn with
  | nil => simp
  | append_singleton cs c ih =>
    rw [List.length_append, List.length_singleton, List.replicate_succ, List.foldlM_cons, mountHop,
      if_neg (by simp), Option.bind_eq_bind, Option.bind_some, ← List.append_assoc,
      List.dropLast_concat]
    exact ih

/-- Up to where they part, two paths are the same. -/
theorem take_commonLength (src : List Str) : ∀ dst : List Str,
    src.take (commonLength src dst) = dst.take (commonLength src dst) ∧
      commonLength src dst ≤ src.length := by
  induction src with
  | nil => simp [commonLength]
  | cons a src ih =>
    intro dst
    rcases dst with _ | ⟨b, dst⟩
    · simp [commonLength]
    · obtain ⟨htake, hle⟩ := ih dst
      by_cases hab : a = b
      · have hlen : commonLength (a :: src) (b :: dst) = commonLength src dst + 1 := by
          simp [commonLength, hab]
        rw [hlen, List.take_succ_cons, List.take_succ_cons, htake, hab, List.length_cons]
        exact ⟨rfl, by omega⟩
      · have hlen : commonLength (a :: src) (b :: dst) = 0 := by
          simp [commonLength, hab]
        rw [hlen]
        simp

/-- The text of a path from one directory to another leads there. -/
theorem mountWalk_relative (hdst : ∀ c ∈ dst, IsName c) {k : ℕ} (hk : k = commonLength src dst)
    {out : List Str} (hout : out = List.replicate (src.length - k) ['.', '.'] ++ dst.drop k) :
    mountWalk src (if out = [] then ['.'] else List.intercalate ['/'] out) = some dst := by
  obtain ⟨htake, hle⟩ := take_commonLength src dst
  rw [← hk] at htake hle
  have hdrop : ∀ c ∈ dst.drop k, IsName c := fun c hc => hdst c (List.mem_of_mem_drop hc)
  -- the steps of the text: up to the common directory, then down
  have hups : (List.replicate (src.length - k) Hop.up).foldlM mountHop src = some (dst.take k) := by
    have hwalk := foldlM_mountHop_ups (src.take k) (src.drop k)
    rwa [List.take_append_drop, List.length_drop, htake] at hwalk
  have hsteps : (List.replicate (src.length - k) Hop.up ++ (dst.drop k).map Hop.into).foldlM
      mountHop src =
      some dst := by
    rw [List.foldlM_append, hups, Option.bind_eq_bind, Option.bind_some, foldlM_mountHop_names,
      List.take_append_drop]
  split_ifs with hnil
  · -- the link points at its own directory
    obtain ⟨hzero, hrest⟩ := List.append_eq_nil_iff.1 (hout.symm.trans hnil)
    have hzero : src.length - k = 0 := by simpa using hzero
    rw [hzero, hrest] at hsteps
    exact hsteps
  · have hsegs : ∀ seg ∈ out, seg ≠ [] ∧ '/' ∉ seg := by
      intro seg hseg
      rw [hout] at hseg
      rcases List.mem_append.1 hseg with hseg | hseg
      · rw [List.eq_of_mem_replicate hseg]
        decide
      · exact ⟨(hdrop seg hseg).ne_nil, (hdrop seg hseg).no_slash⟩
    have hhops : hopsOf (List.intercalate ['/'] out) =
        List.replicate (src.length - k) Hop.up ++ (dst.drop k).map Hop.into := by
      rw [hopsOf, List.splitOn_intercalate _ (fun seg hseg => (hsegs seg hseg).2) hnil, hout,
        List.filterMap_append]
      congr 1
      · exact List.filterMap_replicate_of_some rfl
      · rw [← List.filterMap_eq_map]
        refine List.filterMap_congr fun c hc => ?_
        have hname := hdrop c hc
        rw [if_neg (by simp [hname.ne_nil, hname.ne_dot]), if_neg hname.ne_dotdot]
        rfl
    have hhead : (List.intercalate ['/'] out).head? ≠ some '/' := by
      obtain ⟨a, as, rfl⟩ := List.exists_cons_of_ne_nil hnil
      obtain ⟨hne, hslash⟩ := hsegs a (by simp)
      obtain ⟨x, a, rfl⟩ := List.exists_cons_of_ne_nil hne
      rw [List.mem_cons, not_or] at hslash
      rcases as with _ | ⟨b, bs⟩ <;> simpa [List.intercalate] using Ne.symm hslash.1
    rw [mountWalk, if_neg hhead, hhops]
    exact hsteps

end Walk

/-! ## Where the text of a link leads -/

section Meaning

variable (v : LinkView) {target : Str}

/-- The directory of a link consists of names. -/
theorem isName_dir : ∀ c ∈ v.dir, IsName c := fun c hc => v.isName c (by simp [hc])

/-- The components of a path of names are the names. -/
theorem splitComponents_ofNames {cs : List Str} (h : ∀ c ∈ cs, IsName c) :
    splitComponents (ofNames cs) = cs := by
  by_cases hne : cs = []
  · subst hne
    decide
  · rw [splitComponents, splitOn_ofNames hne h, List.foldl_cons]
    exact (foldl_pushSegment_names h []).trans (List.nil_append cs)

/-- The parent of a link is its directory. -/
theorem parentComponents_path : parentComponents v.path = v.dir := by
  rw [parentComponents, LinkView.path, splitComponents_ofNames v.isName, List.dropLast_concat]

/-- A relative target is shown as stored. -/
theorem mountLinkText_relative (h : target.head? ≠ some '/') :
    mountLinkText v.path target = target := by
  rw [mountLinkText, if_pos h]

/-- The text of an absolute target stays in the mount and leads to the components of the target. -/
theorem mountWalk_absolute (h : target.head? = some '/') :
    mountWalk v.dir (mountLinkText v.path target) = some (splitComponents target) := by
  rw [mountLinkText, if_neg (not_not.2 h), parentComponents_path]
  exact mountWalk_relative (isName_splitComponents target) rfl rfl

/-- The hop of the VM at a link with a relative target, before it is normalised. -/
theorem linkNext_relative (h : target.head? ≠ some '/') :
    linkNext v.path target = ofNames v.dir ++ '/' :: target := by
  rw [linkNext, if_neg h, LinkView.path, pathParent_concat v.isName, Option.getD_some]
  dsimp only
  by_cases hnil : v.dir = []
  · rw [hnil, pathOf_nil, if_pos rfl, ofNames_nil, List.nil_append]
  · rw [pathOf, if_neg hnil, if_neg (ofNames_ne_root (isName_dir v))]

/-- A relative target is walked from the directory of the link. -/
theorem splitComponents_relative : splitComponents (ofNames v.dir ++ '/' :: target) =
    (hopsOf target).foldl vmHop v.dir := by
  rw [splitComponents_eq, hopsOf_append_slash, List.foldl_append, ← splitComponents_eq,
    splitComponents_ofNames (isName_dir v)]

/-- A text and a path it is appended to end in the same character. -/
theorem endsBlank_append_slash (s : Str) : EndsBlank (s ++ '/' :: target) ↔ EndsBlank target := by
  rcases List.eq_nil_or_concat target with rfl | ⟨t, c, rfl⟩
  · rw [EndsBlank, List.getLast?_concat, EndsBlank]
    simp [not_isWhitespace_slash]
  · rw [List.concat_eq_append, ← List.cons_append, ← List.append_assoc, EndsBlank, EndsBlank,
      List.getLast?_concat, List.getLast?_concat]

/-- The text the mount shows for a target stays in the mount and leads where the VM's own hop leads
exactly when neither the target nor the path an absolute target resolves to ends in white space, and
a relative target has at no point more `..` than there are directories to leave. -/
theorem keepsMeaning_iff (v : LinkView) {target : Str} :
    KeepsMeaning v target ↔ Mountable v target := by
  unfold KeepsMeaning Mountable
  -- An absolute target is written anew as seen from the link, a relative one is kept as it is.
  by_cases habs : target.head? = some '/'
  · obtain ⟨s, rfl⟩ : ∃ s, target = '/' :: s := by
      rcases target with _ | ⟨c, s⟩
      · simp at habs
      · exact ⟨s, by simpa using habs⟩
    have hnext : linkNext v.path ('/' :: s) = normalizeVmPath ('/' :: s) :=
      by rw [linkNext, if_pos habs]
    have hwalk : (∃ dir, mountWalk v.dir (mountLinkText v.path ('/' :: s)) = some dir ∧
        pathOf dir = normalizeVmPath (normalizeVmPath ('/' :: s))) ↔
        pathOf (splitComponents ('/' :: s)) = normalizeVmPath (normalizeVmPath ('/' :: s)) := by
      rw [mountWalk_absolute v habs]
      simp
    rw [if_pos habs, hnext, hwalk]
    by_cases hblank : EndsBlank ('/' :: s)
    · -- both normalisations shorten the path, or leave its length
      have hlt := length_lt_of_endsBlank hblank
      have hle : (normalizeVmPath (normalizeVmPath ('/' :: s))).length ≤
        (normalizeVmPath ('/' :: s)).length := by
        rw [normalizeVmPath_eq ('/' :: s)]
        exact length_normalizeVmPath_pathOf (isName_splitComponents _)
      refine iff_of_false (fun heq => ?_) fun h => h.1 hblank
      rw [heq] at hlt
      omega
    · rw [normalizeVmPath_of_not_endsBlank hblank, eq_comm,
        ← normal_pathOf_iff (isName_splitComponents _)]
      exact ⟨fun h => ⟨hblank, h⟩, fun h => h.2⟩
  · rw [if_neg habs, mountLinkText_relative v habs, linkNext_relative v habs, mountWalk,
      if_neg habs]
    simp only [foldlM_mountHop]
    obtain ⟨s, hs⟩ : ∃ s, ofNames v.dir ++ '/' :: target = '/' :: s := by
      rcases hdir : v.dir with _ | ⟨c, cs⟩
      · exact ⟨target, rfl⟩
      · exact ⟨c ++ ofNames cs ++ '/' :: target, rfl⟩
    have hends : EndsBlank ('/' :: s) ↔ EndsBlank target := by rw [← hs, endsBlank_append_slash]
    have hcomp : splitComponents ('/' :: s) = (hopsOf target).foldl vmHop v.dir := by
      rw [← hs, splitComponents_relative]
    rw [hs]
    by_cases hblank : EndsBlank target
    · have hlt := length_lt_of_endsBlank (hends.2 hblank)
      refine iff_of_false ?_ fun h => h.1 hblank
      rintro ⟨dir, ⟨-, rfl⟩, heq⟩
      rw [hcomp, heq] at hlt
      omega
    · have hnorm := normalizeVmPath_of_not_endsBlank (mt hends.1 hblank)
      rw [hnorm, hcomp]
      constructor
      · rintro ⟨dir, ⟨hstays, -⟩, -⟩
        exact ⟨hblank, hstays⟩
      · rintro ⟨-, hstays⟩
        exact ⟨_, ⟨hstays, rfl⟩, rfl⟩

/-- The link `/a` with the target `../etc/passwd`: the VM stops at its root, the kernel leaves the
mount. -/
theorem not_keepsMeaning_dotdot : ¬ ∀ (v : LinkView) (target : Str), KeepsMeaning v target := by
  intro h
  obtain ⟨dir, hwalk, -⟩ := h ⟨[], ['a'], by decide⟩ "../etc/passwd".toList
  have hnone : mountWalk [] (mountLinkText (ofNames [['a']]) "../etc/passwd".toList) = none :=
    by decide
  exact absurd (hnone.symm.trans hwalk) (by simp)

end Meaning

end Dbvm
