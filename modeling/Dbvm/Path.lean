import Mathlib.Algebra.Group.Nat.Defs
import Mathlib.Algebra.GroupWithZero.Nat
import Mathlib.Data.Char
import Mathlib.Data.List.Infix
import Mathlib.Data.List.Basic
import Mathlib.Data.List.Lex
import Mathlib.Data.List.TakeWhile
import Mathlib.Tactic.Basic

/-!
# VM paths

A path of the file tree is a text, modelled as a list of characters. `normalizeVmPath` brings a
path to the form the tables hold (`normalize_vm_path` in `src/vm/mod.rs`), and every operation
applies it to the path it is given. Two more functions of the source walk a path: the loop over its
ancestors (`ancestors`), which the overlay runs to find whiteouts, and the chain of directories
`ensure_parent_dirs` creates (`parentDirs`). On a normal path the two give the same directories
(`mem_parentDirs`).
-/

namespace Dbvm

/-- A text. -/
abbrev Str := List Char

/-- Texts are equal when they are compared as equal. -/
instance lawfulBEqStr : LawfulBEq (List Char) := inferInstance

/-- The bytes of a text. -/
def Str.bytes (s : Str) : List UInt8 := s.flatMap fun c => String.utf8EncodeChar c

/-- The root directory. -/
def root : Str := ['/']

/-! ## Normalisation -/

/-- The characters `str::trim` removes: Unicode's `White_Space`. -/
def isWhitespace (c : Char) : Bool :=
  let n := c.toNat
  (0x9 ≤ n && n ≤ 0xd) || n == 0x20 || n == 0x85 || n == 0xa0 || n == 0x1680 ||
    (0x2000 ≤ n && n ≤ 0x200a) || n == 0x2028 || n == 0x2029 || n == 0x202f || n == 0x205f ||
    n == 0x3000

/-- `str::trim`. -/
def trim (s : Str) : Str := ((s.dropWhile isWhitespace).reverse.dropWhile isWhitespace).reverse

/-- Whether `//` occurs. -/
def hasDoubleSlash : Str → Bool
  | '/' :: '/' :: _ => true
  | _ :: s => hasDoubleSlash s
  | [] => false

/-- `replace("//", "/")`: the occurrences from left to right, none overlapping the one before. -/
def replaceDoubleSlash : Str → Str
  | '/' :: '/' :: s => '/' :: replaceDoubleSlash s
  | c :: s => c :: replaceDoubleSlash s
  | [] => []

/-- The loop that replaces `//` until none is left, for at most `fuel` rounds. A round that
replaces something shortens the text, so its length is fuel enough. -/
def collapseSlashes : ℕ → Str → Str
  | 0, s => s
  | fuel + 1, s => if hasDoubleSlash s then collapseSlashes fuel (replaceDoubleSlash s) else s

/-- The stack of path components after one more segment. -/
def pushSegment (parts : List Str) (seg : Str) : List Str :=
  if seg = [] ∨ seg = ['.'] then parts
  else if seg = ['.', '.'] then parts.dropLast
  else parts ++ [seg]

/-- A path as `normalize_vm_path` splits it: trimmed, with one `/` in front, none at the end and no
`//`. -/
def slashForm (p : Str) : Str :=
  let s := trim p
  let s := if s.head? = some '/' then s else '/' :: s
  let s := if 1 < s.length ∧ s.getLast? = some '/' then s.dropLast else s
  collapseSlashes s.length s

/-- The form the tables hold a path in. -/
def normalizeVmPath (p : Str) : Str :=
  let parts := ((slashForm p).splitOn '/').foldl pushSegment []
  if parts = [] then root else '/' :: List.intercalate ['/'] parts

/-! ## Ancestors -/

/-- The texts before a `/` of `p`, the shortest first. -/
def slashPrefixes : Str → List Str
  | [] => []
  | c :: p => (if c = '/' then [[]] else []) ++ (slashPrefixes p).map (c :: ·)

/-- The proper ancestors of a path other than the root, the nearest first: the loop
`while let Some(i) = cur.rfind('/')` that cuts the path at its last `/` until that is the first
character. -/
def ancestors (p : Str) : List Str := ((slashPrefixes p).filter (· ≠ [])).reverse

/-- `q` lies strictly below `p`. -/
def Below (p q : Str) : Prop := p ++ ['/'] <+: q

instance (p q : Str) : Decidable (Below p q) := inferInstanceAs (Decidable (_ <+: _))

/-- `Path::parent` of a normal path. -/
def pathParent (p : Str) : Option Str :=
  if p = root then none else some ((ancestors p).head?.getD root)

/-- The paths `cur`, `cur/c₁`, `cur/c₁/c₂`, … for the components `c₁, c₂, …`. -/
def dirChain (cur : Str) : List Str → List Str
  | [] => []
  | c :: cs => (cur ++ '/' :: c) :: dirChain (cur ++ '/' :: c) cs

/-- The directories `ensure_parent_dirs` creates for a path, outermost first. -/
def parentDirs (vmPath : Str) : List Str :=
  let dir := (pathParent (normalizeVmPath vmPath)).getD root
  if dir = root ∨ dir = [] then []
  else dirChain [] ((dir.splitOn '/').filter (· ≠ []))

/-! ## The shape of a normal path -/

/-- A component of a normal path. -/
structure IsName (c : Str) : Prop where
  /-- It is not empty. -/
  ne_nil : c ≠ []
  /-- It has no separator. -/
  no_slash : '/' ∉ c
  /-- It is not `.`. -/
  ne_dot : c ≠ ['.']
  /-- It is not `..`. -/
  ne_dotdot : c ≠ ['.', '.']

instance (c : Str) : Decidable (IsName c) :=
  decidable_of_iff (c ≠ [] ∧ '/' ∉ c ∧ c ≠ ['.'] ∧ c ≠ ['.', '.'])
    ⟨fun h => ⟨h.1, h.2.1, h.2.2.1, h.2.2.2⟩,
      fun h => ⟨h.ne_nil, h.no_slash, h.ne_dot, h.ne_dotdot⟩⟩

/-- The path with the components `cs`; the empty text for none. -/
def ofNames (cs : List Str) : Str := cs.flatMap ('/' :: ·)

/-- No name gives the empty text. -/
@[simp] theorem ofNames_nil : ofNames [] = [] := rfl

/-- Each name comes after a slash. -/
theorem ofNames_cons (c : Str) (cs : List Str) : ofNames (c :: cs) = '/' :: c ++ ofNames cs := rfl

/-- Two runs of names are written one after the other. -/
theorem ofNames_append (cs ds : List Str) : ofNames (cs ++ ds) = ofNames cs ++ ofNames ds :=
  List.flatMap_append

/-- A path of names is a slash and the names with slashes between them. -/
theorem ofNames_eq_intercalate {cs : List Str} (h : cs ≠ []) :
    ofNames cs = '/' :: List.intercalate ['/'] cs := by
  induction cs with
  | nil => exact absurd rfl h
  | cons c cs ih =>
    rcases cs with _ | ⟨d, ds⟩
    · simp [ofNames, List.intercalate]
    · rw [ofNames_cons, ih (by simp)]
      simp [List.intercalate, List.intersperse]

/-- Only no name gives the empty text. -/
theorem ofNames_eq_nil {cs : List Str} : ofNames cs = [] ↔ cs = [] := by
  rcases cs with _ | ⟨c, cs⟩
  · simp
  · simp [ofNames_cons]

/-- A list of names is not the root. -/
theorem ofNames_ne_root {cs : List Str} (hcs : ∀ c ∈ cs, IsName c) : ofNames cs ≠ root := by
  rcases cs with _ | ⟨c, cs⟩
  · simp [root]
  · intro h
    have hlen := congrArg List.length h
    simp only [ofNames_cons, List.length_append, List.length_cons, root, List.length_nil] at hlen
    exact (hcs c (by simp)).ne_nil (List.length_eq_zero_iff.1 (by omega))

/-- The segments of a text have no separator. -/
theorem not_mem_of_mem_splitOn : ∀ {s seg : Str}, seg ∈ s.splitOn '/' → '/' ∉ seg
  | [], seg, h => by simp_all
  | c :: s, seg, h => by
    rw [List.splitOn_cons_eq_if_modifyHead] at h
    have ih : ∀ g ∈ s.splitOn '/', '/' ∉ g := fun g hg => not_mem_of_mem_splitOn hg
    split_ifs at h with hc
    · rcases List.mem_cons.1 h with rfl | h
      · simp
      · exact ih _ h
    · rcases hs : s.splitOn '/' with _ | ⟨g, gs⟩
      · exact absurd hs (List.splitOn_ne_nil _ _)
      rw [hs] at h ih
      rcases List.mem_cons.1 h with rfl | h
      · have hg := ih g (by simp)
        rw [beq_iff_eq] at hc
        rw [List.mem_cons, not_or]
        exact ⟨Ne.symm hc, hg⟩
      · exact ih _ (by simp [h])

/-- A stack of names stays one when a segment without separators is pushed. -/
theorem pushSegment_isName {parts : List Str} {seg : Str} (h : ∀ c ∈ parts, IsName c)
    (hseg : '/' ∉ seg) : ∀ c ∈ pushSegment parts seg, IsName c := by
  intro c hc
  unfold pushSegment at hc
  split_ifs at hc with h1 h2
  · exact h c hc
  · exact h c (List.mem_of_mem_dropLast hc)
  · rw [not_or] at h1
    rcases List.mem_append.1 hc with hc | hc
    · exact h c hc
    · rw [List.mem_singleton.1 hc]
      exact ⟨h1.1, hseg, h1.2, h2⟩

/-- What the loop of `normalize_vm_path` collects are names. -/
theorem foldl_pushSegment_isName {segs : List Str} (hsegs : ∀ s ∈ segs, '/' ∉ s) :
    ∀ {parts : List Str}, (∀ c ∈ parts, IsName c) →
      ∀ c ∈ segs.foldl pushSegment parts, IsName c := by
  induction segs with
  | nil => exact fun h => h
  | cons s segs ih =>
    intro parts h
    exact ih (fun s' hs' => hsegs s' (by simp [hs'])) (pushSegment_isName h (hsegs s (by simp)))

/-- A path in normal form is the root or a non-empty list of names. -/
theorem normalizeVmPath_shape (p : Str) :
    normalizeVmPath p = root ∨
      ∃ cs, cs ≠ [] ∧ (∀ c ∈ cs, IsName c) ∧ normalizeVmPath p = ofNames cs := by
  unfold normalizeVmPath
  dsimp only
  split_ifs with h
  · exact Or.inl rfl
  · exact Or.inr ⟨_, h, foldl_pushSegment_isName (fun s hs => not_mem_of_mem_splitOn hs) (by simp),
      (ofNames_eq_intercalate h).symm⟩

/-! ## The ancestors of a normal path -/

/-- The texts before a `/` are the ones that, with it, begin the path. -/
theorem mem_slashPrefixes {a p : Str} : a ∈ slashPrefixes p ↔ Below a p := by
  unfold Below
  induction p generalizing a with
  | nil => simp [slashPrefixes]
  | cons c p ih =>
    rw [slashPrefixes, List.mem_append, List.mem_map]
    rcases a with _ | ⟨d, a⟩
    · rw [List.nil_append, List.cons_prefix_cons]
      split_ifs with h <;> simp [h, eq_comm]
    · rw [List.cons_append, List.cons_prefix_cons, ← ih]
      split_ifs with h <;> simp [eq_comm, and_comm]

/-- The ancestors of a path are the texts it lies below. -/
theorem mem_ancestors {a p : Str} : a ∈ ancestors p ↔ a ≠ [] ∧ Below a p := by
  rw [ancestors, List.mem_reverse, List.mem_filter, mem_slashPrefixes]
  simp [and_comm]

/-- A name before the first slash stands in every prefix. -/
theorem slashPrefixes_append {c : Str} (hc : '/' ∉ c) (p : Str) :
    slashPrefixes (c ++ p) = (slashPrefixes p).map (c ++ ·) := by
  induction c with
  | nil => simp
  | cons d c ih =>
    rw [List.mem_cons, not_or] at hc
    rw [List.cons_append, slashPrefixes, if_neg (Ne.symm hc.1), ih hc.2, List.nil_append,
      List.map_map]
    rfl

/-- The texts before a `/` of a list of names are its proper initial segments. -/
theorem slashPrefixes_ofNames {cs : List Str} (hcs : ∀ c ∈ cs, '/' ∉ c) :
    slashPrefixes (ofNames cs) = cs.inits.dropLast.map ofNames := by
  induction cs with
  | nil => rfl
  | cons c cs ih =>
    have hne : cs.inits.map (c :: ·) ≠ [] := by
      rcases cs with _ | ⟨d, ds⟩ <;> simp
    rw [ofNames_cons, List.cons_append, slashPrefixes, if_pos rfl,
      slashPrefixes_append (hcs c (by simp)), ih fun d hd => hcs d (by simp [hd]), List.inits_cons,
      List.dropLast_cons_of_ne_nil hne, List.map_cons, List.map_map, ← List.map_dropLast,
      List.map_map, List.map_map]
    rfl

/-- The segments of a list of names: an empty one and the names. -/
theorem splitOn_ofNames {cs : List Str} (hne : cs ≠ []) (hcs : ∀ c ∈ cs, IsName c) :
    (ofNames cs).splitOn '/' = [] :: cs := by
  obtain ⟨c, ds, rfl⟩ := List.exists_cons_of_ne_nil hne
  have hjoin : ofNames (c :: ds) = List.intercalate ['/'] ([] :: c :: ds) := by
    rw [ofNames_eq_intercalate hne]
    rfl
  rw [hjoin, List.splitOn_intercalate _ _ (by simp)]
  intro d hd
  rcases List.mem_cons.1 hd with rfl | hd
  · simp
  · exact (hcs d hd).no_slash

/-- The segments of a list of names, the empty ones left out, are the names. -/
theorem filter_splitOn_ofNames {cs : List Str} (hcs : ∀ c ∈ cs, IsName c) :
    ((ofNames cs).splitOn '/').filter (· ≠ []) = cs := by
  rcases eq_or_ne cs [] with rfl | hne
  · rfl
  rw [splitOn_ofNames hne hcs, List.filter_cons_of_neg (by simp), List.filter_eq_self]
  intro c hc
  simpa using (hcs c hc).ne_nil

/-- A path has one list of names. -/
theorem ofNames_inj {cs ds : List Str} (hcs : ∀ c ∈ cs, IsName c) (hds : ∀ d ∈ ds, IsName d)
    (h : ofNames cs = ofNames ds) : cs = ds := by
  rw [← filter_splitOn_ofNames hcs, h, filter_splitOn_ofNames hds]

/-- The initial segments of a list are the empty one and the others. -/
theorem inits_eq_cons (cs : List Str) : cs.inits = [] :: cs.inits.tail := by
  rcases cs with _ | ⟨c, cs⟩
  · rfl
  · simp

/-- An initial part other than the first is not empty. -/
theorem ne_nil_of_mem_tail_inits {cs ds : List Str} (h : ds ∈ cs.inits.tail) : ds ≠ [] := by
  rcases cs with _ | ⟨c, cs⟩
  · simp at h
  · rw [List.inits_cons, List.tail_cons, List.mem_map] at h
    obtain ⟨es, -, rfl⟩ := h
    simp

/-- The last initial part is the whole list. -/
theorem getLast?_inits (cs : List Str) : cs.inits.getLast? = some cs := by
  induction cs with
  | nil => rfl
  | cons c cs ih =>
    rw [List.inits_cons, List.getLast?_cons, List.getLast?_map, ih]
    rfl

/-- The chain of directories is that of the nonempty initial parts of the names. -/
theorem dirChain_eq (cs : List Str) : ∀ cur,
    dirChain cur cs = cs.inits.tail.map fun ds => cur ++ ofNames ds := by
  induction cs with
  | nil => exact fun _ => rfl
  | cons c cs ih =>
    intro cur
    rw [dirChain, ih, List.inits_cons, List.tail_cons, List.map_map]
    conv_rhs => rw [inits_eq_cons cs]
    simp [ofNames_cons, Function.comp_def]

/-- The ancestors of a list of names, nearest first. -/
theorem ancestors_ofNames_concat {ds : List Str} {c : Str} (hcs : ∀ d ∈ ds ++ [c], '/' ∉ d) :
    ancestors (ofNames (ds ++ [c])) = (ds.inits.tail.map ofNames).reverse := by
  have hdrop : (ds ++ [c]).inits.dropLast = ds.inits := by
    rw [List.inits_append]
    simp
  rw [ancestors, slashPrefixes_ofNames hcs, hdrop, inits_eq_cons ds, List.map_cons,
    List.filter_cons_of_neg (by simp), List.tail_cons, List.filter_eq_self.2]
  intro a ha
  obtain ⟨es, hes, rfl⟩ := List.mem_map.1 ha
  simpa [ofNames_eq_nil] using ne_nil_of_mem_tail_inits hes

/-- A path that normalisation leaves alone. -/
def Normal (p : Str) : Prop := normalizeVmPath p = p

instance (p : Str) : Decidable (Normal p) := inferInstanceAs (Decidable (_ = _))

/-- A normal path is the root or a non-empty list of names. -/
theorem Normal.shape {p : Str} (h : Normal p) :
    p = root ∨ ∃ cs, cs ≠ [] ∧ (∀ c ∈ cs, IsName c) ∧ p = ofNames cs := by
  have := normalizeVmPath_shape p
  rwa [h] at this

/-- A normal path is not empty. -/
theorem Normal.ne_nil {p : Str} (h : Normal p) : p ≠ [] := by
  rintro rfl
  exact absurd h (by decide)

/-- A normal path begins with `/`. -/
theorem Normal.eq_cons {p : Str} (h : Normal p) : ∃ s, p = '/' :: s := by
  rcases h.shape with rfl | ⟨_ | ⟨c, cs⟩, hne, -, rfl⟩
  · exact ⟨[], rfl⟩
  · exact absurd rfl hne
  · exact ⟨c ++ ofNames cs, rfl⟩

/-- No path but the empty one has the root below it. -/
theorem not_below_root {p : Str} (h : p ≠ []) : ¬ Below p root := by
  intro hb
  have hlen := hb.length_le
  have hpos := List.length_pos_iff.2 h
  rw [List.length_append, List.length_singleton, root, List.length_singleton] at hlen
  omega

/-- A path is not below itself. -/
theorem not_below_self (p : Str) : ¬ Below p p := by
  intro h
  have := h.length_le
  rw [List.length_append, List.length_singleton] at this
  omega

/-- Being below is transitive. -/
theorem Below.trans {p q r : Str} (h₁ : Below p q) (h₂ : Below q r) : Below p r :=
  List.IsPrefix.trans h₁ (List.IsPrefix.trans (List.prefix_append q ['/']) h₂)

/-- What lies below a path is another path. -/
theorem Below.ne {p q : Str} (h : Below p q) : p ≠ q := by
  rintro rfl
  exact not_below_self p h

/-- Two paths above the same path are equal, or one is above the other. -/
theorem Below.total {a b q : Str} (ha : Below a q) (hb : Below b q) :
    a = b ∨ Below a b ∨ Below b a := by
  rcases lt_trichotomy a.length b.length with h | h | h
  · exact Or.inr (Or.inl (List.prefix_of_prefix_length_le ha
      ((List.prefix_append b ['/']).trans hb) (by simp; omega)))
  · have := List.prefix_of_prefix_length_le ha hb (by simp [h])
    exact Or.inl (by simpa using this.eq_of_length (by simp [h]))
  · exact Or.inr (Or.inr (List.prefix_of_prefix_length_le hb
      ((List.prefix_append a ['/']).trans ha) (by simp; omega)))

/-- What lies above a normal path begins with `/` and a name. -/
theorem Normal.cons_of_below {p a : Str} (h : Normal p) (ha : Below a p) (hne : a ≠ []) :
    ∃ c cs, a = '/' :: c :: cs := by
  have hmem := mem_ancestors.2 ⟨hne, ha⟩
  rcases h.shape with rfl | ⟨cs, hcs0, hcs, rfl⟩
  · simp [root, ancestors, slashPrefixes] at hmem
  obtain ⟨ds, c, rfl⟩ : ∃ ds c, cs = ds ++ [c] := ⟨_, _, (List.dropLast_append_getLast hcs0).symm⟩
  rw [ancestors_ofNames_concat fun d hd => (hcs d hd).no_slash, List.mem_reverse, List.mem_map]
    at hmem
  obtain ⟨es, hes, rfl⟩ := hmem
  have hpre : es <+: ds := (List.mem_inits _ _).1 (List.mem_of_mem_tail hes)
  rcases es with _ | ⟨e, es⟩
  · exact absurd rfl hne
  have hname := hcs e (by simp [hpre.subset (List.mem_cons_self (a := e))])
  rcases e with _ | ⟨c, e⟩
  · exact absurd rfl hname.ne_nil
  · exact ⟨c, e ++ ofNames es, rfl⟩

/-- `ensure_parent_dirs` creates the ancestors of the normal form. -/
theorem mem_parentDirs_iff {p a : Str} : a ∈ parentDirs p ↔ a ∈ ancestors (normalizeVmPath p) := by
  unfold parentDirs
  rcases normalizeVmPath_shape p with hp | ⟨cs, hne, hcs, hp⟩
  · rw [hp]
    simp [pathParent, ancestors, root, slashPrefixes]
  rw [hp]
  obtain ⟨ds, c, rfl⟩ : ∃ ds c, cs = ds ++ [c] := ⟨_, _, (List.dropLast_append_getLast hne).symm⟩
  have hds : ∀ d ∈ ds, IsName d := fun d hd => hcs d (by simp [hd])
  rw [ancestors_ofNames_concat fun d hd => (hcs d hd).no_slash, List.mem_reverse, pathParent,
    if_neg (ofNames_ne_root hcs), Option.getD_some, ancestors_ofNames_concat fun d hd =>
    (hcs d hd).no_slash,
    List.head?_reverse, List.getLast?_map]
  rcases ds with _ | ⟨d, ds⟩
  · -- A path at the top has the root for its parent.
    simp [root]
  · -- Below that the nearest ancestor is the path without its last name.
    have hlast : (d :: ds).inits.tail.getLast? = some (d :: ds) := by
      rw [List.inits_cons, List.tail_cons, List.getLast?_map, getLast?_inits]
      rfl
    rw [hlast, Option.map_some, Option.getD_some,
      if_neg (by simp [ofNames_ne_root hds, ofNames_eq_nil]), filter_splitOn_ofNames hds,
      dirChain_eq]
    simp

/-- On a normal path, `ensure_parent_dirs` creates its ancestors. -/
theorem mem_parentDirs {p a : Str} (h : Normal p) : a ∈ parentDirs p ↔ a ∈ ancestors p := by
  have hiff : a ∈ parentDirs p ↔ a ∈ ancestors (normalizeVmPath p) := mem_parentDirs_iff
  rwa [h] at hiff

/-! ## Names with blanks -/

/-- The segments of a text and its separators make up the text. -/
theorem sum_length_splitOn :
    ∀ s : Str, ((s.splitOn '/').map fun g => g.length + 1).sum = s.length + 1
  | [] => by simp
  | c :: s => by
    have ih := sum_length_splitOn s
    rw [List.splitOn_cons_eq_if_modifyHead]
    split_ifs with hc
    · rw [List.map_cons, List.sum_cons, ih, List.length_nil, List.length_cons]
      omega
    · rcases hs : s.splitOn '/' with _ | ⟨g, gs⟩
      · exact absurd hs (List.splitOn_ne_nil _ _)
      · rw [hs, List.map_cons, List.sum_cons] at ih
        rw [List.modifyHead_cons, List.map_cons, List.sum_cons, List.length_cons, List.length_cons]
        omega

/-- A segment makes a path longer by at most itself and its slash. -/
theorem length_pushSegment_le (parts : List Str) (seg : Str) :
    (ofNames (pushSegment parts seg)).length ≤ (ofNames parts).length + (seg.length + 1) := by
  unfold pushSegment
  split_ifs with hskip hup
  · omega
  · rcases List.eq_nil_or_concat parts with rfl | ⟨ds, d, rfl⟩
    · simp
    · rw [List.concat_eq_append, List.dropLast_concat, ofNames_append, List.length_append]
      omega
  · rw [ofNames_append, List.length_append, ofNames_cons, ofNames_nil, List.append_nil,
      List.length_cons]

/-- The segments make a path no longer than all of them with their slashes. -/
theorem length_foldl_pushSegment_le (segs : List Str) : ∀ parts : List Str,
    (ofNames (segs.foldl pushSegment parts)).length ≤
      (ofNames parts).length + (segs.map fun g => g.length + 1).sum := by
  induction segs with
  | nil => simp
  | cons seg segs ih =>
    intro parts
    have hstep := length_pushSegment_le parts seg
    have hrest := ih (pushSegment parts seg)
    rw [List.foldl_cons, List.map_cons, List.sum_cons]
    omega

/-- A name before the first slash brings no double slash. -/
theorem hasDoubleSlash_append {c : Str} (hc : '/' ∉ c) (s : Str) :
    hasDoubleSlash (c ++ s) = hasDoubleSlash s := by
  induction c with
  | nil => rfl
  | cons d c ih =>
    rw [List.mem_cons, not_or] at hc
    rw [List.cons_append, hasDoubleSlash, ih hc.2]
    rintro s' rfl
    exact absurd rfl hc.1

/-- Names are separated by single slashes. -/
theorem hasDoubleSlash_ofNames {cs : List Str} (hcs : ∀ c ∈ cs, IsName c) :
    hasDoubleSlash (ofNames cs) = false := by
  induction cs with
  | nil => rfl
  | cons c cs ih =>
    have hname := hcs c (by simp)
    obtain ⟨d, c', rfl⟩ : ∃ d c', c = d :: c' := List.exists_cons_of_ne_nil hname.ne_nil
    have hd : d ≠ '/' := fun hd => hname.no_slash (by simp [hd])
    have hrest : hasDoubleSlash ((d :: c') ++ ofNames cs) = false :=
      (hasDoubleSlash_append hname.no_slash _).trans (ih fun e he => hcs e (by simp [he]))
    rw [ofNames_cons, List.cons_append, List.cons_append, hasDoubleSlash]
    · exact hrest
    · intro s' _ hs'
      exact hd (List.cons.inj hs').1

/-- The test finds two slashes next to each other. -/
theorem hasDoubleSlash_iff {s : Str} : hasDoubleSlash s = true ↔ ['/', '/'] <:+: s := by
  induction s using hasDoubleSlash.induct with
  | case1 s => simpa [hasDoubleSlash] using (List.prefix_append ['/', '/'] s).isInfix
  | case2 c s hne ih =>
    rw [hasDoubleSlash, ih, List.infix_cons_iff]
    · refine ⟨Or.inr, fun h => h.resolve_left fun hpre => ?_⟩
      obtain ⟨t, ht⟩ := hpre
      obtain ⟨rfl, rfl⟩ := List.cons.inj ht
      exact hne t rfl rfl
    · exact hne
  | case3 => simp [hasDoubleSlash]

/-- A prefix of a text without a double slash has none. -/
theorem hasDoubleSlash_mono {s t : Str} (h : s <+: t) (ht : hasDoubleSlash t = false) :
    hasDoubleSlash s = false := by
  rcases hs : hasDoubleSlash s with _ | _
  · rfl
  · have hinf := hasDoubleSlash_iff.1 hs
    rw [hasDoubleSlash_iff.2 (hinf.trans h.isInfix)] at ht
    cases ht

/-- A text without a double slash stays as it is. -/
theorem collapseSlashes_of_single {s : Str} (h : hasDoubleSlash s = false) (fuel : ℕ) :
    collapseSlashes fuel s = s := by
  cases fuel with
  | zero => rfl
  | succ fuel => rw [collapseSlashes, h, if_neg (by simp)]

/-- The text without the blanks it ends with, when it begins with a slash. -/
theorem trim_prefix {s : Str} : trim ('/' :: s) <+: '/' :: s := by
  have hfront : ('/' :: s).dropWhile isWhitespace = '/' :: s := by
    rw [List.dropWhile_cons_of_neg (by decide)]
  unfold trim
  rw [hfront, ← List.reverse_suffix, List.reverse_reverse]
  exact List.dropWhile_suffix _

/-- Names are collected as they are. -/
theorem foldl_pushSegment_names {cs : List Str} (hcs : ∀ c ∈ cs, IsName c) : ∀ parts : List Str,
    cs.foldl pushSegment parts = parts ++ cs := by
  induction cs with
  | nil => simp
  | cons c cs ih =>
    intro parts
    have hname := hcs c (by simp)
    have hpush : pushSegment parts c = parts ++ [c] := by
      unfold pushSegment
      rw [if_neg (by simp [hname.ne_nil, hname.ne_dot]), if_neg hname.ne_dotdot]
    rw [List.foldl_cons, hpush, ih fun d hd => hcs d (by simp [hd]), List.append_assoc]
    rfl

/-- A path of names does not end with a slash. -/
theorem getLast?_ofNames {cs : List Str} (hne : cs ≠ []) (hcs : ∀ c ∈ cs, IsName c) :
    (ofNames cs).getLast? ≠ some '/' := by
  obtain ⟨ds, c, rfl⟩ : ∃ ds c, cs = ds ++ [c] := ⟨_, _, (List.dropLast_append_getLast hne).symm⟩
  have hname := hcs c (by simp)
  rw [ofNames_append, ofNames_cons, ofNames_nil, List.append_nil,
    List.getLast?_append_of_ne_nil _ (by simp), List.getLast?_cons_of_ne_nil hname.ne_nil]
  exact fun hlast => hname.no_slash (List.mem_of_getLast? hlast)

/-- What is left of names after the blanks at their end, split at the slashes. -/
theorem length_normalizeVmPath_le {s t : Str} (htrim : trim s = '/' :: t)
    (hsingle : hasDoubleSlash ('/' :: t) = false) :
    (normalizeVmPath s).length ≤ ('/' :: t).length := by
  obtain ⟨u, hu, hle⟩ : ∃ u, slashForm s = '/' :: u ∧ u.length ≤ t.length := by
    unfold slashForm
    dsimp only
    rw [htrim, List.head?_cons, if_pos rfl]
    split_ifs with hlast
    · have hdrop : ('/' :: t).dropLast <+: '/' :: t := List.dropLast_prefix _
      rw [collapseSlashes_of_single (hasDoubleSlash_mono hdrop hsingle)]
      rcases t with _ | ⟨c, t⟩
      · simp at hlast
      · exact ⟨(c :: t).dropLast, rfl, by simp⟩
    · exact ⟨t, collapseSlashes_of_single hsingle _, le_refl _⟩
  -- The components together are no longer than the text they come from.
  have hparts := length_foldl_pushSegment_le (u.splitOn '/') []
  rw [sum_length_splitOn, ofNames_nil, List.length_nil] at hparts
  have hsplit : ('/' :: u).splitOn '/' = [] :: u.splitOn '/' := by
    rw [List.splitOn_cons_eq_if_modifyHead, if_pos (by simp)]
  unfold normalizeVmPath
  dsimp only
  rw [hu, hsplit, List.foldl_cons]
  change (if (u.splitOn '/').foldl pushSegment [] = [] then root else
    '/' :: List.intercalate ['/'] ((u.splitOn '/').foldl pushSegment [])).length ≤ _
  split_ifs with hnil
  · simp [root]
  · rw [← ofNames_eq_intercalate hnil, List.length_cons]
    omega

/-- Names from which nothing is trimmed are a normal path: they are split and joined again. -/
theorem normal_of_trim {cs : List Str} (hne : cs ≠ []) (hcs : ∀ c ∈ cs, IsName c)
    (hall : trim (ofNames cs) = ofNames cs) : Normal (ofNames cs) := by
  have hform : slashForm (ofNames cs) = ofNames cs := by
    have hhead : (ofNames cs).head? = some '/' := by
      obtain ⟨c, cs, rfl⟩ := List.exists_cons_of_ne_nil hne
      rfl
    have hlast : ¬ (1 < (ofNames cs).length ∧ (ofNames cs).getLast? = some '/') :=
      fun h => getLast?_ofNames hne hcs h.2
    unfold slashForm
    dsimp only
    rw [hall]
    simp only [hhead, if_true, if_neg hlast]
    exact collapseSlashes_of_single (hasDoubleSlash_ofNames hcs) _
  unfold Normal normalizeVmPath
  dsimp only
  rw [hform, splitOn_ofNames hne hcs, List.foldl_cons]
  change (if cs.foldl pushSegment [] = [] then root else
    '/' :: List.intercalate ['/'] (cs.foldl pushSegment [])) = _
  rw [foldl_pushSegment_names hcs, List.nil_append, if_neg hne, ofNames_eq_intercalate hne]

/-- Names from which blanks are trimmed get shorter. -/
theorem shorter_of_trim {cs : List Str} (hne : cs ≠ []) (hcs : ∀ c ∈ cs, IsName c)
    (hall : trim (ofNames cs) ≠ ofNames cs) :
    (normalizeVmPath (ofNames cs)).length < (ofNames cs).length := by
  obtain ⟨s, hs, hlen⟩ : ∃ s, ofNames cs = '/' :: s ∧ s ≠ [] := by
    obtain ⟨c, cs, rfl⟩ := List.exists_cons_of_ne_nil hne
    exact ⟨c ++ ofNames cs, rfl, by simp [(hcs c (by simp)).ne_nil]⟩
  have htrim : trim (ofNames cs) <+: ofNames cs := by
    rw [hs]
    exact trim_prefix
  have hlt : (trim (ofNames cs)).length < (ofNames cs).length :=
    Nat.lt_of_le_of_ne htrim.length_le fun he => hall (htrim.eq_of_length he)
  rcases ht : trim (ofNames cs) with _ | ⟨c, t⟩
  · have hroot : normalizeVmPath (ofNames cs) = root := by
      unfold normalizeVmPath slashForm
      rw [ht]
      rfl
    have hpos := List.length_pos_iff.2 hlen
    rw [hroot, hs, root, List.length_singleton, List.length_cons]
    omega
  · rw [ht] at htrim hlt
    have hc : c = '/' := by
      rw [hs] at htrim
      exact (List.cons_prefix_cons.1 htrim).1
    rw [hc] at ht htrim hlt
    have hsingle := hasDoubleSlash_mono htrim (hasDoubleSlash_ofNames hcs)
    exact lt_of_le_of_lt (length_normalizeVmPath_le ht hsingle) hlt

/-- Names that do not end in a blank are a normal path; otherwise normalisation shortens it. -/
theorem normal_or_shorter {cs : List Str} (hne : cs ≠ []) (hcs : ∀ c ∈ cs, IsName c) :
    Normal (ofNames cs) ∨ (normalizeVmPath (ofNames cs)).length < (ofNames cs).length := by
  by_cases hall : trim (ofNames cs) = ofNames cs
  · exact Or.inl (normal_of_trim hne hcs hall)
  · exact Or.inr (shorter_of_trim hne hcs hall)

/-- Nothing is trimmed from a path whose last character is no blank. -/
theorem trim_eq_self_iff {s : Str} :
    trim ('/' :: s) = '/' :: s ↔ ∀ c ∈ ('/' :: s).getLast?, isWhitespace c = false := by
  have hfront : ('/' :: s).dropWhile isWhitespace = '/' :: s := by
    rw [List.dropWhile_cons_of_neg (by decide)]
  unfold trim
  rw [hfront, List.reverse_eq_iff, List.dropWhile_eq_self_iff, ← List.head?_reverse]
  rcases ('/' :: s).reverse with _ | ⟨c, cs⟩ <;> simp

/-- Whether a path of names is normal depends on its last name only. -/
theorem normal_ofNames_concat {cs : List Str} {c : Str} (hcs : ∀ d ∈ cs ++ [c], IsName d) :
    Normal (ofNames (cs ++ [c])) ↔ ∀ x ∈ c.getLast?, isWhitespace x = false := by
  have hne : cs ++ [c] ≠ [] := by simp
  have hname := hcs c (by simp)
  obtain ⟨s, hs⟩ : ∃ s, ofNames (cs ++ [c]) = '/' :: s := by
    obtain ⟨d, ds, hd⟩ := List.exists_cons_of_ne_nil hne
    rw [hd]
    exact ⟨d ++ ofNames ds, rfl⟩
  have hlast : (ofNames (cs ++ [c])).getLast? = c.getLast? := by
    rw [ofNames_append, ofNames_cons, ofNames_nil, List.append_nil,
      List.getLast?_append_of_ne_nil _ (by simp), List.getLast?_cons_of_ne_nil hname.ne_nil]
  rw [← hlast]
  constructor
  · intro h
    have hall : trim (ofNames (cs ++ [c])) = ofNames (cs ++ [c]) := by
      by_contra hall
      have hlt := shorter_of_trim hne hcs hall
      rw [h] at hlt
      omega
    rw [hs] at hall ⊢
    exact trim_eq_self_iff.1 hall
  · intro h
    rw [hs] at h
    exact normal_of_trim hne hcs (by rw [hs]; exact trim_eq_self_iff.2 h)

/-- What begins a path of names is made of its first names, the last one cut off somewhere. -/
theorem names_of_prefix {u : Str} : ∀ {cs : List Str}, u <+: ofNames cs → u ≠ [] →
    ∃ ds c c', ds ++ [c] <+: cs ∧ c' <+: c ∧ u = ofNames ds ++ '/' :: c'
  | [], h, hne => absurd (List.prefix_nil.1 h) hne
  | c :: cs, h, hne => by
    obtain ⟨x, u', rfl⟩ := List.exists_cons_of_ne_nil hne
    rw [ofNames_cons, List.cons_append, List.cons_prefix_cons] at h
    obtain ⟨rfl, h⟩ := h
    rcases Nat.lt_or_ge c.length u'.length with hlong | hshort
    · -- The first name is there as a whole.
      obtain ⟨v, rfl⟩ :=
        List.prefix_of_prefix_length_le (List.prefix_append c (ofNames cs)) h (le_of_lt hlong)
      have hv : v ≠ [] := by
        rintro rfl
        simp at hlong
      obtain ⟨ds, d, d', hds, hd, rfl⟩ := names_of_prefix ((List.prefix_append_right_inj c).1 h) hv
      refine ⟨c :: ds, d, d', ?_, hd, ?_⟩
      · rw [List.cons_append, List.cons_prefix_cons]
        exact ⟨rfl, hds⟩
      · rw [ofNames_cons, List.cons_append, List.cons_append, List.append_assoc]
    · exact ⟨[], c, u', ⟨cs, rfl⟩, List.prefix_of_prefix_length_le h (List.prefix_append c _)
        hshort, rfl⟩

/-- A path of names is above another one if its names begin the other's and there are more of those.
-/
theorem below_of_names {es cs : List Str} {c : Str} (h : es ++ [c] <+: cs) :
    Below (ofNames es) (ofNames cs) := by
  obtain ⟨fs, rfl⟩ := h
  refine ⟨c ++ ofNames fs, ?_⟩
  rw [ofNames_append, ofNames_append, ofNames_cons, ofNames_nil, List.append_nil, List.append_assoc,
    List.append_assoc]
  rfl

/-- The text that is split, of a path of names, begins the path. -/
theorem slashForm_prefix {cs : List Str} (hne : cs ≠ []) (hcs : ∀ c ∈ cs, IsName c) :
    slashForm (ofNames cs) <+: ofNames cs := by
  obtain ⟨s, hs⟩ : ∃ s, ofNames cs = '/' :: s := by
    obtain ⟨c, ds, rfl⟩ := List.exists_cons_of_ne_nil hne
    exact ⟨c ++ ofNames ds, rfl⟩
  have hsingle := hasDoubleSlash_ofNames hcs
  -- Trimming and the cut of the last slash shorten the path from the end, and there is no double
  -- slash to collapse.
  have htrim : trim (ofNames cs) <+: ofNames cs := by
    rw [hs]
    exact trim_prefix
  have hfirst :
    (if (trim (ofNames cs)).head? = some '/' then trim (ofNames cs) else '/' :: trim
      (ofNames cs)) <+:
      ofNames cs := by
    rcases ht : trim (ofNames cs) with _ | ⟨c, t⟩
    · rw [if_neg (by simp), hs]
      exact ⟨s, rfl⟩
    · have hc : c = '/' := by
        rw [ht, hs] at htrim
        exact (List.cons_prefix_cons.1 htrim).1
      rw [hc, List.head?_cons, if_pos rfl, ← hc, ← ht]
      exact htrim
  unfold slashForm
  dsimp only
  generalize (if (trim (ofNames cs)).head? = some '/' then trim (ofNames cs) else '/' :: trim
    (ofNames cs)) = t at hfirst
  have hpre : (if 1 < t.length ∧ t.getLast? = some '/' then t.dropLast else t) <+: ofNames cs := by
    split_ifs
    · exact (List.dropLast_prefix t).trans hfirst
    · exact hfirst
  rw [collapseSlashes_of_single (hasDoubleSlash_mono hpre hsingle)]
  exact hpre

/-- What lies above a path after it has been normalised again lies above the path, also where blanks
at the end of its last name are lost. -/
theorem below_of_below_normalize {s a : Str} (hne : a ≠ [])
    (h : Below a (normalizeVmPath (normalizeVmPath s))) :
    Below a (normalizeVmPath s) := by
  rcases normalizeVmPath_shape s with hs | ⟨cs, hcs0, hcs, hs⟩
  · have hnormal : normalizeVmPath root = root := by decide
    rw [hs, hnormal] at h
    rwa [hs]
  rw [hs] at h ⊢
  have hmem := mem_ancestors.2 ⟨hne, h⟩
  have hroot : ancestors root = [] := by decide
  have hpre := slashForm_prefix hcs0 hcs
  unfold normalizeVmPath at hmem
  dsimp only at hmem
  by_cases hu : slashForm (ofNames cs) = []
  · rw [hu, if_pos (by rfl), hroot] at hmem
    cases hmem
  obtain ⟨ds, c, c', hds, hc', hform⟩ := names_of_prefix hpre hu
  have hnames : ∀ d ∈ ds, IsName d := fun d hd => hcs d (hds.subset (by simp [hd]))
  have hslash : '/' ∉ c' := fun hm => (hcs c (hds.subset (by simp))).no_slash (hc'.subset hm)
  -- It is split into the first names and a part of the next one.
  have hsplit : (slashForm (ofNames cs)).splitOn '/' = [] :: (ds ++ [c']) := by
    have hjoin : slashForm (ofNames cs) = List.intercalate ['/'] ([] :: (ds ++ [c'])) := by
      have hall : ofNames (ds ++ [c']) = ofNames ds ++ '/' :: c' := by
        rw [ofNames_append, ofNames_cons, ofNames_nil, List.append_nil]
      rw [hform, ← hall, ofNames_eq_intercalate (by simp)]
      rcases ds with _ | ⟨d, ds⟩
      · rfl
      · rfl
    rw [hjoin, List.splitOn_intercalate _ _ (by simp)]
    intro d hd
    rcases List.mem_cons.1 hd with rfl | hd
    · simp
    · rcases List.mem_append.1 hd with hd | hd
      · exact (hnames d hd).no_slash
      · rw [List.mem_singleton.1 hd]
        exact hslash
  have hparts : (([] : Str) :: (ds ++ [c'])).foldl pushSegment [] = pushSegment ds c' := by
    have hfold : ds.foldl pushSegment [] = ds := by
      rw [foldl_pushSegment_names hnames, List.nil_append]
    rw [List.foldl_cons, List.foldl_append]
    show pushSegment (ds.foldl pushSegment []) c' = _
    rw [hfold]
  rw [hsplit, hparts] at hmem
  -- What lies above the result are first names among `ds`.
  obtain ⟨es, hes, rfl⟩ : ∃ es, es <+: ds ∧ a = ofNames es := by
    by_cases hnil : pushSegment ds c' = []
    · rw [if_pos hnil, hroot] at hmem
      cases hmem
    rw [if_neg hnil, ← ofNames_eq_intercalate hnil] at hmem
    obtain ⟨fs, f, hfs⟩ : ∃ fs f, pushSegment ds c' = fs ++ [f] :=
      ⟨_, _, (List.dropLast_append_getLast hnil).symm⟩
    have hinit : fs <+: ds := by
      unfold pushSegment at hfs
      split_ifs at hfs
      · rw [hfs]
        exact List.prefix_append fs [f]
      · have hmore := List.dropLast_prefix ds
        rw [hfs] at hmore
        exact (List.prefix_append fs [f]).trans hmore
      · rw [(List.append_inj' hfs rfl).1]
    have hall : ∀ d ∈ fs ++ [f], '/' ∉ d := by
      rw [← hfs]
      exact fun d hd => (pushSegment_isName hnames hslash d hd).no_slash
    rw [hfs, ancestors_ofNames_concat hall, List.mem_reverse, List.mem_map] at hmem
    obtain ⟨es, hes, rfl⟩ := hmem
    exact ⟨es, ((List.mem_inits _ _).1 (List.mem_of_mem_tail hes)).trans hinit, rfl⟩
  obtain ⟨gs, rfl⟩ := hes
  rcases gs with _ | ⟨g, gs⟩
  · rw [List.append_nil] at hds
    exact below_of_names hds
  · refine below_of_names (c := g) (List.IsPrefix.trans ?_ hds)
    exact ⟨gs ++ [c], by simp⟩

/-! ## Numbered names -/

/-- A digit is the numeral of a number below ten. -/
theorem exists_digitChar {d : Char} (h : d.isDigit = true) : ∃ k < 10, d = Nat.digitChar k := by
  have hlow : 48 ≤ d.toNat ∧ d.toNat ≤ 57 := by
    simp only [Char.isDigit, Bool.and_eq_true, decide_eq_true_eq] at h
    exact ⟨h.1, h.2⟩
  refine ⟨d.toNat - 48, by omega, ?_⟩
  have hd : d = Char.ofNat d.toNat := by simp
  have hdigits : ∀ k < 10, Char.ofNat (48 + k) = Nat.digitChar k := by decide
  have hk := hdigits (d.toNat - 48) (by omega)
  rw [← hk, show 48 + (d.toNat - 48) = d.toNat by omega]
  exact hd

/-- The first separator splits a list in one way only. -/
theorem append_cons_inj_of_not_mem {α : Type} {c : α} : ∀ {l l' a a' : List α}, c ∉ l → c ∉ l' →
    l ++ c :: a = l' ++ c :: a' → l = l' ∧ a = a'
  | [], [], a, a', _, _, h => ⟨rfl, (List.cons.inj h).2⟩
  | [], y :: l', a, a', _, hl', h => absurd (List.cons.inj h).1 fun he => hl' (by simp [he])
  | x :: l, [], a, a', hl, _, h => absurd (List.cons.inj h).1 fun he => hl (by simp [he])
  | x :: l, y :: l', a, a', hl, hl', h => by
    obtain ⟨hxy, hrest⟩ := List.cons.inj h
    obtain ⟨hll, haa⟩ := append_cons_inj_of_not_mem (fun hc => hl (List.mem_cons_of_mem x hc))
      (fun hc => hl' (List.mem_cons_of_mem y hc)) hrest
    exact ⟨by rw [hxy, hll], haa⟩

/-- A name that ends in a dash and a number tells both. -/
theorem numbered_inj {s s' : Str} {n n' : ℕ}
    (h : s ++ '-' :: Nat.toDigits 10 n = s' ++ '-' :: Nat.toDigits 10 n') :
    s = s' ∧ n = n' := by
  have hdash : ∀ m : ℕ, '-' ∉ Nat.toDigits 10 m := by
    intro m hm
    have hdigit := Nat.isDigit_of_mem_toDigits (by decide) (by decide) hm
    exact absurd hdigit (by decide)
  -- from the end, the dash is the first one
  have hrev : (Nat.toDigits 10 n).reverse ++ '-' :: s.reverse =
      (Nat.toDigits 10 n').reverse ++ '-' :: s'.reverse := by
    have hr := congrArg List.reverse h
    simpa using hr
  obtain ⟨hdig, hpfx⟩ := append_cons_inj_of_not_mem (by rw [List.mem_reverse]; exact hdash n)
    (by rw [List.mem_reverse]; exact hdash n') hrev
  refine ⟨List.reverse_injective hpfx, ?_⟩
  have hnum := congrArg (fun l => Nat.ofDigitChars 10 l 0) (List.reverse_injective hdig)
  simpa only [Nat.ofDigitChars_ten_toDigits] using hnum

end Dbvm
