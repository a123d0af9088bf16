import Dbvm.MountLinks

/-!
# Path normalisation as a canonical form

What `normalize_vm_path` makes of a text should be a canonical form of paths (`Canonical`): a list
of names, which a second round does not change, which is the path itself for a path that is one
already, and which for the text of an entry of a directory is the path of this entry. White space is
taken off the whole text, hence off the last name of a path too, and it is taken off before `.` and
`..` are resolved, which may put another name last.
-/

namespace Dbvm

section Canonical

variable {s d name : Str}

/-- A path in canonical form: the root, or names with a slash before each. -/
def IsPath (p : Str) : Prop := ∃ cs, (∀ c ∈ cs, IsName c) ∧ p = pathOf cs

/-- A directory with a name appended. -/
def childPath (d name : Str) : Str := if d = root then '/' :: name else d ++ '/' :: name

/-- Normalisation brings this text to a canonical form. -/
structure Canonical (s : Str) : Prop where
  /-- The result is a path. -/
  shape : IsPath (normalizeVmPath s)
  /-- A second round changes nothing. -/
  twice : normalizeVmPath (normalizeVmPath s) = normalizeVmPath s
  /-- A path stays as it is. -/
  stays : IsPath s → normalizeVmPath s = s
  /-- The text of a name in a directory becomes the directory with that name appended. -/
  child : ∀ d name, IsPath d → IsName name → s = d ++ '/' :: name →
    normalizeVmPath s = childPath d name

/-- No white space is where normalisation would take it from a name: at the end of the last name
that is left when `.` and `..` are resolved, and at the end of a text that is a path or a name in a
directory. -/
structure EndsPlain (s : Str) : Prop where
  /-- The last name that is left. -/
  last : ∀ c ∈ (splitComponents (trim s)).getLast?, ¬ EndsBlank c
  /-- The text itself. -/
  whole : IsPath s ∨ (∃ d name, IsPath d ∧ IsName name ∧ s = d ++ '/' :: name) → ¬ EndsBlank s

/-- The root does not end with a blank. -/
theorem not_endsBlank_root : ¬ EndsBlank root := by
  rintro ⟨c, hc, hws⟩
  cases hc
  exact absurd hws (by decide)

/-- What follows in a text has its end. -/
theorem endsBlank_append (s : Str) (hname : name ≠ []) :
    EndsBlank (s ++ '/' :: name) ↔ EndsBlank name := by
  unfold EndsBlank
  rw [List.getLast?_append_of_ne_nil _ (List.cons_ne_nil _ _), List.getLast?_cons_of_ne_nil hname]

/-- A path ends with a blank iff its last name does. -/
theorem endsBlank_pathOf_concat {cs : List Str} {c : Str} (hc : c ≠ []) :
    EndsBlank (pathOf (cs ++ [c])) ↔ EndsBlank c := by
  rw [pathOf_concat, ofNames_append, ofNames_cons, ofNames_nil, List.append_nil]
  exact endsBlank_append (ofNames cs) hc

/-- The path of some names ends as the last of them. -/
theorem not_endsBlank_pathOf {cs : List Str} (hcs : ∀ c ∈ cs, IsName c) :
    ¬ EndsBlank (pathOf cs) ↔ ∀ c ∈ cs.getLast?, ¬ EndsBlank c := by
  rcases List.eq_nil_or_concat cs with rfl | ⟨ds, c, rfl⟩
  · exact iff_of_true not_endsBlank_root (by simp)
  · rw [List.concat_eq_append] at hcs ⊢
    rw [endsBlank_pathOf_concat (hcs c (by simp)).ne_nil]
    simp

/-- What `normalize_vm_path` gives is a path of names. -/
theorem isPath_normalizeVmPath (s : Str) : IsPath (normalizeVmPath s) :=
  ⟨splitComponents (trim s), isName_splitComponents _, normalizeVmPath_eq s⟩

/-- A second round changes nothing exactly if the last name that is left does not end in white
space. -/
theorem normalizeVmPath_twice_iff (s : Str) :
    normalizeVmPath (normalizeVmPath s) = normalizeVmPath s ↔
    ∀ c ∈ (splitComponents (trim s)).getLast?, ¬ EndsBlank c := by
  have hnames := isName_splitComponents (trim s)
  rw [normalizeVmPath_eq s]
  exact (normal_pathOf_iff hnames).trans (not_endsBlank_pathOf hnames)

/-- A path stays as it is exactly if it does not end in white space. -/
theorem normalizeVmPath_eq_self_iff (h : IsPath s) : normalizeVmPath s = s ↔ ¬ EndsBlank s := by
  obtain ⟨cs, hcs, rfl⟩ := h
  exact normal_pathOf_iff hcs

/-- The path of a child is one more name. -/
theorem childPath_pathOf {cs : List Str} (hcs : ∀ c ∈ cs, IsName c) (name : Str) :
    childPath (pathOf cs) name = pathOf (cs ++ [name]) := by
  rw [pathOf_concat]
  exact child_pathOf hcs

/-- The components of a name in a directory. -/
theorem splitComponents_child {cs : List Str} (hcs : ∀ c ∈ cs, IsName c) (hname : IsName name) :
    splitComponents (pathOf cs ++ '/' :: name) = cs ++ [name] := by
  have hlast : hopsOf name = [.into name] := by
    rw [hopsOf_of_not_mem hname.no_slash, if_neg (by simp [hname.ne_nil, hname.ne_dot]),
      if_neg hname.ne_dotdot]
  have hdir : splitComponents (pathOf cs) = cs := by
    by_cases hnil : cs = []
    · subst hnil
      decide
    · rw [pathOf, if_neg hnil, splitComponents, splitOn_ofNames hnil hcs, List.foldl_cons]
      exact foldl_pushSegment_names hcs []
  rw [splitComponents_eq, hopsOf_append_slash, hlast, List.foldl_append, ← splitComponents_eq, hdir]
  rfl

/-- The text of a name in a directory becomes its path exactly if the name does not end in white
space. -/
theorem normalizeVmPath_child_iff (hd : IsPath d) (hname : IsName name) :
    normalizeVmPath (d ++ '/' :: name) = childPath d name ↔ ¬ EndsBlank (d ++ '/' :: name) := by
  obtain ⟨cs, hcs, rfl⟩ := hd
  obtain ⟨t, ht⟩ : ∃ t, pathOf cs = '/' :: t := by
    by_cases hnil : cs = []
    · subst hnil
      exact ⟨[], rfl⟩
    · obtain ⟨c, cs, rfl⟩ := List.exists_cons_of_ne_nil hnil
      exact ⟨c ++ ofNames cs, by rw [pathOf, if_neg hnil]; rfl⟩
  have hsame := splitComponents_child hcs hname
  rw [childPath_pathOf hcs]
  rw [ht, List.cons_append] at hsame ⊢
  constructor
  · intro heq hblank
    have hlt := length_lt_of_endsBlank hblank
    rw [heq, hsame] at hlt
    exact absurd hlt (lt_irrefl _)
  · intro hplain
    rw [normalizeVmPath_of_not_endsBlank hplain, hsame]

/-- Normalisation brings a text to a canonical form exactly if it ends plainly. -/
theorem canonical_iff (s : Str) : Canonical s ↔ EndsPlain s := by
  constructor
  · intro h
    refine ⟨(normalizeVmPath_twice_iff s).1 h.twice, ?_⟩
    rintro (hpath | ⟨d, name, hd, hname, rfl⟩)
    · exact (normalizeVmPath_eq_self_iff hpath).1 (h.stays hpath)
    · exact (normalizeVmPath_child_iff hd hname).1 (h.child d name hd hname rfl)
  · intro h
    refine ⟨isPath_normalizeVmPath s, (normalizeVmPath_twice_iff s).2 h.last, fun hpath => ?_, ?_⟩
    · exact (normalizeVmPath_eq_self_iff hpath).2 (h.whole (Or.inl hpath))
    · rintro d name hd hname rfl
      exact (normalizeVmPath_child_iff hd hname).2 (h.whole (Or.inr ⟨d, name, hd, hname, rfl⟩))

/-- A name that ends in a blank becomes the name without it. -/
theorem not_canonical_blank : ¬ Canonical "/a ".toList := by
  intro h
  have hpath : IsPath "/a ".toList := ⟨["a ".toList], by decide, by decide⟩
  have hother : normalizeVmPath "/a ".toList ≠ "/a ".toList := by decide
  exact hother (h.stays hpath)

end Canonical

end Dbvm
