import Dbvm.Lib.SqlText
import Dbvm.Policy

/-!
# The condition of a read-only prefix as text

`under_prefix` (`src/policy.rs`) writes the condition of a rule into the SQL of the triggers: the
prefix as a string literal, and once more as a pattern of `LIKE`, escaped for both. The text is read
back here as SQLite reads it, and its value on a row is compared with `covers`, the test of the same
rule in the overlay.
-/

namespace Dbvm

open Lib

/-! ## The text -/

/-- The rows a trigger can name. -/
inductive RowRef where
  | new
  | old

/-- The column `path` of such a row. -/
def RowRef.path : RowRef → Str
  | .new => "NEW.path".toList
  | .old => "OLD.path".toList

/-- The SQL condition that `col` is the protected path or under it: `under_prefix`. -/
def underPrefixText (col pfx : Str) : Str :=
  let p := Sql.quote pfx
  let like := Sql.quote (likeEscape pfx)
  if pfx = root then "1=1".toList
  else "(".toList ++ col ++ " = '".toList ++ p ++ "' OR ".toList ++ col ++
    " LIKE '".toList ++ like ++
    "/%' ESCAPE '\\')".toList

/-- A row whose path is `path`. -/
def rowEnv (row : RowRef) (path : Str) : Sql.Env :=
  fun c => if c = row.path then some path else none

/-- The two tests of a prefix give the same answer. -/
def TestsAgree (row : RowRef) (pfx path : Str) : Prop :=
  Sql.evalText (underPrefixText row.path pfx) (rowEnv row path) = some (covers pfx path)

/-! ## What `LIKE` matches -/

section Match

variable {xs s pfx path : Str}

/-- Characters with anything behind them match what begins with them, up to the case of ASCII
letters. -/
theorem matches?_lits (xs : Str) : ∀ s : Str,
    Tok.matches? (xs.map Tok.lit ++ [Tok.any]) s = true ↔
    xs.map Char.toLower <+: s.map Char.toLower := by
  induction xs with
  | nil => exact fun s => iff_of_true (Tok.matches?_any_nil s) List.nil_prefix
  | cons x xs ih =>
    intro s
    cases s with
    | nil => simp [Tok.matches?]
    | cons c s =>
      rw [List.map_cons, List.cons_append, Tok.matches?, Bool.and_eq_true, ih, beq_iff_eq,
        List.map_cons,
        List.map_cons, List.cons_prefix_cons]

/-- The pattern of a prefix matches what begins with the prefix and a slash, up to case. -/
theorem likeEsc_prefix (pfx s : Str) : likeEsc '\\' (likeEscape pfx ++ ['/', '%']) s = true ↔
    (pfx ++ ['/']).map Char.toLower <+: s.map Char.toLower := by
  rw [likeEsc, ofPattern_likeEscape, ← matches?_lits, List.map_append, List.append_assoc]
  rfl

/-- Only NUL has the lower case NUL. -/
theorem toLower_eq_nul {c : Char} (h : c.toLower = '\x00') : c = '\x00' := by
  unfold Char.toLower at h
  split_ifs at h with hup
  · -- a capital letter has a small letter for its lower case
    have hval : (c.val + ('a'.val - 'A'.val)).toNat = 0 := congrArg (fun d : Char => d.val.toNat) h
    have hlow : 65 ≤ c.val.toNat := UInt32.le_iff_toNat_le.1 hup.1
    have hhigh : c.val.toNat ≤ 90 := UInt32.le_iff_toNat_le.1 hup.2
    have hdiff : ('a'.val - 'A'.val).toNat = 32 := rfl
    rw [UInt32.toNat_add, hdiff, Nat.mod_eq_of_lt (by omega)] at hval
    omega
  · exact h

/-- A NUL in the path makes no difference, since the prefix has none. -/
theorem fold_cText (hxs : '\x00' ∉ xs) : ∀ {s : Str},
    xs.map Char.toLower <+: (Sql.cText s).map Char.toLower ↔
    xs.map Char.toLower <+: s.map Char.toLower := by
  induction xs with
  | nil => exact iff_of_true List.nil_prefix List.nil_prefix
  | cons x xs ih =>
    intro s
    rw [List.mem_cons, not_or] at hxs
    cases s with
    | nil => rfl
    | cons c s =>
      by_cases hc : c = '\x00'
      · subst hc
        have hx : x.toLower ≠ '\x00' := fun h => hxs.1 (toLower_eq_nul h).symm
        have hlow : Char.toLower '\x00' = '\x00' := by decide
        simp [Sql.cText, List.cons_prefix_cons, hlow, hx]
      · have hcut : Sql.cText (c :: s) = c :: Sql.cText s := by simp [Sql.cText, hc]
        rw [hcut, List.map_cons, List.map_cons, List.map_cons, List.cons_prefix_cons,
          List.cons_prefix_cons,
          ih hxs.2]

end Match

/-! ## Reading the text -/

section Text

variable {row : RowRef} {pfx path : Str}

/-- The column of a path is a word of SQL. -/
theorem isWordChar_path (row : RowRef) :
    row.path ≠ [] ∧ ∀ c ∈ row.path, Sql.isWordChar c = true := by
  have hall : row.path ≠ [] ∧ row.path.all Sql.isWordChar = true := by cases row <;> decide
  exact ⟨hall.1, List.all_eq_true.1 hall.2⟩

/-- The text with its literals set apart. -/
theorem underPrefixText_eq (hroot : pfx ≠ root) : underPrefixText row.path pfx =
    '(' :: (row.path ++ ' ' :: '=' :: ' ' :: '\'' :: (Sql.quote pfx ++ '\'' ::
      ' ' :: ("OR".toList ++ ' ' :: (row.path ++ ' ' :: ("LIKE".toList ++ ' ' :: '\'' ::
        (Sql.quote (likeEscape pfx ++ ['/', '%']) ++ '\'' :: " ESCAPE '\\')".toList)))))) := by
  have hquote : Sql.quote (likeEscape pfx ++ ['/', '%']) = Sql.quote (likeEscape pfx) ++ ['/',
    '%'] := by
    rw [Sql.quote, List.flatMap_append]
    rfl
  rw [underPrefixText, if_neg hroot, hquote]
  simp

/-- The tail of the test is a word, a string and a bracket. -/
theorem lex_escape : Sql.lex .plain " ESCAPE '\\')".toList =
    some [.word "ESCAPE".toList, .str ['\\'], .punct ')'] := by decide

/-- The text of a prefix without NUL, as SQLite reads it. -/
theorem lex_underPrefixText (hroot : pfx ≠ root) : Sql.lex .plain (underPrefixText row.path pfx) =
    some [.punct '(', .word row.path, .punct '=', .str pfx, .word "OR".toList, .word row.path,
      .word "LIKE".toList, .str (likeEscape pfx ++ ['/', '%']), .word "ESCAPE".toList, .str ['\\'],
      .punct ')'] := by
  obtain ⟨hne, hword⟩ := isWordChar_path row
  rw [underPrefixText_eq hroot, Sql.lex_punct (by simp), Sql.lex_word hne hword,
    Sql.lex_punct (by simp),
    Sql.lex_space, Sql.lex_open, Sql.lex_quote _ _ (by simp), Sql.lex_space,
    Sql.lex_word (by decide) (List.all_eq_true.1 (by decide)), Sql.lex_word hne hword,
    Sql.lex_word (by decide) (List.all_eq_true.1 (by decide)),
    Sql.lex_open, Sql.lex_quote _ _ (by decide), lex_escape]
  rfl

/-- Quoting brings no NUL. -/
theorem not_mem_nul_quote {s : Str} (h : '\x00' ∉ s) : '\x00' ∉ Sql.quote s := by
  intro hmem
  obtain ⟨c, hc, hin⟩ := List.mem_flatMap.1 hmem
  split_ifs at hin
  · simp at hin
  · exact h (List.mem_singleton.1 hin ▸ hc)

/-- Escaping brings no NUL. -/
theorem not_mem_nul_likeEscape {s : Str} (h : '\x00' ∉ s) : '\x00' ∉ likeEscape s := by
  intro hmem
  obtain ⟨c, hc, hin⟩ := List.mem_flatMap.1 hmem
  have hnul : '\x00' ≠ '\\' := by decide
  split_ifs at hin
  · rcases List.mem_cons.1 hin with he | he
    · exact hnul he
    · exact h (List.mem_singleton.1 he ▸ hc)
  · exact h (List.mem_singleton.1 hin ▸ hc)

/-- A prefix without NUL is written without NUL. -/
theorem cText_underPrefixText (h : '\x00' ∉ pfx) :
    Sql.cText (underPrefixText row.path pfx) = underPrefixText row.path pfx := by
  refine Sql.cText_of_not_mem ?_
  by_cases hroot : pfx = root
  · rw [underPrefixText, if_pos hroot]
    decide
  · have hq := not_mem_nul_quote h
    have hl := not_mem_nul_quote (not_mem_nul_likeEscape h)
    have hcol : '\x00' ∉ row.path := by cases row <;> decide
    rw [underPrefixText, if_neg hroot]
    simp [hq, hl, hcol]

/-- The elements of the text are a comparison with the prefix or one with its pattern. -/
theorem parse_underPrefix (a b : Str) :
    Sql.parse 11 [.punct '(', .word row.path, .punct '=', .str a, .word "OR".toList, .word row.path,
      .word "LIKE".toList, .str b, .word "ESCAPE".toList, .str ['\\'], .punct ')'] =
    some (.or (.eq (.column row.path) (.text a)) (.like (.column row.path) (.text b) '\\'),
      []) := by
  cases row <;> rfl

/-- The pattern matches a path as if `LIKE` saw all of it. -/
theorem likeEsc_cText (h : '\x00' ∉ pfx) :
    likeEsc '\\' (Sql.cText (likeEscape pfx ++ ['/', '%'])) (Sql.cText path) =
      likeEsc '\\' (likeEscape pfx ++ ['/', '%']) path := by
  have hpat : '\x00' ∉ likeEscape pfx ++ ['/', '%'] := by
    rw [List.mem_append, not_or]
    exact ⟨not_mem_nul_likeEscape h, by decide⟩
  have hxs : '\x00' ∉ pfx ++ ['/'] := by
    rw [List.mem_append, not_or]
    exact ⟨h, by decide⟩
  rw [Sql.cText_of_not_mem hpat, Bool.eq_iff_iff, likeEsc_prefix, likeEsc_prefix]
  exact fold_cText hxs

/-- The value of the condition on a row: the test the model of the triggers makes. -/
theorem evalText_underPrefixText (h : '\x00' ∉ pfx) :
    Sql.evalText (underPrefixText row.path pfx)
    (rowEnv row path) = some (underPrefix pfx path) := by
  unfold Sql.evalText
  rw [cText_underPrefixText h]
  by_cases hroot : pfx = root
  · rw [underPrefixText, if_pos hroot, hroot]
    rfl
  · have hrow : rowEnv row path row.path = some path := if_pos rfl
    have hsame : decide ((.inr path : Str ⊕ Str) = .inr pfx) = decide (path = pfx) := by simp
    rw [lex_underPrefixText hroot]
    simp only [List.length_cons, List.length_nil, Nat.reduceAdd, Option.bind_eq_bind,
      Option.bind_some,
      parse_underPrefix, if_true, Sql.Expr.eval, Sql.Operand.eval, hrow, Option.map_some, hsame,
      likeEsc_cText h, Option.pure_def, underPrefix, decide_eq_false hroot, Bool.false_or]

/-- A prefix with a NUL is cut inside its literal, and the text has no value. -/
theorem evalText_nul (h : '\x00' ∈ pfx) :
    Sql.evalText (underPrefixText row.path pfx) (rowEnv row path) = none := by
  have hroot : pfx ≠ root := by
    rintro rfl
    exact absurd h (by decide)
  obtain ⟨hne, hword⟩ := isWordChar_path row
  have hcol : ∀ c ∈ row.path, c ≠ '\x00' := by
    have hall : (row.path.all fun c => c ≠ '\x00') = true := by cases row <;> decide
    exact fun c hc => of_decide_eq_true (List.all_eq_true.1 hall c hc)
  have hcut : ∀ (s rest : Str), '\x00' ∈ s →
    Sql.cText (Sql.quote s ++ rest) = Sql.quote (Sql.cText s) := by
    intro s rest
    induction s with
    | nil => simp
    | cons c s ih =>
      intro hs
      rw [Sql.quote_cons]
      by_cases hc : c = '\x00'
      · subst hc
        rfl
      · have hrest := ih ((List.mem_cons.1 hs).resolve_left (Ne.symm hc))
        have hcons : Sql.cText (c :: s) = c :: Sql.cText s := by simp [Sql.cText, hc]
        rw [hcons, Sql.quote_cons, ← hrest]
        split_ifs <;> simp [Sql.cText, hc]
  have htext : Sql.cText (underPrefixText row.path pfx) =
      '(' :: (row.path ++ ' ' :: '=' :: ' ' :: '\'' :: Sql.quote (Sql.cText pfx)) := by
    rw [underPrefixText_eq hroot]
    generalize
      ('\'' :: ' ' :: ("OR".toList ++ ' ' :: (row.path ++ ' ' :: ("LIKE".toList ++ ' ' :: '\'' ::
      (Sql.quote (likeEscape pfx ++ ['/', '%']) ++ '\'' :: " ESCAPE '\\')".toList))))) = rest
    have hquote := hcut pfx rest h
    have hfront : ∀ (w : Str) (t : Str), (∀ c ∈ w, c ≠ '\x00') →
      Sql.cText (w ++ t) = w ++ Sql.cText t := by
      intro w t hw
      exact List.takeWhile_append_of_pos fun c hc => by simpa using hw c hc
    -- SQLite reads the text up to the first NUL, which leaves a string without its closing quote.
    have hhead : ∀ c ∈ '(' :: (row.path ++ [' ', '=', ' ', '\'']), c ≠ '\x00' := by
      have hall : (('(' :: (row.path ++ [' ', '=', ' ', '\''])).all fun c => c ≠ '\x00') =
        true := by
        cases row <;> decide
      exact fun c hc => of_decide_eq_true (List.all_eq_true.1 hall c hc)
    have hsplit := hfront _ (Sql.quote pfx ++ rest) hhead
    rw [hquote] at hsplit
    simpa using hsplit
  unfold Sql.evalText
  rw [htext, Sql.lex_punct (by simp), Sql.lex_word hne hword, Sql.lex_punct (by simp),
    Sql.lex_space,
    Sql.lex_open, Sql.lex_quote_open]
  rfl

end Text

/-! ## Where the two tests agree -/

section Agreement

variable {row : RowRef} {pfx path : Str}

/-- A prefix covers itself and what follows it with a slash; the root covers everything. -/
theorem covers_iff : covers pfx path = true ↔ pfx = root ∨ path = pfx ∨ pfx ++ ['/'] <+: path := by
  simp [covers, or_assoc]

/-- The test of the triggers is the same up to the case of ASCII letters. -/
theorem underPrefix_iff : underPrefix pfx path = true ↔
    pfx = root ∨ path = pfx ∨ (pfx ++ ['/']).map Char.toLower <+: path.map Char.toLower := by
  rw [underPrefix, Bool.or_eq_true, Bool.or_eq_true, likeEsc_prefix, decide_eq_true_iff,
    decide_eq_true_iff,
    or_assoc]

/-- The condition in the triggers and the test in the overlay agree exactly when the prefix has no
NUL and is the root, or the path does not begin with the prefix and a slash in other letter case
only. -/
theorem testsAgree_iff (row : RowRef) (pfx path : Str) : TestsAgree row pfx path ↔ '\x00' ∉ pfx ∧
    (pfx = root ∨ ((pfx ++ ['/']).map Char.toLower <+: path.map Char.toLower →
      pfx ++ ['/'] <+: path)) := by
  unfold TestsAgree
  by_cases hnul : '\x00' ∈ pfx
  · rw [evalText_nul hnul]
    exact iff_of_false (by simp) fun h => h.1 hnul
  · rw [evalText_underPrefixText hnul, Option.some_inj, Bool.eq_iff_iff, covers_iff,
      underPrefix_iff,
      and_iff_right hnul]
    by_cases hroot : pfx = root
    · simp [hroot]
    · have hlt : (pfx ++ ['/']).map Char.toLower <+: path.map Char.toLower → path ≠ pfx := by
        rintro hfold rfl
        have hle := hfold.length_le
        simp only [List.length_map, List.length_append, List.length_singleton] at hle
        omega
      have hself : pfx ++ ['/'] <+: path →
        (pfx ++ ['/']).map Char.toLower <+: path.map Char.toLower :=
        fun h => h.map _
      simp only [hroot, false_or]
      constructor
      · intro h hfold
        exact (h.1 (Or.inr hfold)).resolve_left (hlt hfold)
      · intro h
        exact or_congr_right ⟨h, hself⟩

/-- The rule on `/Etc` and the path `/etc/x`: the condition in the triggers holds, `covers` does
not. -/
theorem not_testsAgree_case :
    ¬ ∀ (row : RowRef) (pfx path : Str), Normal pfx → TestsAgree row pfx path := by
  intro h
  have hagree := (testsAgree_iff _ _ _).1 (h .new "/Etc".toList "/etc/x".toList (by decide))
  exact absurd hagree (by decide)

end Agreement

end Dbvm
