import Mathlib.Data.List.Basic
import Mathlib.Data.List.Infix
import Mathlib.Data.List.TakeWhile
import Mathlib.Tactic.Basic

/-!
# The SQL `LIKE` pattern match

`like pat s` is SQLite's `s LIKE pat`: `%` stands for any run of characters, `_` for any one
character, and ASCII letters match whatever their case. The operands are C strings to the function
behind the operator, so each is read up to its first NUL (`Sql.cText`). `likeEsc` is the form with
`ESCAPE`, where the character after the escape stands for itself, on operands that are cut already.
A pattern matches at least the strings that begin with its own text (`like_of_prefix`); with
wildcards or letters in it, or a NUL, it matches more.
-/

namespace Lib

/-- One element of a `LIKE` pattern. -/
inductive Tok where
  /-- `%`. -/
  | any
  /-- `_`. -/
  | one
  /-- A character that stands for itself, in either case. -/
  | lit (c : Char)
  /-- An escape with nothing after it, which matches nothing. -/
  | fail
  deriving DecidableEq

namespace Tok

/-- The elements of a pattern. `esc` is the escape character, if there is one. -/
def ofPattern (esc : Option Char) : List Char → List Tok
  | [] => []
  | [c] => if some c = esc then [fail] else if c = '%' then [any] else if c = '_' then [one]
      else [lit c]
  | c :: d :: cs =>
      if some c = esc then lit d :: ofPattern esc cs
      else (if c = '%' then any else if c = '_' then one else lit c) :: ofPattern esc (d :: cs)

/-- Whether a list of elements matches the whole of a string. -/
def matches? : List Tok → List Char → Bool
  | [], s => s.isEmpty
  | any :: ts, s => s.tails.any fun t => matches? ts t
  | one :: ts, _ :: s => matches? ts s
  | one :: _, [] => false
  | lit a :: ts, c :: s => a.toLower == c.toLower && matches? ts s
  | lit _ :: _, [] => false
  | fail :: _, _ => false

end Tok

/-- A text as `LIKE` sees it: up to its first NUL. -/
def Sql.cText (s : List Char) : List Char := s.takeWhile (· ≠ '\x00')

/-- `s LIKE pat`. -/
def like (pat s : List Char) : Bool :=
  Tok.matches? (Tok.ofPattern none (Sql.cText pat)) (Sql.cText s)

/-- `s LIKE pat ESCAPE esc`, for operands without a NUL. -/
def likeEsc (esc : Char) (pat s : List Char) : Bool :=
  Tok.matches? (Tok.ofPattern (some esc) pat) s

/-- The element a character stands for in a pattern without escapes. -/
def Tok.ofChar (c : Char) : Tok := if c = '%' then any else if c = '_' then one else lit c

/-- Without an escape every character is an element of its own. -/
theorem Tok.ofPattern_none (pat : List Char) : Tok.ofPattern none pat = pat.map Tok.ofChar := by
  induction pat with
  | nil => rfl
  | cons c cs ih =>
    rcases cs with _ | ⟨d, cs⟩
    · simp only [ofPattern, reduceCtorEq, if_false, List.map_cons, List.map_nil, ofChar]
      split_ifs <;> rfl
    · rw [ofPattern, if_neg (by simp), ih]
      rfl

/-- A trailing `%` lets anything follow. -/
theorem Tok.matches?_any_nil (s : List Char) : Tok.matches? [any] s = true := by
  simp only [matches?, List.any_eq_true, List.mem_tails, List.isEmpty_iff]
  exact ⟨[], List.nil_suffix, rfl⟩

/-- A character's element matches that character in front of what the rest matches. -/
theorem Tok.matches?_ofChar_cons (c : Char) {ts : List Tok} {s : List Char}
    (h : Tok.matches? ts s = true) : Tok.matches? (Tok.ofChar c :: ts) (c :: s) = true := by
  unfold ofChar
  split_ifs with h1 h2
  · simp only [matches?, List.any_eq_true, List.mem_tails]
    exact ⟨s, List.suffix_cons c s, h⟩
  · simpa only [matches?] using h
  · simpa [matches?] using h

/-- A pattern text matches itself in front of what the rest matches. -/
theorem Tok.matches?_append (p : List Char) {ts : List Tok} {s : List Char}
    (h : Tok.matches? ts s = true) : Tok.matches? (p.map Tok.ofChar ++ ts) (p ++ s) = true := by
  induction p with
  | nil => exact h
  | cons c p ih =>
    rw [List.map_cons, List.cons_append, List.cons_append]
    exact matches?_ofChar_cons c ih

/-! ## Texts up to their NUL -/

/-- A text without a NUL is read whole. -/
theorem Sql.cText_of_not_mem {s : List Char} (h : '\x00' ∉ s) : Sql.cText s = s := by
  unfold Sql.cText
  refine List.takeWhile_eq_self_iff.2 fun c hc => ?_
  simp only [ne_eq, decide_eq_true_eq]
  rintro rfl
  exact h hc

/-- After a text without a NUL, the cut is in what follows. -/
theorem Sql.cText_append {p : List Char} (h : '\x00' ∉ p) (s : List Char) :
    Sql.cText (p ++ s) = p ++ Sql.cText s := by
  unfold Sql.cText
  refine List.takeWhile_append_of_pos fun c hc => ?_
  simp only [ne_eq, decide_eq_true_eq]
  rintro rfl
  exact h hc

/-- What follows a NUL is not read. -/
theorem Sql.cText_append_of_mem {p : List Char} (h : '\x00' ∈ p) (s : List Char) :
    Sql.cText (p ++ s) = Sql.cText p := by
  induction p with
  | nil => cases h
  | cons c p ih =>
    by_cases hc : c = '\x00'
    · simp [Sql.cText, hc]
    · have hmem : '\x00' ∈ p := (List.mem_cons.1 h).resolve_left (Ne.symm hc)
      have hstep : ∀ t, Sql.cText (c :: t) = c :: Sql.cText t := fun t => by simp [Sql.cText, hc]
      rw [List.cons_append, hstep, hstep, ih hmem]

/-! ## What a pattern matches -/

/-- What begins with the text of a pattern is matched by the pattern with `%` after it. With a NUL
in the text both operands end there, and a text matches itself. -/
theorem like_of_prefix {p s : List Char} (h : p <+: s) : like (p ++ ['%']) s = true := by
  obtain ⟨t, rfl⟩ := h
  by_cases hnul : '\x00' ∈ p
  · rw [like, Sql.cText_append_of_mem hnul, Sql.cText_append_of_mem hnul, Tok.ofPattern_none]
    have hself := Tok.matches?_append (Sql.cText p) (show Tok.matches? [] [] = true from rfl)
    rwa [List.append_nil, List.append_nil] at hself
  · rw [like, Sql.cText_append hnul, Sql.cText_append hnul, Tok.ofPattern_none, List.map_append]
    exact Tok.matches?_append p (Tok.matches?_any_nil _)

/-- With a `%` at the end of the pattern, what is matched may go on. -/
theorem Tok.matches?_any_append (t : List Char) : ∀ {ts : List Tok} {s : List Char},
    Tok.matches? (ts ++ [any]) s = true → Tok.matches? (ts ++ [any]) (s ++ t) = true
  | [], s, _ => Tok.matches?_any_nil (s ++ t)
  | any :: ts, s, h => by
    rw [List.cons_append, matches?, List.any_eq_true] at h ⊢
    obtain ⟨u, hu, hmatch⟩ := h
    rw [List.mem_tails] at hu
    refine ⟨u ++ t, ?_, Tok.matches?_any_append t hmatch⟩
    obtain ⟨a, rfl⟩ := hu
    rw [List.mem_tails, List.append_assoc]
    exact List.suffix_append a (u ++ t)
  | one :: ts, [], h => by cases h
  | one :: ts, _ :: s, h => by
    have hrest : Tok.matches? (ts ++ [any]) s = true := h
    have hgo : Tok.matches? (ts ++ [any]) (s ++ t) = true := Tok.matches?_any_append t hrest
    exact hgo
  | lit a :: ts, [], h => by cases h
  | lit a :: ts, c :: s, h => by
    rw [List.cons_append, matches?, Bool.and_eq_true] at h
    rw [List.cons_append, List.cons_append, matches?, Bool.and_eq_true]
    exact ⟨h.1, Tok.matches?_any_append t h.2⟩
  | fail :: ts, s, h => by cases h

/-- What a pattern with `%` at its end matches may go on. With a NUL before the `%` there is no `%`.
-/
theorem like_append {p s : List Char} (hp : '\x00' ∉ p) (h : like (p ++ ['%']) s = true)
    (t : List Char) : like (p ++ ['%']) (s ++ t) = true := by
  by_cases hnul : '\x00' ∈ s
  · rwa [like, Sql.cText_append_of_mem hnul]
  · have hpat : Sql.cText (p ++ ['%']) = p ++ ['%'] := by rw [Sql.cText_append hp]; rfl
    rw [like, hpat, Tok.ofPattern_none, List.map_append] at h ⊢
    rw [Sql.cText_of_not_mem hnul] at h
    rw [Sql.cText_append hnul]
    exact Tok.matches?_any_append _ h

/-- A pattern whose first character is no wildcard only matches what begins with it. -/
theorem exists_cons_of_like {c : Char} {p s : List Char} (h1 : c ≠ '%') (h2 : c ≠ '_')
    (h3 : c ≠ '\x00') (h : like (c :: p) s = true) :
    ∃ d t, s = d :: t ∧ c.toLower = d.toLower ∧ like p t = true := by
  have hcut : Sql.cText (c :: p) = c :: Sql.cText p := by simp [Sql.cText, h3]
  rw [like, hcut, Tok.ofPattern_none, List.map_cons, Tok.ofChar, if_neg h1, if_neg h2] at h
  rcases s with _ | ⟨d, t⟩
  · simp [Sql.cText, Tok.matches?] at h
  by_cases hd : d = '\x00'
  · simp [Sql.cText, Tok.matches?, hd] at h
  · have hrest : Sql.cText (d :: t) = d :: Sql.cText t := by simp [Sql.cText, hd]
    rw [hrest] at h
    simp only [Tok.matches?, Bool.and_eq_true, beq_iff_eq] at h
    refine ⟨d, t, rfl, h.1, ?_⟩
    rw [like, Tok.ofPattern_none]
    exact h.2

/-- Only wildcards match the empty string. -/
theorem Tok.eq_any_of_matches_nil :
    ∀ {ts : List Tok}, Tok.matches? ts [] = true → ∀ t ∈ ts, t = Tok.any
  | [], _, t, ht => by cases ht
  | any :: ts, h, t, ht => by
    rcases List.mem_cons.1 ht with rfl | ht
    · rfl
    · obtain ⟨u, hu, hmatch⟩ := List.any_eq_true.1
        (show ([] : List Char).tails.any (fun t => matches? ts t) = true from h)
      have hnil : u = [] := List.suffix_nil.1 ((List.mem_tails u []).1 hu)
      rw [hnil] at hmatch
      exact Tok.eq_any_of_matches_nil hmatch t ht
  | one :: ts, h, _, _ => by cases h
  | lit _ :: ts, h, _, _ => by cases h
  | fail :: ts, h, _, _ => by cases h

end Lib
