import Dbvm.Lib.Like
import Mathlib.Tactic.Common

/-!
# The text of an SQL condition

Conditions as SQLite reads them: words, string literals in which a quote is doubled, numbers, and
the operators `=`, `LIKE … ESCAPE …` and `OR`. The text is read up to its first NUL. A literal is
written by `quote`, and lexing gives back what was quoted (`lex_quote`).
-/

namespace Lib.Sql

/-! ## Lexing -/

/-- A lexical element. -/
inductive Tok where
  /-- A keyword, a column or a number. -/
  | word (w : List Char)
  /-- A string literal. -/
  | str (s : List Char)
  /-- A parenthesis or an operator of one character. -/
  | punct (c : Char)
deriving DecidableEq

/-- What is being read. -/
inductive Mode where
  | plain
  | word (acc : List Char)
  | str (acc : List Char)
deriving DecidableEq

/-- The characters of words. -/
def isWordChar (c : Char) : Bool := c.isAlphanum || c == '_' || c == '.'

/-- A character outside words and literals. -/
def begin (c : Char) : Option (List Tok × Mode) :=
  if c = '\'' then some ([], .str [])
  else if c = ' ' then some ([], .plain)
  else if isWordChar c then some ([], .word [c])
  else if c = '(' ∨ c = ')' ∨ c = '=' then some ([.punct c], .plain)
  else none

/-- The lexical elements of a text. -/
def lex : Mode → List Char → Option (List Tok)
  | .plain, [] => some []
  | .plain, c :: s => do
    let (ts, m) ← begin c
    let rest ← lex m s
    return ts ++ rest
  | .word acc, [] => some [.word acc]
  | .word acc, c :: s =>
    if isWordChar c then lex (.word (acc ++ [c])) s
    else do
      let (ts, m) ← begin c
      let rest ← lex m s
      return .word acc :: ts ++ rest
  -- a literal that is not closed
  | .str _, [] => none
  | .str acc, '\'' :: '\'' :: s => lex (.str (acc ++ ['\''])) s
  | .str acc, '\'' :: s => (lex .plain s).map (.str acc :: ·)
  | .str acc, c :: s => lex (.str (acc ++ [c])) s

/-! ## What a lexical element is read as -/

section Elements

variable {c : Char} {w s : List Char}

/-- A character outside words and literals, with what it begins. -/
theorem lex_cons {ts : List Tok} {m : Mode} (hc : begin c = some (ts, m)) (s : List Char) :
    lex .plain (c :: s) = (lex m s).map (ts ++ ·) := by
  rw [lex, hc]
  cases h : lex m s <;> simp [h]

/-- A blank between tokens is skipped. -/
theorem lex_space (s : List Char) : lex .plain (' ' :: s) = lex .plain s := by
  rw [lex_cons (by decide : begin ' ' = some ([], .plain))]
  simp

/-- A quote opens a string. -/
theorem lex_open (s : List Char) : lex .plain ('\'' :: s) = lex (.str []) s := by
  rw [lex_cons (by decide : begin '\'' = some ([], .str []))]
  simp

/-- A bracket or an equals sign is a token. -/
theorem lex_punct (hc : c = '(' ∨ c = ')' ∨ c = '=') (s : List Char) :
    lex .plain (c :: s) = (lex .plain s).map (.punct c :: ·) := by
  have hbegin : begin c = some ([.punct c], .plain) := by
    rcases hc with rfl | rfl | rfl <;> decide
  exact lex_cons hbegin s

/-- The characters of a word are collected up to the blank behind it. -/
theorem lex_word_go (hw : ∀ c ∈ w, isWordChar c = true) (s : List Char) : ∀ acc : List Char,
    lex (.word acc) (w ++ ' ' :: s) = (lex .plain s).map (.word (acc ++ w) :: ·) := by
  induction w with
  | nil =>
    intro acc
    have hspace : isWordChar ' ' = false := by decide
    rw [List.nil_append, lex, if_neg (by simp [hspace]),
      (by decide : begin ' ' = some ([], .plain))]
    cases h : lex .plain s <;> simp [h]
  | cons c w ih =>
    intro acc
    rw [List.cons_append, lex, if_pos (hw c (by simp)), ih fun d hd => hw d (by simp [hd]),
      List.append_assoc,
      List.singleton_append]

/-- A word in front of a space is a token. -/
theorem lex_word (hne : w ≠ []) (hw : ∀ c ∈ w, isWordChar c = true) (s : List Char) :
    lex .plain (w ++ ' ' :: s) = (lex .plain s).map (.word w :: ·) := by
  obtain ⟨c, w, rfl⟩ := List.exists_cons_of_ne_nil hne
  have hc := hw c (by simp)
  have hbegin : begin c = some ([], .word [c]) := by
    have hquote : c ≠ '\'' := by
      rintro rfl
      exact absurd hc (by decide)
    have hspace : c ≠ ' ' := by
      rintro rfl
      exact absurd hc (by decide)
    rw [begin, if_neg hquote, if_neg hspace, if_pos hc]
  rw [List.cons_append, lex_cons hbegin, lex_word_go (fun d hd => hw d (by simp [hd])) s [c],
    Option.map_map]
  rfl

end Elements

/-! ## Literals -/

/-- `replace('\'', "''")`: a text inside a string literal. -/
def quote (s : List Char) : List Char := s.flatMap fun c => if c = '\'' then ['\'', '\''] else [c]

/-- Quoting doubles a quote and keeps any other character. -/
theorem quote_cons (c : Char) (s : List Char) :
    quote (c :: s) = (if c = '\'' then ['\'', '\''] else [c]) ++ quote s := rfl

/-- A literal gives back the text that was quoted. -/
theorem lex_quote (s rest : List Char) (hrest : rest.head? ≠ some '\'') : ∀ acc : List Char,
    lex (.str acc) (quote s ++ '\'' :: rest) = (lex .plain rest).map (.str (acc ++ s) :: ·) := by
  induction s with
  | nil =>
    intro acc
    rw [List.append_nil, quote, List.flatMap_nil, List.nil_append, lex]
    rintro s' rfl
    simp at hrest
  | cons c s ih =>
    intro acc
    rw [quote_cons, List.append_assoc]
    split_ifs with hc
    · rw [hc, List.cons_append, List.singleton_append, lex, ih, List.append_assoc,
        List.singleton_append]
    · rw [List.singleton_append, lex, ih, List.append_assoc, List.singleton_append]
      · exact fun _ h _ => hc h
      · exact hc

/-- A text without its closing quote is not read. -/
theorem lex_quote_open (s : List Char) : ∀ acc : List Char, lex (.str acc) (quote s) = none := by
  induction s with
  | nil => exact fun _ => rfl
  | cons c s ih =>
    intro acc
    rw [quote_cons]
    split_ifs with hc
    · rw [List.cons_append, List.singleton_append, lex, ih]
    · rw [List.singleton_append, lex, ih]
      · exact fun _ h _ => hc h
      · exact hc

/-! ## Parsing -/

/-- A side of a comparison. -/
inductive Operand where
  | num (digits : List Char)
  | text (s : List Char)
  | column (name : List Char)
deriving DecidableEq

/-- A condition. -/
inductive Expr where
  | eq (a b : Operand)
  | like (a pat : Operand) (esc : Char)
  | or (e f : Expr)

/-- The side of a comparison that an element is. -/
def operand : Tok → Option Operand
  | .word w => some (if w.all Char.isDigit then .num w else .column w)
  | .str s => some (.text s)
  | .punct _ => none

/-- A comparison, and what follows it. -/
def comparison (ts : List Tok) : Option (Expr × List Tok) :=
  match ts with
  | a :: op :: b :: rest => do
    let x ← operand a
    let y ← operand b
    if op = .punct '=' then some (.eq x y, rest)
    else if op = .word "LIKE".toList then
      match rest with
      | e :: .str [esc] :: rest =>
          if e = .word "ESCAPE".toList then some (.like x y esc, rest) else none
      | _ => none
    else none
  | _ => none

/-- A condition, and what follows it. -/
def parse : ℕ → List Tok → Option (Expr × List Tok)
  | 0, _ => none
  | fuel + 1, ts => do
    let (e, rest) ← match ts with
      | .punct '(' :: ts => do
        let (e, rest) ← parse fuel ts
        match rest with
        | .punct ')' :: rest => some (e, rest)
        | _ => none
      | _ => comparison ts
    match rest with
    | .word ['O', 'R'] :: rest => do
      let (f, rest) ← parse fuel rest
      some (.or e f, rest)
    | _ => some (e, rest)

/-! ## Evaluation -/

/-- The values of the columns of a row. -/
abbrev Env := List Char → Option (List Char)

/-- A side of a comparison: a number or a text. -/
def Operand.eval (env : Env) : Operand → Option (List Char ⊕ List Char)
  | .num n => some (.inl n)
  | .text s => some (.inr s)
  | .column c => (env c).map .inr

/-- The value of a condition; `none` where it has none. -/
def Expr.eval (env : Env) : Expr → Option Bool
  | .eq a b => do
    let x ← a.eval env
    let y ← b.eval env
    return decide (x = y)
  | .like a p esc => do
    let x ← a.eval env
    let y ← p.eval env
    match x, y with
    | .inr s, .inr pat => some (likeEsc esc (cText pat) (cText s))
    | _, _ => none
  | .or e f => do
    let x ← e.eval env
    let y ← f.eval env
    return x || y

/-- The value of the condition that a text spells. -/
def evalText (text : List Char) (env : Env) : Option Bool := do
  let ts ← lex .plain (cText text)
  let (e, rest) ← parse ts.length ts
  if rest = [] then e.eval env else none

end Lib.Sql
