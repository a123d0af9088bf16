import Mathlib.Data.List.Forall2
import Mathlib.Data.List.TakeWhile
import Mathlib.Data.List.Basic
import Mathlib.Tactic.Common

/-!
# JSON texts

The values of JSON and a reader of its texts, after the grammar of RFC 8259: insignificant white
space, the three literals, numbers, strings with their escapes, arrays and objects. An object is the
list of its members in their order, so that two members of one name would both be there. A number is
a mantissa and a power of ten.

`Denotes s v` says that the reader takes the text `s` for `v` wherever it stands. There is one rule
for each way to put a text together, so that a text that is written from the inside to the outside
is read by the rules in the same order.
-/

namespace Lib.Json

/-- A value. -/
inductive Value where
  /-- `null`. -/
  | null
  /-- `true` and `false`. -/
  | bool (b : Bool)
  /-- A number: the mantissa times a power of ten. -/
  | num (mantissa exponent : ℤ)
  /-- A string. -/
  | str (s : List Char)
  /-- An array. -/
  | arr (vs : List Value)
  /-- An object: its members in their order. -/
  | obj (ms : List (List Char × Value))

/-! ## White space, digits -/

/-- `ws`. -/
def isWs (c : Char) : Bool := c = ' ' || c = '\t' || c = '\n' || c = '\r'

/-- The text from its first character that is not white space. -/
def skipWs (s : List Char) : List Char := s.dropWhile isWs

/-- `HEXDIG`, in both cases. -/
def hexValue (c : Char) : Option ℕ :=
  if '0' ≤ c ∧ c ≤ '9' then some (c.toNat - '0'.toNat)
  else if 'a' ≤ c ∧ c ≤ 'f' then some (c.toNat - 'a'.toNat + 10)
  else if 'A' ≤ c ∧ c ≤ 'F' then some (c.toNat - 'A'.toNat + 10)
  else none

/-- Four hexadecimal digits. -/
def hex4 : List Char → Option (ℕ × List Char)
  | a :: b :: c :: d :: s => do
    let a ← hexValue a
    let b ← hexValue b
    let c ← hexValue c
    let d ← hexValue d
    some (((a * 16 + b) * 16 + c) * 16 + d, s)
  | _ => none

/-! ## Strings -/

/-- What follows `\u`: a code point, or a pair of surrogates. Half a pair stands for no character.
-/
def unicodeEscape (s : List Char) : Option (Char × List Char) := do
  let (n, s) ← hex4 s
  if 0xd800 ≤ n ∧ n < 0xdc00 then
    match s with
    | '\\' :: 'u' :: s => do
      let (m, s) ← hex4 s
      if 0xdc00 ≤ m ∧
        m < 0xe000 then some (Char.ofNat (0x10000 + (n - 0xd800) * 0x400 + (m - 0xdc00)),
          s) else none
    | _ => none
  else if 0xdc00 ≤ n ∧ n < 0xe000 then none
  else some (Char.ofNat n, s)

/-- The next character of a string, or the quotation mark that ends it. -/
def nextChar : List Char → Option (Option Char × List Char)
  | '"' :: s => some (none, s)
  | '\\' :: '"' :: s => some (some '"', s)
  | '\\' :: '\\' :: s => some (some '\\', s)
  | '\\' :: '/' :: s => some (some '/', s)
  | '\\' :: 'b' :: s => some (some (Char.ofNat 8), s)
  | '\\' :: 'f' :: s => some (some (Char.ofNat 12), s)
  | '\\' :: 'n' :: s => some (some '\n', s)
  | '\\' :: 'r' :: s => some (some '\r', s)
  | '\\' :: 't' :: s => some (some '\t', s)
  | '\\' :: 'u' :: s => (unicodeEscape s).map fun r => (some r.1, r.2)
  | '\\' :: _ => none
  | c :: s => if 0x20 ≤ c.toNat then some (some c, s) else none
  | [] => none

/-- The characters up to the quotation mark that ends the string. -/
def parseChars : ℕ → List Char → Option (List Char × List Char)
  | 0, _ => none
  | fuel + 1, s =>
    match nextChar s with
    | none => none
    | some (none, s) => some ([], s)
    | some (some c, s) => (parseChars fuel s).map fun r => (c :: r.1, r.2)

/-- What follows the quotation mark that begins a string. -/
def parseString (s : List Char) : Option (List Char × List Char) := parseChars s.length s

/-! ## Numbers -/

/-- The number that decimal digits stand for. -/
def ofDigits (ds : List Char) : ℕ := Nat.ofDigitChars 10 ds 0

/-- `int`: digits without a zero in front. -/
def isInt (ds : List Char) : Bool := ds ≠ [] && (ds.head? ≠ some '0' || ds.length = 1)

/-- `frac`, if there is one: its digits. -/
def parseFrac : List Char → Option (List Char × List Char)
  | '.' :: s => if s.takeWhile Char.isDigit = [] then none else some (s.takeWhile Char.isDigit,
      s.dropWhile Char.isDigit)
  | s => some ([], s)

/-- The digits of an exponent, after its sign. -/
def parseExpDigits (sign : ℤ) (s : List Char) : Option (ℤ × List Char) :=
  if s.takeWhile Char.isDigit = [] then none
  else some (sign * ofDigits (s.takeWhile Char.isDigit), s.dropWhile Char.isDigit)

/-- What follows the letter of an exponent. -/
def parseSignedExp : List Char → Option (ℤ × List Char)
  | '+' :: s => parseExpDigits 1 s
  | '-' :: s => parseExpDigits (-1) s
  | s => parseExpDigits 1 s

/-- `exp`, if there is one. -/
def parseExp : List Char → Option (ℤ × List Char)
  | c :: s => if c = 'e' ∨ c = 'E' then parseSignedExp s else some (0, c :: s)
  | [] => some (0, [])

/-- A number without its sign. -/
def parseUnsigned (sign : ℤ) (s : List Char) : Option (Value × List Char) :=
  let ds := s.takeWhile Char.isDigit
  if isInt ds then do
    let (fs, s) ← parseFrac (s.dropWhile Char.isDigit)
    let (e, s) ← parseExp s
    some (.num (sign * ofDigits (ds ++ fs)) (e - fs.length), s)
  else none

/-- A number. -/
def parseNumber : List Char → Option (Value × List Char)
  | '-' :: s => parseUnsigned (-1) s
  | s => parseUnsigned 1 s

/-! ## Values -/

section Parser

variable {α : Type}

/-- Items with commas between them, and what ends them. -/
def parseItems (item : List Char → Option (α × List Char)) (close : Char) : ℕ → List Char →
    Option (List α × List Char)
  | 0, _ => none
  | fuel + 1, s => do
    let (a, s) ← item s
    match skipWs s with
    | c :: s =>
      if c = ',' then (parseItems item close fuel s).map fun r => (a :: r.1, r.2)
      else if c = close then some ([a], s) else none
    | [] => none

/-- What follows the bracket that begins an array or an object. -/
def parseSeq (item : List Char → Option (α × List Char)) (close : Char) (s : List Char) :
    Option (List α × List Char) :=
  if (skipWs s).head? = some close then some ([], (skipWs s).tail) else parseItems item close
  s.length s

/-- A member of an object. -/
def parseMember (value : List Char → Option (α × List Char)) (s : List Char) :
    Option ((List Char × α) × List Char) :=
  match skipWs s with
  | '"' :: s => do
    let (name, s) ← parseString s
    match skipWs s with
    | ':' :: s => (value s).map fun r => ((name, r.1), r.2)
    | _ => none
  | _ => none

end Parser

/-- A value; the fuel bounds how deep values lie in each other. -/
def parseValue : ℕ → List Char → Option (Value × List Char)
  | 0, _ => none
  | fuel + 1, s =>
    match skipWs s with
    | '"' :: s => (parseString s).map fun r => (.str r.1, r.2)
    | '[' :: s => (parseSeq (parseValue fuel) ']' s).map fun r => (.arr r.1, r.2)
    | '{' :: s => (parseSeq (parseMember (parseValue fuel)) '}' s).map fun r => (.obj r.1, r.2)
    | 'n' :: 'u' :: 'l' :: 'l' :: s => some (.null, s)
    | 't' :: 'r' :: 'u' :: 'e' :: s => some (.bool true, s)
    | 'f' :: 'a' :: 'l' :: 's' :: 'e' :: s => some (.bool false, s)
    | s => parseNumber s

/-- `JSON-text`. -/
def parse (s : List Char) : Option Value :=
  match parseValue (s.length + 1) s with
  | some (v, s) => if skipWs s = [] then some v else none
  | none => none

/-! ## What a text stands for -/

/-- What may follow a value: the end, white space, a comma or a closing bracket. -/
def Stops (s : List Char) : Prop := ∀ c, s.head? = some c → c = ',' ∨ c = ']' ∨ c = '}' ∨
  isWs c = true

/-- The reader takes the text for the value, whatever follows. -/
structure Denotes (s : List Char) (v : Value) : Prop where
  /-- The text does not begin with white space or a closing bracket. -/
  starts : ∃ c t, s = c :: t ∧ isWs c = false ∧ c ≠ ']' ∧ c ≠ '}'
  /-- The text is read as the value. -/
  reads : ∀ fuel rest, s.length ≤ fuel → Stops rest → parseValue fuel (s ++ rest) = some (v, rest)

section Rules

variable {α : Type} {c close : Char} {s t rest name : List Char} {v : Value} {fuel : ℕ}

/-- A character that is no white space is not skipped. -/
theorem skipWs_cons (h : isWs c = false) (s : List Char) : skipWs (c :: s) = c :: s :=
  List.dropWhile_cons_of_neg (by simp [h])

/-- The end of the text ends a number. -/
theorem stops_nil : Stops [] := by
  intro c h
  cases h

/-- A comma ends a number. -/
theorem stops_comma (s : List Char) : Stops (',' :: s) := by
  intro c h
  exact Or.inl (Option.some.inj h).symm

/-- A closing bracket ends a number. -/
theorem stops_bracket (s : List Char) : Stops (']' :: s) := by
  intro c h
  exact Or.inr (Or.inl (Option.some.inj h).symm)

/-- A closing brace ends a number. -/
theorem stops_brace (s : List Char) : Stops ('}' :: s) := by
  intro c h
  exact Or.inr (Or.inr (Or.inl (Option.some.inj h).symm))

/-- A text that denotes a value is a text of this value alone. -/
theorem Denotes.parse (h : Denotes s v) : parse s = some v := by
  have hread := h.reads (s.length + 1) [] (Nat.le_succ _) stops_nil
  rw [List.append_nil] at hread
  unfold Json.parse
  rw [hread]
  rfl

/-- Two values of one text are one value. -/
theorem Denotes.unique {w : Value} (h : Denotes s v) (h' : Denotes s w) : v = w :=
  Option.some.inj (h.parse.symm.trans h'.parse)

/-! ### Literals and numbers -/

/-- The word `true` denotes the value. -/
theorem denotes_true : Denotes "true".toList (.bool true) := by
  refine ⟨⟨'t', "rue".toList, rfl, rfl, by decide, by decide⟩, fun fuel rest hfuel _ => ?_⟩
  obtain ⟨fuel, rfl⟩ : ∃ k, fuel = k + 1 := ⟨fuel - 1, by have : 4 ≤ fuel := hfuel; omega⟩
  rfl

/-- The word `false` denotes the value. -/
theorem denotes_false : Denotes "false".toList (.bool false) := by
  refine ⟨⟨'f', "alse".toList, rfl, rfl, by decide, by decide⟩, fun fuel rest hfuel _ => ?_⟩
  obtain ⟨fuel, rfl⟩ : ∃ k, fuel = k + 1 := ⟨fuel - 1, by have : 5 ≤ fuel := hfuel; omega⟩
  rfl

/-- White space is not a digit. -/
theorem isWs_of_isDigit (h : c.isDigit = true) : isWs c = false := by
  rw [← Bool.not_eq_true]
  intro hws
  unfold isWs at hws
  simp only [Bool.or_eq_true, decide_eq_true_eq] at hws
  rcases hws with ((rfl | rfl) | rfl) | rfl
  · cases h
  · cases h
  · cases h
  · cases h

/-- A decimal numeral consists of digits. -/
theorem isDigit_of_mem {n : ℕ} (h : c ∈ Nat.toDigits 10 n) : c.isDigit = true :=
  Nat.isDigit_of_mem_toDigits (by decide) (by decide) h

/-- Decimal digits end where a value ends. -/
theorem span_digits (hs : ∀ c ∈ s, c.isDigit = true) (hrest : Stops rest) :
    (s ++ rest).takeWhile Char.isDigit = s ∧ (s ++ rest).dropWhile Char.isDigit = rest := by
  have hstop : rest.takeWhile Char.isDigit = [] ∧ rest.dropWhile Char.isDigit = rest := by
    rcases rest with _ | ⟨c, rest⟩
    · exact ⟨rfl, rfl⟩
    have hc : c.isDigit = false := by
      rcases hrest c rfl with rfl | rfl | rfl | hws
      · rfl
      · rfl
      · rfl
      · rw [← Bool.not_eq_true]
        intro hdigit
        rw [isWs_of_isDigit hdigit] at hws
        cases hws
    exact ⟨List.takeWhile_cons_of_neg (by simp [hc]), List.dropWhile_cons_of_neg (by simp [hc])⟩
  rw [List.takeWhile_append_of_pos hs, List.dropWhile_append_of_pos hs, hstop.1, hstop.2,
    List.append_nil]
  exact ⟨rfl, rfl⟩

/-- What may follow a value is neither a fraction nor an exponent. -/
theorem parseFrac_stops (h : Stops rest) :
    parseFrac rest = some ([], rest) ∧ parseExp rest = some (0, rest) := by
  rcases rest with _ | ⟨c, rest⟩
  · exact ⟨rfl, rfl⟩
  have hc : c ≠ '.' ∧ ¬ (c = 'e' ∨ c = 'E') := by
    rcases h c rfl with rfl | rfl | rfl | hws
    · decide
    · decide
    · decide
    · unfold isWs at hws
      simp only [Bool.or_eq_true, decide_eq_true_eq] at hws
      rcases hws with ((rfl | rfl) | rfl) | rfl
      · decide
      · decide
      · decide
      · decide
  refine ⟨?_, ?_⟩
  · unfold parseFrac
    split
    · rename_i heq
      exact absurd (List.cons.inj heq).1 hc.1
    · rfl
  · rw [parseExp, if_neg hc.2]

/-- The decimal form of a number has no zero in front. -/
theorem isInt_toDigits (n : ℕ) : isInt (Nat.toDigits 10 n) = true := by
  have hhead : ∀ n : ℕ, 0 < n → (Nat.toDigits 10 n).head? ≠ some '0' := by
    intro n
    induction n using Nat.strongRecOn with
    | _ n ih =>
      intro hn
      by_cases hlt : n < 10
      · have hall : ∀ k < 10, 0 < k → (Nat.toDigits 10 k).head? ≠ some '0' := by decide
        exact hall n hlt hn
      · have hquot : 0 < n / 10 := by omega
        rw [Nat.toDigits_of_base_le (by decide) (by omega),
          List.head?_append_of_ne_nil _ Nat.toDigits_ne_nil]
        exact ih (n / 10) (by omega) hquot
  unfold isInt
  rw [Bool.and_eq_true, Bool.or_eq_true, decide_eq_true_eq, decide_eq_true_eq, decide_eq_true_eq]
  refine ⟨Nat.toDigits_ne_nil, ?_⟩
  rcases Nat.eq_zero_or_pos n with rfl | hn
  · exact Or.inr rfl
  · exact Or.inl (hhead n hn)

/-- The numeral of a number is read back with its sign, up to what follows. -/
theorem parseUnsigned_toDigits (sign : ℤ) (n : ℕ) (hrest : Stops rest) :
    parseUnsigned sign (Nat.toDigits 10 n ++ rest) = some (.num (sign * n) 0, rest) := by
  obtain ⟨htake, hdrop⟩ := span_digits (fun c hc => isDigit_of_mem hc) hrest
  obtain ⟨hfrac, hexp⟩ := parseFrac_stops hrest
  unfold parseUnsigned
  dsimp only
  rw [htake, hdrop, if_pos (isInt_toDigits n), hfrac]
  dsimp only [Option.bind_eq_bind, Option.bind_some]
  rw [hexp]
  dsimp only [Option.bind_some]
  rw [List.append_nil]
  unfold ofDigits
  rw [Nat.ofDigitChars_ten_toDigits]
  rfl

/-- A digit begins no other value than a number. -/
theorem parseValue_digit {d : Char} (hd : d.isDigit = true) (s : List Char) :
    parseValue (fuel + 1) (d :: s) = parseUnsigned 1 (d :: s) := by
  rw [parseValue, skipWs_cons (isWs_of_isDigit hd)]
  -- None of the other values begins with a digit.
  split
  · rename_i heq
    cases (List.cons.inj heq).1
    cases hd
  · rename_i heq
    cases (List.cons.inj heq).1
    cases hd
  · rename_i heq
    cases (List.cons.inj heq).1
    cases hd
  · rename_i heq
    cases (List.cons.inj heq).1
    cases hd
  · rename_i heq
    cases (List.cons.inj heq).1
    cases hd
  · rename_i heq
    cases (List.cons.inj heq).1
    cases hd
  · unfold parseNumber
    split
    · rename_i heq
      cases (List.cons.inj heq).1
      cases hd
    · rfl

/-- The decimal numeral of a number denotes it. -/
theorem denotes_nat (n : ℕ) : Denotes (Nat.toDigits 10 n) (.num n 0) := by
  have hne : Nat.toDigits 10 n ≠ [] := Nat.toDigits_ne_nil
  obtain ⟨d, ds, hds⟩ := List.exists_cons_of_ne_nil hne
  have hd : d.isDigit = true := isDigit_of_mem (hds ▸ List.mem_cons_self)
  refine ⟨⟨d, ds, hds, isWs_of_isDigit hd, ?_, ?_⟩, fun fuel rest hfuel hrest => ?_⟩
  · rintro rfl
    cases hd
  · rintro rfl
    cases hd
  · have hpos : 0 < (Nat.toDigits 10 n).length := Nat.length_toDigits_pos
    obtain ⟨fuel, rfl⟩ : ∃ k, fuel = k + 1 := ⟨fuel - 1, by omega⟩
    have hread := parseUnsigned_toDigits 1 n hrest
    rw [hds, List.cons_append, parseValue_digit hd, ← List.cons_append, ← hds, hread, Int.one_mul]

/-- A minus sign before a numeral denotes the negative number. -/
theorem denotes_neg (n : ℕ) : Denotes ('-' :: Nat.toDigits 10 n) (.num (-n) 0) := by
  refine ⟨⟨'-', Nat.toDigits 10 n, rfl, rfl, by decide, by decide⟩, fun fuel rest hfuel hrest => ?_⟩
  obtain ⟨fuel, rfl⟩ : ∃ k, fuel = k + 1 := ⟨fuel - 1, by rw [List.length_cons] at hfuel; omega⟩
  have hread := parseUnsigned_toDigits (-1) n hrest
  rw [Int.neg_one_mul] at hread
  exact hread

/-! ### Strings -/

/-- A way to write characters in a string from which the reader gets them back. -/
def Spells (esc : Char → List Char) : Prop :=
  ∀ c, esc c ≠ [] ∧ ∀ rest, nextChar (esc c ++ rest) = some (some c, rest)

/-- A string whose characters are written in some way. -/
def quoted (esc : Char → List Char) (s : List Char) : List Char := '"' :: (s.flatMap esc ++ ['"'])

variable {esc : Char → List Char}

/-- A text whose characters are spelled by `esc` is read back up to the closing quote. -/
theorem parseChars_flatMap (hesc : Spells esc) (hfuel : s.length < fuel) (rest : List Char) :
    parseChars fuel (s.flatMap esc ++ '"' :: rest) = some (s, rest) := by
  induction s generalizing fuel with
  | nil =>
    obtain ⟨fuel, rfl⟩ : ∃ k, fuel = k + 1 := ⟨fuel - 1, by omega⟩
    rfl
  | cons c s ih =>
    obtain ⟨fuel, rfl⟩ : ∃ k, fuel = k + 1 := ⟨fuel - 1, by omega⟩
    rw [List.length_cons] at hfuel
    rw [List.flatMap_cons, List.append_assoc, parseChars, (hesc c).2]
    dsimp only
    rw [ih (by omega)]
    rfl

/-- Every character is written with at least one. -/
theorem length_le_flatMap (hesc : Spells esc) : s.length ≤ (s.flatMap esc).length := by
  induction s with
  | nil => exact le_rfl
  | cons c s ih =>
    have hpos : 0 < (esc c).length := List.length_pos_iff.2 (hesc c).1
    rw [List.flatMap_cons, List.length_append, List.length_cons]
    omega

/-- A text spelled by `esc` is read back with the fuel that the input itself provides. -/
theorem parseString_flatMap (hesc : Spells esc) (rest : List Char) :
    parseString (s.flatMap esc ++ '"' :: rest) = some (s, rest) := by
  unfold parseString
  refine parseChars_flatMap hesc ?_ rest
  have hle : s.length ≤ (s.flatMap esc).length := length_le_flatMap hesc
  rw [List.length_append, List.length_cons]
  omega

/-- A quoted text whose characters are spelled by `esc` denotes the text. -/
theorem denotes_string (hesc : Spells esc) (s : List Char) : Denotes (quoted esc s) (.str s) := by
  refine ⟨⟨'"', _, rfl, rfl, by decide, by decide⟩, fun fuel rest hfuel _ => ?_⟩
  obtain ⟨fuel, rfl⟩ : ∃ k, fuel = k + 1 :=
    ⟨fuel - 1, by rw [quoted, List.length_cons] at hfuel; omega⟩
  have hassoc : quoted esc s ++ rest = '"' :: (s.flatMap esc ++ '"' :: rest) := by
    rw [quoted, List.cons_append, List.append_assoc]
    rfl
  rw [hassoc, parseValue, skipWs_cons rfl]
  show (parseString (s.flatMap esc ++ '"' :: rest)).map _ = _
  rw [parseString_flatMap hesc]
  rfl

/-! ### Arrays and objects -/

/-- Texts between two brackets, with commas between them. -/
def bracketed (opening close : Char) (ts : List (List Char)) : List Char :=
  opening :: (List.intercalate [','] ts ++ [close])

variable {item : List Char → Option (α × List Char)} {ts : List (List Char)} {as : List α}

/-- The reader of an item takes this text for this item. -/
def ReadsItem (item : List Char → Option (α × List Char)) (t : List Char) (a : α) : Prop :=
  (∃ c u, t = c :: u ∧ isWs c = false ∧ c ≠ ']' ∧ c ≠ '}') ∧ ∀ rest, Stops rest →
  item (t ++ rest) = some (a, rest)

/-- Items with commas between them and the closing character are read back one by one. -/
theorem parseItems_intercalate (hclose : close = ']' ∨ close = '}')
    (h : List.Forall₂ (ReadsItem item) ts as)
    (hne : ts ≠ []) (hfuel : ts.length ≤ fuel) (rest : List Char) :
    parseItems item close fuel (List.intercalate [','] ts ++ close :: rest) = some (as, rest) := by
  -- By induction on the items. After the last one stands the closing bracket, after any other a
  -- comma.
  induction h generalizing fuel with
  | nil => exact absurd rfl hne
  | @cons t a ts as ht hts ih =>
    obtain ⟨fuel, rfl⟩ : ∃ k, fuel = k + 1 := ⟨fuel - 1, by rw [List.length_cons] at hfuel; omega⟩
    rw [List.length_cons] at hfuel
    rcases hts with _ | ⟨ht', hts'⟩
    · have hstops : Stops (close :: rest) := by
        rcases hclose with rfl | rfl
        · exact stops_bracket rest
        · exact stops_brace rest
      have hother : close ≠ ',' ∧ isWs close = false := by
        rcases hclose with rfl | rfl
        · decide
        · decide
      rw [List.intercalate_singleton, parseItems, ht.2 _ hstops]
      dsimp only [Option.bind_eq_bind, Option.bind_some]
      rw [skipWs_cons hother.2]
      dsimp only
      rw [if_neg hother.1, if_pos rfl]
    · rename_i t' a' ts as
      have hrest : parseItems item close fuel (List.intercalate [','] (t' :: ts) ++ close :: rest) =
          some (a' :: as, rest) := ih (List.cons_ne_nil _ _) (by omega)
      rw [List.intercalate_cons_cons, List.append_assoc, List.append_assoc, List.singleton_append,
        parseItems,
        ht.2 _ (stops_comma _)]
      dsimp only [Option.bind_eq_bind, Option.bind_some]
      rw [skipWs_cons (by decide)]
      dsimp only
      rw [if_pos rfl, hrest]
      rfl

/-- The text of the items has at least as many characters as there are items. -/
theorem length_le_intercalate (h : List.Forall₂ (ReadsItem item) ts as) :
    ts.length ≤ (List.intercalate [','] ts).length := by
  induction h with
  | nil => exact le_rfl
  | @cons t a ts as ht hts ih =>
    obtain ⟨⟨c, u, rfl, -⟩, -⟩ := ht
    rcases hts with _ | ⟨ht', hts'⟩
    · rw [List.intercalate_singleton]
      exact Nat.succ_le_succ (Nat.zero_le _)
    · rw [List.intercalate_cons_cons, List.length_append, List.length_append]
      simp only [List.length_cons] at ih ⊢
      omega

/-- Each item is no longer than the text of all. -/
theorem length_le_of_mem_intercalate : ∀ {ts : List (List Char)} {t : List Char}, t ∈ ts →
    t.length ≤ (List.intercalate [','] ts).length
  | [u], t, h => by
    rw [List.mem_singleton.1 h, List.intercalate_singleton]
  | u :: u' :: ts, t, h => by
    rw [List.intercalate_cons_cons, List.length_append, List.length_append]
    rcases List.mem_cons.1 h with rfl | h
    · omega
    · have hle := length_le_of_mem_intercalate h
      omega

/-- Two lists that are related stay so under a weaker relation. -/
theorem forall₂_of_mem {β γ : Type} {R S : β → γ → Prop} {l : List β} {r : List γ}
    (h : List.Forall₂ R l r) (hRS : ∀ a b, a ∈ l → R a b → S a b) : List.Forall₂ S l r := by
  induction h with
  | nil => exact .nil
  | @cons a b l r hab _ ih =>
    exact .cons (hRS a b List.mem_cons_self hab) (ih fun a' b' ha' => hRS a' b'
      (List.mem_cons_of_mem a ha'))

/-- Items between brackets are read as these items. -/
theorem parseSeq_intercalate (hclose : close = ']' ∨ close = '}')
    (h : List.Forall₂ (ReadsItem item) ts as)
    (rest : List Char) : parseSeq item close (List.intercalate [','] ts ++ close :: rest) = some
    (as, rest) := by
  have hle := length_le_intercalate h
  unfold parseSeq
  -- The empty sequence closes at once. In any other one the first item begins with neither blank
  -- nor bracket.
  rcases h with _ | ⟨ht, hts⟩
  · have hws : isWs close = false := by
      rcases hclose with rfl | rfl
      · rfl
      · rfl
    rw [List.intercalate_nil, List.nil_append, skipWs_cons hws, List.head?_cons, if_pos rfl]
    rfl
  · rename_i t a ts as
    obtain ⟨c, u, rfl, hws, hbracket, hbrace⟩ := ht.1
    have hfirst : ∃ w, List.intercalate [','] ((c :: u) :: ts) ++ close :: rest = c :: w := by
      rcases ts with _ | ⟨t', ts⟩
      · exact ⟨_, by rw [List.intercalate_singleton, List.cons_append]⟩
      · exact ⟨_,
          by rw [List.intercalate_cons_cons, List.cons_append, List.cons_append, List.cons_append]⟩
    have hother : (skipWs (List.intercalate [','] ((c :: u) :: ts) ++ close :: rest)).head? ≠ some
      close := by
      obtain ⟨w, hw⟩ := hfirst
      rw [hw, skipWs_cons hws, List.head?_cons]
      rcases hclose with rfl | rfl
      · exact fun heq => hbracket (Option.some.inj heq)
      · exact fun heq => hbrace (Option.some.inj heq)
    rw [if_neg hother]
    refine parseItems_intercalate hclose (.cons ht hts) (List.cons_ne_nil _ _) ?_ rest
    rw [List.length_append]
    exact hle.trans (Nat.le_add_right _ _)

/-- An array of texts that denote values. -/
theorem denotes_array {vs : List Value} (h : List.Forall₂ Denotes ts vs) :
    Denotes (bracketed '[' ']' ts) (.arr vs) := by
  refine ⟨⟨'[', _, rfl, rfl, by decide, by decide⟩, fun fuel rest hfuel _ => ?_⟩
  obtain ⟨fuel, rfl⟩ : ∃ k, fuel = k + 1 :=
    ⟨fuel - 1, by rw [bracketed, List.length_cons] at hfuel; omega⟩
  have hitems : List.Forall₂ (ReadsItem (parseValue fuel)) ts vs := by
    have hshort : ∀ t ∈ ts, t.length ≤ fuel := by
      intro t ht
      have hle := length_le_of_mem_intercalate ht
      rw [bracketed, List.length_cons, List.length_append] at hfuel
      omega
    exact forall₂_of_mem h fun t v ht hd =>
      ⟨hd.starts, fun rest' => hd.reads fuel rest' (hshort t ht)⟩
  have hassoc :
    bracketed '[' ']' ts ++ rest = '[' :: (List.intercalate [','] ts ++ ']' :: rest) := by
    rw [bracketed, List.cons_append, List.append_assoc]
    rfl
  rw [hassoc, parseValue, skipWs_cons rfl]
  show (parseSeq (parseValue fuel) ']' (List.intercalate [','] ts ++ ']' :: rest)).map _ = _
  rw [parseSeq_intercalate (Or.inl rfl) hitems]
  rfl

/-- A member of an object: its name, and the text of its value. -/
def memberText (esc : Char → List Char) (m : List Char × List Char) : List Char :=
  quoted esc m.1 ++ ':' :: m.2

/-- A member of an object is read back with its name and its value. -/
theorem readsItem_member (hesc : Spells esc) (ht : Denotes t v) (hlen : t.length ≤ fuel)
    (name : List Char) :
    ReadsItem (parseMember (parseValue fuel)) (memberText esc (name, t)) (name, v) := by
  refine ⟨⟨'"', _, rfl, rfl, by decide, by decide⟩, fun rest hrest => ?_⟩
  have hassoc : memberText esc (name, t) ++ rest = '"' ::
    (name.flatMap esc ++ '"' :: ':' :: (t ++ rest)) := by
    rw [memberText, quoted, List.cons_append, List.cons_append, List.append_assoc,
      List.append_assoc]
    rfl
  have hname : parseString (name.flatMap esc ++ '"' :: ':' :: (t ++ rest)) = some (name,
    ':' :: (t ++ rest)) :=
    parseString_flatMap hesc _
  rw [hassoc, parseMember, skipWs_cons rfl]
  show ((parseString (name.flatMap esc ++ '"' :: ':' :: (t ++ rest))).bind fun r =>
    match skipWs r.2 with
    | ':' :: s => (parseValue fuel s).map fun q => ((r.1, q.1), q.2)
    | _ => none) = _
  rw [hname, Option.bind_some, skipWs_cons rfl]
  show (parseValue fuel (t ++ rest)).map _ = _
  rw [ht.reads fuel rest hlen hrest]
  rfl

/-- An object whose members' texts denote values. -/
theorem denotes_object (hesc : Spells esc) {ms : List (List Char × List Char)}
    {vs : List (List Char × Value)}
    (h : List.Forall₂ (fun m r => m.1 = r.1 ∧ Denotes m.2 r.2) ms vs) :
    Denotes (bracketed '{' '}' (ms.map (memberText esc))) (.obj vs) := by
  refine ⟨⟨'{', _, rfl, rfl, by decide, by decide⟩, fun fuel rest hfuel _ => ?_⟩
  obtain ⟨fuel, rfl⟩ : ∃ k, fuel = k + 1 :=
    ⟨fuel - 1, by rw [bracketed, List.length_cons] at hfuel; omega⟩
  have hshort : ∀ m ∈ ms, m.2.length ≤ fuel := by
    intro m hm
    have hle : (memberText esc m).length ≤ _ :=
      length_le_of_mem_intercalate (List.mem_map_of_mem hm)
    rw [memberText, List.length_append, List.length_cons] at hle
    rw [bracketed, List.length_cons, List.length_append] at hfuel
    omega
  -- Each member is shorter than the whole, so the fuel that is left reads it.
  have hitems : List.Forall₂ (ReadsItem (parseMember (parseValue fuel)))
    (ms.map (memberText esc)) vs := by
    rw [List.forall₂_map_left_iff]
    refine forall₂_of_mem h fun m r hm hr => ?_
    obtain ⟨name, t⟩ := m
    obtain ⟨name', v⟩ := r
    obtain ⟨rfl, hd⟩ := hr
    exact readsItem_member hesc hd (hshort _ hm) name
  have hassoc : bracketed '{' '}' (ms.map (memberText esc)) ++ rest =
      '{' :: (List.intercalate [','] (ms.map (memberText esc)) ++ '}' :: rest) := by
    rw [bracketed, List.cons_append, List.append_assoc]
    rfl
  rw [hassoc, parseValue, skipWs_cons rfl]
  show (parseSeq (parseMember (parseValue fuel)) '}'
    (List.intercalate [','] (ms.map (memberText esc)) ++ '}' :: rest)).map _ = _
  rw [parseSeq_intercalate (Or.inr rfl) hitems]
  rfl

end Rules

end Lib.Json
