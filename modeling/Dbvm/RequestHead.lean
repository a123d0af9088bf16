import Dbvm.Lib.Http
import Dbvm.Proxy

/-!
# Request heads as text

The proxy reads the head of a request as text: it decodes the bytes, splits them into lines at line
ends and the lines into names and values. Here are the bytes of such texts, what the reading of a
line and of a head makes of them, and the agreement with the lines and heads of HTTP (`Lib.Http`).
-/

namespace Dbvm.Proxy

open Dbvm Lib.Http

/-! ## Bytes and text -/

section Text

variable {s : Bytes} {b : UInt8}

/-- The text of bytes below 128. -/
def text (s : Bytes) : Str := s.map fun b => Char.ofNat b.toNat

/-- For each ASCII byte: its encoding, its lower case and whether it is white space. -/
theorem ascii_table :
    ∀ n < 128, String.utf8EncodeChar (Char.ofNat (UInt8.ofNat n).toNat) = [UInt8.ofNat n] ∧
    ((Char.ofNat (UInt8.ofNat n).toNat).toLower = Char.ofNat (lower (UInt8.ofNat n)).toNat ∧
      lower (UInt8.ofNat n) < 0x80) ∧
    (isValueByte (UInt8.ofNat n) = true → isWhitespace (Char.ofNat (UInt8.ofNat n).toNat) = isBlank
      (UInt8.ofNat n)) ∧
    (isTchar (UInt8.ofNat n) = true → lower (UInt8.ofNat n) ≠ 58) ∧
    (isDigit (UInt8.ofNat n) = true → isValueByte (UInt8.ofNat n) = true ∧ UInt8.ofNat n < 0x80 ∧
      (Char.ofNat (UInt8.ofNat n).toNat).isDigit = true ∧ Char.ofNat (UInt8.ofNat n).toNat ≠ '+' ∧
      (Char.ofNat (UInt8.ofNat n).toNat).toNat = (UInt8.ofNat n).toNat) := by decide +kernel

/-- An ASCII byte is its own UTF-8. -/
theorem utf8_ascii {b : UInt8} (h : b < 0x80) :
    String.utf8EncodeChar (Char.ofNat b.toNat) = [b] := by
  have hb := (ascii_table b.toNat (UInt8.lt_iff_toNat_lt.1 h)).1
  rwa [UInt8.ofNat_toNat] at hb

/-- ASCII bytes are the UTF-8 of their characters. -/
theorem bytes_text (h : ∀ b ∈ s, b < 0x80) : Str.bytes (text s) = s := by
  induction s with
  | nil => rfl
  | cons b s ih =>
    have hrest := ih fun b' hb' => h b' (List.mem_cons_of_mem b hb')
    unfold Str.bytes text at hrest ⊢
    rw [List.map_cons, List.flatMap_cons, utf8_ascii (h b List.mem_cons_self), hrest]
    rfl

/-- No byte gives the empty text. -/
theorem fromUtf8Lossy_nil : fromUtf8Lossy [] = [] := rfl

/-- Bytes below 128 are decoded one by one. -/
theorem fromUtf8Lossy_text (h : ∀ b ∈ s, b < 0x80) (t : Bytes) :
    fromUtf8Lossy (s ++ t) = text s ++ fromUtf8Lossy t := by
  induction s with
  | nil => rfl
  | cons b s ih =>
    have hone := fromUtf8Lossy_ascii (h b List.mem_cons_self) [] (s ++ t)
    rw [List.nil_append, fromUtf8Lossy_nil, List.nil_append] at hone
    rw [List.cons_append, hone, ih fun b' hb' => h b' (List.mem_cons_of_mem b hb')]
    rfl

/-- ASCII bytes are decoded one by one. -/
theorem fromUtf8Lossy_eq_text (h : ∀ b ∈ s, b < 0x80) : fromUtf8Lossy s = text s := by
  have hall := fromUtf8Lossy_text h []
  rwa [List.append_nil, fromUtf8Lossy_nil, List.append_nil] at hall

/-- The end of a line is decoded to the end of a line. -/
theorem fromUtf8Lossy_crlf (x y : Bytes) :
    fromUtf8Lossy (x ++ crlf ++ y) = fromUtf8Lossy x ++ '\r' :: '\n' :: fromUtf8Lossy y := by
  have hcr := fromUtf8Lossy_ascii (b := 13) (by decide) x (10 :: y)
  have hlf := fromUtf8Lossy_ascii (b := 10) (by decide) [] y
  have hassoc : x ++ crlf ++ y = x ++ 13 :: 10 :: y := by
    rw [List.append_assoc]
    rfl
  rw [List.nil_append, fromUtf8Lossy_nil, List.nil_append] at hlf
  rw [hassoc, hcr, hlf]
  rfl

/-- A byte above ASCII may stand in a value. -/
theorem isValueByte_of_high {n : ℕ} (h : 128 ≤ n) (h' : n < 256) :
    isValueByte (UInt8.ofNat n) = true := by
  have hnat : (UInt8.ofNat n).toNat = n := UInt8.toNat_ofNat_of_lt' h'
  have hge : (32 : UInt8) ≤ UInt8.ofNat n := by
    rw [UInt8.le_iff_toNat_le, hnat]
    show 32 ≤ n
    omega
  have hne : UInt8.ofNat n ≠ 127 := by
    intro heq
    have heq' : (UInt8.ofNat n).toNat = 127 := congrArg UInt8.toNat heq
    omega
  unfold isValueByte
  simp [hge, hne]

/-- The bytes of a character above 127 are bytes of a value. -/
theorem utf8_high {c : Char} (h : 128 ≤ c.toNat) :
    (String.utf8EncodeChar c).all isValueByte = true := by
  have hvalid := c.valid
  have hlt : c.val.toNat < 0x110000 := by
    rcases hvalid with hv | hv
    · omega
    · exact hv.2
  have hnat : c.toNat = c.val.toNat := rfl
  rw [hnat] at h
  unfold String.utf8EncodeChar
  dsimp only
  split_ifs with h1 h2 h3
  · omega
  · rw [List.all_cons, List.all_cons, isValueByte_of_high (by omega) (by omega),
      isValueByte_of_high (by omega) (by omega)]
    rfl
  · rw [List.all_cons, List.all_cons, List.all_cons, isValueByte_of_high (by omega) (by omega),
      isValueByte_of_high (by omega) (by omega), isValueByte_of_high (by omega) (by omega)]
    rfl
  · rw [List.all_cons, List.all_cons, List.all_cons, List.all_cons, isValueByte_of_high (by omega)
      (by omega),
      isValueByte_of_high (by omega) (by omega), isValueByte_of_high (by omega) (by omega),
      isValueByte_of_high (by omega) (by omega)]
    rfl

/-- What is decoded and written again is still the value of a field. -/
theorem bytes_lossy_all (h : s.all isValueByte = true) :
    (Str.bytes (fromUtf8Lossy s)).all isValueByte = true := by
  rw [List.all_eq_true]
  intro b hb
  obtain ⟨c, hc, hb⟩ := List.mem_flatMap.1 hb
  rcases mem_fromUtf8Lossy c hc with hhigh | ⟨b', hb', hlow, rfl⟩
  · exact List.all_eq_true.1 (utf8_high hhigh) b hb
  · rw [utf8_ascii hlow, List.mem_singleton] at hb
    rw [hb]
    exact List.all_eq_true.1 h b' hb'

/-- What is decoded from the value of a field has no end of a line. -/
theorem not_mem_lossy (h : s.all isValueByte = true) : '\r' ∉ fromUtf8Lossy s := by
  intro hc
  rcases mem_fromUtf8Lossy _ hc with hhigh | ⟨b, hb, hlow, heq⟩
  · exact absurd hhigh (by decide)
  · have hbytes := utf8_ascii hlow
    rw [← heq] at hbytes
    have h13 : b = 13 := (List.cons.inj hbytes).1.symm
    rw [h13] at hb
    exact not_mem_of_value h hb

end Text

/-! ## One line -/

section Line

variable {line : Bytes} {f : Bytes × Bytes} {st : List Str × Option ℕ}

/-- `starts_with` asks for a prefix. -/
theorem startsWith_iff : ∀ {pat s : Str}, startsWith pat s = true ↔ pat <+: s
  | [], s => by simp [startsWith, stripPrefix?]
  | c :: cs, [] => by simp [startsWith, stripPrefix?]
  | c :: cs, d :: s => by
    have ih : startsWith cs s = true ↔ cs <+: s := startsWith_iff
    unfold startsWith at ih ⊢
    rw [stripPrefix?, List.cons_prefix_cons]
    split_ifs with hcd
    · rw [ih, and_iff_right hcd]
    · exact iff_of_false (by simp) fun h => hcd h.1

/-- On ASCII the character's lower case is the byte's. -/
theorem lower_ascii {b : UInt8} (h : b < 0x80) :
    (Char.ofNat b.toNat).toLower = Char.ofNat (lower b).toNat ∧ lower b < 0x80 := by
  have hb := (ascii_table b.toNat (UInt8.lt_iff_toNat_lt.1 h)).2.1
  rwa [UInt8.ofNat_toNat] at hb

/-- On ASCII text `to_lowercase` lowers the bytes. -/
theorem lowercase_text {s : Bytes} (h : ∀ b ∈ s, b < 0x80) :
    lowercase (text s) = text (s.map lower) := by
  unfold lowercase text
  rw [List.map_map, List.map_map]
  exact List.map_congr_left fun b hb => (lower_ascii (h b hb)).1

/-- A field name is ASCII. -/
theorem tchar_lt {name : Bytes} (h : name.all isTchar = true) : ∀ b ∈ name, b < 0x80 := fun b hb =>
  (isValueByte_of_tchar (List.all_eq_true.1 h b hb)).2.2

/-- The text of a field line is its name, a colon and the value decoded. -/
theorem lossy_field {name value : Bytes} (h : name.all isTchar = true) :
    fromUtf8Lossy (name ++ 58 :: value) = text name ++ ':' :: fromUtf8Lossy value := by
  have hcolon := fromUtf8Lossy_ascii (b := 58) (by decide) [] value
  rw [List.nil_append, fromUtf8Lossy_nil, List.nil_append] at hcolon
  rw [fromUtf8Lossy_text (tchar_lt h), hcolon]
  rfl

/-- A field name has no colon, lowered or not. -/
theorem lower_ne_colon {b : UInt8} (h : isTchar b = true) : lower b ≠ 58 := by
  have hlow : b < 0x80 := (isValueByte_of_tchar h).2.2
  have hb := (ascii_table b.toNat (UInt8.lt_iff_toNat_lt.1 hlow)).2.2.2.1
  rw [UInt8.ofNat_toNat] at hb
  exact hb h

/-- The prefix tests of the proxy are tests on the name of a field. -/
theorem startsWith_field {name value : Bytes} {pat : Str} (h : name.all isTchar = true)
    (hpat : ':' ∉ pat) (hascii : text (Str.bytes pat) = pat) :
    startsWith (pat ++ [':']) (lowercase (fromUtf8Lossy (name ++ 58 :: value))) = true ↔
      name.map lower = Str.bytes pat := by
  have hlow : ∀ b ∈ name.map lower, b < 0x80 := by
    intro b hb
    obtain ⟨b', hb', rfl⟩ := List.mem_map.1 hb
    exact (lower_ascii (tchar_lt h b' hb')).2
  have hname : ':' ∉ text (name.map lower) := by
    intro hc
    obtain ⟨b, hb, heq⟩ := List.mem_map.1 hc
    have hbytes := utf8_ascii (hlow b hb)
    rw [heq] at hbytes
    have h58 : b = 58 := (List.cons.inj hbytes).1.symm
    obtain ⟨b', hb', rfl⟩ := List.mem_map.1 hb
    exact lower_ne_colon (List.all_eq_true.1 h b' hb') h58
  -- In lower case the line is the name, a colon and the rest; the name has no colon in it.
  have hlower : lowercase (fromUtf8Lossy (name ++ 58 :: value)) =
      text (name.map lower) ++ ':' :: lowercase (fromUtf8Lossy value) := by
    rw [lossy_field h, ← lowercase_text (tchar_lt h)]
    unfold lowercase
    rw [List.map_append, List.map_cons]
    rfl
  rw [hlower, startsWith_iff]
  constructor
  · rintro ⟨t, ht⟩
    rw [List.append_assoc] at ht
    obtain ⟨heq, -⟩ := append_cons_inj_of_not_mem hpat hname ht
    rw [heq, bytes_text hlow]
  · intro heq
    rw [heq, hascii]
    exact ⟨lowercase (fromUtf8Lossy value), by rw [List.append_assoc]; rfl⟩

/-- The headers of the guest that are not passed on, beside the length. -/
def dropped : List Bytes :=
  ["authorization".toList, "connection".toList, "keep-alive".toList, "host".toList].map Str.bytes

/-- The name of the length. -/
def lengthName : Bytes := Str.bytes "content-length".toList

/-- What the proxy does with a field line of the guest. -/
theorem headerStep_field (hline : parseField line = some f) : headerStep st (fromUtf8Lossy line) =
    if f.1 ∈ dropped then st
    else if f.1 = lengthName then (st.1, parseUsize (trim ((fromUtf8Lossy line).drop 15)))
    else (st.1 ++ [fromUtf8Lossy line], st.2) := by
  obtain ⟨name, value, rfl, -, hname, -, rfl⟩ := parseField_eq_some.1 hline
  -- Each test of the code on the beginning of the line is a test of the name.
  have htest : ∀ pat : Str, ':' ∉ pat → text (Str.bytes pat) = pat →
      startsWith (pat ++ [':']) (lowercase (fromUtf8Lossy (name ++ 58 :: value))) =
        decide (name.map lower = Str.bytes pat) := by
    intro pat hpat hascii
    rw [Bool.eq_iff_iff, startsWith_field hname hpat hascii, decide_eq_true_eq]
  unfold headerStep dropped lengthName
  dsimp only
  generalize lowercase (fromUtf8Lossy (name ++ 58 :: value)) = low at htest ⊢
  generalize name.map lower = key at htest ⊢
  have hauth :
    startsWith "authorization:".toList low = decide (key = Str.bytes "authorization".toList) :=
    htest "authorization".toList (by decide) (by decide)
  have hconn : startsWith "connection:".toList low = decide (key = Str.bytes "connection".toList) :=
    htest "connection".toList (by decide) (by decide)
  have halive :
    startsWith "keep-alive:".toList low = decide (key = Str.bytes "keep-alive".toList) :=
    htest "keep-alive".toList (by decide) (by decide)
  have hhost : startsWith "host:".toList low = decide (key = Str.bytes "host".toList) :=
    htest "host".toList (by decide) (by decide)
  have hlength :
    startsWith "content-length:".toList low = decide (key = Str.bytes "content-length".toList) :=
    htest "content-length".toList (by decide) (by decide)
  rw [hauth, hconn, halive, hhost, hlength]
  simp only [List.map_cons, List.map_nil, List.mem_cons, List.not_mem_nil, or_false,
    Bool.or_eq_true, decide_eq_true_eq]
  generalize Str.bytes "authorization".toList = k₁
  generalize Str.bytes "connection".toList = k₂
  generalize Str.bytes "keep-alive".toList = k₃
  generalize Str.bytes "host".toList = k₄
  -- The tests in the order of the code.
  by_cases h1 : key = k₁
  · rw [if_pos h1, if_pos (Or.inl h1)]
  by_cases h2 : key = k₂ ∨ key = k₃
  · rw [if_neg h1, if_pos h2, if_pos (Or.inr (h2.imp_right Or.inl))]
  by_cases h3 : key = k₄
  · rw [if_neg h1, if_neg h2, if_pos h3, if_pos (Or.inr (Or.inr (Or.inr h3)))]
  have h4 : ¬ (key = k₁ ∨ key = k₂ ∨ key = k₃ ∨ key = k₄) := by
    rintro (h | h | h | h)
    · exact h1 h
    · exact h2 (Or.inl h)
    · exact h2 (Or.inr h)
    · exact h3 h
  rw [if_neg h1, if_neg h2, if_neg h3, if_neg h4]

/-- The UTF-8 of two texts comes one after the other. -/
theorem bytes_append (s t : Str) :
    Str.bytes (s ++ t) = Str.bytes s ++ Str.bytes t := List.flatMap_append

/-- The UTF-8 of a text is that of its characters. -/
theorem bytes_cons (c : Char) (t : Str) :
    Str.bytes (c :: t) = String.utf8EncodeChar c ++ Str.bytes t := List.flatMap_cons

/-- A field line that is passed on is a field line of the same name. -/
theorem parseField_lossy (hline : parseField line = some f) :
    ∃ v, parseField (Str.bytes (fromUtf8Lossy line)) = some (f.1, v) := by
  obtain ⟨name, value, rfl, hne, hname, hvalue, rfl⟩ := parseField_eq_some.1 hline
  refine ⟨_, parseField_eq_some.2 ⟨name, Str.bytes (fromUtf8Lossy value), ?_, hne, hname,
    bytes_lossy_all hvalue, rfl⟩⟩
  rw [lossy_field hname, bytes_append, bytes_cons, bytes_text (tchar_lt hname)]
  rfl

/-- What trimming drops is blank. -/
theorem mem_trimBlanks {s : Bytes} {b : UInt8} (hb : b ∈ s) :
    isBlank b = true ∨ b ∈ trimBlanks s := by
  have hdrop : ∀ {r : Bytes}, b ∈ r → isBlank b = true ∨ b ∈ r.dropWhile isBlank := by
    intro r hr
    rw [← List.takeWhile_append_dropWhile (p := isBlank) (l := r), List.mem_append] at hr
    exact hr.imp_left List.mem_takeWhile_imp
  rcases hdrop hb with h | h
  · exact Or.inl h
  · rcases hdrop (List.mem_reverse.2 h) with h | h
    · exact Or.inl h
    · exact Or.inr (List.mem_reverse.2 h)

/-- A blank may stand in a value. -/
theorem isValueByte_of_blank {b : UInt8} (h : isBlank b = true) : isValueByte b = true := by
  unfold isBlank at h
  rw [Bool.or_eq_true, decide_eq_true_eq, decide_eq_true_eq] at h
  rcases h with rfl | rfl
  · decide
  · decide

/-- White space among the bytes of a value are the blanks. -/
theorem isWhitespace_of_value {b : UInt8} (h : isValueByte b = true) (hlow : b < 0x80) :
    isWhitespace (Char.ofNat b.toNat) = isBlank b := by
  have hb := (ascii_table b.toNat (UInt8.lt_iff_toNat_lt.1 hlow)).2.2.1
  rw [UInt8.ofNat_toNat] at hb
  exact hb h

/-- In a value, `trim` finds the blanks of the grammar. -/
theorem dropWhile_text : ∀ {s : Bytes}, (∀ b ∈ s, isValueByte b = true ∧ b < 0x80) →
    (text s).dropWhile isWhitespace = text (s.dropWhile isBlank)
  | [], _ => rfl
  | b :: s, h => by
    obtain ⟨hb, hlow⟩ := h b List.mem_cons_self
    have hsame := isWhitespace_of_value hb hlow
    have htext : text (b :: s) = Char.ofNat b.toNat :: text s := rfl
    rw [htext, List.dropWhile_cons, List.dropWhile_cons, hsame]
    split_ifs
    · exact dropWhile_text fun b' hb' => h b' (List.mem_cons_of_mem b hb')
    · exact htext.symm

/-- The text of a value is trimmed as its bytes are. -/
theorem trim_text {s : Bytes} (h : ∀ b ∈ s, isValueByte b = true ∧ b < 0x80) :
    trim (text s) = text (trimBlanks s) := by
  have hrev : ∀ r : Bytes, (text r).reverse = text r.reverse := fun r => List.map_reverse.symm
  unfold trim trimBlanks
  rw [dropWhile_text h, hrev, dropWhile_text, hrev]
  intro b hb
  exact h b ((List.dropWhile_sublist _).subset (List.mem_reverse.1 hb))

/-- A digit is a byte of a value, is ASCII and reads as its number. -/
theorem digit_spec {b : UInt8} (h : isDigit b = true) : isValueByte b = true ∧ b < 0x80 ∧
    (Char.ofNat b.toNat).isDigit = true ∧ Char.ofNat b.toNat ≠ '+' ∧
    (Char.ofNat b.toNat).toNat = b.toNat := by
  have hlow : b < 0x80 := (isValueByte_of_tchar (by simp [isTchar, h])).2.2
  have hb := (ascii_table b.toNat (UInt8.lt_iff_toNat_lt.1 hlow)).2.2.2.2
  rw [UInt8.ofNat_toNat] at hb
  exact hb h

/-- A decimal number is read as the proxy reads it, if it fits into a word. -/
theorem parseUsize_text {s : Bytes} {n : ℕ} (h : parseNat s = some n) :
    parseUsize (text s) = if n < 2 ^ 64 then some n else none := by
  unfold parseNat at h
  split_ifs at h with hs
  cases h
  obtain ⟨hne, hall⟩ := hs
  have hdigit : ∀ b ∈ s, isDigit b = true := List.all_eq_true.1 hall
  have hplus : ¬ (text s).head? = some '+' := by
    obtain ⟨b, s, rfl⟩ := List.exists_cons_of_ne_nil hne
    intro hhead
    exact (digit_spec (hdigit b List.mem_cons_self)).2.2.2.1 (Option.some.inj hhead)
  have hchars : (text s).all Char.isDigit = true := by
    rw [List.all_eq_true]
    intro c hc
    obtain ⟨b, hb, rfl⟩ := List.mem_map.1 hc
    exact (digit_spec (hdigit b hb)).2.2.1
  have hnonempty : text s ≠ [] := by
    unfold text
    rw [ne_eq, List.map_eq_nil_iff]
    exact hne
  -- Both readings fold over the digits; the code's takes the value only if it fits a `usize`.
  have hfold : ∀ (r : Bytes) (n : ℕ), (∀ b ∈ r, isDigit b = true) →
      (text r).foldl (fun n c => n * 10 + (c.toNat - '0'.toNat)) n = r.foldl
      (fun n b => n * 10 + (b.toNat - 48)) n := by
    intro r
    induction r with
    | nil => exact fun _ _ => rfl
    | cons b r ih =>
      intro n hr
      have hb := (digit_spec (hr b List.mem_cons_self)).2.2.2.2
      have htext : text (b :: r) = Char.ofNat b.toNat :: text r := rfl
      rw [htext, List.foldl_cons, List.foldl_cons, hb]
      exact ih _ fun b' hb' => hr b' (List.mem_cons_of_mem b hb')
  unfold parseUsize
  dsimp only
  rw [if_neg hplus, if_pos ⟨hnonempty, hchars⟩, hfold s 0 hdigit]

/-- The length that the proxy reads from a header of the guest. -/
theorem parseUsize_length {n : ℕ} (hline : parseField line = some f) (hname : f.1 = lengthName)
    (hn : parseNat f.2 = some n) :
    parseUsize (trim ((fromUtf8Lossy line).drop 15)) = if n < 2 ^ 64 then some n else none := by
  obtain ⟨name, value, rfl, -, htchar, hvalue, rfl⟩ := parseField_eq_some.1 hline
  have hlen : (text name).length = 14 := by
    have hmap : (name.map lower).length = lengthName.length := congrArg List.length hname
    rw [List.length_map] at hmap
    unfold text
    rw [List.length_map, hmap]
    decide
  have hdrop : (fromUtf8Lossy (name ++ 58 :: value)).drop 15 = fromUtf8Lossy value := by
    rw [lossy_field htchar, List.drop_append, hlen, List.drop_eq_nil_of_le (by omega)]
    rfl
  -- The value consists of digits and blanks, so reading it as text loses nothing.
  have hall : ∀ b ∈ value, isValueByte b = true ∧ b < 0x80 := by
    intro b hb
    refine ⟨List.all_eq_true.1 hvalue b hb, ?_⟩
    rcases mem_trimBlanks hb with hblank | hdigit
    · unfold isBlank at hblank
      rw [Bool.or_eq_true, decide_eq_true_eq, decide_eq_true_eq] at hblank
      rcases hblank with rfl | rfl
      · decide
      · decide
    · unfold parseNat at hn
      split_ifs at hn with hs
      exact (digit_spec (List.all_eq_true.1 hs.2 b hdigit)).2.1
  rw [hdrop, fromUtf8Lossy_eq_text fun b hb => (hall b hb).2, trim_text hall]
  exact parseUsize_text hn

end Line

/-! ## The head -/

section Head

variable {m t v extra : Bytes} {ls : List Bytes} {fs : List (Bytes × Bytes)}

/-- A field of the guest is passed on. -/
def keeps (f : Bytes × Bytes) : Bool := f.1 ∉ dropped && f.1 ≠ lengthName

/-- The headers that are passed on are those of the fields that are kept. -/
theorem foldl_headers (h : List.Forall₂ (fun l f => parseField l = some f) ls fs) :
    ∀ st : List Str × Option ℕ,
    ∃ ks, ((ls.map fromUtf8Lossy).foldl headerStep st).1 = st.1 ++ ks.map fromUtf8Lossy ∧
      List.Forall₂ (fun l f => parseField l = some f) ks (fs.filter keeps) := by
  -- By induction on the header lines: a dropped one, the length, or one that is passed on.
  induction h with
  | nil => exact fun st => ⟨[], by simp, .nil⟩
  | @cons l f ls fs hl _ ih =>
    intro st
    rw [List.map_cons, List.foldl_cons, headerStep_field hl]
    by_cases hdrop : f.1 ∈ dropped
    · have hkeep : keeps f = false := by
        unfold keeps
        simp [hdrop]
      rw [if_pos hdrop, List.filter_cons_of_neg (by simp [hkeep])]
      exact ih st
    rw [if_neg hdrop]
    by_cases hlen : f.1 = lengthName
    · have hkeep : keeps f = false := by
        unfold keeps
        simp [hlen]
      rw [if_pos hlen, List.filter_cons_of_neg (by simp [hkeep])]
      exact ih _
    · have hkeep : keeps f = true := by
        unfold keeps
        simp [hdrop, hlen]
      rw [if_neg hlen, List.filter_cons_of_pos hkeep]
      obtain ⟨ks, hks, hfields⟩ := ih (st.1 ++ [fromUtf8Lossy l], st.2)
      refine ⟨l :: ks, ?_, .cons hl hfields⟩
      rw [hks, List.map_cons, List.append_assoc]
      rfl

/-- The length that the proxy works with: that of the guest, if it fits into a word. -/
theorem foldl_length {n : ℕ} (h : List.Forall₂ (fun l f => parseField l = some f) ls fs)
    (hn : ∀ f ∈ fs, f.1 = lengthName → parseNat f.2 = some n) : ∀ st : List Str × Option ℕ,
    ((ls.map fromUtf8Lossy).foldl headerStep st).2 =
      if ∃ f ∈ fs, f.1 = lengthName then (if n < 2 ^ 64 then some n else none) else st.2 := by
  induction h with
  | nil => exact fun st => by simp
  | @cons l f ls fs hl _ ih =>
    intro st
    have ih' := ih fun f' hf' => hn f' (List.mem_cons_of_mem f hf')
    rw [List.map_cons, List.foldl_cons, headerStep_field hl, ih']
    have hcons : (∃ f' ∈ f :: fs, f'.1 = lengthName) ↔ f.1 = lengthName ∨ ∃ f' ∈ fs,
      f'.1 = lengthName := by simp
    -- A later length line decides, as the code keeps the last one.
    by_cases hlater : ∃ f' ∈ fs, f'.1 = lengthName
    · rw [if_pos hlater, if_pos (hcons.2 (Or.inr hlater))]
    rw [if_neg hlater]
    by_cases hlen : f.1 = lengthName
    · have hdrop : f.1 ∉ dropped := by
        rw [hlen]
        decide
      rw [if_pos (hcons.2 (Or.inl hlen)), if_neg hdrop, if_pos hlen]
      exact parseUsize_length hl hlen (hn f List.mem_cons_self hlen)
    · have hnone : ¬ ∃ f' ∈ f :: fs, f'.1 = lengthName := by
        rw [hcons]
        exact fun h => h.elim hlen hlater
      rw [if_neg hnone, if_neg hlen]
      split_ifs
      · rfl
      · rfl

/-- A text without CR is a line up to the line end behind it. -/
theorem splitLines_append {a : Str} (h : '\r' ∉ a) (t : Str) :
    splitLines (a ++ '\r' :: '\n' :: t) = a :: splitLines t := by
  induction a with
  | nil => rfl
  | cons c a ih =>
    rw [List.mem_cons, not_or] at h
    rw [List.cons_append, splitLines, ih h.2]
    · rfl
    · rintro s hc
      exact absurd hc.symm h.1

/-- The text of a head splits into its lines. -/
theorem splitLines_lines (h : List.Forall₂ (fun l f => parseField l = some f) ls fs) :
    splitLines (fromUtf8Lossy (lines ls ++ crlf ++ extra)) =
      ls.map fromUtf8Lossy ++ [] :: splitLines (fromUtf8Lossy extra) := by
  induction h with
  | nil => exact congrArg splitLines (fromUtf8Lossy_crlf [] extra)
  | @cons l f ls fs hl _ ih =>
    have hassoc : lines (l :: ls) ++ crlf ++ extra = l ++ crlf ++ (lines ls ++ crlf ++ extra) := by
      unfold lines
      rw [List.flatMap_cons]
      simp only [List.append_assoc]
    rw [hassoc, fromUtf8Lossy_crlf, splitLines_append (not_mem_lossy (parseField_line hl).2), ih]
    rfl

/-- A field line is not empty as a text. -/
theorem lossy_ne_nil {l : Bytes} {f : Bytes × Bytes} (h : parseField l = some f) :
    fromUtf8Lossy l ≠ [] := by
  obtain ⟨name, value, rfl, -, hname, -, -⟩ := parseField_eq_some.1 h
  rw [lossy_field hname]
  simp

/-- The lines up to the empty one are the field lines. -/
theorem takeWhile_lines (h : List.Forall₂ (fun l f => parseField l = some f) ls fs)
    (rest : List Str) :
    (ls.map fromUtf8Lossy ++ [] :: rest).takeWhile (· ≠ []) = ls.map fromUtf8Lossy := by
  have hne : ∀ s ∈ ls.map fromUtf8Lossy, decide (s ≠ []) = true := by
    intro s hs
    obtain ⟨l, hl, rfl⟩ := List.mem_map.1 hs
    obtain ⟨f, -, hf⟩ := exists_field h hl
    exact decide_eq_true (lossy_ne_nil hf)
  rw [List.takeWhile_append_of_pos hne, List.takeWhile_cons_of_neg (by simp), List.append_nil]

/-- A byte that is not in ASCII bytes is not in their text. -/
theorem not_mem_text {s : Bytes} {b : UInt8} (hlow : ∀ b ∈ s, b < 0x80) (hb : b < 0x80)
    (h : b ∉ s) :
    Char.ofNat b.toNat ∉ text s := by
  intro hc
  obtain ⟨b', hb', heq⟩ := List.mem_map.1 hc
  have hbytes := utf8_ascii (hlow b' hb')
  rw [heq, utf8_ascii hb] at hbytes
  rw [(List.cons.inj hbytes).1] at h
  exact h hb'

/-- The bytes of a request line are below 128. -/
theorem IsRequestLine.low (h : IsRequestLine m t v) :
    (∀ b ∈ m, b < 0x80) ∧ (∀ b ∈ t, b < 0x80) ∧ ∀ b ∈ v, b < 0x80 := by
  have htarget : ∀ {s : Bytes}, s.all isTargetByte = true → ∀ b ∈ s, b < 0x80 := fun hs b hb =>
    (isTargetByte_spec (List.all_eq_true.1 hs b hb)).2.2
  exact ⟨tchar_lt h.method.2, htarget h.target.2, htarget (isVersion_bytes h.version)⟩

/-- The request line as text is split into its parts. -/
theorem splitOn_requestLine (h : IsRequestLine m t v) :
    (fromUtf8Lossy (requestLine m t v)).splitOn ' ' = [text m, text t, text v] := by
  obtain ⟨hm, ht, hv⟩ := IsRequestLine.low h
  obtain ⟨hm', ht', hv'⟩ := h.no_blank
  have hlow : ∀ b ∈ requestLine m t v, b < 0x80 := by
    intro b hb
    unfold requestLine at hb
    simp only [List.mem_append, List.mem_cons] at hb
    rcases hb with hb | rfl | hb | rfl | hb
    · exact hm b hb
    · decide
    · exact ht b hb
    · decide
    · exact hv b hb
  have hjoin : text (requestLine m t v) = [' '].intercalate [text m, text t, text v] := by
    unfold text requestLine
    simp [List.intercalate]
  rw [fromUtf8Lossy_eq_text hlow, hjoin, List.splitOn_intercalate _ _ (by simp)]
  intro s hs
  simp only [List.mem_cons, List.not_mem_nil, or_false] at hs
  rcases hs with rfl | rfl | rfl
  · exact not_mem_text (b := 32) hm (by decide) hm'
  · exact not_mem_text (b := 32) ht (by decide) ht'
  · exact not_mem_text (b := 32) hv (by decide) hv'

/-- The head that the proxy makes of a request of the guest. -/
theorem parseHead_headBytes {n : ℕ} (hline : IsRequestLine m t v)
    (hls : List.Forall₂ (fun l f => parseField l = some f) ls fs)
    (hn : (⟨m, t, v, fs⟩ : Lib.Http.Head).bodyLength? = some n)
    (extra : Bytes) : ∃ ks, List.Forall₂ (fun l f => parseField l = some f) ks (fs.filter keeps) ∧
      ∃ len : Option ℕ, parseHead (fromUtf8Lossy (headBytes m t v ls ++ extra)) =
        ⟨text m, text t, text v, ks.map fromUtf8Lossy, len⟩ ∧
        len.getD 0 = if n < 2 ^ 64 then n else 0 := by
  -- The kept header lines, the length and the split into lines come from three lemmas on the two
  -- forms of the head.
  obtain ⟨-, hlengths, hnone⟩ := bodyLength_eq_some.1 hn
  obtain ⟨ks, hks, hfields⟩ := foldl_headers hls ([], none)
  have hlen := foldl_length (n := n) hls (fun f hf hname => hlengths f.2 (mem_values.2 (by
    rw [← show lengthName = ascii "content-length" from rfl, ← hname]
    exact hf))) ([], none)
  have hsplit : splitLines (fromUtf8Lossy (headBytes m t v ls ++ extra)) =
      fromUtf8Lossy (requestLine m t v) ::
      (ls.map fromUtf8Lossy ++ [] :: splitLines (fromUtf8Lossy extra)) := by
    have hassoc :
      headBytes m t v ls ++ extra = requestLine m t v ++ crlf ++ (lines ls ++ crlf ++ extra) := by
      unfold headBytes
      simp only [List.append_assoc]
    rw [hassoc, fromUtf8Lossy_crlf, splitLines_append (not_mem_lossy hline.all_value),
      splitLines_lines hls]
  refine ⟨ks, hfields, ((ls.map fromUtf8Lossy).foldl headerStep ([], none)).2, ?_, ?_⟩
  · unfold parseHead
    rw [hsplit]
    dsimp only [List.headD_cons]
    rw [List.drop_one, List.tail_cons, takeWhile_lines hls, splitOn_requestLine hline, hks]
    rfl
  · rw [hlen]
    by_cases hsome : ∃ f ∈ fs, f.1 = lengthName
    · rw [if_pos hsome]
      split_ifs
      · rfl
      · rfl
    · have hzero : n = 0 := hnone (values_eq_nil.2 fun f hf hname => hsome ⟨f, hf, hname⟩)
      rw [if_neg hsome, hzero]
      rfl

/-- Bytes without CR before a text shift the end of the head by their number. -/
theorem headLength_append {l : Bytes} (h : 13 ∉ l) (s : Bytes) :
    headLength (l ++ s) = (headLength s).map (l.length + ·) := by
  induction l with
  | nil => simp
  | cons b l ih =>
    rw [List.mem_cons, not_or] at h
    have hno : headEnd.isPrefixOf (b :: (l ++ s)) = false := by
      rw [← Bool.not_eq_true, List.isPrefixOf_iff_prefix]
      intro hpre
      exact h.1 (List.cons_prefix_cons.1 hpre).1
    rw [List.cons_append, headLength, if_neg (by simp [hno]), ih h.2, Option.map_map]
    congr 1
    funext n
    simp only [Function.comp_apply, List.length_cons]
    omega

/-- An end of a line that is followed by a line is not the end of the head. -/
theorem headLength_crlf {b : UInt8} (hb : b ≠ 13) (s : Bytes) :
    headLength (crlf ++ b :: s) = (headLength (b :: s)).map (2 + ·) := by
  have hno : headEnd.isPrefixOf (13 :: 10 :: b :: s) = false := by
    rw [← Bool.not_eq_true, List.isPrefixOf_iff_prefix]
    intro hpre
    have htail := (List.cons_prefix_cons.1 hpre).2
    exact hb (List.cons_prefix_cons.1 (List.cons_prefix_cons.1 htail).2).1.symm
  have hlf := headLength_append (l := [10]) (by decide) (b :: s)
  show headLength (13 :: 10 :: b :: s) = _
  rw [headLength, if_neg (by simp [hno])]
  have hcons : (10 : UInt8) :: b :: s = [10] ++ b :: s := rfl
  rw [hcons, hlf, Option.map_map]
  congr 1
  funext n
  simp only [Function.comp_apply, List.length_singleton]
  omega

/-- The head ends behind the empty line after the fields. -/
theorem headLength_lines (h : List.Forall₂ (fun l f => parseField l = some f) ls fs)
    (extra : Bytes) :
    headLength (crlf ++ (lines ls ++ crlf ++ extra)) = some (2 + (lines ls ++ crlf).length) := by
  induction h with
  | nil => rfl
  | @cons l f ls fs hl _ ih =>
    obtain ⟨hne, hall⟩ := parseField_line hl
    have hcr := not_mem_of_value hall
    have hassoc :
      lines (l :: ls) ++ crlf ++ extra = l ++ (crlf ++ (lines ls ++ crlf ++ extra)) := by
      unfold lines
      rw [List.flatMap_cons]
      simp only [List.append_assoc]
    have hlen : (lines (l :: ls) ++ crlf).length = l.length + 2 + (lines ls ++ crlf).length := by
      unfold lines
      rw [List.flatMap_cons, List.append_assoc, List.length_append, List.length_append]
      rfl
    -- By induction on the lines: none is empty, so the head does not end in front of one.
    have happ := headLength_append hcr (crlf ++ (lines ls ++ crlf ++ extra))
    obtain ⟨b, l', rfl⟩ := List.exists_cons_of_ne_nil hne
    have hb : b ≠ 13 := by
      rintro rfl
      exact hcr List.mem_cons_self
    rw [hassoc, List.cons_append, headLength_crlf hb, ← List.cons_append, happ, ih, hlen]
    simp only [Option.map_some, Option.some.injEq]
    omega

/-- The head of a request ends with its first empty line. -/
theorem headLength_headBytes (hline : IsRequestLine m t v)
    (hls : List.Forall₂ (fun l f => parseField l = some f) ls fs) (extra : Bytes) :
    headLength (headBytes m t v ls ++ extra) = some (headBytes m t v ls).length := by
  have hassoc :
    headBytes m t v ls ++ extra = requestLine m t v ++ (crlf ++ (lines ls ++ crlf ++ extra)) := by
    unfold headBytes
    simp only [List.append_assoc]
  have hlen : (headBytes m t v ls).length = (requestLine m t v).length +
    (2 + (lines ls ++ crlf).length) := by
    unfold headBytes
    rw [List.length_append, List.length_append, Nat.add_assoc]
    rfl
  rw [hassoc, headLength_append (not_mem_of_value hline.all_value), headLength_lines hls, hlen]
  rfl

end Head

end Dbvm.Proxy
