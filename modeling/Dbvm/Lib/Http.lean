import Mathlib.Data.List.Infix
import Mathlib.Data.List.Forall2
import Mathlib.Tactic.Common

/-!
# Requests of HTTP/1.1

The grammar of a request as a reader of bytes. A head is a request line and lines of fields, each
ended by CR LF, and an empty line. There is no blank before the colon of a field, and no line is
folded. The body is as long as the head declares (`Head.bodyLength?`), and what follows it belongs
to the next request.
-/

namespace Lib.Http

/-! ## Bytes -/

/-- The bytes of a text. -/
def ascii (s : String) : List UInt8 := s.toList.flatMap String.utf8EncodeChar

/-- CR LF. -/
def crlf : List UInt8 := [13, 10]

/-- A digit. -/
def isDigit (b : UInt8) : Bool := 48 ≤ b && b ≤ 57

/-- A byte of a token. -/
def isTchar (b : UInt8) : Bool :=
  isDigit b || (65 ≤ b && b ≤ 90) || (97 ≤ b && b ≤ 122) || (ascii "!#$%&*+-.^_|~").contains b
    || b = 39 ||
    b = 96

/-- A byte of a field's value. -/
def isValueByte (b : UInt8) : Bool := b = 9 || (32 ≤ b && b ≠ 127)

/-- A byte of a request target. -/
def isTargetByte (b : UInt8) : Bool := 33 ≤ b && b ≤ 126

/-- A blank or a tab. -/
def isBlank (b : UInt8) : Bool := b = 32 || b = 9

/-- The lower case of a byte. -/
def lower (b : UInt8) : UInt8 := if 65 ≤ b && b ≤ 90 then b + 32 else b

/-- The bytes without the blanks around them. -/
def trimBlanks (s : List UInt8) : List UInt8 :=
  ((s.dropWhile isBlank).reverse.dropWhile isBlank).reverse

/-! ## Heads -/

/-- The head of a request. -/
structure Head where
  /-- The method. -/
  method : List UInt8
  /-- The request target. -/
  target : List UInt8
  /-- The version. -/
  version : List UInt8
  /-- The fields: names in lower case, and values. -/
  fields : List (List UInt8 × List UInt8)
deriving DecidableEq

/-- One field. -/
def parseField (line : List UInt8) : Option (List UInt8 × List UInt8) :=
  let name := line.takeWhile (· ≠ 58)
  match line.dropWhile (· ≠ 58) with
  | [] => none
  | _ :: value =>
    if name ≠ [] ∧ name.all isTchar ∧
    value.all isValueByte then some (name.map lower, trimBlanks value) else none

/-- The version of a request line. -/
def isVersion : List UInt8 → Bool
  | [h, t₁, t₂, p, slash, major, dot, minor] =>
    [h, t₁, t₂, p, slash] = ascii "HTTP/" && dot = 46 && isDigit major && isDigit minor
  | _ => false

/-- A request line. -/
structure IsRequestLine (method target version : List UInt8) : Prop where
  /-- The method is a token. -/
  method : method ≠ [] ∧ method.all isTchar = true
  /-- The target has no blanks. -/
  target : target ≠ [] ∧ target.all isTargetByte = true
  /-- The version. -/
  version : isVersion version = true

instance (m t v : List UInt8) : Decidable (IsRequestLine m t v) :=
  decidable_of_iff ((m ≠ [] ∧ m.all isTchar = true) ∧ (t ≠ [] ∧ t.all isTargetByte = true) ∧
    isVersion v = true)
    ⟨fun h => ⟨h.1, h.2.1, h.2.2⟩, fun h => ⟨h.method, h.target, h.version⟩⟩

/-- The three parts of a request line. -/
def parseRequestLine (line : List UInt8) : Option (List UInt8 × List UInt8 × List UInt8) :=
  match line.splitOn 32 with
  | [m, t, v] => if IsRequestLine m t v then some (m, t, v) else none
  | _ => none

/-- The first line, and what follows it. -/
def readLine : List UInt8 → Option (List UInt8 × List UInt8)
  | 13 :: 10 :: s => some ([], s)
  | b :: s => (readLine s).map fun r => (b :: r.1, r.2)
  | [] => none

/-- The lines of fields up to the empty one, and what follows it. -/
def readFields : ℕ → List UInt8 → Option (List (List UInt8 × List UInt8) × List UInt8)
  | 0, _ => none
  | fuel + 1, s =>
    match readLine s with
    | none => none
    | some ([], rest) => some ([], rest)
    | some (line, rest) => do
      let f ← parseField line
      let (fs, rest') ← readFields fuel rest
      some (f :: fs, rest')

/-- The head, and what follows it. Every line is longer than one byte, so their number is fuel
enough. -/
def readHead (s : List UInt8) : Option (Head × List UInt8) := do
  let (line, rest) ← readLine s
  let (m, t, v) ← parseRequestLine line
  let (fs, rest') ← readFields rest.length rest
  some (⟨m, t, v, fs⟩, rest')

/-! ## Bodies -/

/-- The values of the fields of a name. -/
def Head.values (h : Head) (name : List UInt8) : List (List UInt8) :=
  (h.fields.filter fun f => f.1 = name).map Prod.snd

/-- A decimal number. -/
def parseNat (s : List UInt8) : Option ℕ :=
  if s ≠ [] ∧ s.all isDigit then some (s.foldl (fun n b => n * 10 + (b.toNat - 48)) 0) else none

/-- The length of the body that a head declares. Lengths that contradict each other declare none,
and a body with a transfer coding has none. -/
def Head.bodyLength? (h : Head) : Option ℕ :=
  if h.values (ascii "transfer-encoding") ≠ [] then none
  else match h.values (ascii "content-length") with
    | [] => some 0
    | v :: vs => do
      let n ← parseNat v
      if vs.all fun w => parseNat w = some n then some n else none

/-- A request: its head, its body, and what follows. -/
def readRequest (s : List UInt8) : Option (Head × List UInt8 × List UInt8) := do
  let (h, rest) ← readHead s
  let n ← h.bodyLength?
  if n ≤ rest.length then some (h, rest.take n, rest.drop n) else none

/-! ## Lines -/

/-- A line without CR is read back up to its end. -/
theorem readLine_append {l : List UInt8} (h : 13 ∉ l) (rest : List UInt8) :
    readLine (l ++ crlf ++ rest) = some (l, rest) := by
  induction l with
  | nil => rfl
  | cons b l ih =>
    rw [List.mem_cons, not_or] at h
    rw [List.cons_append, List.cons_append, readLine, ih h.2]
    · rfl
    · rintro s hb
      exact absurd hb.symm h.1

/-- What is read as a line is the line, its end and the rest. -/
theorem readLine_sound {s : List UInt8} :
    ∀ {l rest : List UInt8}, readLine s = some (l, rest) → s = l ++ crlf ++ rest := by
  induction s using readLine.induct with
  | case1 s =>
    intro l rest h
    cases h
    rfl
  | case2 b s hne ih =>
    intro l rest h
    rw [readLine] at h
    · obtain ⟨⟨l', rest'⟩, hread, he⟩ := Option.map_eq_some_iff.1 h
      cases he
      rw [ih hread]
      rfl
    · exact hne
  | case3 =>
    intro l rest h
    cases h

/-! ## Fields -/

/-- A character of a name is a byte of a value, is no colon and is ASCII. -/
theorem isValueByte_of_tchar :
    ∀ {b : UInt8}, isTchar b = true → isValueByte b = true ∧ b ≠ 58 ∧ b < 128 := by
  have hall : ∀ n < 256, isTchar (UInt8.ofNat n) = true →
      isValueByte (UInt8.ofNat n) = true ∧ UInt8.ofNat n ≠ 58 ∧
      UInt8.ofNat n < 128 := by decide +kernel
  intro b hb
  have h := hall b.toNat b.toNat_lt
  rw [UInt8.ofNat_toNat] at h
  exact h hb

/-- What a field line is made of. -/
theorem parseField_eq_some {line : List UInt8} {f : List UInt8 × List UInt8} :
    parseField line = some f ↔
    ∃ name value, line = name ++ 58 :: value ∧ name ≠ [] ∧ name.all isTchar = true ∧
      value.all isValueByte = true ∧
      f = (name.map lower, trimBlanks value) := by
  unfold parseField
  dsimp only
  constructor
  · intro h
    -- The name goes up to the first colon.
    rcases hdrop : line.dropWhile (· ≠ 58) with _ | ⟨c, value⟩
    · rw [hdrop] at h
      cases h
    · rw [hdrop] at h
      dsimp only at h
      split_ifs at h with hok
      cases h
      have hc : c = 58 := by
        have hhead := List.head?_dropWhile_not (fun b : UInt8 => decide (b ≠ 58)) line
        rw [hdrop] at hhead
        simpa using hhead
      refine ⟨_, value, ?_, hok.1, hok.2.1, hok.2.2, rfl⟩
      rw [hc] at hdrop
      rw [← hdrop, List.takeWhile_append_dropWhile]
  · rintro ⟨name, value, rfl, hne, hname, hvalue, rfl⟩
    have hcolon : ∀ b ∈ name, decide (b ≠ 58) = true := by
      intro b hb
      exact decide_eq_true (isValueByte_of_tchar (List.all_eq_true.1 hname b hb)).2.1
    rw [List.takeWhile_append_of_pos hcolon, List.dropWhile_append_of_pos hcolon,
      List.takeWhile_cons_of_neg (by simp),
      List.dropWhile_cons_of_neg (by simp), List.append_nil]
    dsimp only
    rw [if_pos ⟨hne, hname, hvalue⟩]

/-- A field line is not empty, and ends at the line's end. -/
theorem parseField_line {line : List UInt8} {f : List UInt8 × List UInt8}
    (h : parseField line = some f) :
    line ≠ [] ∧ line.all isValueByte = true := by
  obtain ⟨name, value, rfl, hne, hname, hvalue, -⟩ := parseField_eq_some.1 h
  refine ⟨by simp, ?_⟩
  rw [List.all_append, List.all_cons, hvalue, List.all_eq_true.2 fun b hb =>
    (isValueByte_of_tchar (List.all_eq_true.1 hname b hb)).1]
  rfl

/-- A value has no CR. -/
theorem not_mem_of_value {s : List UInt8} (h : s.all isValueByte = true) : 13 ∉ s := by
  intro hm
  have h13 := List.all_eq_true.1 h 13 hm
  exact absurd h13 (by decide)

/-- The lines of some fields. -/
def lines (ls : List (List UInt8)) : List UInt8 := ls.flatMap (· ++ crlf)

/-- Lines of fields are read up to the empty line. -/
theorem readFields_lines {rest : List UInt8} :
    ∀ {ls : List (List UInt8)} {fs : List (List UInt8 × List UInt8)} {fuel : ℕ},
    List.Forall₂ (fun l f => parseField l = some f) ls fs →
      (lines ls ++ crlf ++ rest).length ≤ fuel →
      readFields fuel (lines ls ++ crlf ++ rest) = some (fs, rest)
  | [], _, fuel, .nil, hfuel => by
    obtain ⟨fuel, rfl⟩ : ∃ m, fuel = m + 1 := ⟨fuel - 1, by
      simp only [List.length_append, crlf, List.length_cons] at hfuel
      omega⟩
    rfl
  | l :: ls, f :: fs, fuel, .cons hl hls, hfuel => by
    have hhead : lines (l :: ls) ++ crlf ++ rest = l ++ crlf ++ (lines ls ++ crlf ++ rest) := by
      unfold lines
      rw [List.flatMap_cons]
      simp only [List.append_assoc]
    rw [hhead] at hfuel ⊢
    -- By induction on the lines: no line is empty, so the first one is not the end of the head.
    obtain ⟨hne, hall⟩ := parseField_line hl
    have hlen : (l ++ crlf ++ (lines ls ++ crlf ++ rest)).length = l.length + 2 +
      (lines ls ++ crlf ++ rest).length := by
      rw [List.length_append, List.length_append]
      rfl
    obtain ⟨fuel, rfl⟩ : ∃ m, fuel = m + 1 := ⟨fuel - 1, by omega⟩
    obtain ⟨b, l', rfl⟩ := List.exists_cons_of_ne_nil hne
    rw [readFields, readLine_append (not_mem_of_value hall)]
    dsimp only
    rw [hl, readFields_lines hls (by omega)]
    rfl

/-- What is read as fields is the lines, the empty line and the rest, each line being its field. -/
theorem readFields_sound : ∀ {fuel : ℕ} {s rest : List UInt8} {fs : List (List UInt8 × List UInt8)},
    readFields fuel s = some (fs, rest) →
      ∃ ls, s = lines ls ++ crlf ++ rest ∧ List.Forall₂ (fun l f => parseField l = some f) ls fs
  | 0, _, _, _, h => by cases h
  | fuel + 1, s, rest, fs, h => by
    unfold readFields at h
    rcases hline : readLine s with _ | ⟨_ | ⟨b, l⟩, s'⟩
    · rw [hline] at h
      cases h
    · rw [hline] at h
      cases h
      exact ⟨[], readLine_sound hline, .nil⟩
    · rw [hline] at h
      dsimp only at h
      obtain ⟨f, hf, h⟩ := Option.bind_eq_some_iff.1 h
      obtain ⟨⟨fs', rest'⟩, hfs, h⟩ := Option.bind_eq_some_iff.1 h
      cases h
      obtain ⟨ls, hs', hls⟩ := readFields_sound hfs
      refine ⟨(b :: l) :: ls, ?_, .cons hf hls⟩
      rw [readLine_sound hline, hs']
      unfold lines
      rw [List.flatMap_cons]
      simp only [List.append_assoc]

/-! ## The request line -/

/-- The bytes of a request line. -/
def requestLine (m t v : List UInt8) : List UInt8 := m ++ 32 :: (t ++ 32 :: v)

/-- A digit may stand in a target. -/
theorem isTargetByte_of_digit {b : UInt8} (h : isDigit b = true) : isTargetByte b = true := by
  unfold isDigit at h
  unfold isTargetByte
  rw [Bool.and_eq_true, decide_eq_true_eq, decide_eq_true_eq, UInt8.le_iff_toNat_le,
    UInt8.le_iff_toNat_le] at h ⊢
  obtain ⟨hlow, hhigh⟩ := h
  exact ⟨le_trans (by decide) hlow, le_trans hhigh (by decide)⟩

/-- A version consists of bytes that may stand in a target. -/
theorem isVersion_bytes {v : List UInt8} (h : isVersion v = true) : v.all isTargetByte = true := by
  unfold isVersion at h
  split at h
  · rename_i a b c d e major dot minor
    rw [Bool.and_eq_true, Bool.and_eq_true, Bool.and_eq_true, decide_eq_true_eq,
      decide_eq_true_eq] at h
    obtain ⟨⟨⟨hname, hdot⟩, hmajor⟩, hminor⟩ := h
    have hfirst : [a, b, c, d, e].all isTargetByte = true := by
      rw [hname]
      decide
    have hsplit : [a, b, c, d, e, major, dot, minor] = [a, b, c, d, e] ++ [major, dot, minor] := rfl
    rw [hsplit, List.all_append, hfirst, hdot]
    simp only [List.all_cons, List.all_nil, isTargetByte_of_digit hmajor,
      isTargetByte_of_digit hminor]
    decide
  · cases h

/-- A byte of a target is a byte of a value, is no blank and is ASCII. -/
theorem isTargetByte_spec :
    ∀ {b : UInt8}, isTargetByte b = true → isValueByte b = true ∧ b ≠ 32 ∧ b < 128 := by
  have hall : ∀ n < 256, isTargetByte (UInt8.ofNat n) = true →
      isValueByte (UInt8.ofNat n) = true ∧ UInt8.ofNat n ≠ 32 ∧
      UInt8.ofNat n < 128 := by decide +kernel
  intro b hb
  have h := hall b.toNat b.toNat_lt
  rw [UInt8.ofNat_toNat] at h
  exact h hb

/-- A target has no blank. -/
theorem not_blank_of_target {s : List UInt8} (h : s.all isTargetByte = true) : 32 ∉ s := by
  intro hm
  exact (isTargetByte_spec (List.all_eq_true.1 h 32 hm)).2.1 rfl

/-- None of the three parts of a request line has a blank. -/
theorem IsRequestLine.no_blank {m t v : List UInt8} (h : IsRequestLine m t v) :
    32 ∉ m ∧ 32 ∉ t ∧ 32 ∉ v := by
  refine ⟨fun hm => ?_, not_blank_of_target h.target.2,
    not_blank_of_target (isVersion_bytes h.version)⟩
  exact absurd (List.all_eq_true.1 h.method.2 32 hm) (by decide)

/-- A request line has its three parts. -/
theorem parseRequestLine_eq_some {line m t v : List UInt8} :
    parseRequestLine line = some (m, t, v) ↔ line = requestLine m t v ∧ IsRequestLine m t v := by
  have hjoin : [(32 : UInt8)].intercalate [m, t, v] = requestLine m t v := by
    unfold requestLine
    simp [List.intercalate]
  unfold parseRequestLine
  constructor
  · intro h
    -- Three pieces between blanks and no other number.
    rcases hsplit : line.splitOn 32 with _ | ⟨m', _ | ⟨t', _ | ⟨v', _ | ⟨_, _⟩⟩⟩⟩
    all_goals rw [hsplit] at h
    · cases h
    · cases h
    · cases h
    · dsimp only at h
      split_ifs at h with hok
      cases h
      refine ⟨?_, hok⟩
      rw [← hjoin, ← hsplit, List.intercalate_splitOn]
    · cases h
  · rintro ⟨rfl, h⟩
    obtain ⟨hm, ht, hv⟩ := h.no_blank
    have hsplit : (requestLine m t v).splitOn 32 = [m, t, v] := by
      rw [← hjoin, List.splitOn_intercalate _ _ (by simp)]
      intro s hs
      simp only [List.mem_cons, List.not_mem_nil, or_false] at hs
      rcases hs with rfl | rfl | rfl
      · exact hm
      · exact ht
      · exact hv
    rw [hsplit]
    dsimp only
    rw [if_pos h]

/-- A request line consists of bytes that may stand in a value. -/
theorem IsRequestLine.all_value {m t v : List UInt8} (h : IsRequestLine m t v) :
    (requestLine m t v).all isValueByte = true := by
  have hvalue : ∀ {s : List UInt8}, s.all isTargetByte = true → s.all isValueByte = true :=
    fun hs =>
    List.all_eq_true.2 fun b hb => (isTargetByte_spec (List.all_eq_true.1 hs b hb)).1
  have hm : m.all isValueByte = true :=
    List.all_eq_true.2 fun b hb => (isValueByte_of_tchar (List.all_eq_true.1 h.method.2 b hb)).1
  have hblank : isValueByte 32 = true := rfl
  unfold requestLine
  rw [List.all_append, List.all_cons, List.all_append, List.all_cons, hm, hvalue h.target.2,
    hvalue (isVersion_bytes h.version), hblank]
  rfl

/-! ## Requests -/

/-- The bytes of a head with these lines of fields. -/
def headBytes (m t v : List UInt8) (ls : List (List UInt8)) : List UInt8 :=
  requestLine m t v ++ crlf ++ (lines ls ++ crlf)

/-- A head is read from its bytes. -/
theorem readHead_headBytes {m t v rest : List UInt8} {ls : List (List UInt8)}
    {fs : List (List UInt8 × List UInt8)} (hline : IsRequestLine m t v)
    (hls : List.Forall₂ (fun l f => parseField l = some f) ls fs) :
    readHead (headBytes m t v ls ++ rest) = some (⟨m, t, v, fs⟩, rest) := by
  have hassoc :
    headBytes m t v ls ++ rest = requestLine m t v ++ crlf ++ (lines ls ++ crlf ++ rest) := by
    unfold headBytes
    simp only [List.append_assoc]
  unfold readHead
  rw [hassoc, readLine_append (not_mem_of_value hline.all_value)]
  show (do
    let (m, t, v) ← parseRequestLine (requestLine m t v)
    let (fs, rest') ← readFields (lines ls ++ crlf ++ rest).length (lines ls ++ crlf ++ rest)
    some ((⟨m, t, v, fs⟩ : Head), rest')) = _
  rw [parseRequestLine_eq_some.2 ⟨rfl, hline⟩, readFields_lines hls (le_refl _)]
  rfl

/-- What is read as a head is its request line, its field lines and the rest. -/
theorem readHead_sound {s rest : List UInt8} {h : Head} (hread : readHead s = some (h, rest)) :
    IsRequestLine h.method h.target h.version ∧
      ∃ ls, s = headBytes h.method h.target h.version ls ++ rest ∧
      List.Forall₂ (fun l f => parseField l = some f) ls h.fields := by
  unfold readHead at hread
  obtain ⟨⟨line, s'⟩, hline, hread⟩ := Option.bind_eq_some_iff.1 hread
  obtain ⟨⟨m, t, v⟩, hparts, hread⟩ := Option.bind_eq_some_iff.1 hread
  obtain ⟨⟨fs, rest'⟩, hfs, hread⟩ := Option.bind_eq_some_iff.1 hread
  cases hread
  obtain ⟨hm, hok⟩ := parseRequestLine_eq_some.1 hparts
  obtain ⟨ls, hs', hls⟩ := readFields_sound hfs
  refine ⟨hok, ls, ?_, hls⟩
  rw [readLine_sound hline, hm, hs']
  unfold headBytes
  simp only [List.append_assoc]

/-- A request is a head and as many bytes of body as the head says. -/
theorem readRequest_eq_some {s body after : List UInt8} {h : Head} :
    readRequest s = some (h, body, after) ↔
    readHead s = some (h, body ++ after) ∧ h.bodyLength? = some body.length := by
  unfold readRequest
  constructor
  · intro hread
    obtain ⟨⟨h', rest⟩, hhead, hread⟩ := Option.bind_eq_some_iff.1 hread
    obtain ⟨n, hn, hread⟩ := Option.bind_eq_some_iff.1 hread
    split_ifs at hread with hle
    cases hread
    refine ⟨by rw [hhead, List.take_append_drop], ?_⟩
    rw [hn, List.length_take, Nat.min_eq_left hle]
  · rintro ⟨hhead, hn⟩
    rw [hhead]
    show (do
      let n ← h.bodyLength?
      if n ≤ (body ++ after).length then some (h, (body ++ after).take n, (body ++ after).drop n)
        else none) = _
    rw [hn]
    show (if body.length ≤ (body ++ after).length then some (h, _, _) else none) = _
    rw [if_pos (by simp), List.take_left, List.drop_left]

/-! ## Lengths -/

/-- The values of a name are those of its fields. -/
theorem mem_values {h : Head} {name v : List UInt8} : v ∈ h.values name ↔ (name, v) ∈ h.fields := by
  unfold Head.values
  rw [List.mem_map]
  constructor
  · rintro ⟨⟨k, v'⟩, hf, rfl⟩
    obtain ⟨hmem, hk⟩ := List.mem_filter.1 hf
    rw [decide_eq_true_eq] at hk
    rwa [← hk]
  · exact fun hf => ⟨(name, v), List.mem_filter.2 ⟨hf, decide_eq_true rfl⟩, rfl⟩

/-- A name has no value iff no field has that name. -/
theorem values_eq_nil {h : Head} {name : List UInt8} :
    h.values name = [] ↔ ∀ f ∈ h.fields, f.1 ≠ name := by
  unfold Head.values
  rw [List.map_eq_nil_iff, List.filter_eq_nil_iff]
  simp

/-- The length of a body: there is no transfer coding, and every length is this one. -/
theorem bodyLength_eq_some {h : Head} {n : ℕ} :
    h.bodyLength? = some n ↔ h.values (ascii "transfer-encoding") = [] ∧
    (∀ v ∈ h.values (ascii "content-length"), parseNat v = some n) ∧
      (h.values (ascii "content-length") = [] → n = 0) := by
  unfold Head.bodyLength?
  generalize ascii "transfer-encoding" = coding
  generalize h.values (ascii "content-length") = lengths
  by_cases hcoding : h.values coding = []
  · rw [if_neg (by simpa using hcoding), and_iff_right hcoding]
    -- No length stands for zero, and several ones have to agree.
    rcases lengths with _ | ⟨v, vs⟩
    · simp [eq_comm]
    · dsimp only
      rw [List.forall_mem_cons]
      rcases hv : parseNat v with _ | m
      · simp
      · show (if _ then _ else _) = _ ↔ _
        constructor
        · intro hlen
          split_ifs at hlen with hall
          cases hlen
          refine ⟨⟨rfl, fun w hw => ?_⟩, nofun⟩
          simpa using List.all_eq_true.1 hall w hw
        · rintro ⟨⟨hm, hall⟩, -⟩
          cases hm
          rw [if_pos (List.all_eq_true.2 fun w hw => decide_eq_true (hall w hw))]
  · rw [if_pos hcoding]
    exact iff_of_false (by simp) fun hh => hcoding hh.1

/-- Each field comes from a line. -/
theorem exists_line {ls : List (List UInt8)} {fs : List (List UInt8 × List UInt8)}
    (h : List.Forall₂ (fun l f => parseField l = some f) ls fs) {f : List UInt8 × List UInt8}
    (hf : f ∈ fs) :
    ∃ l ∈ ls, parseField l = some f := by
  induction h with
  | nil => cases hf
  | @cons l f' ls fs hl _ ih =>
    rcases List.mem_cons.1 hf with rfl | hf
    · exact ⟨l, List.mem_cons_self, hl⟩
    · obtain ⟨l', hl', hparse⟩ := ih hf
      exact ⟨l', List.mem_cons_of_mem l hl', hparse⟩

/-- Each line is read as a field. -/
theorem exists_field {ls : List (List UInt8)} {fs : List (List UInt8 × List UInt8)}
    (h : List.Forall₂ (fun l f => parseField l = some f) ls fs) {l : List UInt8} (hl : l ∈ ls) :
    ∃ f ∈ fs, parseField l = some f := by
  induction h with
  | nil => cases hl
  | @cons l' f ls fs hline _ ih =>
    rcases List.mem_cons.1 hl with rfl | hl
    · exact ⟨f, List.mem_cons_self, hline⟩
    · obtain ⟨f', hf', hparse⟩ := ih hl
      exact ⟨f', List.mem_cons_of_mem f hf', hparse⟩

/-- Trimming takes bytes away and adds none. -/
theorem mem_of_trimBlanks {s : List UInt8} {b : UInt8} (h : b ∈ trimBlanks s) : b ∈ s := by
  unfold trimBlanks at h
  have hrev := (List.dropWhile_sublist isBlank).subset (List.mem_reverse.1 h)
  exact (List.dropWhile_sublist isBlank).subset (List.mem_reverse.1 hrev)

/-- The values of a head that has been read are values. -/
theorem values_all {s rest : List UInt8} {h : Head} (hread : readHead s = some (h, rest))
    {name v : List UInt8} (hv : v ∈ h.values name) : v.all isValueByte = true := by
  obtain ⟨-, ls, -, hls⟩ := readHead_sound hread
  obtain ⟨l, -, hl⟩ := exists_line hls (mem_values.1 hv)
  obtain ⟨name', value, rfl, -, -, hvalue, he⟩ := parseField_eq_some.1 hl
  rw [List.all_eq_true]
  intro b hb
  rw [(Prod.mk.inj he).2] at hb
  exact List.all_eq_true.1 hvalue b (mem_of_trimBlanks hb)

end Lib.Http
