import Dbvm.Path
import Dbvm.Codec

/-!
# Text from bytes

`String::from_utf8_lossy`: the characters of well-formed UTF-8, and U+FFFD for each sequence of
bytes that begins a character and does not complete it, or begins none.
-/

namespace Dbvm

/-- Bytes that continue a character. -/
def isContinuation (b : UInt8) : Bool := 0x80 ≤ b && b ≤ 0xBF

/-- The length of the character that a byte begins, 0 if it begins none. -/
def seqLen (b : UInt8) : ℕ :=
  if b < 0x80 then 1
  else if 0xC2 ≤ b && b ≤ 0xDF then 2
  else if 0xE0 ≤ b && b ≤ 0xEF then 3
  else if 0xF0 ≤ b && b ≤ 0xF4 then 4
  else 0

/-- Whether a byte may follow the bytes of a character so far. The second byte rules out overlong
forms, surrogates and values that are too large. -/
def follows : Bytes → UInt8 → Bool
  | [0xE0], b => 0xA0 ≤ b && b ≤ 0xBF
  | [0xED], b => 0x80 ≤ b && b ≤ 0x9F
  | [0xF0], b => 0x90 ≤ b && b ≤ 0xBF
  | [0xF4], b => 0x80 ≤ b && b ≤ 0x8F
  | _, b => isContinuation b

/-- The character of a complete sequence. -/
def charOf : Bytes → Char
  | [] => '\uFFFD'
  | lead :: rest => Char.ofNat (rest.foldl (fun n b => n * 64 + b.toNat % 64)
      (lead.toNat % 2 ^ (7 - rest.length)))

/-- A byte that begins a character, or none. -/
def lossyStart (out : Str) (b : UInt8) : Str × Bytes :=
  if seqLen b = 0 then (out ++ ['\uFFFD'], [])
  else if seqLen b = 1 then (out ++ [Char.ofNat b.toNat], [])
  else (out, [b])

/-- One byte: the text so far, and the bytes of a character that is not complete. -/
def lossyStep (st : Str × Bytes) (b : UInt8) : Str × Bytes :=
  match st.2 with
  | [] => lossyStart st.1 b
  | lead :: rest =>
    if follows st.2 b then
      if rest.length + 2 = seqLen lead then (st.1 ++ [charOf (st.2 ++ [b])], []) else (st.1,
        st.2 ++ [b])
    else lossyStart (st.1 ++ ['\uFFFD']) b

/-- `String::from_utf8_lossy`. -/
def fromUtf8Lossy (bytes : Bytes) : Str :=
  let st := bytes.foldl lossyStep ([], [])
  if st.2 = [] then st.1 else st.1 ++ ['\uFFFD']

/-! ## Characters -/

/-- An ASCII byte continues nothing. -/
theorem follows_ascii {p : Bytes} {b : UInt8} (h : b < 0x80) : follows p b = false := by
  have hcont : isContinuation b = false := by
    unfold isContinuation
    rw [Bool.and_eq_false_iff]
    left
    rw [decide_eq_false_iff_not, UInt8.not_le]
    exact h
  have hlow : ∀ low high : UInt8, 0x80 ≤ low → (low ≤ b && b ≤ high) = false := by
    intro low high hle
    rw [Bool.and_eq_false_iff]
    left
    rw [decide_eq_false_iff_not, UInt8.not_le]
    exact UInt8.lt_of_lt_of_le h hle
  unfold follows
  split
  · exact hlow _ _ (by decide)
  · exact hlow _ _ (by decide)
  · exact hlow _ _ (by decide)
  · exact hlow _ _ (by decide)
  · exact hcont

/-- The text before a state is left as it is. -/
theorem lossyStep_prefix (x out : Str) (p : Bytes) (b : UInt8) :
    lossyStep (x ++ out, p) b = (x ++ (lossyStep (out, p) b).1, (lossyStep (out, p) b).2) := by
  have hstart : ∀ o, lossyStart (x ++ o) b = (x ++ (lossyStart o b).1, (lossyStart o b).2) := by
    intro o
    unfold lossyStart
    split_ifs
    · rw [List.append_assoc]
    · rw [List.append_assoc]
    · rfl
  unfold lossyStep
  rcases p with _ | ⟨lead, rest⟩
  · exact hstart out
  · dsimp only
    split_ifs
    · rw [List.append_assoc]
    · rfl
    · rw [List.append_assoc]
      exact hstart _

/-- What has been decoded stays in front. -/
theorem foldl_lossyStep_prefix (x : Str) : ∀ (y : Bytes) (out : Str) (p : Bytes),
    y.foldl lossyStep (x ++ out, p) = (x ++ (y.foldl lossyStep (out, p)).1,
      (y.foldl lossyStep (out, p)).2)
  | [], _, _ => rfl
  | b :: y, out, p => by
    rw [List.foldl_cons, lossyStep_prefix, foldl_lossyStep_prefix x y]
    rfl

/-- A byte below 128 is a character of its own, whatever stands around it. -/
theorem fromUtf8Lossy_ascii {b : UInt8} (h : b < 0x80) (x y : Bytes) :
    fromUtf8Lossy (x ++ b :: y) = fromUtf8Lossy x ++ Char.ofNat b.toNat :: fromUtf8Lossy y := by
  have hlen : seqLen b = 1 := by
    unfold seqLen
    rw [if_pos h]
  have hstart : ∀ out, lossyStart out b = (out ++ [Char.ofNat b.toNat], []) := by
    intro out
    unfold lossyStart
    rw [hlen]
    rfl
  -- An ASCII byte ends a sequence that was not complete and stands for itself.
  have hstep : lossyStep (x.foldl lossyStep ([], [])) b = (fromUtf8Lossy x ++ [Char.ofNat b.toNat],
    []) := by
    unfold fromUtf8Lossy
    dsimp only
    rcases x.foldl lossyStep ([], []) with ⟨out, _ | ⟨lead, rest⟩⟩
    · exact hstart out
    · unfold lossyStep
      dsimp only
      rw [follows_ascii h, if_neg (by simp), if_neg (by simp)]
      exact hstart _
  have hall : (x ++ b :: y).foldl lossyStep ([], []) = (fromUtf8Lossy x ++ [Char.ofNat b.toNat] ++
      (y.foldl lossyStep ([], [])).1, (y.foldl lossyStep ([], [])).2) := by
    have hrest := foldl_lossyStep_prefix (fromUtf8Lossy x ++ [Char.ofNat b.toNat]) y [] []
    rw [List.append_nil] at hrest
    rw [List.foldl_append, List.foldl_cons, hstep, hrest]
  have hsplit : fromUtf8Lossy (x ++ b :: y) = fromUtf8Lossy x ++ [Char.ofNat b.toNat] ++
    fromUtf8Lossy y := by
    have hunfold : ∀ z : Bytes, fromUtf8Lossy z = if (z.foldl lossyStep ([], [])).2 = [] then
        (z.foldl lossyStep ([], [])).1 else (z.foldl lossyStep ([], [])).1 ++ ['\uFFFD'] :=
          fun _ => rfl
    rw [hunfold (x ++ b :: y), hall, hunfold y]
    dsimp only
    split_ifs
    · rfl
    · simp only [List.append_assoc]
  rw [hsplit, List.append_assoc]
  rfl

/-- The bytes of a character that is not complete. -/
inductive Incomplete : Bytes → Prop where
  /-- None. -/
  | none : Incomplete []
  /-- The first byte. -/
  | one {lead : UInt8} (h : 2 ≤ seqLen lead) : Incomplete [lead]
  /-- Two bytes. -/
  | two {lead b₁ : UInt8} (h : 3 ≤ seqLen lead) (h₁ : follows [lead] b₁ = true) :
      Incomplete [lead, b₁]
  /-- Three bytes. -/
  | three {lead b₁ b₂ : UInt8} (h : 4 ≤ seqLen lead) (h₁ : follows [lead] b₁ = true)
      (h₂ : isContinuation b₂ = true) : Incomplete [lead, b₁, b₂]

/-- What the first byte of a character can be. -/
theorem seqLen_spec (b : UInt8) : (seqLen b = 0) ∨ (seqLen b = 1 ∧ b.toNat < 128) ∨
    (seqLen b = 2 ∧ 0xC2 ≤ b.toNat ∧ b.toNat ≤ 0xDF) ∨
    (seqLen b = 3 ∧ 0xE0 ≤ b.toNat ∧ b.toNat ≤ 0xEF) ∨
    (seqLen b = 4 ∧ 0xF0 ≤ b.toNat ∧ b.toNat ≤ 0xF4) := by
  unfold seqLen
  simp only [Bool.and_eq_true, decide_eq_true_eq, UInt8.le_iff_toNat_le, UInt8.lt_iff_toNat_lt]
  split_ifs with h₁ h₂ h₃ h₄
  · exact Or.inr (Or.inl ⟨rfl, h₁⟩)
  · exact Or.inr (Or.inr (Or.inl ⟨rfl, h₂⟩))
  · exact Or.inr (Or.inr (Or.inr (Or.inl ⟨rfl, h₃⟩)))
  · exact Or.inr (Or.inr (Or.inr (Or.inr ⟨rfl, h₄⟩)))
  · exact Or.inl rfl

/-- A continuation byte is between 80 and BF. -/
theorem isContinuation_spec {b : UInt8} (h : isContinuation b = true) :
    0x80 ≤ b.toNat ∧ b.toNat ≤ 0xBF := by
  unfold isContinuation at h
  rw [Bool.and_eq_true, decide_eq_true_eq, decide_eq_true_eq, UInt8.le_iff_toNat_le,
    UInt8.le_iff_toNat_le] at h
  exact h

/-- What the second byte can be. -/
theorem follows_one_spec {lead b : UInt8} (h : follows [lead] b = true) :
    0x80 ≤ b.toNat ∧ b.toNat ≤ 0xBF ∧
    (lead.toNat = 0xE0 → 0xA0 ≤ b.toNat) ∧ (lead.toNat = 0xED → b.toNat ≤ 0x9F) ∧
    (lead.toNat = 0xF0 → 0x90 ≤ b.toNat) ∧ (lead.toNat = 0xF4 → b.toNat ≤ 0x8F) := by
  have hrange : ∀ {low high : UInt8}, (low ≤ b && b ≤ high) = true → low.toNat ≤ b.toNat ∧
    b.toNat ≤ high.toNat := by
    intro low high hb
    rw [Bool.and_eq_true, decide_eq_true_eq, decide_eq_true_eq, UInt8.le_iff_toNat_le,
      UInt8.le_iff_toNat_le] at hb
    exact hb
  unfold follows at h
  -- The four lead bytes with a range of their own, then all others.
  split at h
  · rename_i heq
    cases heq
    obtain ⟨hlow, hhigh⟩ := hrange h
    simp at hlow hhigh ⊢
    omega
  · rename_i heq
    cases heq
    obtain ⟨hlow, hhigh⟩ := hrange h
    simp at hlow hhigh ⊢
    omega
  · rename_i heq
    cases heq
    obtain ⟨hlow, hhigh⟩ := hrange h
    simp at hlow hhigh ⊢
    omega
  · rename_i heq
    cases heq
    obtain ⟨hlow, hhigh⟩ := hrange h
    simp at hlow hhigh ⊢
    omega
  · rename_i hE0 hED hF0 hF4
    obtain ⟨hlow, hhigh⟩ := isContinuation_spec h
    have hne : ∀ {k : UInt8}, ([lead] = [k] → False) → lead.toNat ≠ k.toNat := by
      intro k hk he
      exact hk (by rw [UInt8.toNat_inj.1 he])
    exact ⟨hlow, hhigh, fun he => absurd he (hne hE0), fun he => absurd he (hne hED),
      fun he => absurd he (hne hF0), fun he => absurd he (hne hF4)⟩

/-- From the third byte on any continuation byte follows. -/
theorem follows_more (lead b₁ : UInt8) (rest : Bytes) (b : UInt8) :
    follows (lead :: b₁ :: rest) b = isContinuation b := by
  have hlong : ∀ k : UInt8, lead :: b₁ :: rest ≠ [k] := fun k h => by cases h
  unfold follows
  split
  · exact absurd ‹_› (hlong _)
  · exact absurd ‹_› (hlong _)
  · exact absurd ‹_› (hlong _)
  · exact absurd ‹_› (hlong _)
  · rfl

/-- The character of a valid number has the number. -/
theorem toNat_ofNat_of_valid {n : ℕ} (h : n.isValidChar) : (Char.ofNat n).toNat = n := by
  unfold Char.ofNat
  rw [dif_pos h]
  rfl

/-- A complete character is none of the first 128. -/
theorem charOf_spec {lead b : UInt8} {rest : Bytes} (h : Incomplete (lead :: rest))
    (hb : follows (lead :: rest) b = true) (hlen : rest.length + 2 = seqLen lead) :
    128 ≤ (charOf (lead :: rest ++ [b])).toNat := by
  have hseq := seqLen_spec lead
  -- One case for each number of bytes that have been read. The lead byte and the first
  -- continuation give the lower bound, so no sequence is overlong.
  cases h with
  | one h =>
    have hb' := follows_one_spec hb
    rw [List.length_nil] at hlen
    have hn : 128 ≤ lead.toNat % 2 ^ 6 * 64 + b.toNat % 64 := by omega
    have hvalid : (lead.toNat % 2 ^ 6 * 64 + b.toNat % 64).isValidChar := Or.inl (by omega)
    show 128 ≤ (Char.ofNat (lead.toNat % 2 ^ 6 * 64 + b.toNat % 64)).toNat
    rw [toNat_ofNat_of_valid hvalid]
    exact hn
  | @two _ b₁ h h₁ =>
    have hb₁ := follows_one_spec h₁
    have hb' : isContinuation b = true := (follows_more _ _ _ b).symm.trans hb
    have hb'' := isContinuation_spec hb'
    rw [List.length_singleton] at hlen
    have hvalid : ((lead.toNat % 2 ^ 5 * 64 + b₁.toNat % 64) * 64 + b.toNat % 64).isValidChar := by
      unfold Nat.isValidChar
      omega
    show 128 ≤ (Char.ofNat ((lead.toNat % 2 ^ 5 * 64 + b₁.toNat % 64) * 64 + b.toNat % 64)).toNat
    rw [toNat_ofNat_of_valid hvalid]
    omega
  | @three _ b₁ b₂ h h₁ h₂ =>
    have hb₁ := follows_one_spec h₁
    have hb₂ := isContinuation_spec h₂
    have hb' : isContinuation b = true := (follows_more _ _ _ b).symm.trans hb
    have hb'' := isContinuation_spec hb'
    have hlen' : seqLen lead = 4 := hlen.symm
    have hvalid :
      (((lead.toNat % 2 ^ 4 * 64 + b₁.toNat % 64) * 64 + b₂.toNat % 64) * 64 + b.toNat %
        64).isValidChar := by
      unfold Nat.isValidChar
      omega
    show 128 ≤ (Char.ofNat (((lead.toNat % 2 ^ 4 * 64 + b₁.toNat % 64) * 64 + b₂.toNat % 64) * 64 +
      b.toNat % 64)).toNat
    rw [toNat_ofNat_of_valid hvalid]
    omega

/-- The characters of a text from bytes: bytes below 128, and characters that are none of those. -/
def FromBytes (bytes : Bytes) (c : Char) : Prop := 128 ≤ c.toNat ∨ ∃ b ∈ bytes, b < 0x80 ∧
  c = Char.ofNat b.toNat

/-- Every step adds characters of the bytes or the replacement character, and what is left is
incomplete. -/
theorem lossyStep_spec {bytes : Bytes} {st : Str × Bytes} {b : UInt8} (hb : b ∈ bytes)
    (h : (∀ c ∈ st.1, FromBytes bytes c) ∧ Incomplete st.2) :
    (∀ c ∈ (lossyStep st b).1, FromBytes bytes c) ∧ Incomplete (lossyStep st b).2 := by
  obtain ⟨out, p⟩ := st
  obtain ⟨hout, hp⟩ := h
  have hmark : FromBytes bytes '\uFFFD' := Or.inl (by decide)
  have hsnoc : ∀ {o : Str} {x : Char}, (∀ c ∈ o, FromBytes bytes c) → FromBytes bytes x →
      ∀ c ∈ o ++ [x], FromBytes bytes c := by
    intro o x ho hx c hc
    rcases List.mem_append.1 hc with hc | hc
    · exact ho c hc
    · rw [List.mem_singleton.1 hc]
      exact hx
  have hstart : ∀ {o : Str}, (∀ c ∈ o, FromBytes bytes c) →
      (∀ c ∈ (lossyStart o b).1, FromBytes bytes c) ∧ Incomplete (lossyStart o b).2 := by
    intro o ho
    have hseq := seqLen_spec b
    unfold lossyStart
    split_ifs with h0 h1
    · exact ⟨hsnoc ho hmark, .none⟩
    · refine ⟨hsnoc ho (Or.inr ⟨b, hb, ?_, rfl⟩), .none⟩
      rw [UInt8.lt_iff_toNat_lt]
      show b.toNat < 128
      omega
    · exact ⟨ho, .one (by omega)⟩
  unfold lossyStep
  -- Either no sequence is open, or the byte continues the open one or breaks it off.
  rcases p with _ | ⟨lead, rest⟩
  · exact hstart hout
  · dsimp only
    split_ifs with hf hlen
    · exact ⟨hsnoc hout (Or.inl (charOf_spec hp hf hlen)), .none⟩
    · refine ⟨hout, ?_⟩
      cases hp with
      | one h =>
        refine .two ?_ hf
        have hseq := seqLen_spec lead
        rw [List.length_nil] at hlen
        omega
      | two h h₁ =>
        refine .three ?_ h₁ ((follows_more _ _ _ b).symm.trans hf)
        have hseq := seqLen_spec lead
        rw [List.length_singleton] at hlen
        omega
      | @three _ b₁ b₂ h h₁ h₂ =>
        have hseq := seqLen_spec lead
        have hlen' : ¬ 4 = seqLen lead := hlen
        omega
    · exact hstart (hsnoc hout hmark)

/-- What the characters of a decoded text are. -/
theorem mem_fromUtf8Lossy {bytes : Bytes} : ∀ c ∈ fromUtf8Lossy bytes, FromBytes bytes c := by
  have hfold : ∀ (y : Bytes) (st : Str × Bytes), (∀ b ∈ y, b ∈ bytes) →
      (∀ c ∈ st.1, FromBytes bytes c) ∧ Incomplete st.2 →
        (∀ c ∈ (y.foldl lossyStep st).1, FromBytes bytes c) ∧
        Incomplete (y.foldl lossyStep st).2 := by
    intro y
    induction y with
    | nil => exact fun _ _ h => h
    | cons b y ih =>
      intro st hy h
      exact ih _ (fun b' hb' => hy b' (List.mem_cons_of_mem b hb'))
        (lossyStep_spec (hy b List.mem_cons_self) h)
  obtain ⟨hout, -⟩ := hfold bytes ([], []) (fun _ hb => hb) ⟨by simp, .none⟩
  intro c hc
  unfold fromUtf8Lossy at hc
  dsimp only at hc
  split_ifs at hc
  · exact hout c hc
  · rcases List.mem_append.1 hc with hc | hc
    · exact hout c hc
    · rw [List.mem_singleton.1 hc]
      exact Or.inl (by decide)

end Dbvm
