import Dbvm.RequestHead

/-!
# The request that the proxy forwards

The proxy reads a request of the guest as text, drops the headers it writes itself, and appends the
bytes that came with the head to what it sends. The request it sends should be one request of
HTTP/1.1 with the body that the guest's own request declares (`ForwardsOne`). It takes every byte
that has arrived for the body, whatever the head declares, and passes on a transfer coding beside
the length it adds.
-/

namespace Dbvm.Proxy

open Dbvm Lib.Http

/-! ## What is sent -/

section Sent

variable {method path version host key : Str} {headers : List Str} {body : Bytes}
  {gs : List (Bytes × Bytes)}

/-- Two runs of lines are written one after the other. -/
theorem lines_append (a b : List Bytes) : lines (a ++ b) = lines a ++ lines b := List.flatMap_append

/-- The bytes that `forward` writes are a head and the body. -/
theorem requestBytes_eq : requestBytes host method path version headers body =
    headBytes (Str.bytes method) (Str.bytes path) (Str.bytes version)
      (Str.bytes ("Host: ".toList ++ host) :: (headers.map Str.bytes ++
        [Str.bytes ("Content-Length: ".toList ++ decimal body.length),
          Str.bytes "Connection: close".toList])) ++ body := by
  have hblank : Str.bytes " ".toList = [32] := by decide
  have hhost : Str.bytes "\r\nHost: ".toList = crlf ++ Str.bytes "Host: ".toList := by decide
  have hend : Str.bytes "\r\n".toList = crlf := by decide
  have hlast : Str.bytes "\r\nConnection: close\r\n\r\n".toList =
      crlf ++ (Str.bytes "Connection: close".toList ++ crlf ++ crlf) := by decide
  have hheaders : Str.bytes (headers.flatMap fun h => h ++ "\r\n".toList) = lines
    (headers.map Str.bytes) := by
    induction headers with
    | nil => rfl
    | cons h headers ih =>
      rw [List.flatMap_cons, bytes_append, bytes_append, ih, hend]
      rfl
  have hnil : lines [] = [] := rfl
  have hcons : ∀ (l : Bytes) (ls : List Bytes), lines (l :: ls) = l ++ crlf ++ lines ls :=
    fun l ls => by
    unfold lines
    rw [List.flatMap_cons]
  unfold requestBytes headBytes requestLine
  simp only [bytes_append, hheaders, hblank, hhost, hend, hlast, hcons, hnil, lines_append,
    List.append_assoc,
    List.cons_append, List.nil_append]

/-- A header that the proxy writes is read back as its name and value. -/
theorem parseField_written (name s : Str) (hne : Str.bytes name ≠ [])
    (hname : (Str.bytes name).all isTchar = true) (hs : (Str.bytes s).all isValueByte = true) :
    parseField (Str.bytes (name ++ ": ".toList ++ s)) =
      some ((Str.bytes name).map lower, trimBlanks (Str.bytes s)) := by
  have hsep : Str.bytes ": ".toList = [58, 32] := by decide
  have hvalue : ((32 : UInt8) :: Str.bytes s).all isValueByte = true := by
    rw [List.all_cons, hs]
    rfl
  refine parseField_eq_some.2 ⟨Str.bytes name, 32 :: Str.bytes s, ?_, hne, hname, hvalue, rfl⟩
  rw [bytes_append, bytes_append, hsep, List.append_assoc]
  rfl

/-- Nothing is trimmed where nothing is blank. -/
theorem trimBlanks_of_none {s : Bytes} (h : ∀ b ∈ s, isBlank b = false) : trimBlanks s = s := by
  have hdrop : ∀ {r : Bytes}, (∀ b ∈ r, isBlank b = false) → r.dropWhile isBlank = r := by
    intro r hr
    rcases r with _ | ⟨b, r⟩
    · rfl
    · exact List.dropWhile_cons_of_neg (by simp [hr b List.mem_cons_self])
  unfold trimBlanks
  rw [hdrop h, hdrop fun b hb => h b (List.mem_reverse.1 hb), List.reverse_reverse]

/-- A digit is one byte, and a digit of the grammar. -/
theorem utf8_digit {c : Char} (h : c.isDigit = true) :
    ∃ b, String.utf8EncodeChar c = [b] ∧ isDigit b = true ∧
    isBlank b = false ∧ b.toNat - 48 = c.toNat - '0'.toNat := by
  have hall : ∀ k < 10, String.utf8EncodeChar (Nat.digitChar k) = [UInt8.ofNat (48 + k)] ∧
      isDigit (UInt8.ofNat (48 + k)) = true ∧ isBlank (UInt8.ofNat (48 + k)) = false ∧
      (UInt8.ofNat (48 + k)).toNat - 48 = (Nat.digitChar k).toNat - '0'.toNat := by decide +kernel
  obtain ⟨k, hk, rfl⟩ := exists_digitChar h
  exact ⟨_, hall k hk⟩

/-- The bytes of digits are digits of the grammar and fold to the same number. -/
theorem bytes_digits : ∀ {s : Str}, (∀ c ∈ s, c.isDigit = true) →
    (∀ b ∈ Str.bytes s, isDigit b = true ∧ isBlank b = false) ∧
    ∀ n, (Str.bytes s).foldl (fun n b => n * 10 + (b.toNat - 48)) n = Nat.ofDigitChars 10 s n
  | [], _ => ⟨by simp [Str.bytes], fun _ => rfl⟩
  | c :: s, h => by
    obtain ⟨b, hb, hdigit, hblank, hval⟩ := utf8_digit (h c List.mem_cons_self)
    obtain ⟨hall, hfold⟩ := bytes_digits fun c' hc' => h c' (List.mem_cons_of_mem c hc')
    have hbytes : Str.bytes (c :: s) = b :: Str.bytes s := by
      rw [bytes_cons, hb]
      rfl
    rw [hbytes, List.forall_mem_cons]
    refine ⟨⟨⟨hdigit, hblank⟩, hall⟩, fun n => ?_⟩
    rw [List.foldl_cons, hfold, hval, Nat.mul_comm n 10]
    rfl

/-- The decimal form of a number is read as that number. -/
theorem decimal_spec (n : ℕ) : (Str.bytes (decimal n)).all isValueByte = true ∧
    parseNat (Str.bytes (decimal n)) = some n ∧
    trimBlanks (Str.bytes (decimal n)) = Str.bytes (decimal n) := by
  have hdigits : ∀ c ∈ decimal n, c.isDigit = true :=
    fun c hc => Nat.isDigit_of_mem_toDigits (by decide) (by decide) hc
  obtain ⟨hall, hfold⟩ := bytes_digits hdigits
  have hne : Str.bytes (decimal n) ≠ [] := by
    have hsome : decimal n ≠ [] := by
      unfold decimal
      exact Nat.toDigits_ne_nil
    obtain ⟨c, s, hcs⟩ := List.exists_cons_of_ne_nil hsome
    rw [hcs, bytes_cons]
    exact List.append_ne_nil_of_left_ne_nil String.utf8EncodeChar_ne_nil _
  refine ⟨List.all_eq_true.2 fun b hb => (digit_spec (hall b hb).1).1, ?_,
    trimBlanks_of_none fun b hb => (hall b hb).2⟩
  unfold parseNat
  rw [if_pos ⟨hne, List.all_eq_true.2 fun b hb => (hall b hb).1⟩, hfold]
  exact congrArg some Nat.ofDigitChars_ten_toDigits

/-- The name of the host header. -/
def hostName : Bytes := Str.bytes "host".toList

/-- The name of the credential's header. -/
def credentialName : Bytes := Str.bytes "authorization".toList

/-- The name of the transfer coding. -/
def codingName : Bytes := Str.bytes "transfer-encoding".toList

/-- The head that is sent, as it is read. -/
def sentHead (method path version host : Str) (gs : List (Bytes × Bytes)) (body : Bytes) :
    Lib.Http.Head :=
  { method := Str.bytes method
    target := Str.bytes path
    version := Str.bytes version
    fields := (hostName, trimBlanks (Str.bytes host)) :: (gs ++
      [(lengthName, Str.bytes (decimal body.length)),
        (Str.bytes "connection".toList, Str.bytes "close".toList)]) }

/-- What is sent is read as the head that was meant. -/
theorem readHead_requestBytes
    (hline : IsRequestLine (Str.bytes method) (Str.bytes path) (Str.bytes version))
    (hhost : (Str.bytes host).all isValueByte = true)
    (hls : List.Forall₂ (fun l f => parseField l = some f) (headers.map Str.bytes) gs) :
    Lib.Http.readHead (requestBytes host method path version headers body) =
      some (sentHead method path version host gs body, body) := by
  obtain ⟨hdigits, -, htrim⟩ := decimal_spec body.length
  have hfirst : parseField (Str.bytes ("Host: ".toList ++ host)) = some (hostName,
    trimBlanks (Str.bytes host)) :=
    parseField_written "Host".toList host (by decide) (by decide) hhost
  have hlength : parseField (Str.bytes ("Content-Length: ".toList ++ decimal body.length)) =
      some (lengthName, Str.bytes (decimal body.length)) := by
    have hparse := parseField_written "Content-Length".toList (decimal body.length) (by decide)
      (by decide) hdigits
    rw [htrim] at hparse
    exact hparse
  have hlast : parseField (Str.bytes "Connection: close".toList) =
      some (Str.bytes "connection".toList, Str.bytes "close".toList) := by decide
  rw [requestBytes_eq]
  refine readHead_headBytes hline (.cons hfirst ?_)
  exact List.rel_append hls (.cons hlength (.cons hlast .nil))

/-- Fields that the proxy does not write. -/
def Foreign (gs : List (Bytes × Bytes)) : Prop :=
  ∀ f ∈ gs, f.1 ≠ hostName ∧ f.1 ≠ lengthName ∧ f.1 ≠ codingName

/-- The values of a name are those of the first field and of the rest. -/
theorem values_cons (m t v : Bytes) (f : Bytes × Bytes) (fs : List (Bytes × Bytes)) (name : Bytes) :
    (⟨m, t, v, f :: fs⟩ : Lib.Http.Head).values name =
      if f.1 = name then f.2 :: (⟨m, t, v, fs⟩ : Lib.Http.Head).values name
      else (⟨m, t, v, fs⟩ : Lib.Http.Head).values name := by
  unfold Lib.Http.Head.values
  dsimp only
  by_cases hf : f.1 = name
  · rw [List.filter_cons_of_pos (by simpa using hf), if_pos hf]
    rfl
  · rw [List.filter_cons_of_neg (by simpa using hf), if_neg hf]

/-- The values of a name in two runs of fields come one after the other. -/
theorem values_append (m t v : Bytes) (fs fs' : List (Bytes × Bytes)) (name : Bytes) :
    (⟨m, t, v, fs ++ fs'⟩ : Lib.Http.Head).values name =
      (⟨m, t, v, fs⟩ : Lib.Http.Head).values name ++ (⟨m, t, v, fs'⟩ : Lib.Http.Head).values
      name := by
  unfold Lib.Http.Head.values
  dsimp only
  rw [List.filter_append, List.map_append]

/-- The fields of what is sent, by name. -/
theorem values_sentHead (name : Bytes) : (sentHead method path version host gs body).values name =
    (if hostName = name then [trimBlanks (Str.bytes host)] else []) ++
      ((gs.filter fun f => f.1 = name).map Prod.snd ++
      ((if lengthName = name then [Str.bytes (decimal body.length)] else []) ++
      if Str.bytes "connection".toList = name then [Str.bytes "close".toList] else [])) := by
  have hone : ∀ (m t v : Bytes) (f : Bytes × Bytes) (fs : List (Bytes × Bytes)),
      (⟨m, t, v, f :: fs⟩ : Lib.Http.Head).values name =
        (if f.1 = name then [f.2] else []) ++ (⟨m, t, v, fs⟩ : Lib.Http.Head).values name := by
    intro m t v f fs
    rw [values_cons]
    split_ifs
    · rfl
    · rfl
  have hnil : ∀ m t v : Bytes, (⟨m, t, v, []⟩ : Lib.Http.Head).values name = [] := fun _ _ _ => rfl
  unfold sentHead
  rw [hone, values_append, hone, hone, hnil, List.append_nil]
  rfl

/-- What is sent names the host and the length once, and has no transfer coding. -/
theorem sentHead_values (hgs : Foreign gs) :
    (sentHead method path version host gs body).values hostName = [trimBlanks (Str.bytes host)] ∧
    (sentHead method path version host gs body).values lengthName =
    [Str.bytes (decimal body.length)] ∧
    (sentHead method path version host gs body).values codingName = [] ∧
    (sentHead method path version host gs body).values credentialName =
      (gs.filter fun f => f.1 = credentialName).map Prod.snd := by
  have hnone : ∀ {name : Bytes}, (∀ f ∈ gs, f.1 ≠ name) →
    (gs.filter fun f => f.1 = name).map Prod.snd = [] := by
    intro name hname
    rw [List.map_eq_nil_iff, List.filter_eq_nil_iff]
    simpa using hname
  refine ⟨?_, ?_, ?_, ?_⟩
  · rw [values_sentHead, hnone fun f hf => (hgs f hf).1, if_pos rfl, if_neg (by decide),
      if_neg (by decide)]
    rfl
  · rw [values_sentHead, hnone fun f hf => (hgs f hf).2.1, if_neg (by decide), if_pos rfl,
      if_neg (by decide)]
    rfl
  · rw [values_sentHead, hnone fun f hf => (hgs f hf).2.2, if_neg (by decide), if_neg (by decide),
      if_neg (by decide)]
    rfl
  · rw [values_sentHead, if_neg (by decide), if_neg (by decide), if_neg (by decide),
      List.nil_append, List.append_nil,
      List.append_nil]

/-- What is sent is one request, with the body that was meant. -/
theorem readRequest_requestBytes
    (hline : IsRequestLine (Str.bytes method) (Str.bytes path) (Str.bytes version))
    (hhost : (Str.bytes host).all isValueByte = true)
    (hls : List.Forall₂ (fun l f => parseField l = some f) (headers.map Str.bytes) gs)
    (hgs : Foreign gs) :
    Lib.Http.readRequest (requestBytes host method path version headers body) =
      some (sentHead method path version host gs body, body, []) := by
  obtain ⟨-, hlength, hcoding, -⟩ := @sentHead_values method path version host body gs hgs
  refine readRequest_eq_some.2 ⟨?_, bodyLength_eq_some.2 ⟨hcoding, ?_, ?_⟩⟩
  · rw [List.append_nil]
    exact readHead_requestBytes hline hhost hls
  · intro v hv
    have hv' : v ∈ [Str.bytes (decimal body.length)] := hlength ▸ hv
    rw [List.mem_singleton.1 hv']
    exact (decimal_spec body.length).2.1
  · intro hnil
    have hnil' : [Str.bytes (decimal body.length)] = [] := hlength.symm.trans hnil
    cases hnil'

end Sent

/-! ## The reads of a request -/

section Reads

variable {reads rest : List Read} {hs bs : List Bytes} {b head H body body₀ : Bytes} {len : ℕ}

/-- The bytes that the guest sends, up to the first read that fails or is empty. -/
def guestBytes : List Read → Bytes
  | [] => []
  | none :: _ => []
  | some b :: rest => if b = [] then [] else b ++ guestBytes rest

/-- Reads that give bytes come before the rest. -/
theorem guestBytes_append (h : ∀ r ∈ bs, r ≠ []) :
    guestBytes (bs.map some ++ rest) = bs.flatten ++ guestBytes rest := by
  induction bs with
  | nil => rfl
  | cons b bs ih =>
    have hrest := ih fun r hr => h r (List.mem_cons_of_mem b hr)
    rw [List.map_cons, List.cons_append, guestBytes, if_neg (h b List.mem_cons_self), hrest,
      List.flatten_cons,
      List.append_assoc]

/-- The head that has been read: it ends with the read that brings its end. -/
theorem readHead_ok (hhead : headLength head = none)
    (h : readHead reads head = .ok (some (H, rest))) :
    ∃ hs b, reads = (hs ++ [b]).map some ++ rest ∧ (∀ r ∈ hs ++ [b], r ≠ []) ∧
      H = head ++ hs.flatten ++ b ∧
      headLength (head ++ hs.flatten) = none ∧ (headLength H).isSome := by
  induction reads generalizing head with
  | nil => cases h
  | cons r reads ih =>
    rcases r with _ | b
    · cases h
    rw [readHead] at h
    split_ifs at h with hb hsome
    · cases h
    · cases h
      exact ⟨[], b, rfl, by simpa using hb, by simp, by simpa using hhead, hsome⟩
    · have hnone : headLength (head ++ b) = none := Option.not_isSome_iff_eq_none.1 hsome
      obtain ⟨hs, b', hreads, hne, hH, hbefore, hend⟩ := ih hnone h
      refine ⟨b :: hs, b', by rw [hreads]; rfl, ?_, ?_, ?_, hend⟩
      · rw [List.cons_append, List.forall_mem_cons]
        exact ⟨hb, hne⟩
      · rw [hH, List.flatten_cons, List.append_assoc head]
      · rwa [List.flatten_cons, ← List.append_assoc]

/-- A head has at least its two line ends. -/
theorem four_le_headLength {s : Bytes} {k : ℕ} (h : headLength s = some k) : 4 ≤ k := by
  induction s generalizing k with
  | nil => cases h
  | cons c s ih =>
    rw [headLength] at h
    split_ifs at h with hend
    · cases h
      exact le_refl 4
    · obtain ⟨k', hk', rfl⟩ := Option.map_eq_some_iff.1 h
      exact Nat.le_succ_of_le (ih hk')

/-- The first end of a head stays the first one. -/
theorem headLength_mono {s : Bytes} {k : ℕ} (h : headLength s = some k) (t : Bytes) :
    headLength (s ++ t) = some k ∧ k ≤ s.length := by
  induction s generalizing k with
  | nil => cases h
  | cons c s ih =>
    rw [headLength] at h
    rw [List.cons_append, headLength]
    split_ifs at h with hend
    · cases h
      have hpre := List.isPrefixOf_iff_prefix.1 hend
      have hlonger : headEnd <+: c :: (s ++ t) := hpre.trans (List.prefix_append (c :: s) t)
      exact ⟨if_pos (List.isPrefixOf_iff_prefix.2 hlonger), hpre.length_le⟩
    · obtain ⟨k', hk', rfl⟩ := Option.map_eq_some_iff.1 h
      obtain ⟨hsame, hle⟩ := ih hk'
      have hno : ¬ headEnd.isPrefixOf (c :: (s ++ t)) = true := by
        -- The end would be within the first bytes, which hold the end found later.
        intro hend'
        have hlen : headEnd.length ≤ (c :: s).length := by
          have hfour : 4 ≤ k' := four_le_headLength hk'
          have hfour' : headEnd.length = 4 := rfl
          rw [hfour', List.length_cons]
          omega
        have hpre := List.isPrefixOf_iff_prefix.1 hend'
        have hshort : headEnd <+: c :: s :=
          List.prefix_of_prefix_length_le hpre (List.prefix_append (c :: s) t) hlen
        exact hend (List.isPrefixOf_iff_prefix.2 hshort)
      rw [if_neg hno, hsame]
      exact ⟨rfl, Nat.succ_le_succ hle⟩

/-- The read that brings the end of the head is the last one of the head. -/
theorem readHead_eq (hne : ∀ r ∈ hs ++ [b], r ≠ [])
    (hnone : headLength (head ++ hs.flatten) = none)
    (hsome : (headLength (head ++ hs.flatten ++ b)).isSome) (x : Option (Bytes × List Read))
    (h : readHead ((hs ++ [b]).map some ++ rest) head = .ok x) :
    x = some (head ++ hs.flatten ++ b, rest) := by
  induction hs generalizing head with
  | nil =>
    rw [List.flatten_nil, List.append_nil] at hsome hnone ⊢
    rw [List.nil_append, List.map_cons, List.map_nil, List.cons_append, List.nil_append, readHead,
      if_neg (hne b (by simp)), if_pos hsome] at h
    exact (Except.ok.inj h).symm
  | cons c hs ih =>
    rw [List.cons_append, List.forall_mem_cons] at hne
    rw [List.flatten_cons, ← List.append_assoc] at hnone hsome ⊢
    have hbefore : headLength (head ++ c) = none := by
      rcases hk : headLength (head ++ c) with _ | k
      · rfl
      · rw [(headLength_mono hk hs.flatten).1] at hnone
        cases hnone
    rw [List.cons_append, List.map_cons, List.cons_append, readHead, if_neg hne.1, hbefore,
      if_neg (by simp)] at h
    split_ifs at h
    exact ih hne.2 hnone hsome h

/-- A body that has come with the head needs no read. -/
theorem readBody_of_le (h : len ≤ body₀.length) (reads : List Read) :
    readBody len reads body₀ = .ok body₀ := by
  rcases reads with _ | ⟨_ | b, reads⟩
  · rfl
  · rw [readBody, if_pos h]
  · rw [readBody, if_pos h]

/-- The body that has been read: the bytes that came with the head, and whole reads. -/
theorem readBody_ok (h : readBody len reads body₀ = .ok body) :
    ∃ bs rest, reads = bs.map some ++ rest ∧
    (∀ r ∈ bs, r ≠ []) ∧ body = body₀ ++ bs.flatten ∧ (len ≤ body₀.length → bs = []) := by
  induction reads generalizing body₀ with
  | nil =>
    cases h
    exact ⟨[], [], rfl, by simp, by simp, fun _ => rfl⟩
  | cons r reads ih =>
    by_cases hle : len ≤ body₀.length
    · rw [readBody_of_le hle] at h
      cases h
      exact ⟨[], r :: reads, rfl, by simp, by simp, fun _ => rfl⟩
    rcases r with _ | b
    · rw [readBody, if_neg hle] at h
      cases h
    rw [readBody, if_neg hle] at h
    split_ifs at h with hb
    · cases h
      exact ⟨[], some b :: reads, rfl, by simp, by simp, fun _ => rfl⟩
    · obtain ⟨bs, rest, hreads, hne, hbody, -⟩ := ih h
      refine ⟨b :: bs, rest, by rw [hreads]; rfl, ?_, ?_, fun h' => absurd h' hle⟩
      · rw [List.forall_mem_cons]
        exact ⟨hb, hne⟩
      · rw [hbody, List.flatten_cons, List.append_assoc]

/-- Reads that end where the body ends are the body. -/
theorem readBody_eq (hne : ∀ r ∈ bs, r ≠ []) (hlen : (body₀ ++ bs.flatten).length = len)
    (rest : List Read) :
    readBody len (bs.map some ++ rest) body₀ = .ok (body₀ ++ bs.flatten) := by
  induction bs generalizing body₀ with
  | nil =>
    rw [List.flatten_nil, List.append_nil] at hlen ⊢
    exact readBody_of_le (le_of_eq hlen.symm) rest
  | cons b bs ih =>
    rw [List.forall_mem_cons] at hne
    rw [List.flatten_cons, ← List.append_assoc] at hlen ⊢
    have hmore : ¬ len ≤ body₀.length := by
      have hpos : 0 < b.length := List.length_pos_iff.2 hne.1
      rw [List.length_append, List.length_append] at hlen
      omega
    rw [List.map_cons, List.cons_append, readBody, if_neg hmore, if_neg hne.1]
    exact ih hne.2 hlen

end Reads

/-! ## What a request leads to -/

section Route

variable {up : Upstream} {pre path host sub : Str} {g : Lib.Http.Head} {p : UInt8 → Bool}

/-- What is stripped is the pattern. -/
theorem stripPrefix_some : ∀ {pat s t : Str}, stripPrefix? pat s = some t → s = pat ++ t
  | [], s, t, h => by
    cases h
    rfl
  | c :: cs, [], t, h => by cases h
  | c :: cs, d :: s, t, h => by
    rw [stripPrefix?] at h
    split_ifs at h with hcd
    rw [hcd, stripPrefix_some h, List.cons_append]

/-- The host and the path of a package request are parts of its path. -/
theorem packageTarget_some (h : packageTarget path = some (host, sub)) :
    (∀ c ∈ host, c ∈ path) ∧ ∃ t, sub = '/' :: t ∧ ∀ c ∈ t, c ∈ path := by
  obtain ⟨s, hs, htarget⟩ := Option.map_eq_some_iff.1 h
  have hrest : ∀ c ∈ s.dropWhile (· = '/'), c ∈ path := by
    intro c hc
    rw [stripPrefix_some hs]
    exact List.mem_append_right _ ((List.dropWhile_sublist _).subset hc)
  dsimp only at htarget
  rcases hsplit : splitOnce '/' (s.dropWhile (· = '/')) with _ | ⟨a, t⟩
  · rw [hsplit] at htarget
    cases htarget
    exact ⟨hrest, [], rfl, by simp⟩
  · rw [hsplit] at htarget
    cases htarget
    obtain ⟨heq, -⟩ := splitOnce_some hsplit
    rw [heq] at hrest
    exact ⟨fun c hc => hrest c (by simp [hc]), t, rfl, fun c hc => hrest c (by simp [hc])⟩

/-- The bytes of a text that is made of these bytes. -/
theorem bytes_all {t : Bytes} (ht : ∀ b ∈ t, b < 0x80) (hp : t.all p = true) {s : Str}
    (hs : ∀ c ∈ s, c ∈ text t) :
    (Str.bytes s).all p = true := by
  rw [List.all_eq_true]
  intro b hb
  obtain ⟨c, hc, hb⟩ := List.mem_flatMap.1 hb
  obtain ⟨b', hb', rfl⟩ := List.mem_map.1 (hs c hc)
  rw [utf8_ascii (ht b' hb'), List.mem_singleton] at hb
  rw [hb]
  exact List.all_eq_true.1 hp b' hb'

/-- Where a request of the guest goes: the path that is sent, and the values of the credential. -/
def route (up : Upstream) (pre path : Str) : Str × List Bytes :=
  match packageTarget path with
  | some (_, sub) => (sub, [])
  | none => (trimEndSlashes pre ++ path, [trimBlanks (Str.bytes ("Bearer ".toList ++ up.apiKey))])

/-- The texts of the operator that go into a request of this path are texts that HTTP allows there.
-/
def OperatorFits (up : Upstream) (pre path : Str) : Prop :=
  packageTarget path = none → (Str.bytes (trimEndSlashes pre)).all isTargetByte = true ∧
    (Str.bytes (hostPort up.host).1).all isValueByte = true ∧
    (Str.bytes up.apiKey).all isValueByte = true

/-- The address of an upstream names its host. -/
theorem hostPort_addr (up : Upstream) : (hostPort up.addr).1 = (hostPort up.host).1 := by
  unfold Upstream.addr
  split_ifs
  · rw [hostPort_append (not_mem_port up.host)]
  · rfl

/-- The upstream of a package has the host that was asked for. -/
theorem hostPort_packageUpstream (host : Str) :
    (hostPort (packageUpstream host).host).1 = (hostPort host).1 := by
  rw [← hostPort_addr, addr_packageUpstream]
  unfold withPort
  rw [hostPort_append (not_mem_port host)]

/-- The host has the characters of the text only. -/
theorem mem_hostPort {c : Char} (h : c ∈ (hostPort host).1) : c ∈ host := by
  unfold hostPort rsplitOnce at h
  rcases hsplit : splitOnce ':' host.reverse with _ | ⟨a, b⟩
  · rwa [hsplit] at h
  · rw [hsplit] at h
    obtain ⟨heq, -⟩ := splitOnce_some hsplit
    rw [← List.mem_reverse, heq]
    exact List.mem_append_right a (List.mem_cons_of_mem ':' (List.mem_reverse.1 h))

/-- Fields of the guest that are passed on are fields of the same names. -/
theorem parseFields_lossy {ks : List Bytes} {fs : List (Bytes × Bytes)}
    (h : List.Forall₂ (fun l f => parseField l = some f) ks fs) : ∃ gs : List (Bytes × Bytes),
      List.Forall₂ (fun l f => parseField l = some f) ((ks.map fromUtf8Lossy).map Str.bytes) gs ∧
        gs.map Prod.fst = fs.map Prod.fst := by
  induction h with
  | nil => exact ⟨[], .nil, rfl⟩
  | @cons l f ks fs hl _ ih =>
    obtain ⟨gs, hgs, hnames⟩ := ih
    obtain ⟨v, hv⟩ := parseField_lossy hl
    exact ⟨(f.1, v) :: gs, .cons hv hgs, by rw [List.map_cons, List.map_cons, hnames]⟩

/-- No field that is passed on is a credential, so the filter of the package route keeps them all.
-/
theorem withoutCredential_kept {ks : List Bytes} {fs : List (Bytes × Bytes)}
    (h : List.Forall₂ (fun l f => parseField l = some f) ks fs)
    (hfs : ∀ f ∈ fs, f.1 ≠ credentialName) :
    withoutCredential (ks.map fromUtf8Lossy) = ks.map fromUtf8Lossy := by
  unfold withoutCredential
  rw [List.filter_eq_self]
  intro s hs
  obtain ⟨l, hl, rfl⟩ := List.mem_map.1 hs
  obtain ⟨f, hf, hparse⟩ := exists_field h hl
  obtain ⟨name, value, rfl, -, hname, -, hf'⟩ := parseField_eq_some.1 hparse
  have hno : name.map lower ≠ Str.bytes "authorization".toList := by
    intro heq
    exact hfs f hf (by rw [hf']; exact heq)
  have htest : startsWith ("authorization".toList ++ [':'])
      (lowercase (fromUtf8Lossy (name ++ 58 :: value))) = true ↔
      name.map lower = Str.bytes "authorization".toList :=
      startsWith_field hname (by decide) (by decide)
  rw [Bool.not_eq_true', ← Bool.not_eq_true]
  exact fun hyes => hno (htest.1 hyes)

/-- `h` is the request `g` of the guest as its destination is to receive it. -/
structure Rewritten (up : Upstream) (pre addr : Str) (g h : Lib.Http.Head) (length : ℕ) : Prop where
  /-- The method is the guest's. -/
  method : h.method = g.method
  /-- The path is that of the route. -/
  target : h.target = Str.bytes (route up pre (text g.target)).1
  /-- The version is the guest's. -/
  version : h.version = g.version
  /-- One host, the destination. -/
  host : h.values hostName = [trimBlanks (Str.bytes (hostPort addr).1)]
  /-- One length. -/
  length : h.values lengthName = [Str.bytes (decimal length)]
  /-- No transfer coding. -/
  coding : h.values codingName = []
  /-- The credential of the proxy on the model route, and none on the package route. -/
  credential : h.values credentialName = (route up pre (text g.target)).2

/-- What is sent for these texts is read as one request. -/
theorem rewritten_of {addr target host : Str} {headers : List Str} {gs : List (Bytes × Bytes)}
    {body : Bytes} (hline : IsRequestLine g.method g.target g.version)
    (haddr : (hostPort addr).1 = host) (hroute : (route up pre (text g.target)).1 = target)
    (htarget : Str.bytes target ≠ [] ∧ (Str.bytes target).all isTargetByte = true)
    (hhost : (Str.bytes host).all isValueByte = true)
    (hls : List.Forall₂ (fun l f => parseField l = some f) (headers.map Str.bytes) gs)
    (hgs : Foreign gs)
    (hcred : (gs.filter fun f => f.1 = credentialName).map
      Prod.snd = (route up pre (text g.target)).2) :
    ∃ h,
      Lib.Http.readRequest (requestBytes host (text g.method) target (text g.version)
        headers body) =
      some (h, body, []) ∧
      Rewritten up pre addr g h body.length := by
  obtain ⟨hm, -, hv⟩ := IsRequestLine.low hline
  have hm' := bytes_text hm
  have hv' := bytes_text hv
  have hline' : IsRequestLine (Str.bytes (text g.method)) (Str.bytes target)
    (Str.bytes (text g.version)) := by
    rw [hm', hv']
    exact ⟨hline.method, htarget, hline.version⟩
  obtain ⟨hhosts, hlengths, hcodings, hcreds⟩ :=
    @sentHead_values (text g.method) target (text g.version) host body gs hgs
  exact ⟨_, readRequest_requestBytes hline' hhost hls hgs,
    hm', by rw [hroute]; rfl, hv', by rw [haddr]; exact hhosts,
    hlengths, hcodings, hcreds.trans hcred⟩

/-- What holds of the bytes of two texts holds of both together. -/
theorem bytes_append_all {s t : Str} (hs : (Str.bytes s).all p = true)
    (ht : (Str.bytes t).all p = true) :
    (Str.bytes (s ++ t)).all p = true := by
  rw [bytes_append, List.all_append, hs, ht]
  rfl

/-- A target may stand in a value. -/
theorem all_value_of_target {s : Bytes} (h : s.all isTargetByte = true) :
    s.all isValueByte = true :=
  List.all_eq_true.2 fun b hb => (isTargetByte_spec (List.all_eq_true.1 h b hb)).1

/-- No field is selected where none has the name. -/
theorem filter_none {gs : List (Bytes × Bytes)} {name : Bytes} (h : ∀ f ∈ gs, f.1 ≠ name) :
    gs.filter (fun f => f.1 = name) = [] := by
  rw [List.filter_eq_nil_iff]
  simpa using h

/-- A request of the guest that is answered by the network: it goes to the upstream unless it names
a package host, and it arrives as one request with the body that was read. -/
theorem respond_sent {net : Exchange → Except ProxyErr Bytes} {allow : AllowList}
    {ks : List Bytes} {len : Option ℕ} {body : Bytes} {x : Exchange}
    (hline : IsRequestLine g.method g.target g.version)
    (hks : List.Forall₂ (fun l f => parseField l = some f) ks (g.fields.filter keeps))
    (hcoding : g.values codingName = [])
    (hx : x ∈ (respond net up pre allow ⟨text g.method, text g.target, text g.version,
      ks.map fromUtf8Lossy, len⟩
      body).sent) :
    (packageTarget (text g.target) = none → x.addr = up.addr) ∧
      (OperatorFits up pre (text g.target) →
      ∃ h, Lib.Http.readRequest x.raw = some (h, body, []) ∧
      Rewritten up pre x.addr g h body.length) := by
  have hkept : ∀ f ∈ g.fields.filter keeps, f.1 ∉ dropped ∧ f.1 ≠ lengthName ∧
    f.1 ≠ codingName := by
    intro f hf
    obtain ⟨hmem, hkeep⟩ := List.mem_filter.1 hf
    unfold keeps at hkeep
    rw [Bool.and_eq_true, decide_eq_true_eq, decide_eq_true_eq] at hkeep
    exact ⟨hkeep.1, hkeep.2, values_eq_nil.1 hcoding f hmem⟩
  obtain ⟨gs, hgs, hnames⟩ := parseFields_lossy hks
  have hgs' : ∀ f ∈ gs, f.1 ∉ dropped ∧ f.1 ≠ lengthName ∧ f.1 ≠ codingName := by
    intro f hf
    have hname : f.1 ∈ (g.fields.filter keeps).map Prod.fst := hnames ▸ List.mem_map_of_mem hf
    obtain ⟨f', hf', heq⟩ := List.mem_map.1 hname
    rw [← heq]
    exact hkept f' hf'
  have hhostIn : hostName ∈ dropped := by decide
  have hcredIn : credentialName ∈ dropped := by decide
  have hforeign : Foreign gs := fun f hf => ⟨fun h => (hgs' f hf).1 (h ▸ hhostIn), (hgs' f hf).2⟩
  have hnocred : gs.filter (fun f => f.1 = credentialName) = [] :=
    filter_none fun f hf h => (hgs' f hf).1 (h ▸ hcredIn)
  have hlow := (IsRequestLine.low hline).2.1
  rw [sent_respond] at hx
  -- A package path goes to the package's host without a credential, any other one to the
  -- operator's host with one.
  rcases htarget : packageTarget (text g.target) with _ | ⟨host, sub⟩
  · dsimp only at hx
    rw [htarget] at hx
    have hx' := List.mem_singleton.1 hx
    have haddr : x.addr = up.addr := by
      rw [hx']
      rfl
    have hroute : route up pre (text g.target) =
        (trimEndSlashes pre ++ text g.target,
          [trimBlanks (Str.bytes ("Bearer ".toList ++ up.apiKey))]) := by
      unfold route
      rw [htarget]
    refine ⟨fun _ => haddr, fun hfits => ?_⟩
    obtain ⟨hpre, hhost, hkey⟩ := hfits htarget
    have hcred : parseField (Str.bytes (credential up.apiKey)) =
        some (credentialName, trimBlanks (Str.bytes ("Bearer ".toList ++ up.apiKey))) :=
      parseField_written "Authorization".toList ("Bearer ".toList ++ up.apiKey) (by decide)
      (by decide)
        (bytes_append_all (by decide) hkey)
    have hforeign' :
      Foreign
      (gs ++ [(credentialName, trimBlanks (Str.bytes ("Bearer ".toList ++ up.apiKey)))]) := by
      intro f hf
      rcases List.mem_append.1 hf with hf | hf
      · exact hforeign f hf
      · rw [List.mem_singleton.1 hf]
        show credentialName ≠ hostName ∧ credentialName ≠ lengthName ∧ credentialName ≠ codingName
        decide
    rw [haddr, hx']
    refine rewritten_of hline (hostPort_addr up) (by rw [hroute]) ⟨?_, ?_⟩ hhost ?_ hforeign' ?_
    · rw [bytes_append, bytes_text hlow]
      exact List.append_ne_nil_of_right_ne_nil _ hline.target.1
    · refine bytes_append_all hpre ?_
      rw [bytes_text hlow]
      exact hline.target.2
    · rw [List.map_append]
      exact List.rel_append hgs (.cons hcred .nil)
    · rw [List.filter_append, hnocred, hroute]
      simp
  · dsimp only at hx
    rw [htarget] at hx
    dsimp only at hx
    split_ifs at hx
    · cases hx
    have hx' := List.mem_singleton.1 hx
    obtain ⟨hhost, t, rfl, ht⟩ := packageTarget_some htarget
    have hroute : route up pre (text g.target) = ('/' :: t, []) := by
      unfold route
      rw [htarget]
    have haddr : (hostPort x.addr).1 = (hostPort (packageUpstream host).host).1 := by
      rw [hx']
      exact hostPort_addr (packageUpstream host)
    refine ⟨nofun, fun _ => ?_⟩
    rw [withoutCredential_kept hks fun f hf h => (hkept f hf).1 (h ▸ hcredIn)] at hx'
    rw [hx'] at haddr ⊢
    refine rewritten_of hline haddr (by rw [hroute]) ⟨?_, ?_⟩ ?_ hgs hforeign ?_
    · rw [bytes_cons]
      exact List.append_ne_nil_of_left_ne_nil String.utf8EncodeChar_ne_nil _
    · have hslash : (Str.bytes ['/']).all isTargetByte = true := by decide
      exact bytes_append_all hslash (bytes_all hlow hline.target.2 ht)
    · rw [hostPort_packageUpstream]
      exact all_value_of_target (bytes_all hlow hline.target.2 fun c hc =>
        hhost c (mem_hostPort hc))
    · rw [hnocred, hroute]
      rfl

end Route

/-! ## One request -/

section Forwards

variable {net : Exchange → Except ProxyErr Bytes} {up : Upstream} {pre : Str} {allow : AllowList}
  {x : Exchange}
  {reads rest : List Read} {g : Lib.Http.Head} {s t H extra : Bytes}

/-- A head that is read has an end. -/
theorem headLength_of_readHead (h : Lib.Http.readHead s = some (g, extra)) :
    ∃ ls, s = headBytes g.method g.target g.version ls ++ extra ∧
      List.Forall₂ (fun l f => parseField l = some f) ls g.fields ∧
      headLength s = some (headBytes g.method g.target g.version ls).length := by
  obtain ⟨hline, ls, hs, hls⟩ := readHead_sound h
  refine ⟨ls, hs, hls, ?_⟩
  rw [hs]
  exact headLength_headBytes hline hls extra

/-- A head that has its end is read, whatever follows. -/
theorem readHead_prefix (h : Lib.Http.readHead (s ++ t) = some (g, extra))
    (hs : (headLength s).isSome) :
    ∃ e, Lib.Http.readHead s = some (g, e) ∧ extra = e ++ t := by
  obtain ⟨ls, hbytes, hls, hlen⟩ := headLength_of_readHead h
  obtain ⟨k, hk⟩ := Option.isSome_iff_exists.1 hs
  obtain ⟨hsame, hle⟩ := headLength_mono hk t
  rw [hlen] at hsame
  rw [← Option.some.inj hsame] at hle
  have hpre : headBytes g.method g.target g.version ls <+: s :=
    List.prefix_of_prefix_length_le ⟨extra, hbytes.symm⟩ (List.prefix_append s t) hle
  obtain ⟨e, rfl⟩ := hpre
  refine ⟨e, readHead_headBytes (readHead_sound h).1 hls, ?_⟩
  rw [List.append_assoc] at hbytes
  exact (List.append_cancel_left hbytes).symm

/-- A request that is read is a parsed head and a body of the length it says. -/
theorem readRequest_ok {head : Head} {body : Bytes}
    (h : readRequest reads = .ok (some (head, body))) : ∃ H rest,
    readHead reads [] = .ok (some (H, rest)) ∧ head = parseHead (fromUtf8Lossy H) ∧
      readBody (head.contentLength.getD 0) rest (H.drop ((headLength H).getD H.length)) = .ok
      body := by
  unfold readRequest at h
  rcases hhead : readHead reads [] with e | _ | ⟨H, rest⟩
  · rw [hhead] at h
    cases h
  · rw [hhead] at h
    cases h
  · rw [hhead] at h
    replace h : (readBody ((parseHead (fromUtf8Lossy H)).contentLength.getD 0) rest
        (H.drop ((headLength H).getD H.length))).map
          (fun body => some (parseHead (fromUtf8Lossy H), body)) =
          .ok (some (head, body)) := h
    rcases hbody : readBody ((parseHead (fromUtf8Lossy H)).contentLength.getD 0) rest
        (H.drop ((headLength H).getD H.length)) with e | body'
    · rw [hbody] at h
      cases h
    · rw [hbody] at h
      cases h
      exact ⟨H, rest, rfl, rfl, hbody⟩

/-- What has been sent on was read as a head. -/
theorem readHead_of_sent (hx : x ∈ (serve net up pre allow reads).sent) :
    ∃ H rest, readHead reads [] = .ok (some (H, rest)) := by
  unfold serve at hx
  rcases hreq : readRequest reads with e | _ | ⟨head, body⟩
  · rw [hreq] at hx
    cases hx
  · rw [hreq] at hx
    cases hx
  · obtain ⟨H, rest, hH, -⟩ := readRequest_ok hreq
    exact ⟨H, rest, hH⟩

/-- What is sent, if the head of the guest's request can be read: the proxy reads on up to the
declared length. -/
theorem serve_sent {n : ℕ} (hx : x ∈ (serve net up pre allow reads).sent)
    (hH : readHead reads [] = .ok (some (H, rest))) (hg : Lib.Http.readHead H = some (g, extra))
    (hn : g.bodyLength? = some n) :
    ∃ body, readBody (if n < 2 ^ 64 then n else 0) rest extra = .ok body ∧
      (packageTarget (text g.target) = none → x.addr = up.addr) ∧
        (OperatorFits up pre (text g.target) →
        ∃ h, Lib.Http.readRequest x.raw = some (h, body, []) ∧
        Rewritten up pre x.addr g h body.length) := by
  unfold serve at hx
  -- Something was sent, so a whole request was read; its head is the one that the strict reader
  -- found.
  rcases hreq : readRequest reads with e | _ | ⟨head, body⟩
  · rw [hreq] at hx
    cases hx
  · rw [hreq] at hx
    cases hx
  rw [hreq] at hx
  obtain ⟨H', rest', hH', rfl, hbody⟩ := readRequest_ok hreq
  rw [hH] at hH'
  cases hH'
  obtain ⟨ls, hbytes, hls, hlen⟩ := headLength_of_readHead hg
  have hline := (readHead_sound hg).1
  obtain ⟨ks, hks, len, hparse, hlen'⟩ := parseHead_headBytes hline hls hn extra
  have hdrop : H.drop ((headLength H).getD H.length) = extra := by
    rw [hlen, hbytes]
    exact List.drop_left
  rw [← hbytes] at hparse
  rw [hdrop, hparse] at hbody
  rw [hparse] at hx
  dsimp only at hbody hx
  rw [hlen'] at hbody
  exact ⟨body, hbody, respond_sent hline hks (bodyLength_eq_some.1 hn).1 hx⟩

/-- The request that is sent is the guest's own, with its body. -/
def ForwardsOne (up : Upstream) (pre : Str) (reads : List Read) (x : Exchange) : Prop :=
  ∃ g h body after, Lib.Http.readRequest (guestBytes reads) = some (g, body, after) ∧
    Lib.Http.readRequest x.raw = some (h, body, []) ∧ Rewritten up pre x.addr g h body.length

/-- A read brings the end of the head, and further reads end where the body ends. -/
def Aligned (reads : List Read) (g : Lib.Http.Head) : Prop :=
  ∃ hs b bs rest extra, reads = (hs ++ [b] ++ bs).map some ++ rest ∧
    (∀ r ∈ hs ++ [b] ++ bs, r ≠ []) ∧
    Lib.Http.readHead hs.flatten = none ∧ Lib.Http.readHead (hs.flatten ++ b) = some (g, extra) ∧
      g.bodyLength? = some (extra ++ bs.flatten).length ∧
      ((extra ++ bs.flatten).length < 2 ^ 64 ∨ bs = [])

/-- A request that arrives as the guest has sent it has texts of the operator that fit. -/
theorem operatorFits_of {h : Lib.Http.Head} {body : Bytes}
    (haddr : packageTarget (text g.target) = none → x.addr = up.addr)
    (hread : Lib.Http.readRequest x.raw = some (h, body, []))
    (hrew : Rewritten up pre x.addr g h body.length) :
    OperatorFits up pre (text g.target) := by
  intro hnone
  obtain ⟨hhead, -⟩ := readRequest_eq_some.1 hread
  have hroute : route up pre (text g.target) =
      (trimEndSlashes pre ++ text g.target,
        [trimBlanks (Str.bytes ("Bearer ".toList ++ up.apiKey))]) := by
    unfold route
    rw [hnone]
  -- Whatever stands in a field the guest's head was read from is free of line ends, and the
  -- operator's parts stand there.
  have hvalues : ∀ {s : Bytes}, (trimBlanks s).all isValueByte = true →
    s.all isValueByte = true := by
    intro s hs
    rw [List.all_eq_true] at hs ⊢
    intro b hb
    rcases mem_trimBlanks hb with hblank | hin
    · exact isValueByte_of_blank hblank
    · exact hs b hin
  have htarget := (readHead_sound hhead).1.target.2
  have hhost := values_all hhead (hrew.host ▸ List.mem_singleton_self _)
  have hkey :=
    values_all hhead (show trimBlanks (Str.bytes ("Bearer ".toList ++ up.apiKey)) ∈ h.values
      credentialName by
    rw [hrew.credential, hroute]
    exact List.mem_singleton_self _)
  rw [hrew.target, hroute, bytes_append, List.all_append, Bool.and_eq_true] at htarget
  rw [haddr hnone, hostPort_addr] at hhost
  have hkey' := hvalues hkey
  rw [bytes_append, List.all_append, Bool.and_eq_true] at hkey'
  exact ⟨htarget.1, hvalues hhost, hkey'.2⟩

/-- A request that is forwarded as one request with its own body was read up to the end of its body.
-/
theorem aligned_of_forwardsOne (hx : x ∈ (serve net up pre allow reads).sent)
    (h : ForwardsOne up pre reads x) :
    ∃ g, Aligned reads g ∧ OperatorFits up pre (text g.target) := by
  obtain ⟨g, h, body, after, hguest, hread, hrew⟩ := h
  obtain ⟨hhead, hn⟩ := readRequest_eq_some.1 hguest
  obtain ⟨H, rest, hH⟩ := readHead_of_sent hx
  obtain ⟨hs, b, hreads, hne, hHeq, hnone, hsome⟩ := readHead_ok rfl hH
  rw [List.nil_append] at hHeq hnone
  have hall : guestBytes reads = H ++ guestBytes rest := by
    rw [hreads, guestBytes_append hne, hHeq]
    simp
  rw [hall] at hhead
  obtain ⟨extra, hg, -⟩ := readHead_prefix hhead hsome
  -- The texts of the operator fit, so that what was sent is read back with the body that the proxy
  -- has read.
  obtain ⟨body', hbody, haddr, hsent⟩ := serve_sent hx hH hg hn
  have hfits := operatorFits_of haddr hread hrew
  obtain ⟨h', hread', -⟩ := hsent hfits
  rw [hread] at hread'
  cases hread'
  obtain ⟨bs, rest', hrest, hne', rfl, hshort⟩ := readBody_ok hbody
  refine ⟨g, ⟨hs, b, bs, rest', extra, ?_, ?_, ?_, ?_, hn, ?_⟩, hfits⟩
  · rw [hreads, hrest, ← List.append_assoc, ← List.map_append]
  · intro r hr
    rcases List.mem_append.1 hr with hr | hr
    · exact hne r hr
    · exact hne' r hr
  · rcases hno : Lib.Http.readHead hs.flatten with _ | ⟨g', e⟩
    · rfl
    · obtain ⟨ls, -, -, hlen⟩ := headLength_of_readHead hno
      rw [hnone] at hlen
      cases hlen
  · rw [← hHeq]
    exact hg
  · by_cases hlt : (extra ++ bs.flatten).length < 2 ^ 64
    · exact Or.inl hlt
    · rw [if_neg hlt] at hshort
      exact Or.inr (hshort (Nat.zero_le _))

/-- A request whose reads end with its body is read with its body. -/
theorem guestBytes_of_aligned {hs bs : List Bytes} {b : Bytes}
    (hne : ∀ r ∈ hs ++ [b] ++ bs, r ≠ [])
    (hg : Lib.Http.readHead (hs.flatten ++ b) = some (g, extra))
    (hn : g.bodyLength? = some (extra ++ bs.flatten).length) :
    Lib.Http.readRequest (guestBytes ((hs ++ [b] ++ bs).map some ++ rest)) =
      some (g, extra ++ bs.flatten, guestBytes rest) := by
  obtain ⟨ls, hbytes, hls, -⟩ := headLength_of_readHead hg
  have hflat : (hs ++ [b] ++ bs).flatten = hs.flatten ++ b ++ bs.flatten := by simp
  have hwhole : (hs ++ [b] ++ bs).flatten ++ guestBytes rest =
      headBytes g.method g.target g.version ls ++ (extra ++ bs.flatten ++ guestBytes rest) := by
    rw [hflat, hbytes]
    simp only [List.append_assoc]
  rw [guestBytes_append hne, hwhole]
  exact readRequest_eq_some.2 ⟨readHead_headBytes (readHead_sound hg).1 hls, hn⟩

/-- A request whose reads end with its body is forwarded as one request with its body. -/
theorem forwardsOne_of_aligned (hx : x ∈ (serve net up pre allow reads).sent) (h : Aligned reads g)
    (hfits : OperatorFits up pre (text g.target)) : ForwardsOne up pre reads x := by
  obtain ⟨hs, b, bs, rest, extra, hreads, hne, hbefore, hg, hn, hshort⟩ := h
  obtain ⟨ls, -, -, hlen⟩ := headLength_of_readHead hg
  -- The head ends in the piece `b` and not before, so the proxy reads just these pieces for it.
  have hnone : headLength hs.flatten = none := by
    rcases hk : headLength hs.flatten with _ | k
    · rfl
    · obtain ⟨e, he, -⟩ := readHead_prefix hg (by rw [hk]; rfl)
      rw [hbefore] at he
      cases he
  have hassoc : reads = (hs ++ [b]).map some ++ (bs.map some ++ rest) := by
    rw [hreads, List.map_append, List.append_assoc]
  have hH : readHead reads [] = .ok (some (hs.flatten ++ b, bs.map some ++ rest)) := by
    obtain ⟨H, rest', hH⟩ := readHead_of_sent hx
    rw [hassoc] at hH ⊢
    rw [hH, readHead_eq (fun r hr => hne r (List.mem_append_left bs hr)) hnone
      (by rw [List.nil_append, hlen]; rfl) _ hH]
    rfl
  obtain ⟨body, hbody, -, hsent⟩ := serve_sent hx hH hg hn
  have hbody' :
    readBody (if (extra ++ bs.flatten).length < 2 ^ 64 then (extra ++ bs.flatten).length else 0)
      (bs.map some ++ rest) extra = .ok (extra ++ bs.flatten) := by
    by_cases hlt : (extra ++ bs.flatten).length < 2 ^ 64
    · rw [if_pos hlt]
      exact readBody_eq (fun r hr => hne r (List.mem_append_right _ hr)) rfl rest
    · have hnil : bs = [] := hshort.resolve_left hlt
      rw [if_neg hlt, hnil, List.flatten_nil, List.append_nil]
      exact readBody_of_le (Nat.zero_le _) _
  rw [hbody'] at hbody
  cases hbody
  obtain ⟨h, hread, hrew⟩ := hsent hfits
  refine ⟨g, h, extra ++ bs.flatten, guestBytes rest, ?_, hread, hrew⟩
  rw [hreads]
  exact guestBytes_of_aligned hne hg hn

/-- A request of the guest is forwarded as one request with its own body exactly if the reads end
where its body ends, and the operator's texts can stand in a request. -/
theorem forwardsOne_iff {net : Exchange → Except ProxyErr Bytes} {up : Upstream} {pre : Str}
    {allow : AllowList} {x : Exchange} {reads : List Read}
    (hx : x ∈ (serve net up pre allow reads).sent) :
    ForwardsOne up pre reads x ↔ ∃ g, Aligned reads g ∧ OperatorFits up pre (text g.target) :=
  ⟨aligned_of_forwardsOne hx, fun ⟨_, h, hfits⟩ => forwardsOne_of_aligned hx h hfits⟩

/-- The upstream of the examples. -/
def exampleUpstream : Upstream := ⟨"model:80".toList, "http".toList, "key".toList⟩

/-- A request in two reads, the second of which is the body. -/
def twoReads : List Read :=
  [some (ascii "POST /v1 HTTP/1.1\r\nHost: x\r\ncontent-length: 2\r\n\r\n"), some (ascii "hi")]

/-- What is sent for the two reads is one request. -/
theorem forwardsOne_twoReads :
    ∃ x ∈ (serve (fun _ => .ok []) exampleUpstream "/m/".toList ⟨[]⟩ twoReads).sent,
      ForwardsOne exampleUpstream "/m/".toList twoReads x := by
  have hsome : (serve (fun _ => .ok []) exampleUpstream "/m/".toList ⟨[]⟩ twoReads).sent ≠ [] :=
    by decide +kernel
  obtain ⟨x, hx⟩ := List.exists_mem_of_ne_nil _ hsome
  have haligned : Aligned twoReads
      ⟨ascii "POST", ascii "/v1", ascii "HTTP/1.1",
        [(hostName, ascii "x"), (lengthName, ascii "2")]⟩ := by
    refine ⟨[], ascii "POST /v1 HTTP/1.1\r\nHost: x\r\ncontent-length: 2\r\n\r\n", [ascii "hi"],
      [], [], ?_⟩
    refine ⟨?_, ?_, ?_, ?_, ?_, Or.inl ?_⟩
    · decide +kernel
    · decide +kernel
    · decide +kernel
    · decide +kernel
    · decide +kernel
    · decide +kernel
  refine ⟨x, hx, (forwardsOne_iff hx).2 ⟨_, haligned, fun _ => ?_⟩⟩
  decide +kernel

/-- A request whose first bytes of the next request came in the same read. -/
def pipelined : List Read :=
  [some (ascii "POST /v1 HTTP/1.1\r\nContent-Length: 2\r\n\r\nhiGET / HTTP/1.1\r\n\r\n")]

/-- The bytes of the next request are sent as part of the body. -/
theorem not_forwardsOne_pipelined :
    ∃ x ∈ (serve (fun _ => .ok []) exampleUpstream "/m/".toList ⟨[]⟩ pipelined).sent,
      ¬ ForwardsOne exampleUpstream "/m/".toList pipelined x := by
  have hdiffer :
      ((serve (fun _ => .ok []) exampleUpstream "/m/".toList ⟨[]⟩ pipelined).sent.any fun x =>
      (Lib.Http.readRequest (guestBytes pipelined)).map (fun r => r.2.1) ≠
        (Lib.Http.readRequest x.raw).map (fun r => r.2.1)) = true := by decide +kernel
  obtain ⟨x, hx, hne⟩ := List.any_eq_true.1 hdiffer
  refine ⟨x, hx, ?_⟩
  rintro ⟨g, h, body, after, hguest, hread, -⟩
  rw [hguest, hread] at hne
  simp at hne

end Forwards

end Dbvm.Proxy
