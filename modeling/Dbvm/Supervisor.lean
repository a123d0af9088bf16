import Dbvm.Lib.Region
import Dbvm.Codec
import Dbvm.Path
import Mathlib.Data.Nat.Digits.Defs

/-!
# The protocol of the session supervisor

What `Session::run` (`src/session.rs`) writes for a request and what the supervisor makes of it
(`src/session/init.c`): the argument vector and the environment as lists of texts that end in NUL,
read into a buffer that grows and split in place into a vector of pointers, and the request ids that
arrive on the FIFO one byte at a time. The C functions run on blocks of memory, in which an access
out of bounds or to memory that was never written is a fault.
-/

namespace Dbvm

open Lib Lib.Region

/-! ## The host -/

/-- The list as it is written to a file, every item followed by NUL. -/
def nulList (items : List Bytes) : Bytes := items.flatMap (· ++ [0])

/-- The texts `NAME=value` of an environment. -/
def envItems (env : List (Bytes × Bytes)) : List Bytes := env.map fun p => p.1 ++ '='.toUInt8 :: p.2

/-- A request id, and the line that announces it. -/
def requestId (seq : ℕ) : Bytes := Str.bytes (Nat.toDigits 10 seq)

def requestLine (seq : ℕ) : Bytes := requestId seq ++ ['\n'.toUInt8]

/-! ## Files -/

/-- The loop of `read_file`, at `n` bytes in a buffer for `cap` of them and one more. An element of
the list is one call of `read`: `none` when a signal interrupts it, `some k` when the kernel hands
over at most `k + 1` bytes, and no byte at the end of the file only. -/
def readLoop (file : Bytes) : List (Option ℕ) → ℕ → ℕ → Region UInt8 →
    Except Stop (Region UInt8 × ℕ)
  | [], _, _, _ => .error .pending
  | call :: calls, cap, n, buf =>
    -- a full buffer is doubled before the call
    let cap' := if n = cap then cap * 2 else cap
    let buf' := if n = cap then grow buf (cap * 2 + 1) else buf
    match call with
    | none => readLoop file calls cap' n buf'
    | some k =>
      let got := (file.drop n).take (min (k + 1) (cap' - n))
      if got = [] then (write buf' n [0]).map (·, n)
      else do
        let buf'' ← write buf' n got
        readLoop file calls cap' (n + got.length) buf''

/-- `read_file`: the buffer and the length of the file. -/
def readFile (file : Bytes) (calls : List (Option ℕ)) : Except Stop (Region UInt8 × ℕ) :=
  readLoop file calls 4096 0 (List.replicate (4096 + 1) none)

/-! ## Vectors -/

/-- A vector of pointers: offsets into a buffer, and `none` for `NULL`. -/
abbrev PtrVec := Region (Option ℕ)

/-- The first loop of `split`, with `todo` bytes to go. -/
def countLoop (buf : Region UInt8) : ℕ → ℕ → ℕ → Except Stop ℕ
  | 0, _, count => .ok count
  | todo + 1, i, count => do
    let c ← load buf i
    countLoop buf todo (i + 1) (if c = 0 then count + 1 else count)

/-- The second loop of `split`, with at most `todo` rounds to go. -/
def splitLoop (buf : Region UInt8) (len count : ℕ) : ℕ → ℕ → ℕ → ℕ → PtrVec → Except Stop PtrVec
  | 0, _, _, _, v => .ok v
  | todo + 1, i, k, start, v =>
    if k < count then do
      -- `buf[i]` is not read at the end
      let ends ← if i = len then .ok true else (load buf i).map (· == 0)
      if ends then do
        let v' ← write v k [some start]
        splitLoop buf len count todo (i + 1) (k + 1) (i + 1) v'
      else splitLoop buf len count todo (i + 1) k start v
    else .ok v

/-- The number of texts in a buffer with `nuls` NULs: what follows the last one is a text, too. -/
def textCount (buf : Region UInt8) (len nuls : ℕ) : Except Stop ℕ :=
  if 0 < len then (load buf (len - 1)).map fun c => if c ≠ 0 then nuls + 1 else nuls else .ok nuls

/-- `split`: the vector of the texts of a buffer. -/
def split (buf : Region UInt8) (len : ℕ) : Except Stop PtrVec := do
  let nuls ← countLoop buf len 0 0
  let count ← textCount buf len nuls
  let v ← splitLoop buf len count (len + 1) 0 0 0 (List.replicate (count + 1) (some none))
  write v count [none]

/-- What the supervisor makes of a list: its buffer and its vector. -/
def loadVector (file : Bytes) (calls : List (Option ℕ)) : Except Stop (Region UInt8 × PtrVec) := do
  let (buf, len) ← readFile file calls
  let v ← split buf len
  return (buf, v)

/-- The part of `run` that reads a request: the vectors of the command and of its environment, or
`none` for the answer `error incomplete request`. -/
def readRequest (argvFile envFile : Bytes) (argvCalls envCalls : List (Option ℕ)) :
    Except Stop (Option ((Region UInt8 × PtrVec) × (Region UInt8 × PtrVec))) := do
  let (abuf, alen) ← readFile argvFile argvCalls
  let (ebuf, elen) ← readFile envFile envCalls
  if alen = 0 then return none
  else do
    let argv ← split abuf alen
    let envp ← split ebuf elen
    return some ((abuf, argv), (ebuf, envp))

/-! ## Lines -/

/-- The bytes a line buffer of 64 bytes keeps. -/
def lineLimit : ℕ := 63

/-- `valid_id` of the text in a buffer. -/
def validId (s : Bytes) : Bool := s ≠ [] && s.all fun c => '0'.toUInt8 ≤ c && c ≤ '9'.toUInt8

/-- The main loop over the bytes of the FIFO, with what it has of a line: the ids for which `run` is
called. A text in the line buffer ends at its first NUL. -/
def readLines : Bytes → Bytes → List Bytes
  | _, [] => []
  | line, c :: fifo =>
    if c ≠ '\n'.toUInt8 then readLines (if line.length < lineLimit then line ++ [c] else line) fifo
    else
      let s := line.takeWhile (· ≠ 0)
      (if validId s then [s] else []) ++ readLines [] fifo

/-! ## A file is read whole -/

section Files

variable {file : Bytes} {buf : Region UInt8} {cap n : ℕ}

/-- What holds of the buffer between two calls: it has room for `cap` bytes and one more, and holds
the first `n` bytes of the file. -/
structure Buffered (file : Bytes) (cap n : ℕ) (buf : Region UInt8) : Prop where
  pos : 0 < cap
  le_cap : n ≤ cap
  le_file : n ≤ file.length
  size : buf.length = cap + 1
  filled : Filled buf (file.take n)

/-- Doubling a full buffer makes room for the next call. -/
theorem Buffered.grow (h : Buffered file cap n buf) :
    Buffered file (if n = cap then cap * 2 else cap) n
        (if n = cap then Region.grow buf (cap * 2 + 1) else buf) ∧
      n < if n = cap then cap * 2 else cap := by
  have hpos := h.pos
  split_ifs with hfull
  · have hsize : (Region.grow buf (cap * 2 + 1)).length = cap * 2 + 1 :=
      length_grow (by rw [h.size]; omega)
    exact ⟨⟨by omega, by omega, h.le_file, hsize, h.filled.grow _⟩, by omega⟩
  · have hle := h.le_cap
    exact ⟨h, by omega⟩

/-- A call of `read` appends to what the buffer holds. -/
theorem Buffered.read (h : Buffered file cap n buf) (k : ℕ) :
    ∃ buf', write buf n ((file.drop n).take (min k (cap - n))) = .ok buf' ∧
      Buffered file cap (n + ((file.drop n).take (min k (cap - n))).length) buf' := by
  have hlen : (file.take n).length = n := by
    have hle := h.le_file
    simpa using hle
  have hgot : ((file.drop n).take (min k (cap - n))).length = min (min k (cap - n))
    (file.length - n) := by
    simp
  have hsize := h.size
  have hcap := h.le_cap
  have hfile := h.le_file
  obtain ⟨buf', hw, hfilled, hkeep⟩ :=
    h.filled.write ((file.drop n).take (min k (cap - n))) (by rw [hlen, hgot]; omega)
  rw [hlen] at hw
  refine ⟨buf', hw, h.pos, by rw [hgot]; omega, by rw [hgot]; omega, by rw [hkeep, hsize], ?_⟩
  have htake : file.take (n + ((file.drop n).take (min k (cap - n))).length) =
      file.take n ++ (file.drop n).take (min k (cap - n)) := by
    rw [List.take_add, hgot]
    congr 1
    rw [List.take_eq_take_iff, List.length_drop]
    omega
  rw [htake]
  exact hfilled

/-- `read_file` gives the whole file and a NUL behind it, whatever each call hands over; it touches
nothing outside its buffer, and waits only for as long as there were no more calls than bytes. -/
theorem readLoop_spec (calls : List (Option ℕ)) : ∀ {cap n : ℕ} {buf : Region UInt8},
    Buffered file cap n buf →
      (∃ buf', readLoop file calls cap n buf = .ok (buf', file.length) ∧
        Filled buf' (file ++ [0])) ∨
        readLoop file calls cap n buf = .error .pending ∧
          calls.countP (·.isSome) ≤ file.length - n := by
  -- By induction on the reads: the buffer holds the first `n` bytes of the file and has room for
  -- the next read.
  induction calls with
  | nil => exact fun _ => Or.inr ⟨rfl, by simp⟩
  | cons call calls ih =>
    intro cap n buf h
    obtain ⟨hgrow, hroom⟩ := h.grow
    cases call with
    | none =>
      have hrest := ih hgrow
      rw [readLoop, List.countP_cons_of_neg (by simp)]
      exact hrest
    | some k =>
      rw [readLoop]
      generalize (if n = cap then cap * 2 else cap) = cap' at hgrow hroom ⊢
      generalize (if n = cap then Region.grow buf (cap * 2 + 1) else buf) = buf' at hgrow ⊢
      have hfile := hgrow.le_file
      have hgot : ((file.drop n).take (min (k + 1) (cap' - n))).length =
          min (min (k + 1) (cap' - n)) (file.length - n) := by simp
      split_ifs with hend
      · -- the end of the file: the NUL still fits
        have hall : file.length = n := by
          rw [hend, List.length_nil] at hgot
          omega
        have hfilled := hgrow.filled
        rw [← hall, List.take_length] at hfilled
        have hsize := hgrow.size
        obtain ⟨buf'', hw, hnul, -⟩ := hfilled.write [0] (by
          rw [List.length_singleton]
          omega)
        left
        rw [hall] at hw
        exact ⟨buf'', by rw [hw, hall]; rfl, hnul⟩
      · obtain ⟨buf'', hw, hnext⟩ := hgrow.read (k + 1)
        have hpos := List.length_pos_iff.2 hend
        rw [hw]
        rcases ih hnext with hdone | ⟨hwait, hcount⟩
        · exact Or.inl hdone
        · refine Or.inr ⟨hwait, ?_⟩
          rw [List.countP_cons_of_pos (by simp)]
          omega

/-- Reading a file gives its bytes and a zero, unless the reads end too early. -/
theorem readFile_spec (file : Bytes) (calls : List (Option ℕ)) :
    (∃ buf, readFile file calls = .ok (buf, file.length) ∧ Filled buf (file ++ [0])) ∨
      readFile file calls = .error .pending ∧ calls.countP (·.isSome) ≤ file.length := by
  have hstart : Buffered file 4096 0 (List.replicate (4096 + 1) none) :=
    ⟨by omega, by omega, by omega, List.length_replicate, filled_nil _⟩
  exact readLoop_spec calls hstart

end Files

/-! ## A list is split into its items -/

section Vectors

variable {buf : Region UInt8} {items : List Bytes} {pre s rest : Bytes}

/-- Each item ends with a zero. -/
theorem nulList_cons (s : Bytes) (items : List Bytes) :
    nulList (s :: items) = s ++ 0 :: nulList items := by
  simp [nulList]

/-- The loop counts the zeros of what it runs over. -/
theorem countLoop_eq (bytes : Bytes) :
    ∀ (pre : Bytes) {rest : Bytes} (count : ℕ), Filled buf (pre ++ bytes ++ rest) →
    countLoop buf bytes.length pre.length count = .ok (count + bytes.count 0) := by
  induction bytes with
  | nil => exact fun _ _ _ _ => rfl
  | cons c bytes ih =>
    intro pre rest count h
    rw [List.append_assoc, List.cons_append] at h
    have hnext : Filled buf ((pre ++ [c]) ++ bytes ++ rest) := by simpa using h
    have hrest := ih (pre ++ [c]) (if c = 0 then count + 1 else count) hnext
    rw [List.length_append, List.length_singleton] at hrest
    rw [List.length_cons, countLoop, h.load]
    refine hrest.trans ?_
    rw [List.count_cons]
    split_ifs <;> simp_all
    omega

/-- A list of items has as many zeros as items. -/
theorem count_nulList (h : ∀ s ∈ items, 0 ∉ s) : (nulList items).count 0 = items.length := by
  induction items with
  | nil => rfl
  | cons s items ih =>
    rw [nulList_cons, List.count_append, List.count_eq_zero.2 (h s (by simp)), List.count_cons_self,
      ih fun s' hs' => h s' (by simp [hs']), List.length_cons, Nat.zero_add]

/-- A byte of an item is passed over. -/
theorem splitLoop_byte {len count k start todo i : ℕ} {v : PtrVec} {c : UInt8} (hk : k < count)
    (hi : i ≠ len) (hload : load buf i = .ok c) (hc : c ≠ 0) :
    splitLoop buf len count (todo + 1) i k start v = splitLoop buf len count todo (i + 1) k
    start v := by
  have hends : (load buf i).map (· == 0) = .ok false := by
    rw [hload, Except.map, beq_eq_false_iff_ne.2 hc]
  rw [splitLoop, if_pos hk, if_neg hi, hends]
  rfl

/-- At a NUL the pointer of the item before it is written. -/
theorem splitLoop_nul {len count k start todo i : ℕ} {v v' : PtrVec} (hk : k < count) (hi : i ≠ len)
    (hload : load buf i = .ok 0) (hw : write v k [some start] = .ok v') :
    splitLoop buf len count (todo + 1) i k start v =
      splitLoop buf len count todo (i + 1) (k + 1) (i + 1) v' := by
  have hends : (load buf i).map (· == 0) = .ok true := by rw [hload, Except.map, beq_self_eq_true]
  rw [splitLoop, if_pos hk, if_neg hi, hends]
  change (write v k [some start] >>= _) = _
  rw [hw]
  rfl

/-- The bytes of an item are passed over. -/
theorem splitLoop_item {len count k start todo : ℕ} {v : PtrVec} (hk : k < count) :
    ∀ {s pre : Bytes}, Filled buf (pre ++ s ++ rest) → 0 ∉ s → (pre ++ s).length ≤ len →
      splitLoop buf len count (s.length + todo) pre.length k start v =
        splitLoop buf len count todo (pre ++ s).length k start v := by
  intro s
  induction s with
  | nil => intros; simp
  | cons c s ih =>
    intro pre h hs hlen
    rw [List.mem_cons, not_or] at hs
    rw [List.append_assoc, List.cons_append] at h
    have hnext : Filled buf ((pre ++ [c]) ++ s ++ rest) := by simpa using h
    have hrest := ih hnext hs.2 (by simpa using hlen)
    have hne : pre.length ≠ len := by
      simp at hlen
      omega
    rw [List.length_cons, Nat.add_right_comm, splitLoop_byte hk hne h.load (Ne.symm hs.1)]
    simpa using hrest

/-- Where the items of a list begin that itself begins at `start`. -/
def offsets : ℕ → List Bytes → List ℕ
  | _, [] => []
  | start, s :: items => start :: offsets (start + (s.length + 1)) items

/-- From the beginning of an item on, every item gets its pointer. -/
theorem splitLoop_items {len count : ℕ} (items : List Bytes) :
    ∀ (pre : Bytes) (ptrs : List (Option ℕ)),
    Filled buf (pre ++ nulList items ++ rest) → (∀ s ∈ items, 0 ∉ s) →
      len = (pre ++ nulList items).length → count = ptrs.length + items.length →
      splitLoop buf len count ((nulList items).length + 1) pre.length ptrs.length pre.length
          ((ptrs ++ List.replicate (items.length + 1) none).map some) =
        .ok ((ptrs ++ (offsets pre.length items).map some ++ [none]).map some) := by
  -- By induction on the items: the bytes of one are passed over, its NUL writes the pointer, and
  -- the rest is a shorter list behind it.
  induction items with
  | nil =>
    intro pre ptrs h _ hlen hcount
    rw [splitLoop, if_neg (by simp [hcount])]
    simp [offsets]
  | cons s items ih =>
    intro pre ptrs h hs hlen hcount
    have hitem : 0 ∉ s := hs s (by simp)
    have hk : ptrs.length < count := by rw [hcount, List.length_cons]; omega
    rw [nulList_cons] at h hlen ⊢
    have hfilled : Filled buf (pre ++ s ++ (0 :: nulList items ++ rest)) := by simpa using h
    have hsplit :
      (s ++ 0 :: nulList items).length + 1 = s.length + ((nulList items).length + 1 + 1) := by
      simp
      omega
    have hlt : (pre ++ s).length < len := by
      rw [hlen]
      simp
    have hwrite := write_map ptrs (List.replicate (items.length + 1) none) none (some pre.length)
    rw [← List.replicate_succ] at hwrite
    have hnext : Filled buf ((pre ++ s ++ [0]) ++ nulList items ++ rest) := by simpa using h
    have hrest :=
      ih (pre ++ s ++ [0]) (ptrs ++ [some pre.length]) hnext (fun s' hs' => hs s' (by simp [hs']))
      (by rw [hlen]; simp) (by rw [hcount]; simp; omega)
    rw [hsplit, splitLoop_item hk hfilled hitem hlt.le, List.length_cons,
      splitLoop_nul hk hlt.ne hfilled.load hwrite]
    simpa [offsets, Nat.add_assoc] using hrest

/-- The last byte of a list that is not empty is NUL. -/
theorem nulList_eq_concat (hne : items ≠ []) : ∃ front, nulList items = front ++ [0] := by
  obtain ⟨init, s, rfl⟩ := List.eq_nil_or_concat items |>.resolve_left hne
  exact ⟨nulList init ++ s, by simp [nulList]⟩

/-- `split` of a list that the host wrote: a pointer to the beginning of each item, then `NULL`. -/
theorem split_nulList (h : Filled buf (nulList items ++ [0])) (hitems : ∀ s ∈ items, 0 ∉ s) :
    split buf (nulList items).length = .ok (((offsets 0 items).map some ++ [none]).map some) := by
  have hcount : countLoop buf (nulList items).length 0 0 = .ok items.length := by
    have hloop := countLoop_eq (nulList items) [] 0 h
    rwa [count_nulList hitems, Nat.zero_add] at hloop
  -- a list is terminated, so there is no text after the last NUL
  have hlast : textCount buf (nulList items).length items.length = .ok items.length := by
    rcases eq_or_ne items [] with rfl | hne
    · rfl
    · obtain ⟨front, hfront⟩ := nulList_eq_concat hne
      rw [hfront, List.append_assoc] at h
      rw [textCount, hfront, List.length_append, List.length_singleton, if_pos (by omega),
        Nat.add_sub_cancel, h.load]
      rfl
  have hloop := splitLoop_items items [] [] h hitems rfl (Nat.zero_add _).symm
  have hlen : items.length = ((offsets 0 items).map some).length := by
    have hoff : ∀ (items : List Bytes) (start : ℕ),
      (offsets start items).length = items.length := by
      intro items
      induction items with
      | nil => exact fun _ => rfl
      | cons s items ih => exact fun start => congrArg (· + 1) (ih _)
    rw [List.length_map, hoff]
  have hwrite := write_map ((offsets 0 items).map some) [] none none
  rw [← hlen] at hwrite
  unfold split
  rw [hcount]
  change (textCount buf (nulList items).length items.length >>= _) = _
  rw [hlast]
  change (splitLoop buf (nulList items).length items.length ((nulList items).length + 1) 0 0 0
    (List.replicate (items.length + 1) (some none)) >>= fun v => write v items.length [none]) = _
  have hinit : List.replicate (items.length + 1) (some none) =
      (([] : List (Option ℕ)) ++ List.replicate (items.length + 1) none).map some := by simp
  rw [hinit]
  exact (congrArg (· >>= fun v => write v items.length [none]) hloop).trans hwrite

/-- The vector spells a list: its pointers lie in the buffer, the texts there are the items, and
`NULL` follows them. -/
def Spells (buf : Region UInt8) (v : PtrVec) (items : List Bytes) : Prop :=
  ∃ ptrs : List ℕ, v = (ptrs.map some ++ [none]).map some ∧ (∀ p ∈ ptrs, p < buf.length) ∧
    ptrs.map (fun p => untilCell 0 (buf.drop p)) = items.map .ok

/-- The offsets point at the items, each up to its zero. -/
theorem offsets_spell (items : List Bytes) :
    ∀ pre : Bytes, Filled buf (pre ++ nulList items ++ rest) →
    (∀ s ∈ items, 0 ∉ s) → (∀ p ∈ offsets pre.length items, p < buf.length) ∧
      (offsets pre.length items).map (fun p => untilCell 0 (buf.drop p)) = items.map .ok := by
  induction items with
  | nil => simp [offsets]
  | cons s items ih =>
    intro pre h hitems
    rw [nulList_cons] at h
    have hitem : Filled buf (pre ++ s ++ 0 :: (nulList items ++ rest)) := by simpa using h
    have hnext : Filled buf ((pre ++ s ++ [0]) ++ nulList items ++ rest) := by simpa using h
    have hlen := hitem.length_le
    obtain ⟨hin, htexts⟩ := ih _ hnext fun s' hs' => hitems s' (by simp [hs'])
    have hoff : (pre ++ s ++ [0]).length = pre.length + (s.length + 1) := by simp
    rw [hoff] at hin htexts
    constructor
    · intro p hp
      rcases List.mem_cons.1 hp with rfl | hp
      · simp at hlen
        omega
      · exact hin p hp
    · rw [offsets, List.map_cons, List.map_cons, hitem.untilCell (hitems s (by simp)), htexts]

/-- A list without NUL inside its items comes out of the supervisor's two functions as it went in.
-/
theorem split_spells (h : Filled buf (nulList items ++ [0])) (hitems : ∀ s ∈ items, 0 ∉ s) :
    ∃ v, split buf (nulList items).length = .ok v ∧ Spells buf v items := by
  obtain ⟨hin, htexts⟩ := offsets_spell items [] h hitems
  exact ⟨_, split_nulList h hitems, _, rfl, hin, htexts⟩

/-- The vectors of a request reach the supervisor unchanged, or it still waits for bytes of a file.
-/
def Delivered (argv : List Bytes) (env : List (Bytes × Bytes))
    (argvCalls envCalls : List (Option ℕ)) : Prop :=
  (∃ a e, readRequest (nulList argv) (nulList (envItems env)) argvCalls envCalls = .ok
      (some (a, e)) ∧
      Spells a.1 a.2 argv ∧ Spells e.1 e.2 (envItems env)) ∨
    readRequest (nulList argv) (nulList (envItems env)) argvCalls envCalls = .error .pending ∧
      (argvCalls.countP (·.isSome) ≤ (nulList argv).length ∨
        envCalls.countP (·.isSome) ≤ (nulList (envItems env)).length)

/-- Arguments and environment arrive as they were sent. -/
theorem delivered {argv : List Bytes} {env : List (Bytes × Bytes)} (hne : argv ≠ [])
    (hargv : ∀ a ∈ argv, 0 ∉ a) (henv : ∀ p ∈ env, 0 ∉ p.1 ∧ 0 ∉ p.2)
    (argvCalls envCalls : List (Option ℕ)) :
    Delivered argv env argvCalls envCalls := by
  have hitems : ∀ s ∈ envItems env, 0 ∉ s := by
    intro s hs
    obtain ⟨p, hp, rfl⟩ := List.mem_map.1 hs
    have heq : (0 : UInt8) ≠ '='.toUInt8 := by decide
    simp [henv p hp, heq]
  have hpos : (nulList argv).length ≠ 0 := by
    obtain ⟨front, hfront⟩ := nulList_eq_concat hne
    simp [hfront]
  unfold Delivered readRequest
  -- Each of the two files is read whole, or the supervisor still waits for bytes of it.
  rcases readFile_spec (nulList argv) argvCalls with ⟨abuf, ha, hafilled⟩ | ⟨ha, hcount⟩
  · rcases readFile_spec (nulList (envItems env)) envCalls with ⟨ebuf, he, hefilled⟩ | ⟨he, hcount⟩
    · obtain ⟨av, hav, hspells⟩ := split_spells hafilled hargv
      obtain ⟨ev, hev, hespells⟩ := split_spells hefilled hitems
      refine Or.inl ⟨(abuf, av), (ebuf, ev), ?_, hspells, hespells⟩
      rw [ha, he]
      change (if (nulList argv).length = 0 then _ else _) = _
      rw [if_neg hpos, hav, hev]
      rfl
    · exact Or.inr ⟨by rw [ha, he]; rfl, Or.inr hcount⟩
  · exact Or.inr ⟨by rw [ha]; rfl, Or.inl hcount⟩

end Vectors

/-! ## Request ids -/

section Lines

/-- What the line buffer keeps of a line, up to its first NUL. -/
def kept (line : Bytes) : Bytes := (line.take lineLimit).takeWhile (· ≠ 0)

/-- Bytes up to a newline complete a line, which is taken when it is a valid id. -/
theorem readLines_append (s : Bytes) (hs : '\n'.toUInt8 ∉ s) (fifo : Bytes) : ∀ line : Bytes,
    line.length ≤ lineLimit → readLines line (s ++ '\n'.toUInt8 :: fifo) =
      (if validId (kept (line ++ s)) then [kept (line ++ s)] else []) ++ readLines [] fifo := by
  induction s with
  | nil =>
    intro line hline
    rw [List.nil_append, readLines, if_neg (by simp), List.append_nil, kept,
      List.take_of_length_le hline]
  | cons c s ih =>
    intro line hline
    rw [List.mem_cons, not_or] at hs
    rw [List.cons_append, readLines, if_pos (Ne.symm hs.1)]
    by_cases hroom : line.length < lineLimit
    · have hlen : (line ++ [c]).length ≤ lineLimit := by
        rw [List.length_append, List.length_singleton]
        omega
      rw [if_pos hroom, ih hs.2 _ hlen, List.append_assoc, List.singleton_append]
    · -- the buffer is full: the rest of the line is dropped
      have hkept : ∀ t, kept (line ++ t) = kept line := by
        intro t
        rw [kept, kept, List.take_append_of_le_length (Nat.le_of_not_lt hroom)]
      rw [if_neg hroom, ih hs.2 _ hline, hkept, hkept]

/-- The ids the supervisor runs are texts of decimal digits. -/
theorem validId_of_mem_readLines {id : Bytes} (fifo : Bytes) :
    ∀ line : Bytes, id ∈ readLines line fifo →
    validId id = true := by
  induction fifo with
  | nil => simp [readLines]
  | cons c fifo ih =>
    intro line h
    rw [readLines] at h
    split_ifs at h with hc
    · exact ih _ h
    · exact ih _ h
    · dsimp only at h
      rcases List.mem_append.1 h with hmem | hmem
      · split_ifs at hmem with hvalid
        · rwa [List.mem_singleton.1 hmem]
        · simp at hmem
      · exact ih _ hmem

/-- A digit is one byte. -/
theorem exists_utf8EncodeChar {d : Char} (h : d.isDigit = true) :
    ∃ c, String.utf8EncodeChar d = [c] ∧ '0'.toUInt8 ≤ c ∧ c ≤ '9'.toUInt8 := by
  obtain ⟨k, hk, rfl⟩ := exists_digitChar h
  have hall : ∀ k < 10, String.utf8EncodeChar (Nat.digitChar k) = [UInt8.ofNat (48 + k)] ∧
      '0'.toUInt8 ≤ UInt8.ofNat (48 + k) ∧ UInt8.ofNat (48 + k) ≤ '9'.toUInt8 := by decide
  exact ⟨_, hall k hk⟩

/-- A decimal numeral consists of digits. -/
theorem isDigit_toDigits {seq : ℕ} : ∀ d ∈ Nat.toDigits 10 seq, d.isDigit = true :=
  fun _ hd => Nat.isDigit_of_mem_toDigits (by decide) (by decide) hd

/-- A request id consists of digits. -/
theorem mem_requestId {seq : ℕ} {c : UInt8} (h : c ∈ requestId seq) :
    '0'.toUInt8 ≤ c ∧ c ≤ '9'.toUInt8 := by
  obtain ⟨d, hd, hc⟩ := List.mem_flatMap.1 h
  obtain ⟨b, hb, hlow, hhigh⟩ := exists_utf8EncodeChar (isDigit_toDigits d hd)
  rw [hb, List.mem_singleton] at hc
  rw [hc]
  exact ⟨hlow, hhigh⟩

/-- A request id is as long as its numeral. -/
theorem length_requestId (seq : ℕ) : (requestId seq).length = (Nat.toDigits 10 seq).length := by
  have hone : ∀ ds : List Char, (∀ d ∈ ds, d.isDigit = true) →
    (Str.bytes ds).length = ds.length := by
    intro ds
    induction ds with
    | nil => exact fun _ => rfl
    | cons d ds ih =>
      intro h
      obtain ⟨b, hb, -⟩ := exists_utf8EncodeChar (h d (by simp))
      have hrest := ih fun d' hd' => h d' (by simp [hd'])
      rw [Str.bytes, List.flatMap_cons, hb, List.length_append, List.length_singleton,
        List.length_cons]
      rw [Str.bytes] at hrest
      omega
  exact hone _ isDigit_toDigits

/-- The line buffer keeps every id of the host, and it is valid. -/
theorem kept_requestId {seq : ℕ} (h : seq < 2 ^ 64) : kept (requestId seq) = requestId seq := by
  have hlen : (requestId seq).length ≤ lineLimit := by
    rw [length_requestId]
    have hle :=
      (Nat.length_toDigits_le_iff (b := 10) (n := seq) (k := 20) (by decide) (by decide)).2
      (lt_trans h (by decide))
    exact le_trans hle (by decide)
  rw [kept, List.take_of_length_le hlen, List.takeWhile_eq_self_iff]
  intro c hc
  have hlow := (mem_requestId hc).1
  simp only [ne_eq, decide_not, Bool.not_eq_eq_eq_not, Bool.not_true, decide_eq_false_iff_not]
  rintro rfl
  exact absurd hlow (by decide)

/-- Every request id is valid. -/
theorem validId_requestId (seq : ℕ) : validId (requestId seq) = true := by
  have hne : requestId seq ≠ [] := by
    rw [← List.length_pos_iff, length_requestId]
    exact Nat.length_toDigits_pos
  simp only [validId, ne_eq, decide_not, Bool.and_eq_true, Bool.not_eq_eq_eq_not, Bool.not_true,
    decide_eq_false_iff_not, List.all_eq_true, decide_eq_true_eq]
  exact ⟨hne, fun c hc => mem_requestId hc⟩

/-- The supervisor runs the requests the host announces, in their order. -/
theorem readLines_requests {seqs : List ℕ} (h : ∀ seq ∈ seqs, seq < 2 ^ 64) :
    readLines [] (seqs.flatMap requestLine) = seqs.map requestId := by
  induction seqs with
  | nil => rfl
  | cons seq seqs ih =>
    have hline : '\n'.toUInt8 ∉ requestId seq :=
    fun hmem => absurd (mem_requestId hmem).1 (by decide)
    rw [List.flatMap_cons, requestLine, List.append_assoc, List.singleton_append,
      readLines_append _ hline _ [] (by decide), List.nil_append, kept_requestId (h seq (by simp)),
      validId_requestId, if_pos rfl, ih fun s hs => h s (by simp [hs])]
    rfl

/-- A digit alone: the line `0` reaches `run`, although no request has that id. -/
theorem not_accepts_exactly : ¬ ∀ line : Bytes, '\n'.toUInt8 ∉ line →
    (readLines [] (line ++ ['\n'.toUInt8]) ≠ [] ↔ ∃ seq, 0 < seq ∧ seq < 2 ^ 64 ∧
      line = requestId seq) := by
  intro h
  obtain ⟨seq, hpos, -, hid⟩ := (h ['0'.toUInt8] (by decide)).1 (by decide)
  have hlen : (Nat.toDigits 10 seq).length ≤ 1 := by
    rw [← length_requestId, ← hid]
    decide
  have hsmall : seq < 10 := (Nat.length_toDigits_le_iff (by decide) (by decide)).1 hlen
  have hall : ∀ n < 10, 0 < n → requestId n ≠ ['0'.toUInt8] := by decide
  exact hall seq hsmall hpos hid.symm

/-- A request crosses the protocol unchanged: whatever the calls of `read` hand over, the vectors of
the supervisor spell the arguments and the environment of the host, and the ids it runs are those
the host announces, in their order. Whatever stands on the FIFO, it runs nothing but texts of
decimal digits. -/
theorem request_crosses {argv : List Bytes} {env : List (Bytes × Bytes)} (hne : argv ≠ [])
    (hargv : ∀ a ∈ argv, 0 ∉ a) (henv : ∀ p ∈ env, 0 ∉ p.1 ∧ 0 ∉ p.2)
    (argvCalls envCalls : List (Option ℕ)) :
    Delivered argv env argvCalls envCalls ∧
      (∀ seqs : List ℕ, (∀ seq ∈ seqs, seq < 2 ^ 64) →
        readLines [] (seqs.flatMap requestLine) = seqs.map requestId) ∧
      ∀ fifo, ∀ id ∈ readLines [] fifo, id ≠ [] ∧ ∀ c ∈ id, '0'.toUInt8 ≤ c ∧ c ≤ '9'.toUInt8 := by
  refine ⟨delivered hne hargv henv argvCalls envCalls, fun seqs => readLines_requests,
    fun fifo id hid => ?_⟩
  have hvalid := validId_of_mem_readLines fifo [] hid
  simp only [validId, ne_eq, decide_not, Bool.and_eq_true, Bool.not_eq_eq_eq_not, Bool.not_true,
    decide_eq_false_iff_not, List.all_eq_true, decide_eq_true_eq] at hvalid
  exact hvalid

/-- Empty texts at both ends of a command, and an empty value. -/
theorem request_crosses_empty_texts : Delivered [[], ['x'.toUInt8], []] [(['A'.toUInt8], [])]
    [some 0, none, some 9, some 0] [some 4095, some 0] :=
  (request_crosses (by decide) (by decide) (by decide) _ _).1

end Lines

end Dbvm
