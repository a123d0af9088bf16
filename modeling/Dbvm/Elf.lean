import Dbvm.Lossy

/-!
# The ELF reader

`parse_elf_bytes_inner` of `src/elf.rs` reads a few header fields at fixed offsets, then has
`goblin` parse the file, copies the content of the segments, walks the notes and collects symbols
and relocations. `goblin` is a parameter: it gives an error or headers with any values in their
fields. An index or a slice out of range and an addition that overflows abort the run.
-/

namespace Dbvm.Elf

open Dbvm

/-! ## Checked operations -/

/-- Why a run does not return. -/
inductive Abort where
  /-- An index out of range. -/
  | index
  /-- A slice out of range or with its end before its start. -/
  | slice
  /-- An addition that overflows. -/
  | overflow
  /-- The loop over the notes has run as often as the model lets it. -/
  | rounds
deriving DecidableEq

/-- A byte slice of Rust. Its length is at most `isize::MAX`. -/
abbrev Slice := { data : Bytes // data.length < 2 ^ 63 }

/-- Addition in `u64` and `usize`. -/
def add (a b : ℕ) : Except Abort ℕ := if a + b < 2 ^ 64 then .ok (a + b) else .error .overflow

/-- `data[i]`. -/
def index (data : Bytes) (i : ℕ) : Except Abort UInt8 :=
  match data[i]? with
  | some b => .ok b
  | none => .error .index

/-- `data[start..stop]`. -/
def slice (data : Bytes) (start stop : ℕ) : Except Abort Bytes :=
  if start ≤ stop ∧ stop ≤ data.length then .ok ((data.take stop).drop start) else .error .slice

/-- `from_le_bytes`. -/
def fromLeBytes (bytes : Bytes) : ℕ := bytes.foldr (fun b n => b.toNat + 256 * n) 0

/-! ## What `goblin` gives -/

structure ProgramHeader where
  pType : UInt32
  pFlags : UInt32
  pOffset : UInt64
  pVaddr : UInt64
  pFilesz : UInt64
  pMemsz : UInt64
  pAlign : UInt64

structure SectionHeader where
  shName : ℕ
  shType : UInt32
  shOffset : UInt64
  shSize : UInt64
  shFlags : UInt64

structure Sym where
  stName : ℕ
  stInfo : UInt8
  stShndx : ℕ
  stValue : UInt64
  stSize : UInt64

structure Reloc where
  rOffset : UInt64
  rAddend : Option Int64
  rType : UInt32

/-- A string table: the name at an offset. -/
abbrev Strtab := ℕ → Option Str

/-- The result of `goblin`'s `Elf::parse`, as far as the reader uses it. -/
structure Parsed where
  programHeaders : List ProgramHeader
  interpreter : Option Str
  sectionHeaders : List SectionHeader
  shdrStrtab : Strtab
  dynamic : Option (List (UInt64 × UInt64))
  libraries : List Str
  dynsyms : List Sym
  dynstrtab : Strtab
  syms : List Sym
  strtab : Strtab
  shdrRelocs : List (ℕ × List Reloc)
  dynrelas : List Reloc
  pltrelocs : List Reloc

/-! ## What the reader makes of it -/

structure Segment where
  typ : Str
  offset : UInt64
  vaddr : UInt64
  filesz : UInt64
  memsz : UInt64
  r : ℕ
  w : ℕ
  x : ℕ
  align : UInt64
  content : Option Bytes

structure Symbol where
  name : Str
  version : Option Str
  value : UInt64
  size : UInt64
  typ : Str
  bind : Str
  defined : ℕ
  exported : ℕ

structure Section where
  name : Str
  typ : UInt32
  offset : UInt64
  size : UInt64
  flags : UInt64

structure Note where
  typ : Str
  name : Str
  desc : Option Bytes

structure ElfInfo where
  data : Bytes
  is64 : Bool
  endian : Str
  eType : ℕ
  eMachine : ℕ
  eEntry : ℕ
  ePhnum : ℕ
  ePhentsize : ℕ
  eShnum : ℕ
  eShstrndx : ℕ
  eFlags : ℕ
  eEhsize : ℕ
  interp : Option Str
  segments : List Segment
  symbols : List Symbol
  sections : List Section
  notes : List Note
  dynamicEntries : List (Int64 × UInt64)
  needed : List Str
  relocs : List (UInt64 × UInt64)

/-- The errors of the reader. -/
inductive ElfErr where
  | notElf (path : Str)
  | parse

/-- `b"\x7fELF"`. -/
def magic : Bytes := [0x7f, 'E'.toUInt8, 'L'.toUInt8, 'F'.toUInt8]

/-- `PT_NOTE`. -/
def ptNote : UInt32 := 4

def segType (pt : UInt32) : Str :=
  if pt = 1 then "load".toList
  else if pt = 7 then "tls".toList
  else if pt = 0x6474e551 then "stack".toList
  else if pt = 0x6474e552 then "relro".toList
  else if pt = 4 then "note".toList
  else if pt = 2 then "dynamic".toList
  else if pt = 3 then "interp".toList
  else "phdr[".toList ++ Nat.toDigits 10 pt.toNat ++ "]".toList

/-- The header fields the reader takes itself. -/
structure Header where
  is64 : Bool
  endian : Str
  eType : ℕ
  eMachine : ℕ
  eEntry : ℕ
  ePhentsize : ℕ
  ePhnum : ℕ
  eFlags : ℕ
  eEhsize : ℕ
  eShnum : ℕ
  eShstrndx : ℕ

/-- `u16::from_le_bytes([data[i], data[i + 1]])`. -/
def index16 (data : Bytes) (i : ℕ) : Except Abort ℕ := do
  let b₀ ← index data i
  let b₁ ← index data (i + 1)
  return fromLeBytes [b₀, b₁]

/-- The reads at fixed offsets, in the order of the source. -/
def readHeader (data : Bytes) : Except Abort Header := do
  let b₄ ← index data 4
  let is64 := b₄ == 2
  let eType ← index16 data 16
  let eMachine ← index16 data 18
  let entry ← slice data 24 (if is64 then 32 else 28)
  let ePhentsize ← index16 data 54
  let ePhnum ← index16 data 56
  let b₄₈ ← index data 48
  let b₄₉ ← index data 49
  let b₅₀ ← index data 50
  let b₅₁ ← index data 51
  let eEhsize ← index16 data 52
  let eShnum ← index16 data 60
  let eShstrndx ← index16 data 62
  let b₅ ← index data 5
  return { is64, eType, eMachine, ePhentsize, ePhnum, eEhsize, eShnum, eShstrndx,
           eEntry := fromLeBytes entry, eFlags := fromLeBytes [b₄₈, b₄₉, b₅₀, b₅₁],
           endian := if b₅ = 1 then "little".toList else "big".toList }

/-- The content of a segment. -/
def segmentContent (data : Bytes) (ph : ProgramHeader) : Except Abort (Option Bytes) :=
  let off := ph.pOffset.toNat
  if 0 < ph.pFilesz.toNat ∧ off < data.length then do
    let stop ← add off ph.pFilesz.toNat
    (slice data off (min stop data.length)).map some
  else .ok none

/-- The row of a segment. -/
def segment (data : Bytes) (ph : ProgramHeader) : Except Abort Segment := do
  let content ← segmentContent data ph
  return { typ := segType ph.pType, offset := ph.pOffset, vaddr := ph.pVaddr, filesz := ph.pFilesz,
           memsz := ph.pMemsz, r := if ph.pFlags &&& 4 ≠ 0 then 1 else 0,
           w := if ph.pFlags &&& 2 ≠ 0 then 1 else 0, x := if ph.pFlags &&& 1 ≠ 0 then 1 else 0,
           align := ph.pAlign, content }

/-! ## Notes -/

/-- The name or the descriptor of a note: `n` bytes at `cur`, if there are any and the file has
them. -/
def noteField (data : Bytes) (cur n : ℕ) : Except Abort (Option Bytes) :=
  if 0 < n then do
    let stop ← add cur n
    if stop ≤ data.length then (slice data cur stop).map some else .ok none
  else .ok none

/-- `(cur + n + 3) & !3`. -/
def alignPast (cur n : ℕ) : Except Abort ℕ := do
  let a ← add cur n
  let b ← add a 3
  return b / 4 * 4

/-- A word of a note's header: `data[start..stop]`. -/
def noteWord (data : Bytes) (start stop : ℕ) : Except Abort ℕ := do
  let bytes ← slice data start stop
  return fromLeBytes bytes

/-- One round of the loop over the notes: the note at `cur`, and where the next one begins. -/
def noteRound (data : Bytes) (cur : ℕ) : Except Abort (Note × ℕ) := do
  let p₄ ← add cur 4
  let namesz ← noteWord data cur p₄
  let p₈ ← add cur 8
  let descsz ← noteWord data p₄ p₈
  let p₁₂ ← add cur 12
  let typ ← noteWord data p₈ p₁₂
  let name ← noteField data p₁₂ namesz
  let curDesc ← alignPast p₁₂ namesz
  let desc ← noteField data curDesc descsz
  let next ← alignPast curDesc descsz
  return ({ typ := Nat.toDigits 10 typ, desc,
            name := fromUtf8Lossy ((name.getD []).takeWhile (· ≠ 0)) }, next)

/-- The loop over the notes of a header, for at most `fuel` rounds. -/
def noteLoop (data : Bytes) (stop : ℕ) : ℕ → ℕ → Except Abort (List Note)
  | 0, _ => .error .rounds
  | fuel + 1, cur => do
    let p ← add cur 12
    if p ≤ stop ∧ p ≤ data.length then do
      let (note, next) ← noteRound data cur
      let notes ← noteLoop data stop fuel next
      return note :: notes
    else return []

/-- The notes of one program header. The loop gets a round for each byte of the file and one more.
-/
def headerNotes (data : Bytes) (ph : ProgramHeader) : Except Abort (List Note) :=
  if ph.pType ≠ ptNote then .ok []
  else do
    let stop ← add ph.pOffset.toNat ph.pFilesz.toNat
    noteLoop data stop (data.length + 1) ph.pOffset.toNat

/-- The notes of all headers. -/
def readNotes (data : Bytes) (headers : List ProgramHeader) (noNotes : Bool) :
    Except Abort (List Note) :=
  if noNotes then .ok [] else (headers.mapM (headerNotes data)).map List.flatten

/-! ## Symbols and relocations -/

def symbol (strtab : Strtab) (sym : Sym) : Option Symbol :=
  let name := (strtab sym.stName).getD []
  if name = [] then none
  else
    let bind := sym.stInfo >>> 4
    let typ := sym.stInfo &&& 0xf
    let defined := if sym.stShndx ≠ 0 then 1 else 0
    some { name, version := none, value := sym.stValue, size := sym.stSize, defined,
           exported := if defined = 1 ∧ (bind = 1 ∨ bind = 2) then 1 else 0,
           typ := (if typ = 2 then "func" else if typ = 1 then "object" else if typ = 6 then "tls"
             else "other").toList,
           bind :=
             (if bind = 1 then "global" else if bind = 2 then "weak" else if bind = 0 then "local"
             else "other").toList }

/-- `R_X86_64_IRELATIVE`. -/
def relocType : UInt32 := 37

/-- The order of the relocations. -/
def relocLe (a b : UInt64 × UInt64) : Bool := a.1 < b.1 || a.1 == b.1 && a.2 ≤ b.2

/-- The relocations, sorted and without repetitions. -/
def relocations (elf : Parsed) : List (UInt64 × UInt64) :=
  let all := elf.shdrRelocs.flatMap (·.2) ++ elf.dynrelas ++ elf.pltrelocs
  let found := all.filterMap fun r =>
    if r.rType = relocType then some (r.rOffset, (r.rAddend.getD 0).toUInt64) else none
  (found.mergeSort relocLe).dedup

/-! ## The reader -/

/-- `parse_elf_bytes_inner`, with `goblin`'s parser. -/
def parseElfBytesInner (parse : Bytes → Option Parsed) (data : Bytes) (path : Str)
    (noSections noNotes : Bool) :
    Except Abort (Except ElfErr ElfInfo) :=
  if data.length < 4 ∨ data.take 4 ≠ magic then .ok (.error (.notElf path))
  else do
    let h ← readHeader data
    match parse data with
    | none => return .error .parse
    | some elf =>
      let segments ← elf.programHeaders.mapM (segment data)
      let notes ← readNotes data elf.programHeaders noNotes
      let sections := if noSections then [] else elf.sectionHeaders.map fun sh =>
        { name := (elf.shdrStrtab sh.shName).getD [], typ := sh.shType, offset := sh.shOffset,
          size := sh.shSize, flags := sh.shFlags }
      let dynamic := (elf.dynamic.getD []).map fun d => (d.1.toInt64, d.2)
      let symbols := if elf.dynsyms ≠ [] then elf.dynsyms.filterMap (symbol elf.dynstrtab)
        else elf.syms.filterMap (symbol elf.strtab)
      return .ok { data, is64 := h.is64, endian := h.endian, eType := h.eType,
                   eMachine := h.eMachine,
                   eEntry := h.eEntry, ePhnum := h.ePhnum, ePhentsize :=
                   h.ePhentsize, eShnum := h.eShnum,
                   eShstrndx := h.eShstrndx, eFlags := h.eFlags, eEhsize := h.eEhsize,
                   interp := elf.interpreter, segments, symbols, sections, notes,
                   dynamicEntries := dynamic, needed := elf.libraries, relocs := relocations elf }

/-! ## Checked operations that succeed -/

section Checked

variable {α β : Type} {x : Except Abort α} {f : α → Except Abort β} {data : Bytes}
  {a b i start stop : ℕ}

/-- The run returns. -/
def Succeeds (x : Except Abort α) : Prop := ∃ a, x = .ok a

/-- Two computations that succeed do so one after the other. -/
theorem succeeds_bind (hx : Succeeds x) (hf : ∀ a, Succeeds (f a)) : Succeeds (x >>= f) := by
  obtain ⟨a, rfl⟩ := hx
  exact hf a

/-- A sequence gives a value iff both computations do. -/
theorem bind_eq_ok {c : β} : (x >>= f) = .ok c ↔ ∃ a, x = .ok a ∧ f a = .ok c := by
  cases x with
  | error e => exact iff_of_false (by intro h; cases h) (by rintro ⟨a, h, -⟩; cases h)
  | ok a =>
    constructor
    · exact fun h => ⟨a, rfl, h⟩
    · rintro ⟨_, heq, h⟩
      cases heq
      exact h

/-- A value goes on. -/
theorem ok_bind (a : α) : ((.ok a : Except Abort α) >>= f) = f a := rfl

/-- A sum within 64 bits is the sum. -/
theorem add_ok (h : a + b < 2 ^ 64) : add a b = .ok (a + b) := if_pos h

/-- A sum is defined exactly within 64 bits. -/
theorem add_eq_ok {c : ℕ} : add a b = .ok c ↔ a + b < 2 ^ 64 ∧ a + b = c := by
  unfold add
  by_cases h : a + b < 2 ^ 64
  · rw [if_pos h, and_iff_right h, Except.ok.injEq]
  · rw [if_neg h]
    exact iff_of_false nofun fun hboth => h hboth.1

/-- An index within the data succeeds. -/
theorem index_ok (h : i < data.length) : Succeeds (index data i) := by
  unfold index
  rw [List.getElem?_eq_getElem h]
  exact ⟨_, rfl⟩

/-- An index beyond the data panics. -/
theorem index_abort (h : data.length ≤ i) : index data i = .error .index := by
  unfold index
  rw [List.getElem?_eq_none h]

/-- A slice within the data is the bytes between its ends. -/
theorem slice_ok (h : start ≤ stop) (hlen : stop ≤ data.length) :
    slice data start stop = .ok ((data.take stop).drop start) := if_pos ⟨h, hlen⟩

/-- Two bytes within the data can be read. -/
theorem index16_ok (h : i + 1 < data.length) : Succeeds (index16 data i) :=
  succeeds_bind (index_ok (by omega)) fun _ => succeeds_bind (index_ok h) fun _ => ⟨_, rfl⟩

/-- A word behind `start` is read when the file has it. -/
theorem noteWord_ok (data : Bytes) (h : start ≤ stop) (hlen : stop ≤ data.length) :
    noteWord data start stop = .ok (fromLeBytes ((data.take stop).drop start)) := by
  rw [noteWord, slice_ok h hlen]
  rfl

end Checked

/-! ## The header -/

section Headers

variable {data : Bytes}

/-- The reads at fixed offsets succeed on a file of 64 bytes. -/
theorem readHeader_ok (h : 64 ≤ data.length) : Succeeds (readHeader data) := by
  refine succeeds_bind (index_ok (by omega)) fun b₄ => ?_
  refine succeeds_bind (index16_ok (by omega)) fun _ => ?_
  refine succeeds_bind (index16_ok (by omega)) fun _ => ?_
  have hentry : Succeeds (slice data 24 (if b₄ == 2 then 32 else 28)) :=
    ⟨_, slice_ok (by split_ifs <;> omega) (by split_ifs <;> omega)⟩
  refine succeeds_bind hentry fun _ => ?_
  refine succeeds_bind (index16_ok (by omega)) fun _ => ?_
  refine succeeds_bind (index16_ok (by omega)) fun _ => ?_
  refine succeeds_bind (index_ok (by omega)) fun _ => ?_
  refine succeeds_bind (index_ok (by omega)) fun _ => ?_
  refine succeeds_bind (index_ok (by omega)) fun _ => ?_
  refine succeeds_bind (index_ok (by omega)) fun _ => ?_
  refine succeeds_bind (index16_ok (by omega)) fun _ => ?_
  refine succeeds_bind (index16_ok (by omega)) fun _ => ?_
  refine succeeds_bind (index16_ok (by omega)) fun _ => ?_
  exact succeeds_bind (index_ok (by omega)) fun _ => ⟨_, rfl⟩

/-- They succeed on no shorter file: the last field ends at byte 64. -/
theorem le_of_readHeader {hd : Header} (h : readHeader data = .ok hd) : 64 ≤ data.length := by
  simp only [readHeader, bind_eq_ok] at h
  obtain ⟨_, -, _, -, _, -, _, -, _, -, _, -, _, -, _, -, _, -, _, -, _, -, _, -, n₆₂, h₆₂, -⟩ := h
  simp only [index16, bind_eq_ok] at h₆₂
  obtain ⟨_, -, b₆₃, h₆₃, -⟩ := h₆₂
  by_contra hlt
  rw [index_abort (by omega)] at h₆₃
  cases h₆₃

end Headers

/-! ## Segments -/

section Segments

variable {data : Bytes} {ph : ProgramHeader}

/-- A segment whose end fits in a word: the bytes of the file from its offset to its end, or to the
end of the file. -/
theorem segmentContent_ok (h : 0 < ph.pFilesz.toNat → ph.pOffset.toNat < data.length →
    ph.pOffset.toNat + ph.pFilesz.toNat < 2 ^ 64) : Succeeds (segmentContent data ph) := by
  unfold segmentContent
  dsimp only
  split_ifs with hin
  · rw [add_ok (h hin.1 hin.2), ok_bind, slice_ok (by omega) (by omega)]
    exact ⟨_, rfl⟩
  · exact ⟨_, rfl⟩

/-- The content of a segment is the part of the file it names, when its end does not overflow. -/
theorem segmentContent_eq_ok {content : Option Bytes} (h : segmentContent data ph = .ok content) :
    (0 < ph.pFilesz.toNat → ph.pOffset.toNat < data.length →
      ph.pOffset.toNat + ph.pFilesz.toNat < 2 ^ 64) ∧
    ∀ c, content = some c →
      c = (data.take (min (ph.pOffset.toNat + ph.pFilesz.toNat) data.length)).drop
      ph.pOffset.toNat := by
  unfold segmentContent at h
  dsimp only at h
  split_ifs at h with hin
  · obtain ⟨stop, hadd, hslice⟩ := bind_eq_ok.1 h
    obtain ⟨hfit, rfl⟩ := add_eq_ok.1 hadd
    rw [slice_ok (by omega) (by omega)] at hslice
    refine ⟨fun _ _ => hfit, fun c hc => ?_⟩
    rw [hc] at hslice
    exact (Option.some.inj (Except.ok.inj hslice)).symm
  · obtain rfl : none = content := by simpa using h
    exact ⟨fun hpos hlt => absurd ⟨hpos, hlt⟩ hin, fun c hc => by simp at hc⟩

end Segments

/-! ## Notes -/

section Notes

variable {data : Bytes} {cur n stop : ℕ}

/-- A little-endian number is below the power of its length. -/
theorem fromLeBytes_lt (bytes : Bytes) : fromLeBytes bytes < 256 ^ bytes.length := by
  induction bytes with
  | nil => simp [fromLeBytes]
  | cons b bytes ih =>
    have hb := b.toNat_lt
    have hstep : fromLeBytes (b :: bytes) = b.toNat + 256 * fromLeBytes bytes := rfl
    rw [hstep, List.length_cons, Nat.pow_succ]
    omega

/-- A field of a note that does not overflow succeeds, within the data or not. -/
theorem noteField_ok (data : Bytes) (h : cur + n < 2 ^ 64) : Succeeds (noteField data cur n) := by
  unfold noteField
  split_ifs
  · rw [add_ok h]
    change Succeeds (if cur + n ≤ data.length then _ else _)
    split_ifs with hin
    · rw [slice_ok (by omega) hin]
      exact ⟨_, rfl⟩
    · exact ⟨_, rfl⟩
  · exact ⟨_, rfl⟩

/-- Within 64 bits the cursor goes to the next multiple of 4. -/
theorem alignPast_ok (h : cur + n + 3 < 2 ^ 64) :
    alignPast cur n = .ok ((cur + n + 3) / 4 * 4) := by
  rw [alignPast, add_ok (by omega)]
  change (add (cur + n) 3 >>= _) = _
  rw [add_ok h]
  rfl

/-- A round whose header lies in the file does not abort, and goes on behind that header, not
farther than the lengths in it reach. -/
theorem noteRound_ok (hlen : data.length < 2 ^ 63) (hin : cur + 12 ≤ data.length) :
    ∃ note next, noteRound data cur = .ok (note, next) ∧ cur + 12 ≤ next ∧ next + 12 < 2 ^ 64 := by
  have hword : ∀ k, cur + k + 4 ≤ data.length →
      fromLeBytes ((data.take (cur + k + 4)).drop (cur + k)) < 2 ^ 32 := by
    intro k hk
    have hbound := fromLeBytes_lt ((data.take (cur + k + 4)).drop (cur + k))
    have hsize : ((data.take (cur + k + 4)).drop (cur + k)).length = 4 := by
      rw [List.length_drop, List.length_take]
      omega
    rw [hsize] at hbound
    exact hbound
  have hname := hword 0 (by omega)
  have hdesc := hword 4 (by omega)
  rw [Nat.add_zero] at hname
  have hw₀ := noteWord_ok data (show cur ≤ cur + 4 by omega) (by omega)
  have hw₄ := noteWord_ok data (show cur + 4 ≤ cur + 8 by omega) (by omega)
  have hw₈ := noteWord_ok data (show cur + 8 ≤ cur + 12 by omega) (by omega)
  generalize fromLeBytes ((data.take (cur + 4)).drop cur) = namesz at hname hw₀
  generalize fromLeBytes ((data.take (cur + 8)).drop (cur + 4)) = descsz at hdesc hw₄
  generalize fromLeBytes ((data.take (cur + 12)).drop (cur + 8)) = typ at hw₈
  -- the name, the next multiple of 4, the descriptor, and again the next multiple of 4
  obtain ⟨name, hfield⟩ := noteField_ok data (show cur + 12 + namesz < 2 ^ 64 by omega)
  have halign := alignPast_ok (show cur + 12 + namesz + 3 < 2 ^ 64 by omega)
  have hmid : cur + 12 ≤ (cur + 12 + namesz + 3) / 4 * 4 ∧
      (cur + 12 + namesz + 3) / 4 * 4 ≤ cur + 12 + namesz + 3 := by omega
  generalize (cur + 12 + namesz + 3) / 4 * 4 = mid at halign hmid
  obtain ⟨desc, hfield'⟩ := noteField_ok data (show mid + descsz < 2 ^ 64 by omega)
  have halign' := alignPast_ok (show mid + descsz + 3 < 2 ^ 64 by omega)
  refine ⟨{ typ := Nat.toDigits 10 typ, desc, name := fromUtf8Lossy ((name.getD []).takeWhile
    (· ≠ 0)) },
    (mid + descsz + 3) / 4 * 4, ?_, by omega, by omega⟩
  rw [noteRound, add_ok (show cur + 4 < 2 ^ 64 by omega), ok_bind, hw₀, ok_bind,
    add_ok (show cur + 8 < 2 ^ 64 by omega), ok_bind, hw₄, ok_bind,
    add_ok (show cur + 12 < 2 ^ 64 by omega), ok_bind, hw₈, ok_bind, hfield, ok_bind,
    halign, ok_bind,
    hfield', ok_bind, halign', ok_bind]
  rfl

/-- The loop over the notes ends: each round goes on behind the header it read, and needs a header
inside the file. -/
theorem noteLoop_ok (hlen : data.length < 2 ^ 63) (fuel : ℕ) : ∀ {cur : ℕ}, cur + 12 < 2 ^ 64 →
    data.length < cur + fuel → 0 < fuel → Succeeds (noteLoop data stop fuel cur) := by
  induction fuel with
  | zero => intros; omega
  | succ fuel ih =>
    intro cur hcur hfuel _
    rw [noteLoop, add_ok hcur, ok_bind]
    split_ifs with hin
    · obtain ⟨note, next, hround, hle, hnext⟩ := noteRound_ok hlen hin.2
      rw [hround, ok_bind]
      exact succeeds_bind (ih hnext (by omega) (by omega)) fun _ => ⟨_, rfl⟩
    · exact ⟨_, rfl⟩

/-- The notes of a header are read exactly when the ends of its segment and of a first note fit in a
word. -/
theorem headerNotes_iff (hlen : data.length < 2 ^ 63) {ph : ProgramHeader} :
    Succeeds (headerNotes data ph) ↔ (ph.pType = ptNote →
      ph.pOffset.toNat + ph.pFilesz.toNat < 2 ^ 64 ∧ ph.pOffset.toNat + 12 < 2 ^ 64) := by
  unfold headerNotes
  by_cases htype : ph.pType = ptNote
  · rw [if_neg (not_not.2 htype)]
    constructor
    · rintro ⟨notes, h⟩ _
      obtain ⟨stop, hadd, hloop⟩ := bind_eq_ok.1 h
      rw [noteLoop] at hloop
      obtain ⟨p, hp, -⟩ := bind_eq_ok.1 hloop
      exact ⟨(add_eq_ok.1 hadd).1, (add_eq_ok.1 hp).1⟩
    · intro h
      rw [add_ok (h htype).1, ok_bind]
      exact noteLoop_ok hlen _ (h htype).2 (by omega) (by omega)
  · rw [if_pos htype]
    exact iff_of_true ⟨_, rfl⟩ fun h => absurd h htype

end Notes

/-! ## The reader -/

section Reader

variable {α β : Type} {f : α → Except Abort β}

/-- A loop over a list returns when every round does. -/
theorem mapM_succeeds {l : List α} : Succeeds (l.mapM f) ↔ ∀ a ∈ l, Succeeds (f a) := by
  induction l with
  | nil => simp [Succeeds, pure, Except.pure]
  | cons a l ih =>
    rw [List.mapM_cons, List.forall_mem_cons, ← ih]
    constructor
    · rintro ⟨_, h⟩
      obtain ⟨b, hb, h⟩ := bind_eq_ok.1 h
      obtain ⟨bs, hbs, -⟩ := bind_eq_ok.1 h
      exact ⟨⟨b, hb⟩, bs, hbs⟩
    · rintro ⟨hb, hbs⟩
      exact succeeds_bind hb fun _ => succeeds_bind hbs fun _ => ⟨_, rfl⟩

/-- Each result comes from an element. -/
theorem mem_of_mapM {l : List α} {bs : List β} (h : l.mapM f = .ok bs) :
    ∀ b ∈ bs, ∃ a ∈ l, f a = .ok b := by
  induction l generalizing bs with
  | nil =>
    obtain rfl : [] = bs := by simpa [pure, Except.pure] using h
    simp
  | cons a l ih =>
    rw [List.mapM_cons] at h
    obtain ⟨c, hc, h⟩ := bind_eq_ok.1 h
    obtain ⟨cs, hcs, h⟩ := bind_eq_ok.1 h
    obtain rfl : c :: cs = bs := by simpa [pure, Except.pure] using h
    intro b hb
    rcases List.mem_cons.1 hb with rfl | hb
    · exact ⟨a, by simp, hc⟩
    · obtain ⟨a', ha', hb'⟩ := ih hcs b hb
      exact ⟨a', by simp [ha'], hb'⟩

/-- The reader returns; where it returns a file, the content of each segment is the bytes from its
offset to its end, or to the end of the file. -/
def ReadsSafely (parse : Bytes → Option Parsed) (data : Slice) (path : Str)
    (noSections noNotes : Bool) :
    Prop :=
  ∃ result, parseElfBytesInner parse data.1 path noSections noNotes = .ok result ∧
    ∀ info, result = .ok info → ∀ seg ∈ info.segments, ∀ c, seg.content = some c →
      c = (data.1.take (min (seg.offset.toNat + seg.filesz.toNat) data.1.length)).drop
      seg.offset.toNat

/-- The files the reader copes with: they do not begin as ELF files do, or they have a whole header,
and no program header whose end, as far as it is computed, exceeds a word. -/
def Readable (parse : Bytes → Option Parsed) (data : Slice) (noNotes : Bool) : Prop :=
  4 ≤ data.1.length ∧ data.1.take 4 = magic → 64 ≤ data.1.length ∧
    ∀ elf, parse data.1 = some elf → ∀ ph ∈ elf.programHeaders,
      (0 < ph.pFilesz.toNat → ph.pOffset.toNat < data.1.length →
        ph.pOffset.toNat + ph.pFilesz.toNat < 2 ^ 64) ∧
      (noNotes = false → ph.pType = ptNote →
        ph.pOffset.toNat + ph.pFilesz.toNat < 2 ^ 64 ∧ ph.pOffset.toNat + 12 < 2 ^ 64)

/-- A segment is read iff the end of its content does not overflow. -/
theorem segment_succeeds {data : Bytes} {ph : ProgramHeader} : Succeeds (segment data ph) ↔
    (0 < ph.pFilesz.toNat → ph.pOffset.toNat < data.length →
      ph.pOffset.toNat + ph.pFilesz.toNat < 2 ^ 64) := by
  constructor
  · rintro ⟨seg, h⟩
    obtain ⟨content, hc, -⟩ := bind_eq_ok.1 h
    exact (segmentContent_eq_ok hc).1
  · intro h
    exact succeeds_bind (segmentContent_ok h) fun _ => ⟨_, rfl⟩

/-- The content of a segment is the part of the file it names, cut at the end of the file. -/
theorem segment_content {data : Bytes} {ph : ProgramHeader} {seg : Segment}
    (h : segment data ph = .ok seg) :
    ∀ c, seg.content = some c →
      c = (data.take (min (seg.offset.toNat + seg.filesz.toNat) data.length)).drop
      seg.offset.toNat := by
  obtain ⟨content, hc, hseg⟩ := bind_eq_ok.1 h
  cases hseg
  exact (segmentContent_eq_ok hc).2

/-- The notes are read iff neither the end of a note segment nor its first header overflows. -/
theorem readNotes_succeeds {data : Bytes} (hlen : data.length < 2 ^ 63)
    {headers : List ProgramHeader} {noNotes : Bool} :
    Succeeds (readNotes data headers noNotes) ↔ ∀ ph ∈ headers, noNotes = false →
      ph.pType = ptNote → ph.pOffset.toNat + ph.pFilesz.toNat < 2 ^ 64 ∧
      ph.pOffset.toNat + 12 < 2 ^ 64 := by
  cases noNotes with
  | true => exact iff_of_true ⟨_, rfl⟩ (by simp)
  | false =>
    have hmap : Succeeds (readNotes data headers false) ↔
    Succeeds (headers.mapM (headerNotes data)) := by
      rw [readNotes, if_neg (by simp)]
      cases headers.mapM (headerNotes data) with
      | error e => exact iff_of_false (by rintro ⟨_, h⟩; cases h) (by rintro ⟨_, h⟩; cases h)
      | ok notes => exact iff_of_true ⟨_, rfl⟩ ⟨_, rfl⟩
    rw [hmap, mapM_succeeds]
    simp only [headerNotes_iff hlen, forall_const]

/-- The reader copes with exactly the readable files. -/
theorem readsSafely_iff (parse : Bytes → Option Parsed) (data : Slice) (path : Str)
    (noSections noNotes : Bool) :
    ReadsSafely parse data path noSections noNotes ↔ Readable parse data noNotes := by
  unfold ReadsSafely Readable parseElfBytesInner
  -- Only data with the magic number gets to the parser.
  by_cases helf : 4 ≤ data.1.length ∧ data.1.take 4 = magic
  · rw [if_neg (by simp [helf.1, helf.2]), forall_prop_of_true helf]
    constructor
    · rintro ⟨result, hrun, -⟩
      obtain ⟨hd, hheader, hrun⟩ := bind_eq_ok.1 hrun
      refine ⟨le_of_readHeader hheader, fun elf hparse ph hph => ?_⟩
      rw [hparse] at hrun
      obtain ⟨segments, hsegs, hrun⟩ := bind_eq_ok.1 hrun
      obtain ⟨notes, hnotes, -⟩ := bind_eq_ok.1 hrun
      exact ⟨segment_succeeds.1 (mapM_succeeds.1 ⟨_, hsegs⟩ ph hph),
        (readNotes_succeeds data.2).1 ⟨_, hnotes⟩ ph hph⟩
    · rintro ⟨hlen, hheaders⟩
      obtain ⟨hd, hheader⟩ := readHeader_ok hlen
      rw [hheader, ok_bind]
      cases hparse : parse data.1 with
      | none => exact ⟨_, rfl, by simp⟩
      | some elf =>
        have hall := hheaders elf hparse
        obtain ⟨segments, hsegs⟩ := mapM_succeeds.2 fun ph hph => segment_succeeds.2 (hall ph hph).1
        obtain ⟨notes, hnotes⟩ := (readNotes_succeeds data.2).2 fun ph hph => (hall ph hph).2
        dsimp only
        rw [hsegs, ok_bind, hnotes, ok_bind]
        refine ⟨_, rfl, fun info hinfo seg hseg => ?_⟩
        cases hinfo
        obtain ⟨ph, -, hph⟩ := mem_of_mapM hsegs seg hseg
        exact segment_content hph
  · have hother : data.1.length < 4 ∨ data.1.take 4 ≠ magic := by
      rw [← Nat.not_le]
      exact not_and_or.1 helf
    rw [if_pos hother]
    exact iff_of_true ⟨_, rfl, by simp⟩ fun h => absurd h helf

/-- A file of the four magic bytes aborts at `data[4]`. -/
theorem not_readsSafely_magic : ¬ ∀ (parse : Bytes → Option Parsed) (data : Slice) (path : Str)
    (noSections noNotes : Bool), ReadsSafely parse data path noSections noNotes := by
  intro h
  have hread := (readsSafely_iff _ _ _ _ _).1 (h (fun _ => none) ⟨magic, by decide⟩ [] false false)
  exact absurd (hread ⟨by decide, rfl⟩).1 (by decide)

end Reader

end Dbvm.Elf
