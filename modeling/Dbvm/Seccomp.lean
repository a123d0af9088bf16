import Dbvm.Codec
import Dbvm.Lib.Bpf

/-!
# The system call filter

The filter of the sandbox (`seccomp` in `src/sandbox.rs`): a deny list, compiled to a classic BPF
program with hand-written jumps. `policy` says what the filter is for. `program_enforces` shows that
the bytes of `program` are a filter the kernel accepts and that it computes the policy, for the list
of the source and every other one.
-/

namespace Dbvm.Seccomp

open Lib Lib.Bpf

/-! ## The program -/

/-- `AUDIT_ARCH_X86_64`. -/
def auditArchX8664 : BitVec 32 := 0xC000003E#32

/-- `X32_SYSCALL_BIT`. -/
def x32SyscallBit : BitVec 32 := 0x40000000#32

/-- `RET_ALLOW`. -/
def retAllow : BitVec 32 := 0x7fff0000#32

/-- `RET_KILL_PROCESS`. -/
def retKillProcess : BitVec 32 := 0x80000000#32

/-- `RET_ERRNO`. -/
def retErrno : BitVec 32 := 0x00050000#32

/-- `LD_W_ABS`. -/
def ldWAbs : BitVec 16 := 0x20#16

/-- `JEQ_K`. -/
def jeqK : BitVec 16 := 0x15#16

/-- `JGE_K`. -/
def jgeK : BitVec 16 := 0x35#16

/-- `JSET_K`. -/
def jsetK : BitVec 16 := 0x45#16

/-- `RET_K`. -/
def retK : BitVec 16 := 0x06#16

/-- `OFF_NR`. -/
def offNr : BitVec 32 := 0#32

/-- `OFF_ARCH`. -/
def offArch : BitVec 32 := 4#32

/-- `OFF_ARG0_LO`. -/
def offArg0Lo : BitVec 32 := 16#32

/-- `CLONE_NS_FLAGS`. -/
def cloneNsFlags : BitVec 32 :=
  0x00020000#32 ||| 0x02000000#32 ||| 0x04000000#32 ||| 0x08000000#32 ||| 0x10000000#32 |||
    0x20000000#32 ||| 0x40000000#32 ||| 0x00000080#32

/-- `SYS_CLONE`. -/
def sysClone : BitVec 32 := 56#32

/-- `libc::EPERM`. -/
def EPERM : BitVec 32 := 1#32

/-- `libc::ENOSYS`. -/
def ENOSYS : BitVec 32 := 38#32

/-- An entry of a deny list. -/
structure Denied where
  /-- The number of the system call. -/
  nr : BitVec 32
  /-- Its name. -/
  name : String
  /-- The errno it is refused with. -/
  errno : BitVec 32

/-- `DENIED`. -/
def DENIED : List Denied :=
  [⟨103, "syslog", EPERM⟩, ⟨134, "uselib", EPERM⟩, ⟨153, "vhangup", EPERM⟩,
    ⟨155, "pivot_root", EPERM⟩,
    ⟨159, "adjtimex", EPERM⟩, ⟨163, "acct", EPERM⟩, ⟨164, "settimeofday", EPERM⟩,
    ⟨165, "mount", EPERM⟩,
    ⟨166, "umount2", EPERM⟩, ⟨167, "swapon", EPERM⟩, ⟨168, "swapoff", EPERM⟩,
    ⟨169, "reboot", EPERM⟩,
    ⟨172, "iopl", EPERM⟩, ⟨173, "ioperm", EPERM⟩, ⟨175, "init_module", EPERM⟩,
    ⟨176, "delete_module", EPERM⟩, ⟨179, "quotactl", EPERM⟩, ⟨212, "lookup_dcookie", EPERM⟩,
    ⟨227, "clock_settime", EPERM⟩, ⟨246, "kexec_load", EPERM⟩, ⟨248, "add_key", EPERM⟩,
    ⟨249, "request_key", EPERM⟩, ⟨250, "keyctl", EPERM⟩, ⟨272, "unshare", EPERM⟩,
    ⟨298, "perf_event_open", EPERM⟩, ⟨300, "fanotify_init", EPERM⟩,
    ⟨303, "name_to_handle_at", EPERM⟩,
    ⟨304, "open_by_handle_at", EPERM⟩, ⟨305, "clock_adjtime", EPERM⟩, ⟨308, "setns", EPERM⟩,
    ⟨313, "finit_module", EPERM⟩, ⟨320, "kexec_file_load", EPERM⟩, ⟨321, "bpf", EPERM⟩,
    ⟨323, "userfaultfd", EPERM⟩, ⟨425, "io_uring_setup", ENOSYS⟩, ⟨426, "io_uring_enter", ENOSYS⟩,
    ⟨427, "io_uring_register", ENOSYS⟩, ⟨428, "open_tree", EPERM⟩, ⟨429, "move_mount", EPERM⟩,
    ⟨430, "fsopen", EPERM⟩, ⟨431, "fsconfig", EPERM⟩, ⟨432, "fsmount", EPERM⟩,
    ⟨433, "fspick", EPERM⟩,
    ⟨435, "clone3", ENOSYS⟩, ⟨442, "mount_setattr", EPERM⟩, ⟨443, "quotactl_fd", EPERM⟩]

/-- A byte of a word. -/
def byteAt {w : ℕ} (x : BitVec w) (i : ℕ) : UInt8 := UInt8.ofBitVec ((x >>> (8 * i)).setWidth 8)

/-- The bytes of a word, the lowest one first: `to_ne_bytes` on x86_64. -/
def leBytes {w : ℕ} (n : ℕ) (x : BitVec w) : Bytes := (List.range n).map (byteAt x)

/-- `ins`. -/
def ins (code : BitVec 16) (jt jf : BitVec 8) (k : BitVec 32) : Bytes :=
  leBytes 2 code ++ leBytes 1 jt ++ leBytes 1 jf ++ leBytes 4 k

/-- The two instructions of an entry. -/
def insDenied (d : Denied) : List Bytes :=
  [ins jeqK 0 1 d.nr, ins retK 0 0 (retErrno ||| d.errno)]

/-- `program`, for a deny list. `x8664` is whether the target is x86_64. -/
def program (x8664 : Bool) (denied : List Denied) : Except String Bytes :=
  if !x8664 then
    .error "the sandbox syscall filter is defined for x86_64 only; refusing to run without it"
  else
    let p :=
      [ ins ldWAbs 0 0 offArch,
        -- another architecture's system calls
        ins jeqK 1 0 auditArchX8664,
        ins retK 0 0 retKillProcess,
        ins ldWAbs 0 0 offNr,
        -- the x32 ABI
        ins jgeK 0 1 x32SyscallBit,
        ins retK 0 0 (retErrno ||| ENOSYS)]
    let p := p ++ denied.flatMap insDenied
    let p := p ++
      [ ins jeqK 0 3 sysClone,
        -- `clone`, with a namespace flag
        ins ldWAbs 0 0 offArg0Lo,
        ins jsetK 0 1 cloneNsFlags,
        ins retK 0 0 (retErrno ||| EPERM),
        ins retK 0 0 retAllow]
    .ok p.flatten

/-! ## The data of a call -/

/-- `struct seccomp_data`. -/
structure SeccompData where
  /-- The number of the system call. -/
  nr : BitVec 32
  /-- The architecture. -/
  arch : BitVec 32
  /-- Where the call was made. -/
  instructionPointer : BitVec 64
  /-- Its arguments. -/
  args : Fin 6 → BitVec 64

/-- The structure in memory. -/
def SeccompData.bytes (data : SeccompData) : Bytes :=
  leBytes 4 data.nr ++ leBytes 4 data.arch ++ leBytes 8 data.instructionPointer ++
    (List.finRange 6).flatMap fun i => leBytes 8 (data.args i)

/-- The word of the structure at an offset. -/
def SeccompData.load (data : SeccompData) (off : ℕ) : Option (BitVec 32) :=
  match data.bytes.drop off with
  | b₀ :: b₁ :: b₂ :: b₃ :: _ => some (word32 b₀ b₁ b₂ b₃)
  | _ => none

/-- The word a filter returns for a call, `none` if the kernel refuses the filter or it does not
return. -/
def runFilter (filter : Bytes) (data : SeccompData) : Option (BitVec 32) :=
  (attach data.bytes.length filter).bind fun prog => eval data.load prog 0#32

/-! ## The policy -/

/-- What a filter decides. -/
inductive Action where
  /-- The call is made. -/
  | allow
  /-- The process is killed. -/
  | killProcess
  /-- The call fails with this errno. -/
  | errno (e : BitVec 32)
deriving DecidableEq

/-- The word that stands for a decision. -/
def Action.word : Action → BitVec 32
  | .allow => retAllow
  | .killProcess => retKillProcess
  | .errno e => retErrno ||| e

/-- What the kernel takes a word for: the action in its upper half, the errno in the lower one. -/
def actionOf (w : BitVec 32) : Option Action :=
  let action := w &&& 0xffff0000#32
  if action = retAllow then some .allow
  else if action = retKillProcess then some .killProcess
  else if action = retErrno then some (.errno (w &&& 0x0000ffff#32))
  else none

/-- The flags of `clone` that make a namespace: `CLONE_NEWNS`, `CLONE_NEWCGROUP`, `CLONE_NEWUTS`,
`CLONE_NEWIPC`, `CLONE_NEWUSER`, `CLONE_NEWPID`, `CLONE_NEWNET` and `CLONE_NEWTIME`. -/
def cloneNewFlags : List (BitVec 32) :=
  [0x00020000, 0x02000000, 0x04000000, 0x08000000, 0x10000000, 0x20000000, 0x40000000, 0x00000080]

/-- The call is a `clone` with a flag that makes a namespace. -/
def SeccompData.clonesNamespace (data : SeccompData) : Bool :=
  data.nr = 56#32 && cloneNewFlags.any fun flag => (data.args 0).setWidth 32 &&& flag ≠ 0#32

/-- What the sandbox allows. -/
def policy (denied : List Denied) (data : SeccompData) : Action :=
  if data.arch ≠ auditArchX8664 then .killProcess
  else if 0x40000000 ≤ data.nr.toNat then .errno ENOSYS
  else match denied.find? fun d => d.nr = data.nr with
    | some d => .errno d.errno
    | none => if data.clonesNamespace then .errno EPERM else .allow

/-! ## Words and bytes -/

/-! ## Words and bytes -/

/-- The bits of a byte of a word are bits of the word. -/
theorem getLsbD_byteAt {w : ℕ} (x : BitVec w) (i j : ℕ) :
    (byteAt x i).toBitVec.getLsbD j = (decide (j < 8) && x.getLsbD (8 * i + j)) := by
  simp [byteAt]

/-- Two bytes of a word are its low half-word. -/
theorem word16_byteAt {w : ℕ} (x : BitVec w) :
    word16 (byteAt x 0) (byteAt x 1) = x.setWidth 16 := by
  apply BitVec.eq_of_getLsbD_eq
  intro i hi
  simp only [word16, BitVec.getLsbD_append, getLsbD_byteAt, BitVec.getLsbD_setWidth]
  split_ifs with h₀
  · simp [h₀, hi]
  · have hlt : i - 8 < 8 := by omega
    have hadd : 8 * 1 + (i - 8) = i := by omega
    simp [hlt, hi, hadd]

/-- Four bytes of a word are its low word. -/
theorem word32_byteAt {w : ℕ} (x : BitVec w) :
    word32 (byteAt x 0) (byteAt x 1) (byteAt x 2) (byteAt x 3) = x.setWidth 32 := by
  apply BitVec.eq_of_getLsbD_eq
  intro i hi
  simp only [word32, BitVec.getLsbD_append, getLsbD_byteAt, BitVec.getLsbD_setWidth]
  split_ifs with h₀ h₁ h₂
  · simp [h₀, hi]
  · have hadd : 8 * 1 + (i - 8) = i := by omega
    simp [h₁, hi, hadd]
  · have hadd : 8 * 2 + (i - 8 - 8) = i := by omega
    simp [h₂, hi, hadd]
  · have hlt : i - 8 - 8 - 8 < 8 := by omega
    have hadd : 8 * 3 + (i - 8 - 8 - 8) = i := by omega
    simp [hlt, hi, hadd]

/-- Eight bytes of the program decode to their instruction. -/
theorem decode_ins (code : BitVec 16) (jt jf : BitVec 8) (k : BitVec 32) (rest : Bytes) :
    decode (ins code jt jf k ++ rest) = (decode rest).map (⟨code, jt, jf, k⟩ :: ·) := by
  have hbyte : ∀ x : BitVec 8, (byteAt x 0).toBitVec = x := by
    intro x
    simp [byteAt]
  show Option.map (⟨word16 (byteAt code 0) (byteAt code 1), (byteAt jt 0).toBitVec,
    (byteAt jf 0).toBitVec,
    word32 (byteAt k 0) (byteAt k 1) (byteAt k 2) (byteAt k 3)⟩ :: ·) (decode rest) = _
  rw [word16_byteAt, word32_byteAt, hbyte, hbyte, BitVec.setWidth_eq, BitVec.setWidth_eq]

/-- The structure that a filter reads has 64 bytes. -/
theorem SeccompData.length_bytes (data : SeccompData) : data.bytes.length = 64 := by
  simp [SeccompData.bytes, leBytes, List.length_flatMap]

/-- The number of the call is at `OFF_NR`. -/
theorem SeccompData.load_nr (data : SeccompData) : data.load offNr.toNat = some data.nr := by
  show some (word32 (byteAt data.nr 0) (byteAt data.nr 1) (byteAt data.nr 2) (byteAt data.nr 3)) = _
  rw [word32_byteAt, BitVec.setWidth_eq]

/-- The architecture is at `OFF_ARCH`. -/
theorem SeccompData.load_arch (data : SeccompData) : data.load offArch.toNat = some data.arch := by
  show some (word32 (byteAt data.arch 0) (byteAt data.arch 1) (byteAt data.arch 2)
    (byteAt data.arch 3)) = _
  rw [word32_byteAt, BitVec.setWidth_eq]

/-- The low word of the first argument is at `OFF_ARG0_LO`. -/
theorem SeccompData.load_arg0 (data : SeccompData) :
    data.load offArg0Lo.toNat = some ((data.args 0).setWidth 32) := by
  show some (word32 (byteAt (data.args 0) 0) (byteAt (data.args 0) 1) (byteAt (data.args 0) 2)
    (byteAt (data.args 0) 3)) = _
  rw [word32_byteAt]

/-! ## The instructions of the program -/

/-- The instructions of an entry. -/
def deniedInsns (d : Denied) : List Insn := [⟨jeqK, 0, 1, d.nr⟩, ⟨retK, 0, 0, retErrno ||| d.errno⟩]

/-- What follows the deny list. -/
def cloneInsns : List Insn :=
  [⟨jeqK, 0, 3, sysClone⟩, ⟨ldWAbs, 0, 0, offArg0Lo⟩, ⟨jsetK, 0, 1, cloneNsFlags⟩,
    ⟨retK, 0, 0, retErrno ||| EPERM⟩, ⟨retK, 0, 0, retAllow⟩]

/-- The instructions of a program. -/
def insns (denied : List Denied) : List Insn :=
  [⟨ldWAbs, 0, 0, offArch⟩, ⟨jeqK, 1, 0, auditArchX8664⟩, ⟨retK, 0, 0, retKillProcess⟩,
    ⟨ldWAbs, 0, 0, offNr⟩, ⟨jgeK, 0, 1, x32SyscallBit⟩, ⟨retK, 0, 0, retErrno ||| ENOSYS⟩] ++
    (denied.flatMap deniedInsns ++ cloneInsns)

/-- The filter has 11 instructions and two for each denied call. -/
theorem length_insns (denied : List Denied) : (insns denied).length = 11 + 2 * denied.length := by
  have hdenied : (denied.flatMap deniedInsns).length = 2 * denied.length := by
    induction denied with
    | nil => rfl
    | cons d ds ih =>
      rw [List.flatMap_cons, List.length_append, ih, List.length_cons]
      show 2 + 2 * ds.length = _
      omega
  unfold insns
  rw [List.length_append, List.length_append, hdenied]
  show 6 + (2 * denied.length + 5) = _
  omega

/-- The bytes of instructions decode to them. -/
theorem decode_flatten (prog : List Insn) :
    decode (prog.map fun i => ins i.code i.jt i.jf i.k).flatten = some prog := by
  induction prog with
  | nil => rfl
  | cons i prog ih => rw [List.map_cons, List.flatten_cons, decode_ins, ih, Option.map_some]

/-- The program holds the bytes of its instructions. -/
theorem program_eq (denied : List Denied) :
    program true denied = .ok ((insns denied).map fun i => ins i.code i.jt i.jf i.k).flatten := by
  have hdenied : denied.flatMap insDenied =
      (denied.flatMap deniedInsns).map fun i => ins i.code i.jt i.jf i.k := by
    rw [List.map_flatMap]
    rfl
  unfold program insns
  rw [hdenied, List.map_append, List.map_append, ← List.append_assoc]
  rfl

/-! ## The kernel accepts it -/

/-- The deny list and what follows it pass the kernel's check. -/
theorem check_denied (size : ℕ) (denied : List Denied) {tail : List Insn} (htail : 2 ≤ tail.length)
    (hcheck : check size tail = true) : check size (denied.flatMap deniedInsns ++ tail) = true := by
  induction denied with
  | nil => exact hcheck
  | cons d ds ih =>
    -- the jump over the return of an entry lands on the next entry or on the tail
    have hlength : 2 ≤ (ds.flatMap deniedInsns ++ tail).length := by
      rw [List.length_append]
      omega
    rw [List.flatMap_cons, List.append_assoc]
    generalize ds.flatMap deniedInsns ++ tail = rest at ih hlength
    match rest with
    | i :: rest =>
      show (Insn.ok size (rest.length + 2) ⟨jeqK, 0, 1, d.nr⟩ &&
        (Insn.ok size (rest.length + 1) ⟨retK, 0, 0, retErrno ||| d.errno⟩ && check size
          (i :: rest))) = true
      rw [ih]
      simp [Insn.ok, jeqK, retK, Lib.Bpf.retK, Lib.Bpf.ldWAbs, Lib.Bpf.jeqK]

/-- The kernel accepts a program that is not too long. -/
theorem attach_program {denied : List Denied} (hlength : 11 + 2 * denied.length ≤ maxInsns) :
    attach 64 ((insns denied).map fun i => ins i.code i.jt i.jf i.k).flatten = some
    (insns denied) := by
  have hcheck : check 64 (insns denied) = true := by
    have hrest : check 64 (denied.flatMap deniedInsns ++ cloneInsns) = true :=
      check_denied 64 denied (by decide) (by decide)
    have hlength : 0 < (denied.flatMap deniedInsns ++ cloneInsns).length := by
      rw [List.length_append]
      exact Nat.lt_of_lt_of_le (show 0 < 5 by decide) (Nat.le_add_left _ _)
    unfold insns
    generalize denied.flatMap deniedInsns ++ cloneInsns = rest at hrest hlength
    match rest with
    | i :: rest =>
      simp only [List.cons_append, List.nil_append, check, hrest]
      simp [Insn.ok, jeqK, jgeK, retK, ldWAbs, offArch, offNr, Lib.Bpf.retK, Lib.Bpf.ldWAbs,
        Lib.Bpf.jeqK,
        Lib.Bpf.jgeK]
  unfold attach
  rw [decode_flatten]
  exact if_pos ⟨by rw [length_insns]; exact hlength, hcheck⟩

/-! ## What it computes -/

variable {load : ℕ → Option (BitVec 32)}

/-- An entry refuses its number and passes every other one on. -/
theorem eval_deniedInsns (d : Denied) (rest : List Insn) (nr : BitVec 32) :
    eval load (deniedInsns d ++ rest) nr =
      if d.nr = nr then some (retErrno ||| d.errno) else eval load rest nr := by
  show eval load (⟨Lib.Bpf.jeqK, 0, 1, d.nr⟩ :: ⟨Lib.Bpf.retK, 0, 0, retErrno ||| d.errno⟩ :: rest)
    nr = _
  rw [eval_jeq]
  by_cases h : nr = d.nr
  · rw [if_pos h, if_pos h.symm]
    exact eval_ret _ _ _ _ _
  · rw [if_neg h, if_neg (Ne.symm h)]
    rfl

/-- The deny list: the first entry of the number decides, what follows the list otherwise. The
induction is on the list, along which the accumulator stays the number. -/
theorem eval_denied (denied : List Denied) (tail : List Insn) (nr : BitVec 32) :
    eval load (denied.flatMap deniedInsns ++ tail) nr =
      match denied.find? fun d => d.nr = nr with
      | some d => some (retErrno ||| d.errno)
      | none => eval load tail nr := by
  induction denied with
  | nil => rfl
  | cons d ds ih =>
    rw [List.flatMap_cons, List.append_assoc, eval_deniedInsns, List.find?_cons]
    by_cases h : d.nr = nr
    · simp [h]
    · simp [h, ih]

/-- A word has a bit of a union of flags just if it has a bit of one of them. -/
theorem and_foldr_ne_zero (x : BitVec 32) (flags : List (BitVec 32)) :
    x &&& flags.foldr (· ||| ·) 0#32 ≠ 0#32 ↔ ∃ flag ∈ flags, x &&& flag ≠ 0#32 := by
  induction flags with
  | nil => simp
  | cons flag flags ih =>
    rw [List.foldr_cons, BitVec.and_or_distrib_left, List.exists_mem_cons_iff, ← ih, Ne,
      BitVec.or_eq_zero_iff,
      not_and_or]

/-- What follows the deny list: `clone` is refused with a flag that makes a namespace. -/
theorem eval_cloneInsns (data : SeccompData) :
    eval data.load cloneInsns data.nr =
      some (if data.clonesNamespace then retErrno ||| EPERM else retAllow) := by
  show eval data.load [⟨Lib.Bpf.jeqK, 0, 3, sysClone⟩, ⟨Lib.Bpf.ldWAbs, 0, 0, offArg0Lo⟩,
    ⟨Lib.Bpf.jsetK, 0, 1, cloneNsFlags⟩, ⟨Lib.Bpf.retK, 0, 0, retErrno ||| EPERM⟩,
    ⟨Lib.Bpf.retK, 0, 0, retAllow⟩] data.nr = _
  have hflags : ((data.args 0).setWidth 32 &&& cloneNsFlags ≠ 0#32) ↔
      ∃ flag ∈ cloneNewFlags, (data.args 0).setWidth 32 &&& flag ≠ 0#32 := by
    rw [← and_foldr_ne_zero]
    have hunion : cloneNsFlags = cloneNewFlags.foldr (· ||| ·) 0#32 := by decide
    rw [hunion]
  -- The jumps in their order: another call is allowed, and `clone` is by its flags.
  rw [eval_jeq]
  by_cases hclone : data.nr = sysClone
  · rw [if_pos hclone]
    show eval data.load (⟨Lib.Bpf.ldWAbs, 0, 0, offArg0Lo⟩ :: _) data.nr = _
    rw [eval_ld data.load_arg0, eval_jset]
    by_cases hflag : (data.args 0).setWidth 32 &&& cloneNsFlags ≠ 0#32
    · have hns : data.clonesNamespace = true := by
        simpa [SeccompData.clonesNamespace, show data.nr = 56#32 from hclone] using hflags.1 hflag
      rw [if_pos hflag, hns]
      exact eval_ret _ _ _ _ _
    · have hns : data.clonesNamespace = false := by
        simpa [SeccompData.clonesNamespace, show data.nr = 56#32 from hclone] using mt
          hflags.2 hflag
      rw [if_neg hflag, hns]
      exact eval_ret _ _ _ _ _
  · have hns : data.clonesNamespace = false := by
      simp [SeccompData.clonesNamespace, show ¬ data.nr = 56#32 from hclone]
    rw [if_neg hclone, hns]
    exact eval_ret _ _ _ _ _

/-- The program computes the policy. -/
theorem eval_insns (denied : List Denied) (data : SeccompData) :
    eval data.load (insns denied) 0#32 = some (policy denied data).word := by
  unfold insns policy
  show eval data.load (⟨Lib.Bpf.ldWAbs, 0, 0, offArch⟩ :: ⟨Lib.Bpf.jeqK, 1, 0, auditArchX8664⟩ ::
    ⟨Lib.Bpf.retK, 0, 0, retKillProcess⟩ :: ⟨Lib.Bpf.ldWAbs, 0, 0, offNr⟩ ::
    ⟨Lib.Bpf.jgeK, 0, 1, x32SyscallBit⟩ :: ⟨Lib.Bpf.retK, 0, 0, retErrno ||| ENOSYS⟩ ::
    (denied.flatMap deniedInsns ++ cloneInsns)) 0#32 = _
  rw [eval_ld data.load_arch, eval_jeq]
  by_cases harch : data.arch = auditArchX8664
  · rw [if_pos harch, if_neg (not_not.2 harch)]
    show eval data.load (⟨Lib.Bpf.ldWAbs, 0, 0, offNr⟩ :: _) data.arch = _
    rw [eval_ld data.load_nr, eval_jge]
    by_cases hx32 : 0x40000000 ≤ data.nr.toNat
    · rw [if_pos (show x32SyscallBit.toNat ≤ _ from hx32), if_pos hx32]
      exact eval_ret _ _ _ _ _
    · rw [if_neg (show ¬ x32SyscallBit.toNat ≤ _ from hx32), if_neg hx32]
      show eval data.load (denied.flatMap deniedInsns ++ cloneInsns) data.nr = _
      rw [eval_denied]
      cases denied.find? fun d => d.nr = data.nr with
      | some d => rfl
      | none =>
        show eval data.load cloneInsns data.nr = _
        rw [eval_cloneInsns]
        cases data.clonesNamespace <;> rfl
  · rw [if_neg harch, if_pos harch]
    exact eval_ret _ _ _ _ _

/-! ## The filter and its policy -/

/-- The kernel reads the words of the decisions as they are meant, if the errno fits into the
half-word that is for it. -/
theorem actionOf_word {a : Action} (ha : ∀ e, a = .errno e → e &&& 0xffff0000#32 = 0#32) :
    actionOf a.word = some a := by
  cases a with
  | allow => decide
  | killProcess => decide
  | errno e =>
    have hhigh := ha e rfl
    have haction : (retErrno ||| e) &&& 0xffff0000#32 = retErrno := by
      rw [BitVec.and_comm, BitVec.and_or_distrib_left, BitVec.and_comm _ e, hhigh]
      decide
    have hlow : (retErrno ||| e) &&& 0x0000ffff#32 = e := by
      have hsplit : e = (e &&& 0xffff0000#32) ||| (e &&& 0x0000ffff#32) := by
        rw [← BitVec.and_or_distrib_left]
        exact BitVec.and_allOnes.symm
      rw [BitVec.and_comm, BitVec.and_or_distrib_left, BitVec.and_comm _ e]
      rw [hhigh] at hsplit
      rw [show 0x0000ffff#32 &&& retErrno = 0#32 by decide]
      exact hsplit.symm
    show actionOf (retErrno ||| e) = _
    unfold actionOf
    rw [haction, hlow]
    rfl

/-- An errno of the policy is one the program is written with or that of an entry. -/
theorem errno_of_policy {denied : List Denied} {data : SeccompData} {e : BitVec 32}
    (h : policy denied data = .errno e) : e = ENOSYS ∨ e = EPERM ∨ ∃ d ∈ denied, d.errno = e := by
  unfold policy at h
  cases hd : denied.find? (fun d => d.nr = data.nr) with
  | some d =>
    rw [hd] at h
    dsimp only at h
    split_ifs at h
    · exact Or.inl (Action.errno.inj h).symm
    · exact Or.inr (Or.inr ⟨d, List.mem_of_find?_eq_some hd, Action.errno.inj h⟩)
  | none =>
    rw [hd] at h
    dsimp only at h
    split_ifs at h
    · exact Or.inl (Action.errno.inj h).symm
    · exact Or.inr (Or.inl (Action.errno.inj h).symm)

/-- The program of a deny list that leaves it within the kernel's limit is a filter the kernel
accepts, and for every call it returns the word of the policy. The kernel then does what the policy
says, if each errno of the list fits into the half-word that is for it. -/
theorem program_enforces {denied : List Denied} (hlength : 11 + 2 * denied.length ≤ maxInsns) :
    ∃ filter, program true denied = .ok filter ∧ ∀ data, ∃ w, runFilter filter data = some w ∧
      w = (policy denied data).word ∧
      ((∀ d ∈ denied, d.errno &&& 0xffff0000#32 = 0#32) →
        actionOf w = some (policy denied data)) := by
  refine ⟨_, program_eq denied, ?_⟩
  intro data
  refine ⟨_, ?_, rfl, ?_⟩
  · unfold runFilter
    rw [data.length_bytes, attach_program hlength]
    exact eval_insns denied data
  · intro herrno
    apply actionOf_word
    intro e he
    obtain rfl | rfl | ⟨d, hd, rfl⟩ := errno_of_policy he
    · decide
    · decide
    · exact herrno d hd

/-- The filter of the sandbox enforces its list. -/
theorem program_enforces_denied :
    ∃ filter, program true DENIED = .ok filter ∧
      ∀ data, ∃ w, runFilter filter data = some w ∧ actionOf w = some (policy DENIED data) := by
  have hlength : 11 + 2 * DENIED.length ≤ maxInsns := by decide
  obtain ⟨filter, hfilter, hrun⟩ := program_enforces hlength
  refine ⟨filter, hfilter, ?_⟩
  intro data
  obtain ⟨w, hw, -, haction⟩ := hrun data
  exact ⟨w, hw, haction (by decide)⟩

end Dbvm.Seccomp
