/-
# The filter machine (`bpf.h`, `scmp_bpf_sim.c`)

A compiled filter is a list of BPF instructions in the byte order of the target.  It
is run on `struct seccomp_data`, whose 32-bit words it loads into the accumulator;
64-bit members are laid out in the byte order of the target as well.  The machine is
the one of the simulator that comes with the library (`bpf_execute`); a load has to
be aligned, as the kernel demands.
-/
import Draco.Lib.LabelledCode
import Mathlib.Data.Nat.Notation
import Mathlib.Tactic.IntervalCases

namespace Draco

open LabelledCode

/-! ## Byte order -/

/-- The byte orders of `struct arch_def`. -/
inductive ArchEndian where
  | little
  | big
  deriving DecidableEq, Repr

/-- The bytes of a 16-bit number in the other order. -/
def byteSwap16 (v : UInt16) : UInt16 := (v <<< 8) ||| (v >>> 8)

/-- The bytes of a 32-bit number in the other order. -/
def byteSwap32 (v : UInt32) : UInt32 :=
  (v <<< 24) ||| ((v &&& (0xff00 : UInt32)) <<< 8) ||| ((v >>> 8) &&& (0xff00 : UInt32)) |||
    (v >>> 24)

/-- Swapping the bytes of a half word moves bit `i` to the other byte. -/
theorem getLsbD_byteSwap16 (v : UInt16) {i : ℕ} (hi : i < 16) :
    (byteSwap16 v).toBitVec.getLsbD i = v.toBitVec.getLsbD (i % 8 + (8 - i / 8 * 8)) := by
  interval_cases i <;> simp [byteSwap16]

/-- Swapping the bytes of a word mirrors the bytes and keeps the bits within each. -/
theorem getLsbD_byteSwap32 (v : UInt32) {i : ℕ} (hi : i < 32) :
    (byteSwap32 v).toBitVec.getLsbD i = v.toBitVec.getLsbD (i % 8 + (24 - i / 8 * 8)) := by
  interval_cases i <;> simp [byteSwap32]

@[simp] theorem byteSwap16_byteSwap16 (v : UInt16) : byteSwap16 (byteSwap16 v) = v := by
  apply UInt16.toBitVec_inj.mp
  apply BitVec.eq_of_getLsbD_eq
  intro i hi
  rw [getLsbD_byteSwap16 _ hi, getLsbD_byteSwap16 _ (by omega)]
  congr 1
  omega

/-- Swapping twice gives the word back. -/
@[simp] theorem byteSwap32_byteSwap32 (v : UInt32) : byteSwap32 (byteSwap32 v) = v := by
  apply UInt32.toBitVec_inj.mp
  apply BitVec.eq_of_getLsbD_eq
  intro i hi
  rw [getLsbD_byteSwap32 _ hi, getLsbD_byteSwap32 _ (by omega)]
  congr 1
  omega

/-- `_htot16` on a host with byte order `host`. -/
def htot16 (host target : ArchEndian) (v : UInt16) : UInt16 :=
  if target = host then v else byteSwap16 v

/-- `_htot32` -/
def htot32 (host target : ArchEndian) (v : UInt32) : UInt32 :=
  if target = host then v else byteSwap32 v

/-- `ttoh16` -/
def ttoh16 (host target : ArchEndian) (v : UInt16) : UInt16 :=
  if target = host then v else byteSwap16 v

/-- `ttoh32` -/
def ttoh32 (host target : ArchEndian) (v : UInt32) : UInt32 :=
  if target = host then v else byteSwap32 v

@[simp] theorem ttoh16_htot16 (host target : ArchEndian) (v : UInt16) :
    ttoh16 host target (htot16 host target v) = v := by
  unfold ttoh16 htot16
  split <;> simp

/-- A word read on the target's order is the one that was written for it. -/
@[simp] theorem ttoh32_htot32 (host target : ArchEndian) (v : UInt32) :
    ttoh32 host target (htot32 host target v) = v := by
  unfold ttoh32 htot32
  split <;> simp

/-- A second conversion undoes the first. -/
@[simp] theorem htot32_htot32 (host target : ArchEndian) (v : UInt32) :
    htot32 host target (htot32 host target v) = v :=
  ttoh32_htot32 host target v

/-! ## `struct seccomp_data` -/

/-- `struct seccomp_data`, with the architecture token of the kernel. -/
structure BpfData where
  nr : UInt32
  arch : UInt32
  instructionPointer : UInt64
  args : Fin 6 → UInt64

/-- `D64_LO` -/
def d64Lo (x : UInt64) : UInt32 := x.toUInt32

/-- `D64_HI` -/
def d64Hi (x : UInt64) : UInt32 := (x >>> 32).toUInt32

/-- The word of a 64-bit member that comes first in memory, and the other one. -/
def halves (target : ArchEndian) (x : UInt64) : UInt32 × UInt32 :=
  match target with
  | .little => (d64Lo x, d64Hi x)
  | .big => (d64Hi x, d64Lo x)

/-- `BPF_SYSCALL_MAX` -/
abbrev BPF_SYSCALL_MAX : UInt32 := 64

/-- `offsetof(struct seccomp_data, nr)` -/
abbrev BPF_OFFSET_SYSCALL : UInt32 := 0

/-- `offsetof(struct seccomp_data, arch)` -/
abbrev BPF_OFFSET_ARCH : UInt32 := 4

/-- The loads that the kernel accepts: of an aligned word of the structure. -/
def LoadValid (k : UInt32) : Prop := k < BPF_SYSCALL_MAX ∧ k % 4 = 0

instance (k : UInt32) : Decidable (LoadValid k) := inferInstanceAs (Decidable (_ ∧ _))

/-- The word at byte offset `k`. -/
def BpfData.word (target : ArchEndian) (d : BpfData) (k : UInt32) : UInt32 :=
  match k.toNat / 4 with
  | 0 => d.nr
  | 1 => d.arch
  | 2 => (halves target d.instructionPointer).1
  | 3 => (halves target d.instructionPointer).2
  | n + 4 =>
    let x := if h : n / 2 < 6 then d.args ⟨n / 2, h⟩ else 0
    if n % 2 = 0 then (halves target x).1 else (halves target x).2

/-! ## Instructions -/

abbrev BPF_LD_ABS : UInt16 := 0x20
abbrev BPF_ALU_OR : UInt16 := 0x44
abbrev BPF_ALU_AND : UInt16 := 0x54
abbrev BPF_JMP_JA : UInt16 := 0x05
abbrev BPF_JMP_JEQ : UInt16 := 0x15
abbrev BPF_JMP_JGT : UInt16 := 0x25
abbrev BPF_JMP_JGE : UInt16 := 0x35
abbrev BPF_RET : UInt16 := 0x06

/-- `bpf_instr_raw` -/
structure BpfInstrRaw where
  code : UInt16
  jt : UInt8
  jf : UInt8
  k : UInt32
  deriving DecidableEq, Repr

/-- One turn of the loop of `bpf_execute`; a fault has no meaning. -/
def bpfStep (host target : ArchEndian) (d : BpfData) (bpf : BpfInstrRaw) (acc : UInt32) :
    RawEffect UInt32 UInt32 :=
  let code := ttoh16 host target bpf.code
  let k := ttoh32 host target bpf.k
  if code = BPF_LD_ABS then
    if LoadValid k then .next (d.word target k) else .stuck
  else if code = BPF_ALU_OR then .next (acc ||| k)
  else if code = BPF_ALU_AND then .next (acc &&& k)
  else if code = BPF_JMP_JA then .skip k.toNat acc
  else if code = BPF_JMP_JEQ then
    .skip (if acc = k then bpf.jt.toNat else bpf.jf.toNat) acc
  else if code = BPF_JMP_JGT then
    .skip (if k < acc then bpf.jt.toNat else bpf.jf.toNat) acc
  else if code = BPF_JMP_JGE then
    .skip (if k ≤ acc then bpf.jt.toNat else bpf.jf.toNat) acc
  else if code = BPF_RET then .done k
  else .stuck

/-- `bpf_execute`: the action of the program, if it comes to a return. -/
def bpfExecute (host target : ArchEndian) (prg : List BpfInstrRaw) (d : BpfData) :
    Option UInt32 :=
  exec (bpfStep host target d) prg 0 0

end Draco
