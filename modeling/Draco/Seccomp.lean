/-
# The seccomp state of a task (`draco.patch`)

The kernel patch adds the Draco profile to `struct seccomp`: the pending
argument masks (`draco`, registered in `bit_map`), and the tables that the
module reads (`sys2arguments`, `argument_count_table`).  This file translates
the structure, the two `prctl` handlers that write it
(`prctl_draco_add_seccomp`, `prctl_draco_load_seccomp`), and what the module and
the filters see of a system call: the register file and `struct seccomp_data`.
-/
import Mathlib.Data.Int.Notation
import Mathlib.Data.List.Find
import Mathlib.Data.Nat.Notation
import Mathlib.Logic.Function.Basic

namespace Draco

/-! ## System calls as the kernel sees them -/

/-- `SYSCALL_COUNT` -/
abbrev SYSCALL_COUNT : ℕ := 400

/-- `MAX_ARGUMENT_COUNT` -/
abbrev MAX_ARGUMENT_COUNT : ℕ := 6

/-- A `task_struct *`. -/
abbrev TaskId := ℕ

/-- The registers of `struct pt_regs` that some calling convention passes an
argument in, and the instruction pointer. -/
structure PtRegs where
  di : UInt64
  si : UInt64
  dx : UInt64
  r10 : UInt64
  r8 : UInt64
  r9 : UInt64
  bx : UInt64
  cx : UInt64
  bp : UInt64
  ip : UInt64
  deriving DecidableEq, Repr, Inhabited

/-- The system call ABI, `seccomp_data.arch`. -/
inductive Abi where
  | x86_64
  | i386
  deriving DecidableEq, Repr, Inhabited

/-- `struct seccomp_data`, the input of a filter. -/
structure SeccompData where
  nr : ℤ
  arch : Abi
  instructionPointer : UInt64
  args : Fin 6 → UInt64

/-- Argument `i` of a call, in the convention of its ABI. -/
def syscallArgument (abi : Abi) (regs : PtRegs) (i : Fin 6) : UInt64 :=
  match abi, i with
  | .x86_64, 0 => regs.di
  | .x86_64, 1 => regs.si
  | .x86_64, 2 => regs.dx
  | .x86_64, 3 => regs.r10
  | .x86_64, 4 => regs.r8
  | .x86_64, 5 => regs.r9
  | .i386, 0 => regs.bx
  | .i386, 1 => regs.cx
  | .i386, 2 => regs.dx
  | .i386, 3 => regs.si
  | .i386, 4 => regs.di
  | .i386, 5 => regs.bp

/-- What a filter is shown of a call. -/
def populateSeccompData (abi : Abi) (nr : ℤ) (regs : PtRegs) : SeccompData :=
  ⟨nr, abi, regs.ip, syscallArgument abi regs⟩

/-! ## Filters -/

/-- The action of a filter on a call. -/
inductive Action where
  | kill
  | trap
  | errno (code : UInt16)
  | trace (msg : UInt16)
  | allow
  deriving DecidableEq, Repr, Inhabited

/-- How strict an action is; among stacked filters the least value wins. -/
def Action.precedence : Action → ℕ
  | .kill => 0
  | .trap => 1
  | .errno _ => 2
  | .trace _ => 3
  | .allow => 4

/-- A seccomp filter. -/
abbrev Filter := SeccompData → Action

/-- The verdict of a stack of filters, newest first: the strictest one. -/
def runFilters (fs : List Filter) (sd : SeccompData) : Action :=
  fs.foldl (fun act F => if (F sd).precedence < act.precedence then F sd else act) .allow

@[simp] theorem runFilters_singleton (F : Filter) (sd : SeccompData) :
    runFilters [F] sd = F sd := by
  unfold runFilters
  cases h : F sd <;> simp [h, Action.precedence]

/-! ## `struct seccomp` -/

/-- `struct seccomp_draco_block` -/
structure DracoBlock where
  fill : UInt8
  argPosition : BitVec 32
  deriving DecidableEq, Repr, Inhabited

/-- `struct seccomp`.  The two position tables lie one after the other in
memory; `positionBytes` holds their bytes, `sys2arguments` in the first
`400 * 6` and `argument_count_table` in the `400` after them. -/
structure Seccomp where
  filter : List Filter
  dracoHook : Option ℕ
  dracoCount : ℕ
  bitMap : ℕ → ℕ
  draco : ℕ → DracoBlock
  positionBytes : ℕ → UInt8

/-- The address of `sys2arguments[syscall][pos]`. -/
abbrev sys2argumentsAt (syscall pos : ℕ) : ℕ := syscall * MAX_ARGUMENT_COUNT + pos

/-- The address of `argument_count_table[syscall]`. -/
abbrev argumentCountTableAt (syscall : ℕ) : ℕ := SYSCALL_COUNT * MAX_ARGUMENT_COUNT + syscall

namespace Seccomp

/-- `sys2arguments[syscall][pos]` -/
def sys2arguments (sec : Seccomp) (syscall pos : ℕ) : UInt8 :=
  sec.positionBytes (sys2argumentsAt syscall pos)

/-- `argument_count_table[syscall]` -/
def argumentCount (sec : Seccomp) (syscall : ℕ) : ℕ :=
  (sec.positionBytes (argumentCountTableAt syscall)).toNat

/-- The positions listed for a syscall: the first `argument_count_table[syscall]`
entries of `sys2arguments[syscall]`. -/
def positions (sec : Seccomp) (syscall : ℕ) : List UInt8 :=
  (List.range (sec.argumentCount syscall)).map (sec.sys2arguments syscall)

@[simp] theorem length_positions (sec : Seccomp) (s : ℕ) :
    (sec.positions s).length = sec.argumentCount s := by
  rw [positions, List.length_map, List.length_range]

/-- The profile after `dup_task_struct`: all zero, under the given filters. -/
def zero (filter : List Filter) : Seccomp where
  filter := filter
  dracoHook := none
  dracoCount := 0
  bitMap := fun _ => 0
  draco := fun _ => ⟨0, 0⟩
  positionBytes := fun _ => 0

end Seccomp

/-! ## The `prctl` handlers -/

/-- The branch of `prctl_draco_add_seccomp` that registers a syscall on its
first mask. -/
def fillBlock (sec : Seccomp) (syscall : ℕ) : Seccomp :=
  if (sec.draco syscall).fill = 0 then
    { sec with
      draco := Function.update sec.draco syscall { sec.draco syscall with fill := 1 }
      bitMap := Function.update sec.bitMap sec.dracoCount syscall
      dracoCount := sec.dracoCount + 1 }
  else sec

/-- `current->seccomp.draco[syscall].arg_position |= arg_position` -/
def orMask (sec : Seccomp) (syscall : ℕ) (argPosition : BitVec 32) : Seccomp :=
  { sec with
    draco := Function.update sec.draco syscall
      { sec.draco syscall with
        argPosition := (sec.draco syscall).argPosition ||| argPosition } }

/-- `prctl_draco_add_seccomp` -/
def prctlDracoAddSeccomp (sec : Seccomp) (syscall : ℤ) (argPosition : BitVec 32) :
    Seccomp × ℤ :=
  if syscall < 0 ∨ (SYSCALL_COUNT : ℤ) ≤ syscall then (sec, -1)
  else (orMask (fillBlock sec syscall.toNat) syscall.toNat argPosition, 0)

/-- The loop `while (arg_position > 0)` of `prctl_draco_load_seccomp`, which
writes the number `j` of each set bit to `sys2arguments[syscall][pos++]`.  A
positive `int` loses a bit in every turn, so `32` turns are enough. -/
def decodeLoop (syscall : ℕ) : (fuel : ℕ) → (argPosition : BitVec 32) →
    (bytes : ℕ → UInt8) → (pos j : ℕ) → (ℕ → UInt8) × ℕ
  | 0, _, bytes, pos, _ => (bytes, pos)
  | fuel + 1, argPosition, bytes, pos, j =>
    if BitVec.slt 0 argPosition then
      if argPosition.getLsbD 0 then
        decodeLoop syscall fuel (argPosition.sshiftRight 1)
          (Function.update bytes (sys2argumentsAt syscall pos) (UInt8.ofNat j)) (pos + 1) (j + 1)
      else decodeLoop syscall fuel (argPosition.sshiftRight 1) bytes pos (j + 1)
    else (bytes, pos)

/-- One turn of the outer loop of `prctl_draco_load_seccomp`. -/
def loadSyscall (sec : Seccomp) (syscall : ℕ) : Seccomp :=
  let (bytes, pos) :=
    decodeLoop syscall 32 (sec.draco syscall).argPosition sec.positionBytes 0 1
  { sec with
    positionBytes := Function.update bytes (argumentCountTableAt syscall) (UInt8.ofNat pos) }

/-- `prctl_draco_load_seccomp` -/
def prctlDracoLoadSeccomp (sec : Seccomp) : Seccomp :=
  (List.range sec.dracoCount).foldl (fun sec' i => loadSyscall sec' (sec.bitMap i)) sec

end Draco
