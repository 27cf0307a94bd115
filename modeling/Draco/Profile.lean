/-
# The profile that a task has loaded

`prctl_draco_add_seccomp` ORs argument masks into the pending profile and
`prctl_draco_load_seccomp` decodes them into the position tables.  For masks of
six bits, which are the masks the library sends, this file shows what the two
leave behind: the registration list names every syscall that has a mask
(`WellFormed`, kept by both handlers), and after a load the positions listed for
a syscall are the set bits of its mask, counted from 1 (`positions_load`).
-/
import Draco.Seccomp
import Mathlib.Algebra.Group.Nat.Defs
import Mathlib.Data.List.Induction
import Mathlib.Data.List.Nodup
import Mathlib.Tactic.SplitIfs

namespace Draco

/-! ## The decoding loop -/

/-- Stores the bytes `l` at the addresses from `a` on. -/
def writeBytes (bytes : ℕ → UInt8) : (a : ℕ) → List UInt8 → ℕ → UInt8
  | _, [] => bytes
  | a, b :: l => writeBytes (Function.update bytes a b) (a + 1) l

theorem writeBytes_of_lt {bytes : ℕ → UInt8} {a x : ℕ} {l : List UInt8} (h : x < a) :
    writeBytes bytes a l x = bytes x := by
  induction l generalizing bytes a with
  | nil => rfl
  | cons b l ih =>
    rw [writeBytes, ih (by omega), Function.update_of_ne (by omega)]

theorem writeBytes_of_le {bytes : ℕ → UInt8} {a x : ℕ} {l : List UInt8}
    (h : a + l.length ≤ x) : writeBytes bytes a l x = bytes x := by
  induction l generalizing bytes a with
  | nil => rfl
  | cons b l ih =>
    rw [List.length_cons] at h
    rw [writeBytes, ih (by omega), Function.update_of_ne (by omega)]

/-- The written bytes are read back in order. -/
theorem writeBytes_add {bytes : ℕ → UInt8} {a i : ℕ} {l : List UInt8} (h : i < l.length) :
    writeBytes bytes a l (a + i) = l[i] := by
  induction l generalizing bytes a i with
  | nil => exact absurd h (Nat.not_lt_zero i)
  | cons b l ih =>
    rw [writeBytes]
    cases i with
    | zero => rw [writeBytes_of_lt (by omega), Nat.add_zero, Function.update_self]; rfl
    | succ i =>
      rw [show a + (i + 1) = a + 1 + i from by omega, ih (by simpa using h)]
      rfl

/-- The values that the decoding loop stores, in order. -/
def decodedPositions : (fuel : ℕ) → (argPosition : BitVec 32) → (j : ℕ) → List UInt8
  | 0, _, _ => []
  | fuel + 1, argPosition, j =>
    if BitVec.slt 0 argPosition then
      if argPosition.getLsbD 0 then
        UInt8.ofNat j :: decodedPositions fuel (argPosition.sshiftRight 1) (j + 1)
      else decodedPositions fuel (argPosition.sshiftRight 1) (j + 1)
    else []

/-- The decoding loop lists at most one position for each of its rounds. -/
theorem length_decodedPositions_le (fuel : ℕ) (argPosition : BitVec 32) (j : ℕ) :
    (decodedPositions fuel argPosition j).length ≤ fuel := by
  induction fuel generalizing argPosition j with
  | zero => exact Nat.le_refl 0
  | succ fuel ih =>
    rw [decodedPositions]
    split_ifs
    · exact Nat.succ_le_succ (ih _ _)
    · exact Nat.le_succ_of_le (ih _ _)
    · exact Nat.zero_le _

/-- The loop of `prctl_draco_load_seccomp` writes the decoded positions in a row and returns the
place behind the last. -/
theorem decodeLoop_eq (syscall fuel : ℕ) (argPosition : BitVec 32) (bytes : ℕ → UInt8)
    (pos j : ℕ) :
    decodeLoop syscall fuel argPosition bytes pos j =
      (writeBytes bytes (sys2argumentsAt syscall pos) (decodedPositions fuel argPosition j),
        pos + (decodedPositions fuel argPosition j).length) := by
  induction fuel generalizing argPosition bytes pos j with
  | zero => rfl
  | succ fuel ih =>
    rw [decodeLoop, decodedPositions]
    split_ifs with hpos hbit
    · rw [ih, List.length_cons, writeBytes]
      congr 1
      omega
    · rw [ih]
    · rfl

/-- `arg_position > 0` -/
theorem slt_zero_iff {mask : BitVec 32} : BitVec.slt 0 mask = true ↔ 0 < mask.toInt := by
  rw [BitVec.slt_eq_decide, decide_eq_true_eq]
  rfl

/-- A mask without its sign bit is a non-negative `int`. -/
theorem toInt_of_msb_false {mask : BitVec 32} (h : mask.msb = false) :
    mask.toInt = mask.toNat := by
  rw [BitVec.toInt_eq_msb_cond, h]
  rfl

/-- A mask with its sign bit is a negative `int`, which the loop shifts arithmetically. -/
theorem toInt_neg_of_msb {mask : BitVec 32} (h : mask.msb = true) : mask.toInt < 0 := by
  have hlt := mask.isLt
  rw [BitVec.toInt_eq_msb_cond, h, if_pos rfl]
  omega

/-- A negative mask is not decoded at all. -/
theorem decodedPositions_of_neg {mask : BitVec 32} (h : mask.msb = true) (fuel j : ℕ) :
    decodedPositions fuel mask j = [] := by
  cases fuel with
  | zero => rfl
  | succ fuel =>
    rw [decodedPositions, if_neg]
    rw [slt_zero_iff]
    have := toInt_neg_of_msb h
    omega

/-- A nonnegative mask loses its lowest bit in a turn of the loop. -/
theorem sshiftRight_one_of_nonneg {mask : BitVec 32} (h : mask.msb = false) :
    (mask.sshiftRight 1).msb = false ∧ (mask.sshiftRight 1).toNat = mask.toNat / 2 ∧
      ∀ i, (mask.sshiftRight 1).getLsbD i = mask.getLsbD (i + 1) := by
  rw [BitVec.sshiftRight_eq_of_msb_false h]
  refine ⟨?_, ?_, fun i => ?_⟩
  · simp
  · rw [BitVec.toNat_ushiftRight, Nat.shiftRight_eq_div_pow, Nat.pow_one]
  · rw [BitVec.getLsbD_ushiftRight, Nat.add_comm]

/-- The loop lists the set bits of a nonnegative mask in ascending order. -/
theorem decodedPositions_of_nonneg {fuel : ℕ} {mask : BitVec 32} (hmsb : mask.msb = false)
    (h : mask.toNat < 2 ^ fuel) (j : ℕ) :
    decodedPositions fuel mask j =
      ((List.range fuel).filter fun i => mask.getLsbD i).map fun i => UInt8.ofNat (j + i) := by
  induction fuel generalizing mask j with
  | zero => rfl
  | succ fuel ih =>
    obtain ⟨hmsb', hdiv, hbits⟩ := sshiftRight_one_of_nonneg hmsb
    have hrest := ih hmsb' (by rw [hdiv]; omega) (j + 1)
    have hshift : ((fun i => mask.getLsbD i) ∘ Nat.succ) =
        fun i => (mask.sshiftRight 1).getLsbD i := funext fun i => (hbits i).symm
    have hmap : ((fun i => UInt8.ofNat (j + i)) ∘ Nat.succ) =
        fun i => UInt8.ofNat (j + 1 + i) := funext fun i => by
      show UInt8.ofNat (j + (i + 1)) = _
      rw [Nat.add_comm i, ← Nat.add_assoc]
    by_cases hpos : BitVec.slt 0 mask = true
    · rw [List.range_succ_eq_map, List.filter_cons, List.filter_map, hshift, decodedPositions,
        hrest, if_pos hpos]
      split_ifs with hbit
      · rw [List.map_cons, List.map_map, hmap]
        rfl
      · rw [List.map_map, hmap]
    · -- no bit is left
      have hzero : mask.toNat = 0 := by
        rw [slt_zero_iff, toInt_of_msb_false hmsb] at hpos
        omega
      have hnone : (List.range (fuel + 1)).filter (fun i => mask.getLsbD i) = [] := by
        refine List.filter_eq_nil_iff.mpr fun i _ => ?_
        rw [BitVec.getLsbD, hzero, Nat.zero_testBit]
        exact Bool.false_ne_true
      rw [decodedPositions, if_neg hpos, hnone, List.map_nil]

/-! ## Masks of six bits -/

/-- The set bits of a mask, counted from 1. -/
def maskPositions (mask : BitVec 32) : List UInt8 :=
  ((List.range MAX_ARGUMENT_COUNT).filter (fun i => mask.getLsbD i)).map
    (fun i => UInt8.ofNat (i + 1))

/-- A mask of six bits has no others. -/
theorem filter_range_of_lt {mask : BitVec 32} (h : mask.toNat < 64) :
    (List.range 32).filter (fun i => mask.getLsbD i) =
      (List.range MAX_ARGUMENT_COUNT).filter fun i => mask.getLsbD i := by
  have hhigh : ((List.range 26).map (6 + ·)).filter (fun i => mask.getLsbD i) = [] := by
    refine List.filter_eq_nil_iff.mpr fun i hi => ?_
    obtain ⟨k, -, rfl⟩ := List.mem_map.mp hi
    have hle : 2 ^ 6 ≤ 2 ^ (6 + k) := Nat.pow_le_pow_right (by decide) (Nat.le_add_right 6 k)
    rw [BitVec.getLsbD, Nat.testBit_lt_two_pow (Nat.lt_of_lt_of_le h hle)]
    exact Bool.false_ne_true
  have hsplit : List.range 32 = List.range 6 ++ (List.range 26).map (6 + ·) := rfl
  rw [hsplit, List.filter_append, hhigh, List.append_nil]

/-- The loop lists the set bits of a mask of six bits in ascending order. -/
theorem decodedPositions_eq {mask : BitVec 32} (h : mask.toNat < 64) :
    decodedPositions 32 mask 1 = maskPositions mask := by
  have hmsb : mask.msb = false := by
    rw [BitVec.msb_eq_decide, decide_eq_false_iff_not]
    omega
  rw [decodedPositions_of_nonneg hmsb mask.isLt, filter_range_of_lt h, maskPositions]
  exact List.map_congr_left fun i _ => by rw [Nat.add_comm]

/-- A mask lists at most six positions. -/
theorem length_maskPositions_le (mask : BitVec 32) :
    (maskPositions mask).length ≤ 6 := by
  rw [maskPositions, List.length_map]
  exact Nat.le_trans (List.length_filter_le _ _) (Nat.le_of_eq List.length_range)

/-- Position `i + 1` is listed when bit `i` of the mask is set. -/
theorem mem_maskPositions {mask : BitVec 32} {p : UInt8} :
    p ∈ maskPositions mask ↔
      ∃ i < 6, mask.getLsbD i = true ∧ p = UInt8.ofNat (i + 1) := by
  simp only [maskPositions, List.mem_map, List.mem_filter, List.mem_range]
  constructor
  · rintro ⟨i, ⟨hi, hbit⟩, rfl⟩
    exact ⟨i, hi, hbit, rfl⟩
  · rintro ⟨i, hi, hbit, rfl⟩
    exact ⟨i, ⟨hi, hbit⟩, rfl⟩

/-- Argument `i` is listed exactly when its bit is set. -/
theorem ofNat_succ_mem_maskPositions {mask : BitVec 32} {i : ℕ} (hi : i < 6) :
    UInt8.ofNat (i + 1) ∈ maskPositions mask ↔ mask.getLsbD i = true := by
  rw [mem_maskPositions]
  constructor
  · rintro ⟨i', hi', hbit, heq⟩
    have h := congrArg UInt8.toNat heq
    rw [UInt8.toNat_ofNat', UInt8.toNat_ofNat'] at h
    have : i = i' := by omega
    rwa [this]
  · intro hbit
    exact ⟨i, hi, hbit, rfl⟩

/-! ## Distinct numbers -/

/-- Distinct numbers below `n` are at most `n` many. -/
theorem length_le_of_nodup_of_lt {l : List ℕ} {n : ℕ} (hnodup : l.Nodup)
    (hlt : ∀ a ∈ l, a < n) : l.length ≤ n := by
  have hle := hnodup.length_le_of_subset fun a ha => List.mem_range.mpr (hlt a ha)
  rwa [List.length_range] at hle

/-! ## One syscall -/

namespace Seccomp

/-- The positions that a load writes for a syscall. -/
def decoded (sec : Seccomp) (s : ℕ) : List UInt8 :=
  decodedPositions 32 (sec.draco s).argPosition 1

/-- What a load writes for a syscall to the byte at `x`, if it writes it: a position, or
the number of positions. -/
def writtenByte (sec : Seccomp) (s x : ℕ) : Option UInt8 :=
  if x = argumentCountTableAt s then some (UInt8.ofNat (sec.decoded s).length)
  else if sys2argumentsAt s 0 ≤ x then (sec.decoded s)[x - sys2argumentsAt s 0]?
  else none

/-- The load of one syscall leaves every byte it does not write. -/
theorem positionBytes_loadSyscall (sec : Seccomp) (s x : ℕ) :
    (loadSyscall sec s).positionBytes x = (sec.writtenByte s x).getD (sec.positionBytes x) := by
  have hbytes : (loadSyscall sec s).positionBytes =
      Function.update (writeBytes sec.positionBytes (sys2argumentsAt s 0) (sec.decoded s))
        (argumentCountTableAt s) (UInt8.ofNat (sec.decoded s).length) := by
    rw [loadSyscall, decodeLoop_eq, Nat.zero_add]
    rfl
  rw [hbytes, writtenByte]
  split_ifs with hcount hrow
  · rw [hcount, Function.update_self]
    rfl
  · rw [Function.update_of_ne hcount]
    obtain ⟨i, rfl⟩ := Nat.exists_eq_add_of_le hrow
    rw [Nat.add_sub_cancel_left]
    rcases Nat.lt_or_ge i (sec.decoded s).length with hi | hi
    · rw [writeBytes_add hi, List.getElem?_eq_getElem hi]
      rfl
    · rw [writeBytes_of_le (by omega), List.getElem?_eq_none hi]
      rfl
  · rw [Function.update_of_ne hcount, writeBytes_of_lt (by omega)]
    rfl

/-- A decoding of at most six positions stays in the row of its syscall. -/
theorem writtenByte_row {sec : Seccomp} {r s i : ℕ} (hr : r < 400) (hs : s < 400) (hi : i < 6)
    (hlen : (sec.decoded r).length ≤ 6) :
    sec.writtenByte r (sys2argumentsAt s i) = if r = s then (sec.decoded s)[i]? else none := by
  have hcount : sys2argumentsAt s i ≠ argumentCountTableAt r := by
    simp only [sys2argumentsAt, argumentCountTableAt, SYSCALL_COUNT, MAX_ARGUMENT_COUNT]
    omega
  rw [writtenByte, if_neg hcount]
  simp only [sys2argumentsAt, MAX_ARGUMENT_COUNT]
  by_cases hrs : r = s
  · subst hrs
    rw [if_pos (by omega), if_pos rfl]
    congr 1
    omega
  · rw [if_neg hrs]
    split_ifs with hle
    · exact List.getElem?_eq_none (by omega)
    · rfl

/-- A decoding that ends before `argument_count_table` writes its own count there only. -/
theorem writtenByte_count {sec : Seccomp} {r s : ℕ}
    (hfit : sys2argumentsAt r (sec.decoded r).length ≤ argumentCountTableAt 0) :
    sec.writtenByte r (argumentCountTableAt s) =
      if r = s then some (UInt8.ofNat (sec.decoded s).length) else none := by
  by_cases hrs : r = s
  · rw [hrs, writtenByte, if_pos rfl, if_pos rfl]
  · rw [writtenByte, if_neg (by simp only [argumentCountTableAt]; omega), if_neg hrs]
    simp only [sys2argumentsAt, argumentCountTableAt, SYSCALL_COUNT, MAX_ARGUMENT_COUNT] at hfit ⊢
    split_ifs
    · exact List.getElem?_eq_none (by omega)
    · rfl

/-! ## The whole profile -/

/-- The registered syscalls: the first `draco_count` entries of `bit_map`. -/
def registered (sec : Seccomp) : List ℕ :=
  (List.range sec.dracoCount).map sec.bitMap

/-- The load is one pass over the registered syscalls. -/
theorem prctlDracoLoadSeccomp_eq (sec : Seccomp) :
    prctlDracoLoadSeccomp sec = sec.registered.foldl loadSyscall sec := by
  rw [prctlDracoLoadSeccomp, registered, List.foldl_map]

/-- `bit_map` names the syscalls whose block is filled, once each, and the others have no
mask. -/
structure Registration (sec : Seccomp) : Prop where
  nodup : sec.registered.Nodup
  lt : ∀ s ∈ sec.registered, s < 400
  fill : ∀ s, (sec.draco s).fill = 0 ↔ s ∉ sec.registered
  maskOff : ∀ s, s ∉ sec.registered → (sec.draco s).argPosition = 0

/-- A profile built by masks of six bits: the syscalls that `bit_map` does not name have no
positions either, and no row of `sys2arguments` lists more than six of them. -/
structure WellFormed (sec : Seccomp) : Prop extends Registration sec where
  mask : ∀ s, (sec.draco s).argPosition.toNat < 64
  countOff : ∀ s < 400, s ∉ sec.registered → sec.argumentCount s = 0
  count : ∀ s < 400, sec.argumentCount s ≤ 6

/-- The profile of a new task is well formed. -/
theorem wellFormed_zero (filter : List Filter) : (zero filter).WellFormed where
  nodup := List.nodup_nil
  lt := fun _ h => absurd h List.not_mem_nil
  fill := fun _ => ⟨fun _ => List.not_mem_nil, fun _ => rfl⟩
  mask := fun _ => by simp [zero]
  maskOff := fun _ _ => rfl
  countOff := fun _ _ _ => rfl
  count := fun _ _ => Nat.zero_le 6

/-! ### The bytes after a load -/

/-- What the decoding of the syscalls `l` leaves in the byte at `x`: the last value that
is written to it. -/
def lastWritten (sec : Seccomp) (l : List ℕ) (x : ℕ) : Option UInt8 :=
  l.foldl (fun b s => (sec.writtenByte s x).or b) none

/-- The last load in a list wins where it writes. -/
theorem lastWritten_append_singleton (sec : Seccomp) (l : List ℕ) (s x : ℕ) :
    sec.lastWritten (l ++ [s]) x = (sec.writtenByte s x).or (sec.lastWritten l x) := by
  rw [lastWritten, List.foldl_append]
  rfl

theorem draco_foldl_loadSyscall (sec : Seccomp) (l : List ℕ) :
    (l.foldl loadSyscall sec).draco = sec.draco := by
  induction l generalizing sec with
  | nil => rfl
  | cons a l ih => exact ih (loadSyscall sec a)

/-- Loads keep the registered syscalls. -/
theorem registered_foldl_loadSyscall (sec : Seccomp) (l : List ℕ) :
    (l.foldl loadSyscall sec).registered = sec.registered := by
  induction l generalizing sec with
  | nil => rfl
  | cons a l ih => exact ih (loadSyscall sec a)

/-- **The bytes after a load** are the last ones that were written, or the old ones. -/
theorem positionBytes_foldl_loadSyscall (sec : Seccomp) (l : List ℕ) (x : ℕ) :
    (l.foldl loadSyscall sec).positionBytes x =
      (sec.lastWritten l x).getD (sec.positionBytes x) := by
  induction l using List.reverseRecOn with
  | nil => rfl
  | append_singleton l s ih =>
    have hwritten : (l.foldl loadSyscall sec).writtenByte s x = sec.writtenByte s x := by
      rw [writtenByte, decoded, draco_foldl_loadSyscall]
      rfl
    rw [List.foldl_append, List.foldl_cons, List.foldl_nil, positionBytes_loadSyscall, hwritten,
      lastWritten_append_singleton, ih]
    cases sec.writtenByte s x <;> rfl

/-- A byte that one syscall only writes. -/
theorem lastWritten_of_owner {sec : Seccomp} {l : List ℕ} {s x : ℕ} {b : Option UInt8}
    (h : ∀ r ∈ l, sec.writtenByte r x = if r = s then b else none) :
    sec.lastWritten l x = if s ∈ l then b else none := by
  induction l using List.reverseRecOn with
  | nil => rfl
  | append_singleton l r ih =>
    rw [lastWritten_append_singleton, h r (by simp),
      ih fun r' hr' => h r' (List.mem_append_left _ hr')]
    by_cases hrs : r = s
    · subst hrs
      cases b <;> simp
    · have hsr : s ≠ r := fun he => hrs he.symm
      simp [hrs, hsr]

section Decoding

variable {sec : Seccomp} {l : List ℕ} {s : ℕ}

/-- The decodings of the syscalls `l` end before `argument_count_table`. -/
def FitsTable (sec : Seccomp) (l : List ℕ) : Prop :=
  ∀ r ∈ l, sys2argumentsAt r (sec.decoded r).length ≤ argumentCountTableAt 0

/-- Rows of at most six positions stay inside the table. -/
theorem fitsTable_of_rows (hl : ∀ r ∈ l, r < 400) (hlen : ∀ r ∈ l, (sec.decoded r).length ≤ 6) :
    sec.FitsTable l := by
  intro r hr
  have hlt := hl r hr
  have hsix := hlen r hr
  simp only [sys2argumentsAt, argumentCountTableAt, SYSCALL_COUNT, MAX_ARGUMENT_COUNT]
  omega

/-- After the load a registered syscall counts its decoded positions, and every other one what
it counted before. -/
theorem argumentCount_foldl_loadSyscall (hfit : sec.FitsTable l) :
    (l.foldl loadSyscall sec).argumentCount s =
      if s ∈ l then (sec.decoded s).length else sec.argumentCount s := by
  rw [argumentCount, positionBytes_foldl_loadSyscall,
    lastWritten_of_owner fun r hr => writtenByte_count (hfit r hr)]
  split_ifs with hs
  · have hlen := length_decodedPositions_le 32 (sec.draco s).argPosition 1
    rw [Option.getD_some, UInt8.toNat_ofNat', decoded]
    omega
  · rfl

/-- After the load a row starts with the decoded positions of its syscall and keeps its old bytes
behind them. -/
theorem sys2arguments_foldl_loadSyscall (hl : ∀ r ∈ l, r < 400)
    (hlen : ∀ r ∈ l, (sec.decoded r).length ≤ 6) (hs : s < 400) {i : ℕ} (hi : i < 6) :
    (l.foldl loadSyscall sec).sys2arguments s i =
      (if s ∈ l then (sec.decoded s)[i]? else none).getD (sec.sys2arguments s i) := by
  rw [sys2arguments, positionBytes_foldl_loadSyscall,
    lastWritten_of_owner fun r hr => writtenByte_row (hl r hr) hs hi (hlen r hr), sys2arguments]

/-- Decoding lists of at most six positions sets the rows of their syscalls. -/
theorem positions_foldl_loadSyscall_of_mem (hl : ∀ r ∈ l, r < 400)
    (hlen : ∀ r ∈ l, (sec.decoded r).length ≤ 6) (hs : s ∈ l) :
    (l.foldl loadSyscall sec).positions s = sec.decoded s := by
  have hsix := hlen s hs
  rw [positions, argumentCount_foldl_loadSyscall (fitsTable_of_rows hl hlen), if_pos hs]
  apply List.ext_getElem
  · rw [List.length_map, List.length_range]
  · intro i hi hi'
    rw [List.getElem_map, List.getElem_range,
      sys2arguments_foldl_loadSyscall hl hlen (hl s hs) (by omega), if_pos hs,
      List.getElem?_eq_getElem hi', Option.getD_some]

/-- It leaves the rows of the other syscalls alone. -/
theorem positions_foldl_loadSyscall_of_notMem (hl : ∀ r ∈ l, r < 400)
    (hlen : ∀ r ∈ l, (sec.decoded r).length ≤ 6) (hlt : s < 400) (hs : s ∉ l)
    (hcount : sec.argumentCount s ≤ 6) :
    (l.foldl loadSyscall sec).positions s = sec.positions s := by
  rw [positions, positions, argumentCount_foldl_loadSyscall (fitsTable_of_rows hl hlen),
    if_neg hs]
  refine List.map_congr_left fun i hi => ?_
  have hi := List.mem_range.mp hi
  rw [sys2arguments_foldl_loadSyscall hl hlen hlt (by omega), if_neg hs, Option.getD_none]

end Decoding

/-- On a well-formed profile the decoded positions are those of the mask. -/
theorem WellFormed.decoded_eq {sec : Seccomp} (h : sec.WellFormed) (s : ℕ) :
    sec.decoded s = maskPositions (sec.draco s).argPosition :=
  decodedPositions_eq (h.mask s)

/-- On a well-formed profile no row overflows. -/
theorem WellFormed.length_decoded_le {sec : Seccomp} (h : sec.WellFormed) (s : ℕ) :
    (sec.decoded s).length ≤ 6 := by
  rw [h.decoded_eq]
  exact length_maskPositions_le _

/-- **After a load the listed positions are the set bits of the pending mask.** -/
theorem positions_load {sec : Seccomp} (h : sec.WellFormed) {s : ℕ} (hs : s < 400) :
    (prctlDracoLoadSeccomp sec).positions s = maskPositions (sec.draco s).argPosition := by
  rw [prctlDracoLoadSeccomp_eq]
  by_cases hreg : s ∈ sec.registered
  · rw [positions_foldl_loadSyscall_of_mem h.lt (fun r _ => h.length_decoded_le r) hreg,
      h.decoded_eq]
  · rw [positions_foldl_loadSyscall_of_notMem h.lt (fun r _ => h.length_decoded_le r) hs hreg
      (h.count s hs), h.maskOff s hreg, positions, h.countOff s hs hreg]
    rfl

/-- A load touches the two position tables only. -/
theorem foldl_loadSyscall_frame (sec : Seccomp) (l : List ℕ) :
    (l.foldl loadSyscall sec).dracoHook = sec.dracoHook ∧
      (l.foldl loadSyscall sec).filter = sec.filter := by
  induction l generalizing sec with
  | nil => exact ⟨rfl, rfl⟩
  | cons a l ih => exact ih (loadSyscall sec a)

@[simp] theorem dracoHook_load (sec : Seccomp) :
    (prctlDracoLoadSeccomp sec).dracoHook = sec.dracoHook := by
  rw [prctlDracoLoadSeccomp_eq, (foldl_loadSyscall_frame sec _).1]

@[simp] theorem draco_load (sec : Seccomp) :
    (prctlDracoLoadSeccomp sec).draco = sec.draco := by
  rw [prctlDracoLoadSeccomp_eq, draco_foldl_loadSyscall]

@[simp] theorem registered_load (sec : Seccomp) :
    (prctlDracoLoadSeccomp sec).registered = sec.registered := by
  rw [prctlDracoLoadSeccomp_eq, registered_foldl_loadSyscall]

/-- The load keeps the book-keeping of the registration. -/
theorem registration_load {sec : Seccomp} (h : sec.Registration) :
    (prctlDracoLoadSeccomp sec).Registration := by
  refine ⟨?_, ?_, ?_, ?_⟩ <;> simp only [registered_load, draco_load]
  · exact h.nodup
  · exact h.lt
  · exact h.fill
  · exact h.maskOff

/-- The load keeps a well-formed profile so. -/
theorem wellFormed_load {sec : Seccomp} (h : sec.WellFormed) :
    (prctlDracoLoadSeccomp sec).WellFormed := by
  refine ⟨registration_load h.toRegistration, ?_, ?_, ?_⟩
  · rw [draco_load]
    exact h.mask
  · intro s hs hs'
    rw [registered_load] at hs'
    rw [← length_positions, positions_load h hs, h.maskOff s hs']
    decide
  · intro s hs
    rw [← length_positions, positions_load h hs]
    exact length_maskPositions_le _

/-! ## Adding a mask -/

/-- A number out of range is refused and changes nothing. -/
theorem prctlDracoAddSeccomp_outOfRange {sec : Seccomp} {syscall : ℤ}
    {argPosition : BitVec 32} (h : syscall < 0 ∨ 400 ≤ syscall) :
    prctlDracoAddSeccomp sec syscall argPosition = (sec, -1) :=
  if_pos h

/-- A number is out of range, or one of the 400 syscalls. -/
theorem syscall_cases (syscall : ℤ) :
    (syscall < 0 ∨ 400 ≤ syscall) ∨ ∃ s < 400, syscall = ((s : ℕ) : ℤ) := by
  by_cases hr : syscall < 0 ∨ 400 ≤ syscall
  · exact Or.inl hr
  · obtain ⟨s, rfl⟩ := Int.eq_ofNat_of_zero_le (by omega : 0 ≤ syscall)
    exact Or.inr ⟨s, by omega, rfl⟩

/-- In range, the add enters the number once and joins the mask. -/
theorem prctlDracoAddSeccomp_inRange {sec : Seccomp} {s : ℕ} (hs : s < 400)
    (argPosition : BitVec 32) :
    (prctlDracoAddSeccomp sec s argPosition).1 = orMask (fillBlock sec s) s argPosition := by
  rw [prctlDracoAddSeccomp, if_neg (by simp only [SYSCALL_COUNT]; omega), Int.toNat_natCast]

@[simp] theorem positionBytes_fillBlock (sec : Seccomp) (s : ℕ) :
    (fillBlock sec s).positionBytes = sec.positionBytes := by
  unfold fillBlock
  split_ifs <;> rfl

@[simp] theorem dracoHook_fillBlock (sec : Seccomp) (s : ℕ) :
    (fillBlock sec s).dracoHook = sec.dracoHook := by
  unfold fillBlock
  split_ifs <;> rfl

/-- Entering a number keeps every mask. -/
@[simp] theorem argPosition_fillBlock (sec : Seccomp) (s s' : ℕ) :
    ((fillBlock sec s).draco s').argPosition = (sec.draco s').argPosition := by
  unfold fillBlock
  split_ifs
  · by_cases hs' : s' = s
    · subst hs'
      simp
    · simp [Function.update_of_ne hs']
  · rfl

/-- Entering a number marks it and no other. -/
theorem fill_fillBlock (sec : Seccomp) (s s' : ℕ) :
    ((fillBlock sec s).draco s').fill = 0 ↔ s' ≠ s ∧ (sec.draco s').fill = 0 := by
  unfold fillBlock
  by_cases hs' : s' = s
  · subst hs'
    split_ifs with h <;> simp [h]
  · split_ifs <;> simp [hs']

/-- A syscall that is not registered yet is appended to the registration list. -/
theorem registered_fillBlock (sec : Seccomp) (s : ℕ) :
    (fillBlock sec s).registered =
      if (sec.draco s).fill = 0 then sec.registered ++ [s] else sec.registered := by
  unfold fillBlock
  split_ifs with h
  · simp only [registered, List.range_succ, List.map_append, List.map_singleton,
      Function.update_self]
    congr 1
    apply List.map_congr_left
    intro i hi
    rw [Function.update_of_ne (by have := List.mem_range.mp hi; omega)]
  · rfl

@[simp] theorem registered_orMask (sec : Seccomp) (s : ℕ) (argPosition : BitVec 32) :
    (orMask sec s argPosition).registered = sec.registered := rfl

@[simp] theorem fill_orMask (sec : Seccomp) (s : ℕ) (argPosition : BitVec 32) (s' : ℕ) :
    ((orMask sec s argPosition).draco s').fill = (sec.draco s').fill := by
  by_cases hs' : s' = s
  · subst hs'
    simp [orMask]
  · simp [orMask, Function.update_of_ne hs']

/-- Joining a mask changes the mask of its own number only. -/
theorem argPosition_orMask (sec : Seccomp) (s : ℕ) (argPosition : BitVec 32) (s' : ℕ) :
    ((orMask sec s argPosition).draco s').argPosition =
      if s' = s then (sec.draco s).argPosition ||| argPosition
      else (sec.draco s').argPosition := by
  by_cases hs' : s' = s
  · subst hs'
    simp [orMask]
  · simp [orMask, hs']

/-- Adding a mask ORs it into the pending mask of its syscall. -/
theorem argPosition_add {sec : Seccomp} {s : ℕ} (hs : s < 400) (argPosition : BitVec 32)
    (s' : ℕ) :
    ((prctlDracoAddSeccomp sec s argPosition).1.draco s').argPosition =
      if s' = s then (sec.draco s).argPosition ||| argPosition
      else (sec.draco s').argPosition := by
  rw [prctlDracoAddSeccomp_inRange hs, argPosition_orMask]
  simp only [argPosition_fillBlock]

/-- The add alone lists no position; only the load does. -/
@[simp] theorem positionBytes_add (sec : Seccomp) (syscall : ℤ) (argPosition : BitVec 32) :
    (prctlDracoAddSeccomp sec syscall argPosition).1.positionBytes = sec.positionBytes := by
  unfold prctlDracoAddSeccomp
  split_ifs
  · rfl
  · exact positionBytes_fillBlock sec _

@[simp] theorem dracoHook_add (sec : Seccomp) (syscall : ℤ) (argPosition : BitVec 32) :
    (prctlDracoAddSeccomp sec syscall argPosition).1.dracoHook = sec.dracoHook := by
  unfold prctlDracoAddSeccomp
  split_ifs
  · rfl
  · exact dracoHook_fillBlock sec _

/-- The add marks its number and no other. -/
theorem fill_add {sec : Seccomp} {s : ℕ} (hs : s < 400) (argPosition : BitVec 32) (s' : ℕ) :
    ((prctlDracoAddSeccomp sec s argPosition).1.draco s').fill = 0 ↔
      s' ≠ s ∧ (sec.draco s').fill = 0 := by
  rw [prctlDracoAddSeccomp_inRange hs, fill_orMask, fill_fillBlock]

/-- The add appends its number the first time and leaves the list alone later. -/
theorem registered_add {sec : Seccomp} {s : ℕ} (hs : s < 400) (argPosition : BitVec 32) :
    (prctlDracoAddSeccomp sec s argPosition).1.registered =
      if (sec.draco s).fill = 0 then sec.registered ++ [s] else sec.registered := by
  rw [prctlDracoAddSeccomp_inRange hs, registered_orMask, registered_fillBlock]

/-- Two masks of six bits join to one of six bits. -/
theorem or_toNat_lt {a b : BitVec 32} (ha : a.toNat < 64) (hb : b.toNat < 64) :
    (a ||| b).toNat < 64 := by
  rw [BitVec.toNat_or]
  exact Nat.or_lt_two_pow (n := 6) ha hb

/-- An added mask registers its syscall. -/
theorem mem_registered_add {sec : Seccomp} (h : sec.Registration) {s : ℕ} (hs : s < 400)
    (argPosition : BitVec 32) (s' : ℕ) :
    s' ∈ (prctlDracoAddSeccomp sec s argPosition).1.registered ↔
      s' = s ∨ s' ∈ sec.registered := by
  rw [registered_add hs]
  split_ifs with hf
  · rw [List.mem_append, List.mem_singleton, or_comm]
  · have hmem : s ∈ sec.registered := by
      by_contra hn
      exact hf ((h.fill s).mpr hn)
    constructor
    · exact Or.inr
    · rintro (rfl | h')
      · exact hmem
      · exact h'

/-- A registered syscall stays registered. -/
theorem Registration.mem_add {sec : Seccomp} (h : sec.Registration) (syscall : ℤ)
    (argPosition : BitVec 32) {s : ℕ} (hs : s ∈ sec.registered) :
    s ∈ (prctlDracoAddSeccomp sec syscall argPosition).1.registered := by
  rcases syscall_cases syscall with hr | ⟨r, hr, rfl⟩
  · rwa [prctlDracoAddSeccomp_outOfRange hr]
  · exact (mem_registered_add h hr argPosition s).mpr (Or.inr hs)

/-- The add keeps the book-keeping of the registration, whatever the number and the mask. -/
theorem registration_add {sec : Seccomp} (h : sec.Registration) (syscall : ℤ)
    (argPosition : BitVec 32) : (prctlDracoAddSeccomp sec syscall argPosition).1.Registration := by
  rcases syscall_cases syscall with hr | ⟨s, hs, rfl⟩
  · rw [prctlDracoAddSeccomp_outOfRange hr]
    exact h
  have hmem := mem_registered_add h hs argPosition
  refine ⟨?_, ?_, ?_, ?_⟩
  · rw [registered_add hs]
    split_ifs with hf
    · exact List.nodup_append.mpr ⟨h.nodup, List.nodup_singleton s, by
        intro a ha b hb
        rw [List.mem_singleton.mp hb]
        rintro rfl
        exact (h.fill a).mp hf ha⟩
    · exact h.nodup
  · intro s' hs'
    rcases (hmem s').mp hs' with rfl | h'
    · exact hs
    · exact h.lt s' h'
  · intro s'
    rw [fill_add hs, hmem, h.fill s', not_or]
  · intro s' hs'
    rw [hmem, not_or] at hs'
    rw [argPosition_add hs, if_neg hs'.1]
    exact h.maskOff s' hs'.2

/-- An add with a mask of six bits keeps a well-formed profile so. -/
theorem wellFormed_add {sec : Seccomp} (h : sec.WellFormed) (syscall : ℤ)
    {argPosition : BitVec 32} (hmask : argPosition.toNat < 64) :
    (prctlDracoAddSeccomp sec syscall argPosition).1.WellFormed := by
  have hcount : ∀ s, (prctlDracoAddSeccomp sec syscall argPosition).1.argumentCount s =
      sec.argumentCount s := by
    intro s
    rw [argumentCount, positionBytes_add, argumentCount]
  refine ⟨registration_add h.toRegistration syscall argPosition, ?_, ?_, ?_⟩
  · rcases syscall_cases syscall with hr | ⟨s, hs, rfl⟩
    · rw [prctlDracoAddSeccomp_outOfRange hr]
      exact h.mask
    intro s'
    rw [argPosition_add hs]
    split_ifs
    · exact or_toNat_lt (h.mask s) hmask
    · exact h.mask s'
  · intro s hlt hs
    rw [hcount]
    exact h.countOff s hlt fun hmem => hs (h.mem_add syscall argPosition hmem)
  · intro s hlt
    rw [hcount]
    exact h.count s hlt

end Seccomp

end Draco
