/-
# Masks from any caller

Any process may issue the two Draco `prctl`s, with any `int` as the mask.  The masks
of a syscall are ORed; a load decodes the result as a signed number, with a loop that
is bounded by the number of its bits only.  This file follows such `prctl`s from the
zeroed profile and says when the position tables stay in bounds
(`masks_inBounds_iff`): as long as no load meets an accumulated mask of 64 or more.
-/
import Draco.Kernel
import Draco.Profile

namespace Draco

open PartialRun

/-! ## The two `prctl`s -/

/-- A Draco `prctl`. -/
inductive MaskOp where
  | add (syscall : ℤ) (argPosition : BitVec 32)
  | load

/-- One of them, for the profile of the task that issues it. -/
def maskStep (sec : Seccomp) : MaskOp → Option Seccomp
  | .add syscall argPosition => some (prctlDracoAddSeccomp sec syscall argPosition).1
  | .load => some (prctlDracoLoadSeccomp sec)

/-- The pairs `(syscall, pos)` for which the loop of `prctl_draco_load_seccomp` writes
`sys2arguments[syscall][pos]`. -/
def decodeWrites (syscall : ℕ) : (fuel : ℕ) → (argPosition : BitVec 32) → (pos : ℕ) →
    List (ℕ × ℕ)
  | 0, _, _ => []
  | fuel + 1, argPosition, pos =>
    if BitVec.slt 0 argPosition then
      if argPosition.getLsbD 0 then
        (syscall, pos) :: decodeWrites syscall fuel (argPosition.sshiftRight 1) (pos + 1)
      else decodeWrites syscall fuel (argPosition.sshiftRight 1) pos
    else []

/-- The writes to `sys2arguments` of a whole load. -/
def loadWrites (sec : Seccomp) : List (ℕ × ℕ) :=
  sec.registered.flatMap fun s => decodeWrites s 32 (sec.draco s).argPosition 0

/-- The loop writes as many positions as it decodes, one after the other. -/
theorem decodeWrites_eq (s fuel : ℕ) (mask : BitVec 32) (pos j : ℕ) :
    decodeWrites s fuel mask pos =
      (List.range' pos (decodedPositions fuel mask j).length).map fun i => (s, i) := by
  induction fuel generalizing mask pos j with
  | zero => rfl
  | succ fuel ih =>
    rw [decodeWrites, decodedPositions]
    split_ifs
    · rw [ih _ (pos + 1) (j + 1), List.length_cons, List.range'_succ, List.map_cons]
    · exact ih _ pos (j + 1)
    · rfl

theorem mem_loadWrites {sec : Seccomp} {s i : ℕ} :
    (s, i) ∈ loadWrites sec ↔ s ∈ sec.registered ∧ i < (sec.decoded s).length := by
  simp only [loadWrites, List.mem_flatMap, decodeWrites_eq _ _ _ _ 1, List.mem_map,
    List.mem_range'_1, Prod.mk.injEq]
  constructor
  · rintro ⟨r, hr, k, ⟨-, hk⟩, rfl, rfl⟩
    exact ⟨hr, by rwa [Nat.zero_add] at hk⟩
  · rintro ⟨hs, hi⟩
    exact ⟨s, hs, i, ⟨Nat.zero_le i, by rwa [Nat.zero_add]⟩, rfl, rfl⟩

/-- All writes stay in their row when no syscall has more than six positions. -/
theorem loadWrites_lt_iff {sec : Seccomp} :
    (∀ w ∈ loadWrites sec, w.2 < MAX_ARGUMENT_COUNT) ↔
      ∀ s ∈ sec.registered, (sec.decoded s).length ≤ 6 := by
  constructor
  · intro h s hs
    by_contra hlen
    exact absurd (h (s, 6) (mem_loadWrites.mpr ⟨hs, Nat.lt_of_not_le hlen⟩)) (Nat.lt_irrefl 6)
  · rintro h ⟨s, i⟩ hw
    obtain ⟨hs, hi⟩ := mem_loadWrites.mp hw
    exact Nat.lt_of_lt_of_le hi (h s hs)

/-! ## What a mask decodes to -/

/-- A position is decoded when the mask is positive and has its bit. -/
theorem mem_decodedPositions {mask : BitVec 32} {p : UInt8} :
    p ∈ decodedPositions 32 mask 1 ↔
      0 < mask.toInt ∧ ∃ i < 32, mask.getLsbD i = true ∧ p = UInt8.ofNat (i + 1) := by
  cases hmsb : mask.msb with
  | true =>
    rw [decodedPositions_of_neg hmsb]
    have hneg := toInt_neg_of_msb hmsb
    exact ⟨fun h => absurd h List.not_mem_nil, fun h => absurd h.1 (by omega)⟩
  | false =>
    rw [decodedPositions_of_nonneg hmsb mask.isLt, toInt_of_msb_false hmsb]
    simp only [List.mem_map, List.mem_filter, List.mem_range]
    constructor
    · rintro ⟨i, ⟨hi, hbit⟩, rfl⟩
      have hpos : mask.toNat ≠ 0 := by
        intro hzero
        rw [BitVec.getLsbD, hzero, Nat.zero_testBit] at hbit
        cases hbit
      exact ⟨by omega, i, hi, hbit, by rw [Nat.add_comm]⟩
    · rintro ⟨-, i, hi, hbit, rfl⟩
      exact ⟨i, ⟨hi, hbit⟩, by rw [Nat.add_comm]⟩

/-- **Which masks stay in bounds**: those below 64, as signed numbers. -/
theorem decodedPositions_inBounds_iff {mask : BitVec 32} :
    ((decodedPositions 32 mask 1).length ≤ 6 ∧
      ∀ p ∈ decodedPositions 32 mask 1, 1 ≤ p.toNat ∧ p.toNat ≤ 6) ↔ mask.toInt < 64 := by
  constructor
  · rintro ⟨-, hall⟩
    by_contra hge
    have hmsb : mask.msb = false := by
      by_contra hn
      have := toInt_neg_of_msb (Bool.eq_true_of_not_eq_false hn)
      omega
    rw [toInt_of_msb_false hmsb] at hge
    -- some bit from the seventh on is set
    obtain ⟨i, hi, hbit⟩ := Nat.exists_ge_and_testBit_of_ge_two_pow (n := 6) (x := mask.toNat)
      (by omega)
    have hlt : i < 32 := by
      by_contra hn
      exact absurd hbit (by
        rw [Nat.testBit_lt_two_pow (Nat.lt_of_lt_of_le mask.isLt
          (Nat.pow_le_pow_right (by decide) (by omega)))]
        exact Bool.false_ne_true)
    have hmem := hall (UInt8.ofNat (i + 1)) (mem_decodedPositions.mpr
      ⟨by rw [toInt_of_msb_false hmsb]; omega, i, hlt, hbit, rfl⟩)
    rw [UInt8.toNat_ofNat'] at hmem
    omega
  · intro hlt
    cases hmsb : mask.msb with
    | true =>
      rw [decodedPositions_of_neg hmsb]
      exact ⟨Nat.zero_le 6, fun p hp => absurd hp List.not_mem_nil⟩
    | false =>
      rw [toInt_of_msb_false hmsb] at hlt
      rw [decodedPositions_eq (by omega)]
      refine ⟨length_maskPositions_le mask, fun p hp => ?_⟩
      obtain ⟨i, hi, -, rfl⟩ := mem_maskPositions.mp hp
      rw [UInt8.toNat_ofNat']
      omega

/-! ## In bounds -/

namespace Seccomp

/-- Every syscall lists at most six positions, and they lie in `1..6`. -/
def InBounds (sec : Seccomp) : Prop :=
  ∀ s < 400, sec.argumentCount s ≤ MAX_ARGUMENT_COUNT ∧
    ∀ p ∈ sec.positions s, 1 ≤ p.toNat ∧ p.toNat ≤ 6

/-- Every later call under this profile fills, compares and copies at most six words, and
returns. -/
def KeysInside (sec : Seccomp) : Prop :=
  ∀ (m : Machine) (c : SysCall), (m.seccomp c.cur).positionBytes = sec.positionBytes →
    c.InRange → (m.callKey c).length ≤ MAX_ARGUMENT_COUNT ∧
      ∀ jhash, m.Live → ∃ m' r, callChecker jhash m c = some (m', r)

theorem InBounds.keysInside {sec : Seccomp} (h : sec.InBounds) : sec.KeysInside := by
  intro m c hbytes hc
  have hcount : (m.seccomp c.cur).argumentCount c.syscallId ≤ 6 := by
    rw [argumentCount, hbytes]
    exact (h c.syscallId (Machine.syscallId_lt hc)).1
  refine ⟨?_, fun jhash hm => ?_⟩
  · rw [Machine.length_callKey]
    exact hcount
  · rw [Machine.callChecker_live hm]
    exact Machine.handler_isSome jhash hm.owned fun _ => hcount

/-- What a sequence of `prctl`s whose loads stay in bounds keeps: the registration, no
positions for syscalls that are not registered, and the bounds. -/
structure Bounded (sec : Seccomp) : Prop where
  registration : sec.Registration
  countOff : ∀ s < 400, s ∉ sec.registered → sec.argumentCount s = 0
  inBounds : sec.InBounds

theorem bounded_zero (filter : List Filter) : (zero filter).Bounded where
  registration := (wellFormed_zero filter).toRegistration
  countOff := fun _ _ _ => rfl
  inBounds := fun _ _ => ⟨Nat.zero_le 6, fun _ hp => absurd hp List.not_mem_nil⟩

theorem positions_of_countOff {sec : Seccomp} {s : ℕ} (h : sec.argumentCount s = 0) :
    sec.positions s = [] := by
  rw [positions, h]
  rfl

/-- An added mask changes no list. -/
theorem bounded_add {sec : Seccomp} (h : sec.Bounded) (syscall : ℤ) (argPosition : BitVec 32) :
    (prctlDracoAddSeccomp sec syscall argPosition).1.Bounded := by
  have hbytes := positionBytes_add sec syscall argPosition
  refine ⟨registration_add h.registration syscall argPosition, fun s hs hreg => ?_, ?_⟩
  · rw [argumentCount, hbytes]
    exact h.countOff s hs fun hmem => hreg (h.registration.mem_add syscall argPosition hmem)
  · unfold InBounds positions argumentCount sys2arguments
    rw [hbytes]
    exact h.inBounds

/-- The lists after a load whose writes stay in their rows. -/
theorem positions_load_of_bounded {sec : Seccomp} (h : sec.Bounded)
    (hlen : ∀ s ∈ sec.registered, (sec.decoded s).length ≤ 6) {s : ℕ} (hs : s < 400) :
    (prctlDracoLoadSeccomp sec).positions s =
      if s ∈ sec.registered then sec.decoded s else [] := by
  rw [prctlDracoLoadSeccomp_eq]
  split_ifs with hreg
  · exact positions_foldl_loadSyscall_of_mem h.registration.lt hlen hreg
  · have hzero := h.countOff s hs hreg
    rw [positions_foldl_loadSyscall_of_notMem h.registration.lt hlen hs hreg (by omega),
      positions_of_countOff hzero]

/-- A load keeps the bounds when all accumulated masks are below 64. -/
theorem bounded_load {sec : Seccomp} (h : sec.Bounded)
    (hmask : ∀ s ∈ sec.registered, (sec.draco s).argPosition.toInt < 64) :
    (prctlDracoLoadSeccomp sec).Bounded := by
  have hdec : ∀ s ∈ sec.registered, (sec.decoded s).length ≤ 6 ∧
      ∀ p ∈ sec.decoded s, 1 ≤ p.toNat ∧ p.toNat ≤ 6 := fun s hs =>
    decodedPositions_inBounds_iff.mpr (hmask s hs)
  have hpos := fun s (hs : s < 400) =>
    positions_load_of_bounded h (fun s hs => (hdec s hs).1) hs
  refine ⟨registration_load h.registration, fun s hs hreg => ?_, fun s hs => ?_⟩
  · rw [registered_load] at hreg
    rw [← length_positions, hpos s hs, if_neg hreg]
    rfl
  · rw [← length_positions, hpos s hs]
    split_ifs with hreg
    · exact hdec s hreg
    · exact ⟨Nat.zero_le 6, fun p hp => absurd hp List.not_mem_nil⟩

end Seccomp

open Seccomp

/-- What a step has to meet: a load writes inside its rows, and afterwards lists and keys
are in bounds. -/
def StepInBounds (sec : Seccomp) (op : MaskOp) (sec' : Seccomp) : Prop :=
  (op = .load → ∀ w ∈ loadWrites sec, w.2 < MAX_ARGUMENT_COUNT) ∧ sec'.InBounds ∧
    sec'.KeysInside

/-- A load meets accumulated masks below 64 only. -/
def StepMasks (sec : Seccomp) (op : MaskOp) (_ : Seccomp) : Prop :=
  op = .load → ∀ s ∈ sec.registered, (sec.draco s).argPosition.toInt < 64

theorem bounded_maskStep {sec sec' : Seccomp} {op : MaskOp} (h : sec.Bounded)
    (hstep : maskStep sec op = some sec') (hmask : StepMasks sec op sec') : sec'.Bounded := by
  cases op with
  | add syscall argPosition =>
    cases hstep
    exact bounded_add h syscall argPosition
  | load =>
    cases hstep
    exact bounded_load h (hmask rfl)

/-- **When the position tables stay in bounds**: a sequence of `prctl`s with any arguments
stays in bounds throughout exactly when every load meets accumulated masks below 64 only. -/
theorem masks_inBounds_iff (filter : List Filter) (ops : List MaskOp) :
    AllSteps maskStep StepInBounds (zero filter) ops ↔
      AllSteps maskStep StepMasks (zero filter) ops := by
  refine allSteps_iff (I := Bounded) (fun sec op sec' h hstep => ⟨?_, fun hmask => ?_⟩)
    (fun sec op sec' h hstep hmask => bounded_maskStep h hstep hmask) (bounded_zero filter) ops
  · rintro ⟨hwrites, hin, -⟩ rfl s hs
    cases hstep
    have hlen := loadWrites_lt_iff.mp (hwrites rfl)
    have hlt := h.registration.lt s hs
    have hall := (hin s hlt).2
    rw [positions_load_of_bounded h hlen hlt, if_pos hs] at hall
    exact decodedPositions_inBounds_iff.mp ⟨hlen s hs, hall⟩
  · have hbounded := bounded_maskStep h hstep hmask
    refine ⟨?_, hbounded.inBounds, hbounded.inBounds.keysInside⟩
    rintro rfl
    exact loadWrites_lt_iff.mpr fun s hs =>
      (decodedPositions_inBounds_iff.mpr (hmask rfl s hs)).1

/-- One mask with seven bits, and a load: the seventh position goes to the row of the next
syscall. -/
theorem not_inBounds_sevenBits :
    ¬ AllSteps maskStep StepInBounds (zero []) [.add 41 0x7f, .load] := by
  intro h
  obtain ⟨-, h⟩ := h _ rfl
  obtain ⟨⟨hwrites, -⟩, -⟩ := h _ rfl
  exact absurd (hwrites rfl (41, 6) (by decide)) (by decide)

end Draco
