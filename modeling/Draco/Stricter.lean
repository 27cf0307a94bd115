/-
# Do profiles only grow stricter?

An added mask never clears a bit, but a load reads the accumulated mask as a signed
number: with the sign bit set it lists no position at all.  So a further load keeps the
listed positions exactly when the pending masks leave each of them in its list
(`positions_grow_iff`), which for a load that stays in its rows means that the mask is
positive and still has their bits.
-/
import Draco.AnyMask

namespace Draco

open PartialRun

namespace Seccomp

/-! ## Which positions stay -/

/-- The load of the mask lists position `p`. -/
def NamesPosition (mask : BitVec 32) (p : UInt8) : Prop :=
  0 < mask.toInt ∧ 1 ≤ p.toNat ∧ mask.getLsbD (p.toNat - 1) = true

instance (mask : BitVec 32) (p : UInt8) : Decidable (NamesPosition mask p) :=
  inferInstanceAs (Decidable (_ ∧ _ ∧ _))

/-- The positions a load decodes are those its mask names. -/
theorem mem_decodedPositions_iff_names {mask : BitVec 32} {p : UInt8} :
    p ∈ decodedPositions 32 mask 1 ↔ NamesPosition mask p := by
  rw [mem_decodedPositions]
  refine and_congr_right fun _ => ⟨?_, ?_⟩
  · rintro ⟨i, hi, hbit, rfl⟩
    have hp : (UInt8.ofNat (i + 1)).toNat = i + 1 := by
      rw [UInt8.toNat_ofNat']
      omega
    rw [hp]
    exact ⟨by omega, hbit⟩
  · rintro ⟨hp, hbit⟩
    refine ⟨p.toNat - 1, BitVec.lt_of_getLsbD hbit, hbit, ?_⟩
    rw [Nat.sub_add_cancel hp, UInt8.ofNat_toNat]

/-- The pending masks leave `p` in the byte at `x`: they write it there last, or do not
write to the byte, which holds it. -/
def Leaves (sec : Seccomp) (x : ℕ) (p : UInt8) : Prop :=
  sec.lastWritten sec.registered x = some p ∨
    sec.lastWritten sec.registered x = none ∧ sec.positionBytes x = p

/-- The number of positions that a load leaves for a syscall: those of its mask, or the old
number if it has none. -/
def loadedCount (sec : Seccomp) (s : ℕ) : ℕ :=
  if s ∈ sec.registered then (sec.decoded s).length else sec.argumentCount s

/-- What a load must find to keep all positions, also one that leaves its rows: the pending
masks leave each of them in some cell of the list of its syscall. -/
def StaysListed (sec : Seccomp) : Prop :=
  ∀ s < 400, ∀ p ∈ sec.positions s,
    ∃ k < sec.loadedCount s, sec.Leaves (sys2argumentsAt s k) p

/-- The same for a load that stays in its rows: for a registered syscall, the mask is positive
and has the bits of the positions listed so far; one that is not registered lists positions
only after an earlier load has left its rows. -/
def StaysInRows (sec : Seccomp) : Prop :=
  (∀ s ∈ sec.registered, ∀ p ∈ sec.positions s, NamesPosition (sec.draco s).argPosition p) ∧
    ∀ s < 400, s ∉ sec.registered → ∀ p ∈ sec.positions s,
      ∃ k < sec.argumentCount s, sec.Leaves (sys2argumentsAt s k) p

theorem leaves_iff {sec : Seccomp} {x : ℕ} {p : UInt8} :
    sec.Leaves x p ↔ (prctlDracoLoadSeccomp sec).positionBytes x = p := by
  rw [prctlDracoLoadSeccomp_eq, positionBytes_foldl_loadSyscall, Leaves]
  cases sec.lastWritten sec.registered x <;> simp

/-! ## One load -/

variable {sec : Seccomp} {s : ℕ} {p : UInt8}

/-- The positions after a load that stays in the table. -/
theorem mem_positions_load_iff (hfit : sec.FitsTable sec.registered) :
    p ∈ (prctlDracoLoadSeccomp sec).positions s ↔
      ∃ k < sec.loadedCount s, sec.Leaves (sys2argumentsAt s k) p := by
  have hcount : (prctlDracoLoadSeccomp sec).argumentCount s = sec.loadedCount s := by
    rw [prctlDracoLoadSeccomp_eq, argumentCount_foldl_loadSyscall hfit, loadedCount]
  rw [positions, hcount]
  simp only [List.mem_map, List.mem_range, leaves_iff]
  rfl

theorem fitsTable_of_loadWrites (h : sec.Registration)
    (hin : ∀ w ∈ loadWrites sec, sys2argumentsAt w.1 w.2 < SYSCALL_COUNT * MAX_ARGUMENT_COUNT) :
    sec.FitsTable sec.registered := by
  intro r hr
  have hlt := h.lt r hr
  simp only [sys2argumentsAt, argumentCountTableAt, SYSCALL_COUNT, MAX_ARGUMENT_COUNT] at hin ⊢
  rcases Nat.eq_zero_or_pos (sec.decoded r).length with hzero | hpos
  · omega
  · -- the last position of the syscall
    have hlast := hin (r, (sec.decoded r).length - 1) (mem_loadWrites.mpr ⟨hr, by omega⟩)
    simp only at hlast
    omega

/-- In its rows, a load lists the bits of a positive mask. -/
theorem staysListed_iff_rows (h : sec.Registration)
    (hlen : ∀ r ∈ sec.registered, (sec.decoded r).length ≤ 6) :
    sec.StaysListed ↔ sec.StaysInRows := by
  have hfit := fitsTable_of_rows h.lt hlen
  have hnames : ∀ s ∈ sec.registered, ∀ p,
      (∃ k < sec.loadedCount s, sec.Leaves (sys2argumentsAt s k) p) ↔
        NamesPosition (sec.draco s).argPosition p := by
    intro s hs p
    rw [← mem_positions_load_iff hfit, prctlDracoLoadSeccomp_eq,
      positions_foldl_loadSyscall_of_mem h.lt hlen hs, decoded, mem_decodedPositions_iff_names]
  constructor
  · intro hstays
    refine ⟨fun s hs p hp => (hnames s hs p).mp (hstays s (h.lt s hs) p hp), ?_⟩
    intro s hlt hs p hp
    have hcell := hstays s hlt p hp
    rwa [loadedCount, if_neg hs] at hcell
  · rintro ⟨hmem, hnot⟩ s hlt p hp
    by_cases hs : s ∈ sec.registered
    · exact (hnames s hs p).mpr (hmem s hs p hp)
    · rw [loadedCount, if_neg hs]
      exact hnot s hlt hs p hp

/-- After loads that stayed in bounds the masks decide alone. -/
theorem staysInRows_of_bounded (h : sec.Bounded) :
    sec.StaysInRows ↔
      ∀ s ∈ sec.registered, ∀ p ∈ sec.positions s,
        NamesPosition (sec.draco s).argPosition p := by
  refine ⟨And.left, fun hmem => ⟨hmem, fun s hlt hs p hp => ?_⟩⟩
  rw [positions_of_countOff (h.countOff s hlt hs)] at hp
  exact absurd hp List.not_mem_nil

end Seccomp

open Seccomp

/-! ## Any history -/

/-- Every sequence of `prctl`s keeps the book-keeping of the registration. -/
theorem registration_run {filter : List Filter} {ops : List MaskOp} {sec : Seccomp}
    (h : run maskStep (zero filter) ops = some sec) : sec.Registration := by
  refine run_invariant (I := Registration) (fun sec op sec' hreg hstep => ?_)
    (wellFormed_zero filter).toRegistration h
  cases op with
  | add syscall argPosition =>
    cases hstep
    exact registration_add hreg syscall argPosition
  | load =>
    cases hstep
    exact registration_load hreg

/-- **When the listed positions only grow**: after any `prctl`s, a further one that writes
inside the table keeps every listed position exactly when it is an added mask, or a load
under which the positions stay listed.  When it writes inside its rows, that is a condition
on the masks. -/
theorem positions_grow_iff {filter : List Filter} {ops : List MaskOp} {op : MaskOp}
    {sec sec' : Seccomp} (h : run maskStep (zero filter) ops = some sec)
    (hstep : maskStep sec op = some sec')
    (hin : op = .load → ∀ w ∈ loadWrites sec,
      sys2argumentsAt w.1 w.2 < SYSCALL_COUNT * MAX_ARGUMENT_COUNT) :
    ((∀ s < 400, ∀ p ∈ sec.positions s, p ∈ sec'.positions s) ↔
      (op = .load → sec.StaysListed)) ∧
    ((∀ w ∈ loadWrites sec, w.2 < MAX_ARGUMENT_COUNT) →
      (sec.StaysListed ↔ sec.StaysInRows)) := by
  have hreg := registration_run h
  refine ⟨?_, fun hrows => staysListed_iff_rows hreg (loadWrites_lt_iff.mp hrows)⟩
  cases op with
  | add syscall argPosition =>
    cases hstep
    refine ⟨fun _ hop => absurd hop MaskOp.noConfusion, fun _ s _ p hp => ?_⟩
    unfold positions argumentCount sys2arguments at hp ⊢
    rwa [positionBytes_add]
  | load =>
    cases hstep
    have hfit := fitsTable_of_loadWrites hreg (hin rfl)
    constructor
    · intro hgrow _ s hs p hp
      exact (mem_positions_load_iff hfit).mp (hgrow s hs p hp)
    · intro hstays s hs p hp
      exact (mem_positions_load_iff hfit).mpr (hstays rfl s hs p hp)

/-- Masks without the sign bit: a second load keeps position 1 of syscall 41 and lists
position 3. -/
theorem positions_grow_secondBit :
    ∃ sec, run maskStep (zero []) [.add 41 1, .load, .add 41 4] = some sec ∧
      ∀ s < 400, ∀ p ∈ sec.positions s, p ∈ (prctlDracoLoadSeccomp sec).positions s := by
  have hfirst := bounded_add (bounded_zero []) 41 1
  have hload := bounded_add (bounded_load hfirst (by decide)) 41 4
  have hrun : run maskStep (zero []) [.add 41 1, .load, .add 41 4] = some _ := rfl
  have hgrow := positions_grow_iff hrun (show maskStep _ .load = some _ from rfl) fun _ => by decide
  refine ⟨_, hrun, hgrow.1.mpr fun _ => (hgrow.2 (by decide)).mpr ?_⟩
  exact (staysInRows_of_bounded hload).mpr (by decide +kernel)

/-- The sign bit: after `add(41, 1)` and a load syscall 41 lists position 1; after
`add(41, 0x80000000)` and a load it lists none. -/
theorem not_positions_grow_signBit :
    ∃ sec, run maskStep (zero []) [.add 41 1, .load, .add 41 0x80000000] = some sec ∧
      (∀ w ∈ loadWrites sec, w.2 < MAX_ARGUMENT_COUNT) ∧
      ¬ ∀ s < 400, ∀ p ∈ sec.positions s, p ∈ (prctlDracoLoadSeccomp sec).positions s := by
  refine ⟨_, rfl, by decide, fun h => ?_⟩
  exact absurd (h 41 (by decide) 1 (by decide)) (by decide)

end Draco
