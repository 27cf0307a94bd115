/-
# The registration list of a profile

`prctl_draco_add_seccomp` appends to `bit_map` without a look at its length.  It does so
for a syscall whose `fill` is 0 only, and sets `fill`, so the entries are distinct
syscalls below 400 and there is room for every one that is still missing
(`Registration.room`).  After any calls the list is exactly that of the syscalls that
were passed, and the mask of each is the OR of the masks passed for it
(`bitMap_exact`).
-/
import Draco.Profile

namespace Draco

/-! ## Room in the list -/

namespace Seccomp

variable {sec : Seccomp}

/-- `draco_count` is the number of registered syscalls. -/
theorem length_registered (sec : Seccomp) : sec.registered.length = sec.dracoCount := by
  rw [registered, List.length_map, List.length_range]

/-- A syscall is registered when it stands in front of `draco_count`. -/
theorem mem_registered {s : ℕ} :
    s ∈ sec.registered ↔ ∃ i < sec.dracoCount, sec.bitMap i = s := by
  simp only [registered, List.mem_map, List.mem_range]

/-- Without duplicates, the elements of `bit_map` in front of `draco_count` are different. -/
theorem nodup_registered_iff :
    sec.registered.Nodup ↔
      ∀ i < sec.dracoCount, ∀ j < sec.dracoCount, sec.bitMap i = sec.bitMap j → i = j := by
  rw [registered, List.nodup_map_iff_inj_on List.nodup_range]
  simp only [List.mem_range]

namespace Registration

/-- No more than 400 syscalls are registered. -/
theorem dracoCount_le (h : sec.Registration) : sec.dracoCount ≤ SYSCALL_COUNT := by
  rw [← length_registered]
  exact length_le_of_nodup_of_lt h.nodup h.lt

/-- **A syscall that is not registered leaves room for itself.** -/
theorem room (h : sec.Registration) {s : ℕ} (hs : s < SYSCALL_COUNT)
    (hfill : (sec.draco s).fill = 0) : sec.dracoCount < SYSCALL_COUNT := by
  have hnodup : (s :: sec.registered).Nodup := List.nodup_cons.mpr ⟨(h.fill s).mp hfill, h.nodup⟩
  have hlt : ∀ r ∈ s :: sec.registered, r < SYSCALL_COUNT := by
    intro r hr
    rcases List.mem_cons.mp hr with rfl | hr
    · exact hs
    · exact h.lt r hr
  have hle := length_le_of_nodup_of_lt hnodup hlt
  rw [List.length_cons, length_registered] at hle
  exact hle

end Registration

/-! ## One call -/

/-- `fill` is 0 or 1. -/
def BinaryFill (sec : Seccomp) : Prop :=
  ∀ s, (sec.draco s).fill = 0 ∨ (sec.draco s).fill = 1

/-- A block is filled or not. -/
theorem binaryFill_add (h : sec.BinaryFill) (syscall : ℤ) (argPosition : BitVec 32) :
    (prctlDracoAddSeccomp sec syscall argPosition).1.BinaryFill := by
  intro s
  unfold prctlDracoAddSeccomp
  split_ifs
  · exact h s
  · rw [fill_orMask, fillBlock]
    split_ifs
    · by_cases hs : s = syscall.toNat
      · simp [hs]
      · simp only [Function.update_of_ne hs]
        exact h s
    · exact h s

end Seccomp

/-! ## Any number of calls -/

/-- Calls of `prctl_draco_add_seccomp`, one after the other. -/
def addMasks (sec : Seccomp) (adds : List (ℤ × BitVec 32)) : Seccomp :=
  adds.foldl (fun sec add => (prctlDracoAddSeccomp sec add.1 add.2).1) sec

/-- The masks that the calls pass for `s`, ORed together. -/
def orMasks (adds : List (ℤ × BitVec 32)) (s : ℕ) : BitVec 32 :=
  ((adds.filter fun add => add.1 = (s : ℤ)).map Prod.snd).foldl (· ||| ·) 0

/-- The calls pass a mask for `s`. -/
def Passed (adds : List (ℤ × BitVec 32)) (s : ℕ) : Prop := ∃ add ∈ adds, add.1 = s

section Snoc

variable (adds : List (ℤ × BitVec 32)) (add : ℤ × BitVec 32)

/-- One more call comes last. -/
theorem addMasks_snoc (sec : Seccomp) :
    addMasks sec (adds ++ [add]) =
      (prctlDracoAddSeccomp (addMasks sec adds) add.1 add.2).1 := by
  rw [addMasks, List.foldl_append]
  rfl

/-- One more call adds its bits to those of its number. -/
theorem orMasks_snoc (s : ℕ) :
    orMasks (adds ++ [add]) s =
      if add.1 = s then orMasks adds s ||| add.2 else orMasks adds s := by
  rw [orMasks, List.filter_append, List.map_append, List.foldl_append, ← orMasks]
  split_ifs with h
  · simp [h]
  · simp [h]

/-- One more call passes its number. -/
theorem passed_snoc (s : ℕ) : Passed (adds ++ [add]) s ↔ add.1 = s ∨ Passed adds s := by
  constructor
  · rintro ⟨a, ha, hs⟩
    rcases List.mem_append.mp ha with ha | ha
    · exact Or.inr ⟨a, ha, hs⟩
    · rw [List.mem_singleton.mp ha] at hs
      exact Or.inl hs
  · rintro (hs | ⟨a, ha, hs⟩)
    · exact ⟨add, List.mem_append_right _ (List.mem_singleton_self _), hs⟩
    · exact ⟨a, List.mem_append_left _ ha, hs⟩

end Snoc

/-- What the calls leave in a profile that was zero. -/
structure Collected (adds : List (ℤ × BitVec 32)) (sec : Seccomp) : Prop where
  registration : sec.Registration
  binary : sec.BinaryFill
  mem : ∀ s, s ∈ sec.registered ↔ s < SYSCALL_COUNT ∧ Passed adds s
  mask : ∀ s < SYSCALL_COUNT, (sec.draco s).argPosition = orMasks adds s

/-- Nothing was passed to a new task. -/
theorem collected_zero (filter : List Filter) : Collected [] (.zero filter) where
  registration := (Seccomp.wellFormed_zero filter).toRegistration
  binary := fun _ => Or.inl rfl
  mem := by
    intro s
    constructor
    · intro hs
      exact absurd hs List.not_mem_nil
    · rintro ⟨-, add, hadd, -⟩
      exact absurd hadd List.not_mem_nil
  mask := fun _ _ => rfl

/-- One more call. -/
theorem Collected.snoc {adds : List (ℤ × BitVec 32)} {sec : Seccomp} (h : Collected adds sec)
    (add : ℤ × BitVec 32) :
    Collected (adds ++ [add]) (prctlDracoAddSeccomp sec add.1 add.2).1 := by
  obtain ⟨syscall, argPosition⟩ := add
  refine ⟨Seccomp.registration_add h.registration syscall argPosition,
    Seccomp.binaryFill_add h.binary syscall argPosition, fun s => ?_, fun s hs => ?_⟩
  · rw [passed_snoc]
    rcases Seccomp.syscall_cases syscall with hr | ⟨r, hlt, rfl⟩
    · rw [Seccomp.prctlDracoAddSeccomp_outOfRange hr, h.mem]
      simp only [SYSCALL_COUNT]
      constructor
      · rintro ⟨hs, hp⟩
        exact ⟨hs, Or.inr hp⟩
      · rintro ⟨hs, rfl | hp⟩
        · omega
        · exact ⟨hs, hp⟩
    · rw [Seccomp.mem_registered_add h.registration hlt, h.mem]
      simp only [SYSCALL_COUNT, Int.natCast_inj]
      constructor
      · rintro (rfl | ⟨hs, hp⟩)
        · exact ⟨hlt, Or.inl rfl⟩
        · exact ⟨hs, Or.inr hp⟩
      · rintro ⟨hs, rfl | hp⟩
        · exact Or.inl rfl
        · exact Or.inr ⟨hs, hp⟩
  · rw [orMasks_snoc]
    rcases Seccomp.syscall_cases syscall with hr | ⟨r, hlt, rfl⟩
    · have hne : syscall ≠ s := by
        simp only [SYSCALL_COUNT] at hs
        omega
      rw [Seccomp.prctlDracoAddSeccomp_outOfRange hr, if_neg hne, h.mask s hs]
    · rw [Seccomp.argPosition_add hlt]
      by_cases hrs : s = r
      · subst hrs
        rw [if_pos rfl, if_pos rfl, h.mask s hs]
      · rw [if_neg hrs, if_neg (by omega), h.mask s hs]

/-- **What the calls leave is what they passed.** -/
theorem collected_addMasks (filter : List Filter) (adds : List (ℤ × BitVec 32)) :
    Collected adds (addMasks (.zero filter) adds) := by
  induction adds using List.reverseRecOn with
  | nil => exact collected_zero filter
  | append_singleton adds add ih =>
    rw [addMasks_snoc]
    exact ih.snoc add

/-! ## The list is exact -/

/-- What the registration list of `sec` and its blocks say of the calls that built it,
and of the next call. -/
structure ExactList (adds : List (ℤ × BitVec 32)) (sec : Seccomp) : Prop where
  count : sec.dracoCount ≤ SYSCALL_COUNT
  distinct : ∀ i < sec.dracoCount, ∀ j < sec.dracoCount, sec.bitMap i = sec.bitMap j → i = j
  listed : ∀ s, (∃ i < sec.dracoCount, sec.bitMap i = s) ↔ (sec.draco s).fill = 1
  binary : ∀ s, (sec.draco s).fill = 0 ∨ (sec.draco s).fill = 1
  passed : ∀ s, (sec.draco s).fill = 1 ↔ s < SYSCALL_COUNT ∧ Passed adds s
  mask : ∀ s < SYSCALL_COUNT, (sec.draco s).argPosition = orMasks adds s
  unmasked : ∀ s, (sec.draco s).fill ≠ 1 → (sec.draco s).argPosition = 0
  outOfRange : ∀ syscall argPosition, syscall < 0 ∨ (SYSCALL_COUNT : ℤ) ≤ syscall →
    prctlDracoAddSeccomp sec syscall argPosition = (sec, -1)
  room : ∀ s < SYSCALL_COUNT, (sec.draco s).fill = 0 → sec.dracoCount < SYSCALL_COUNT
  visits : prctlDracoLoadSeccomp sec = sec.registered.foldl loadSyscall sec ∧
    ∀ s, sec.registered.count s = if (sec.draco s).fill = 1 then 1 else 0

/-- `fill` is 1 for the registered syscalls. -/
theorem Collected.fill_eq_one_iff {adds : List (ℤ × BitVec 32)} {sec : Seccomp}
    (h : Collected adds sec) (s : ℕ) : (sec.draco s).fill = 1 ↔ s ∈ sec.registered := by
  have hzero := h.registration.fill s
  rcases h.binary s with hf | hf
  · rw [hf]
    exact iff_of_false (by decide) (hzero.mp hf)
  · rw [hf] at hzero
    refine iff_of_true hf (not_not.mp fun hs => ?_)
    exact absurd (hzero.mpr hs) (by decide)

/-- The list of the passed numbers is exact. -/
theorem Collected.exactList {adds : List (ℤ × BitVec 32)} {sec : Seccomp}
    (h : Collected adds sec) : ExactList adds sec where
  count := h.registration.dracoCount_le
  distinct := Seccomp.nodup_registered_iff.mp h.registration.nodup
  listed := by
    intro s
    rw [h.fill_eq_one_iff, Seccomp.mem_registered]
  binary := h.binary
  passed := by
    intro s
    rw [h.fill_eq_one_iff, h.mem]
  mask := h.mask
  unmasked := by
    intro s hs
    rw [Ne, h.fill_eq_one_iff] at hs
    exact h.registration.maskOff s hs
  outOfRange := fun _ _ => Seccomp.prctlDracoAddSeccomp_outOfRange
  room := fun _ => h.registration.room
  visits := by
    refine ⟨Seccomp.prctlDracoLoadSeccomp_eq sec, fun s => ?_⟩
    rw [h.registration.nodup.count, if_congr (h.fill_eq_one_iff s).symm rfl rfl]

/-- **The registration list is exact and never overflows**: after any calls of
`prctl_draco_add_seccomp` with any numbers and masks, `bit_map` lists each syscall in
range that was passed once and no other, with the OR of its masks. -/
theorem bitMap_exact (filter : List Filter) (adds : List (ℤ × BitVec 32)) :
    ExactList adds (addMasks (.zero filter) adds) :=
  (collected_addMasks filter adds).exactList

end Draco
