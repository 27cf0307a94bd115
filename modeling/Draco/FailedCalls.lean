/-
# Failed calls of the library

`db_col_rule_add` sends its mask after the loop over the databases, whatever the loop
returned, and `sys_filter_load` publishes the masks before it generates the program.
A failed call therefore changes the profile as a successful one does.  It leaves it alone
when there is nothing to change: when the number is registered with all the bits that the
call compares (`samePending_sendMask_iff`), and when the tables hold what the pending masks
decode to (`sameEffective_load_iff`).  `failedCalls_iff` says so of the two functions, and
`upToDate_iff` reads the second condition off the listed positions.
-/
import Draco.Coverage

namespace Draco

/-! ## The two halves of a profile -/

/-- The pending profiles are the same. -/
structure SamePending (sec sec' : Seccomp) : Prop where
  draco : sec'.draco = sec.draco
  bitMap : sec'.bitMap = sec.bitMap
  dracoCount : sec'.dracoCount = sec.dracoCount

/-- The tables that the module reads are the same. -/
structure SameEffective (sec sec' : Seccomp) : Prop where
  sys2arguments : ∀ s < SYSCALL_COUNT, ∀ i < MAX_ARGUMENT_COUNT,
    sec'.sys2arguments s i = sec.sys2arguments s i
  argumentCount : ∀ s < SYSCALL_COUNT, sec'.argumentCount s = sec.argumentCount s

/-- The call has nothing new to send: it does not get past its array, or its number is out
of range, or the number is registered with the bits of all arguments that it compares. -/
def RuleAdd.Harmless (a : RuleAdd) (sec : Seccomp) : Prop :=
  a.Accepted → 0 ≤ a.syscall → a.syscall < 400 →
    (sec.draco a.syscall.toNat).fill ≠ 0 ∧ ∀ i, a.Compares i → sec.Pending a.syscall i

/-- A load has nothing new to write: the entries that the pending masks write hold what is
written there last. -/
structure Seccomp.UpToDate (sec : Seccomp) : Prop where
  sys2arguments : ∀ s < SYSCALL_COUNT, ∀ i < MAX_ARGUMENT_COUNT, ∀ p,
    sec.lastWritten sec.registered (sys2argumentsAt s i) = some p → sec.sys2arguments s i = p
  argumentCount : ∀ s < SYSCALL_COUNT, ∀ n,
    sec.lastWritten sec.registered (argumentCountTableAt s) = some n →
      sec.argumentCount s = n.toNat

/-! ## Adding a rule -/

theorem samePending_refl (sec : Seccomp) : SamePending sec sec := ⟨rfl, rfl, rfl⟩

/-- A mask has nothing new for a syscall that is registered with its bits. -/
theorem samePending_add_iff (sec : Seccomp) {s : ℕ} (hs : s < 400) (argPosition : BitVec 32) :
    SamePending sec (prctlDracoAddSeccomp sec s argPosition).1 ↔
      (sec.draco s).fill ≠ 0 ∧
        ∀ i, argPosition.getLsbD i = true → (sec.draco s).argPosition.getLsbD i = true := by
  constructor
  · intro h
    have hfill : (sec.draco s).fill ≠ 0 := by
      intro h0
      have hcount := h.dracoCount
      rw [Seccomp.prctlDracoAddSeccomp_inRange hs, fillBlock, if_pos h0] at hcount
      exact Nat.succ_ne_self _ hcount
    refine ⟨hfill, fun i hi => ?_⟩
    have hmask := congrArg DracoBlock.argPosition (congrFun h.draco s)
    rw [Seccomp.argPosition_add hs, if_pos rfl] at hmask
    rw [← hmask, BitVec.getLsbD_or, hi, Bool.or_true]
  · rintro ⟨hfill, hbits⟩
    have hor : (sec.draco s).argPosition ||| argPosition = (sec.draco s).argPosition := by
      refine BitVec.eq_of_getLsbD_eq fun i _ => ?_
      rw [BitVec.getLsbD_or]
      cases hi : argPosition.getLsbD i with
      | false => rw [Bool.or_false]
      | true => rw [hbits i hi, Bool.or_true]
    have hsame : (prctlDracoAddSeccomp sec s argPosition).1 = sec := by
      rw [Seccomp.prctlDracoAddSeccomp_inRange hs, fillBlock, if_neg hfill, orMask, hor,
        Function.update_eq_self]
    rw [hsame]
    exact samePending_refl sec

/-- **What a call leaves of the pending profile.** -/
theorem samePending_sendMask_iff (sec : Seccomp) (a : RuleAdd) :
    SamePending sec (a.sendMask sec) ↔ a.Harmless sec := by
  unfold RuleAdd.sendMask
  cases hcol : a.collected with
  | none =>
    have hacc := RuleAdd.collected_eq_none hcol
    exact ⟨fun _ h => absurd h hacc, fun _ => samePending_refl sec⟩
  | some r =>
    obtain ⟨chain, argPosition⟩ := r
    obtain ⟨hacc, -, hlt, hbits⟩ := RuleAdd.collected_eq_some hcol
    show SamePending sec (sysDracoAdd sec a.syscall argPosition).1 ↔ _
    rw [sysDracoAdd_fst]
    rcases Seccomp.syscall_cases a.syscall with hr | ⟨s, hs400, hs⟩
    · rw [Seccomp.prctlDracoAddSeccomp_outOfRange hr]
      exact ⟨fun _ _ h0 h400 => by omega, fun _ => samePending_refl sec⟩
    · rw [hs, samePending_add_iff sec hs400, RuleAdd.Harmless, hs,
        Int.toNat_natCast]
      constructor
      · rintro ⟨hfill, hall⟩ - - -
        exact ⟨hfill, fun i hi => ⟨by omega, by omega, hall i ((hbits i).mpr hi)⟩⟩
      · intro h
        obtain ⟨hfill, hall⟩ := h hacc (by omega) (by omega)
        refine ⟨hfill, fun i hi => ?_⟩
        -- the mask has six bits
        have hi6 : i < 6 := by
          by_contra h6
          have hpow : argPosition.toNat < 2 ^ i :=
            Nat.lt_of_lt_of_le hlt (Nat.pow_le_pow_right Nat.two_pos (Nat.le_of_not_lt h6))
          rw [BitVec.getLsbD, Nat.testBit_lt_two_pow hpow] at hi
          cases hi
        exact (hall ⟨i, hi6⟩ ((hbits ⟨i, hi6⟩).mp hi)).2.2

/-! ## Loading a filter -/

/-- A byte after a load is the old one when nothing else is written there. -/
theorem positionBytes_load_eq_iff (sec : Seccomp) (x : ℕ) :
    (prctlDracoLoadSeccomp sec).positionBytes x = sec.positionBytes x ↔
      ∀ b, sec.lastWritten sec.registered x = some b → sec.positionBytes x = b := by
  rw [Seccomp.prctlDracoLoadSeccomp_eq, Seccomp.positionBytes_foldl_loadSyscall]
  cases sec.lastWritten sec.registered x with
  | none => simp
  | some b => simp [eq_comm]

/-- **What a load leaves of the tables.** -/
theorem sameEffective_load_iff (sec : Seccomp) :
    SameEffective sec (prctlDracoLoadSeccomp sec) ↔ sec.UpToDate := by
  constructor
  · intro h
    refine ⟨fun s hs i hi => (positionBytes_load_eq_iff sec _).mp (h.sys2arguments s hs i hi),
      fun s hs n hn => ?_⟩
    have hcount := h.argumentCount s hs
    exact congrArg UInt8.toNat
      ((positionBytes_load_eq_iff sec _).mp (UInt8.toNat_inj.mp hcount) n hn)
  · intro h
    refine ⟨fun s hs i hi => (positionBytes_load_eq_iff sec _).mpr (h.sys2arguments s hs i hi),
      fun s hs => congrArg UInt8.toNat ((positionBytes_load_eq_iff sec _).mpr fun n hn => ?_)⟩
    exact UInt8.toNat_inj.mp (h.argumentCount s hs n hn)

theorem positionBytes_sysFilterLoad (F : Filter) (o : LoadOutcome) (sec : Seccomp) :
    (sysFilterLoad F o sec).1.positionBytes = (prctlDracoLoadSeccomp sec).positionBytes := by
  unfold sysFilterLoad
  split_ifs <;> rfl

theorem sameEffective_congr {sec sec₁ sec₂ : Seccomp}
    (h : sec₁.positionBytes = sec₂.positionBytes) :
    SameEffective sec sec₁ ↔ SameEffective sec sec₂ := by
  have hrow : sec₁.sys2arguments = sec₂.sys2arguments := by
    funext s i
    rw [Seccomp.sys2arguments, Seccomp.sys2arguments, h]
  have hcount : sec₁.argumentCount = sec₂.argumentCount := by
    funext s
    rw [Seccomp.argumentCount, Seccomp.argumentCount, h]
  constructor
  · intro hsame
    exact ⟨hrow ▸ hsame.sys2arguments, hcount ▸ hsame.argumentCount⟩
  · intro hsame
    exact ⟨hrow ▸ hsame.sys2arguments, hcount ▸ hsame.argumentCount⟩

/-- Where a syscall decodes to at most six positions, the tables are up to date when each
registered syscall lists what its mask decodes to. -/
theorem upToDate_iff {sec : Seccomp} (hlt : ∀ s ∈ sec.registered, s < 400)
    (hlen : ∀ s ∈ sec.registered, (sec.decoded s).length ≤ 6) :
    sec.UpToDate ↔ ∀ s ∈ sec.registered, sec.positions s = sec.decoded s := by
  rw [← sameEffective_load_iff]
  constructor
  · intro h s hs
    have hload := Seccomp.positions_foldl_loadSyscall_of_mem hlt hlen hs
    rw [← Seccomp.prctlDracoLoadSeccomp_eq] at hload
    have hcount := h.argumentCount s (hlt s hs)
    have hsix : sec.argumentCount s ≤ 6 := by
      rw [← hcount, ← Seccomp.length_positions, hload]
      exact hlen s hs
    rw [← hload, Seccomp.positions, Seccomp.positions, hcount]
    refine List.map_congr_left fun i hi => (h.sys2arguments s (hlt s hs) i ?_).symm
    exact Nat.lt_of_lt_of_le (List.mem_range.mp hi) hsix
  · intro h
    rw [Seccomp.prctlDracoLoadSeccomp_eq]
    refine ⟨fun s hs i hi => ?_, fun s hs => ?_⟩
    · rw [Seccomp.sys2arguments_foldl_loadSyscall hlt hlen hs hi]
      split_ifs with hmem
      · cases hget : (sec.decoded s)[i]? with
        | none => rfl
        | some p =>
          rw [← h s hmem, Seccomp.positions, List.getElem?_map] at hget
          obtain ⟨j, hj, rfl⟩ := Option.map_eq_some_iff.mp hget
          obtain ⟨hji, hget'⟩ := List.getElem?_eq_some_iff.mp hj
          rw [List.getElem_range] at hget'
          rw [hget', Option.getD_some]
      · rfl
    · rw [Seccomp.argumentCount_foldl_loadSyscall (Seccomp.fitsTable_of_rows hlt hlen)]
      split_ifs with hmem
      · rw [← h s hmem, Seccomp.length_positions]
      · rfl

/-! ## Failed calls -/

/-- **A failed call leaves the profile alone when there is nothing new in it**: a failed
`db_col_rule_add` that has stored nothing leaves the pending profile as it was exactly when
all that the rule compares is pending already, and a failed `sys_filter_load` leaves the
effective profile as it was exactly when it is up to date. -/
theorem failedCalls_iff (tables : SyscallTables) (native : Arch) (filters : List DbFilter)
    (a : RuleAdd) (F : Filter) (o : LoadOutcome) (sec : Seccomp) :
    ((dbColRuleAdd tables native filters sec a).2.2 < 0 →
      (dbColRuleAdd tables native filters sec a).1 = filters →
      (SamePending sec (dbColRuleAdd tables native filters sec a).2.1 ↔ a.Harmless sec)) ∧
    ((sysFilterLoad F o sec).2 < 0 →
      (SameEffective sec (sysFilterLoad F o sec).1 ↔ sec.UpToDate)) := by
  refine ⟨fun _ _ => ?_, fun _ => ?_⟩
  · rw [(dbColRuleAdd_eq tables native filters sec a).2.1]
    exact samePending_sendMask_iff sec a
  · rw [← sameEffective_load_iff]
    exact sameEffective_congr (positionBytes_sysFilterLoad F o sec)

/-- `SCMP_ACT_ALLOW` for `socket` with its first argument 2, without memory for the rule. -/
def failedSocket : RuleAdd :=
  { allowSocket [⟨0, .eq, 2, 0⟩] with outcome := fun _ => { AddOutcome.ok with mallocRule := false } }

/-- No memory for the program. -/
def LoadOutcome.noProgram : LoadOutcome := { LoadOutcome.ok with genBpf := false }

/-- A task whose filter reads the first argument of `socket`, with nothing else pending. -/
def firstArgumentLoaded : Seccomp :=
  prctlDracoLoadSeccomp (prctlDracoAddSeccomp (Seccomp.zero [fun _ => .allow]) 41 1).1

/-- The same task, which has added the second argument for its next filter. -/
def secondArgumentPending : Seccomp := (prctlDracoAddSeccomp firstArgumentLoaded 41 2).1

/-- With nothing pending but what is loaded, a rule for the same argument and a load fail
without effect. -/
theorem failedCalls_iff_nothingNew :
    SamePending firstArgumentLoaded
        (dbColRuleAdd .empty .x86_64 [⟨.x86_64, []⟩] firstArgumentLoaded failedSocket).2.1 ∧
      SameEffective firstArgumentLoaded
        (sysFilterLoad (fun _ => .allow) .noProgram firstArgumentLoaded).1 := by
  have h := failedCalls_iff .empty .x86_64 [⟨.x86_64, []⟩] failedSocket (fun _ => .allow)
    .noProgram firstArgumentLoaded
  have hpending : failedSocket.Harmless firstArgumentLoaded := by
    intro _ _ _
    decide
  have hloaded : firstArgumentLoaded.UpToDate :=
    (upToDate_iff (by decide) (by decide)).mpr (by decide)
  exact ⟨(h.1 (by decide) rfl).mpr hpending, (h.2 (by decide)).mpr hloaded⟩

/-- A rule that no database could take is pending, and a load without a program re-keys the
table of `socket`. -/
theorem not_failedCalls_harmless :
    ¬ (∀ (tables : SyscallTables) (native : Arch) (filters : List DbFilter) (sec : Seccomp)
        (a : RuleAdd), (dbColRuleAdd tables native filters sec a).2.2 < 0 →
        (dbColRuleAdd tables native filters sec a).1 = filters →
        SamePending sec (dbColRuleAdd tables native filters sec a).2.1) ∧
      ¬ (∀ (F : Filter) (o : LoadOutcome) (sec : Seccomp), (sysFilterLoad F o sec).2 < 0 →
        SameEffective sec (sysFilterLoad F o sec).1) := by
  constructor
  · intro hall
    have h := hall .empty .x86_64 [⟨.x86_64, []⟩] (Seccomp.zero []) failedSocket (by decide) rfl
    exact absurd h.dracoCount (by decide)
  · intro hall
    have h := hall (fun _ => .allow) .noProgram secondArgumentPending (by decide)
    exact absurd (h.argumentCount 41 (by decide)) (by decide)

end Draco
