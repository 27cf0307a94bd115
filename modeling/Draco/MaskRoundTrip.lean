/-
# From comparisons to keys

Three conventions number the arguments of a system call: the library sets bit `i`
for argument `i`, the kernel lists position `i + 1`, and the module reads the
register of that position.  This file follows a collection for x86_64 through any
calls that succeed and any loads in between (`pending_run`) and shows that the
three agree after a last load: the positions listed for a syscall are those of the
arguments that its rules compare (`comparedArgs`), in ascending order, and the key
is made of the registers of those arguments.
-/
import Draco.Coverage
import Draco.FastPath
import Mathlib.Data.Fintype.Card

namespace Draco

open PartialRun

/-! ## Rules and loads in between -/

/-- What a task does with a collection: it adds a rule, asks the kernel to publish the
masks (`prctl(1000)`), or loads the filter. -/
inductive RuleOp where
  | add (a : RuleAdd)
  | dracoLoad
  | filterLoad (F : Filter) (o : LoadOutcome)

/-- One step on the collection and the profile of the task; calls that add a rule must
succeed. -/
def ruleStep (tables : SyscallTables) (native : Arch) (s : List DbFilter × Seccomp) :
    RuleOp → Option (List DbFilter × Seccomp)
  | .add a => addStep tables native s a
  | .dracoLoad => some (s.1, prctlDracoLoadSeccomp s.2)
  | .filterLoad F o => some (s.1, (sysFilterLoad F o s.2).1)

/-- The rules that are added. -/
def addsOf (ops : List RuleOp) : List RuleAdd :=
  ops.filterMap fun
    | .add a => some a
    | _ => none

/-- The arguments that some rule for syscall `nr` compares with one of the six operators
other than `SCMP_CMP_MASKED_EQ`, in ascending order. -/
def comparedArgs (adds : List RuleAdd) (nr : ℤ) : List (Fin 6) :=
  (List.finRange 6).filter fun i => ∃ a ∈ adds, a.syscall = nr ∧ a.Compares i

theorem mem_comparedArgs {adds : List RuleAdd} {nr : ℤ} {i : Fin 6} :
    i ∈ comparedArgs adds nr ↔ ∃ a ∈ adds, a.syscall = nr ∧ a.Compares i := by
  simp [comparedArgs]

theorem nodup_comparedArgs (adds : List RuleAdd) (nr : ℤ) : (comparedArgs adds nr).Nodup :=
  (List.nodup_finRange 6).filter _

/-- A load publishes masks and leaves them pending. -/
theorem pending_sysFilterLoad {sec : Seccomp} (h : sec.WellFormed) (F : Filter)
    (o : LoadOutcome) :
    (sysFilterLoad F o sec).1.WellFormed ∧ (sysFilterLoad F o sec).1.draco = sec.draco := by
  have hload := Seccomp.wellFormed_load h
  have hdraco := Seccomp.draco_load sec
  unfold sysFilterLoad
  split_ifs
  · exact ⟨hload, hdraco⟩
  · exact ⟨hload, hdraco⟩
  · exact ⟨hload, hdraco⟩
  · exact ⟨⟨⟨hload.nodup, hload.lt, hload.fill, hload.maskOff⟩, hload.mask, hload.countOff,
      hload.count⟩, hdraco⟩
  · exact ⟨hload, hdraco⟩

/-- One step adds the bits of its rule, if it adds one. -/
theorem pending_ruleStep {tables : SyscallTables} {native : Arch} {s u : List DbFilter × Seccomp}
    {op : RuleOp} (hs : s.2.WellFormed) (h : ruleStep tables native s op = some u) :
    u.2.WellFormed ∧ ∀ (nr : ℕ) (i : Fin 6), nr < 400 →
      (u.2.Pending nr i ↔
        s.2.Pending nr i ∨ ∃ a ∈ addsOf [op], a.syscall = nr ∧ a.Compares i) := by
  cases op with
  | add a =>
    simp only [ruleStep, addStep] at h
    split_ifs at h with hrc
    have hacc : a.Accepted := ((dbColRuleAdd_eq tables native s.1 s.2 a).2.2.mp hrc).1
    rw [Option.some.injEq, addRule_eq] at h
    subst h
    refine ⟨RuleAdd.wellFormed_sendMask hs a, fun nr i hnr => ?_⟩
    have hadds : addsOf [.add a] = [a] := rfl
    rw [RuleAdd.pending_sendMask, hadds, List.exists_mem_cons_iff]
    refine or_congr_right ?_
    constructor
    · rintro ⟨-, -, -, heq, hcomp⟩
      exact Or.inl ⟨heq, hcomp⟩
    · rintro (⟨heq, hcomp⟩ | ⟨b, hb, -⟩)
      · exact ⟨by omega, by omega, hacc, heq, hcomp⟩
      · cases hb
  | dracoLoad =>
    cases h
    refine ⟨Seccomp.wellFormed_load hs, fun nr i _ => ?_⟩
    rw [Seccomp.Pending, Seccomp.draco_load]
    exact (or_iff_left (by simp [addsOf])).symm
  | filterLoad F o =>
    cases h
    obtain ⟨hwf, hdraco⟩ := pending_sysFilterLoad hs F o
    refine ⟨hwf, fun nr i _ => ?_⟩
    rw [Seccomp.Pending, hdraco]
    exact (or_iff_left (by simp [addsOf])).symm

/-- **What is pending after a run**: the bits of before, and those of the arguments that
the added rules compare. -/
theorem pending_run {tables : SyscallTables} {native : Arch} {s s' : List DbFilter × Seccomp}
    {ops : List RuleOp} (hs : s.2.WellFormed)
    (h : run (ruleStep tables native) s ops = some s') :
    s'.2.WellFormed ∧ ∀ (nr : ℕ) (i : Fin 6), nr < 400 →
      (s'.2.Pending nr i ↔
        s.2.Pending nr i ∨ ∃ a ∈ addsOf ops, a.syscall = nr ∧ a.Compares i) := by
  induction ops generalizing s with
  | nil =>
    cases h
    exact ⟨hs, fun nr i _ => by simp [addsOf]⟩
  | cons op ops ih =>
    obtain ⟨u, hu, h'⟩ := run_cons_inv h
    obtain ⟨hwf₁, hstep⟩ := pending_ruleStep hs hu
    obtain ⟨hwf, hrun⟩ := ih hwf₁ h'
    refine ⟨hwf, fun nr i hnr => ?_⟩
    have hadds : addsOf (op :: ops) = addsOf [op] ++ addsOf ops :=
      List.filterMap_append (l := [op])
    rw [hrun nr i hnr, hstep nr i hnr, hadds, or_assoc]
    simp only [List.mem_append, or_and_right, exists_or]

/-! ## The three conventions -/

/-- The set bits of a mask as positions, by way of the argument numbers. -/
theorem maskPositions_eq_map (mask : BitVec 32) :
    maskPositions mask =
      ((List.finRange 6).filter fun i => mask.getLsbD i.val).map
        fun i => UInt8.ofNat (i.val + 1) := by
  rw [maskPositions, ← List.map_coe_finRange_eq_range, List.filter_map, List.map_map]
  rfl

/-- Positions in the order of their arguments ascend. -/
theorem pairwise_positions (p : Fin 6 → Bool) :
    (((List.finRange 6).filter p).map fun i => UInt8.ofNat (i.val + 1)).Pairwise (· < ·) := by
  rw [List.pairwise_map]
  refine List.Pairwise.filter p (List.Pairwise.imp_of_mem ?_ (List.pairwise_lt_finRange 6))
  intro i j _ _ hij
  rw [UInt8.lt_iff_toNat_lt, UInt8.toNat_ofNat', UInt8.toNat_ofNat']
  omega

/-- The positions after a run and a last load. -/
theorem positions_run {tables : SyscallTables} {filter : List Filter} {ops : List RuleOp}
    {dbs : List DbFilter} {s : List DbFilter × Seccomp} {native : Arch}
    (h : run (ruleStep tables native) (dbs, Seccomp.zero filter) ops = some s)
    {nr : ℕ} (hnr : nr < 400) :
    (prctlDracoLoadSeccomp s.2).positions nr =
      (comparedArgs (addsOf ops) nr).map fun i => UInt8.ofNat (i.val + 1) := by
  obtain ⟨hwf, hpend⟩ := pending_run (Seccomp.wellFormed_zero filter) h
  rw [Seccomp.positions_load hwf hnr, maskPositions_eq_map, comparedArgs]
  congr 1
  apply List.filter_congr
  intro i _
  have hbit : s.2.Pending nr i ↔ (s.2.draco nr).argPosition.getLsbD i.val = true := by
    rw [Seccomp.Pending, Int.toNat_natCast]
    exact ⟨fun hp => hp.2.2, fun hp => ⟨by omega, by omega, hp⟩⟩
  rw [Bool.eq_iff_iff, ← hbit, hpend nr i hnr, decide_eq_true_iff]
  exact or_iff_right (Seccomp.not_pending_zero filter nr i)

/-- **The mask survives the whole way.**  After successful calls on a collection for
x86_64, loads in between and a last load, the kernel counts and lists the arguments that
the rules of a syscall compare, in ascending order, and a key consists of the registers of
those arguments.  Nothing else about the run matters. -/
theorem mask_roundTrip (tables : SyscallTables) (filter : List Filter) {ops : List RuleOp}
    {s : List DbFilter × Seccomp}
    (h : run (ruleStep tables .x86_64) ([⟨.x86_64, []⟩], Seccomp.zero filter) ops = some s) :
    (∀ nr < 400,
      (prctlDracoLoadSeccomp s.2).argumentCount nr =
          (Finset.univ.filter fun i : Fin 6 =>
            ∃ a ∈ addsOf ops, a.syscall = nr ∧ a.Compares i).card ∧
        (prctlDracoLoadSeccomp s.2).positions nr =
          (comparedArgs (addsOf ops) nr).map (fun i => UInt8.ofNat (i.val + 1)) ∧
        ((prctlDracoLoadSeccomp s.2).positions nr).Pairwise (· < ·) ∧
        ∀ regs, argumentList (prctlDracoLoadSeccomp s.2) nr regs =
          (comparedArgs (addsOf ops) nr).map (syscallArgument .x86_64 regs)) ∧
      ∀ ops' s',
        run (ruleStep tables .x86_64) ([⟨.x86_64, []⟩], Seccomp.zero filter) ops' = some s' →
        (∀ (nr : ℤ) (i : Fin 6), (∃ a ∈ addsOf ops', a.syscall = nr ∧ a.Compares i) ↔
          ∃ a ∈ addsOf ops, a.syscall = nr ∧ a.Compares i) →
        ∀ nr < 400, (prctlDracoLoadSeccomp s'.2).positions nr =
          (prctlDracoLoadSeccomp s.2).positions nr := by
  refine ⟨fun nr hnr => ⟨?_, positions_run h hnr, ?_, fun regs => ?_⟩,
    fun ops' s' h' hsame nr hnr => ?_⟩
  · rw [← Seccomp.length_positions, positions_run h hnr, List.length_map,
      ← List.toFinset_card_of_nodup (nodup_comparedArgs _ _)]
    congr 1
    ext i
    rw [Finset.mem_filter, List.mem_toFinset, mem_comparedArgs]
    exact ⟨fun hi => ⟨Finset.mem_univ i, hi⟩, And.right⟩
  · rw [positions_run h hnr]
    exact pairwise_positions _
  · rw [argumentList, positions_run h hnr, List.map_map]
    exact List.map_congr_left fun i _ => getArgument_ofNat_succ regs i
  · rw [positions_run h hnr, positions_run h' hnr]
    congr 1
    apply List.filter_congr
    intro i _
    rw [decide_eq_decide]
    exact hsame nr i

/-- Two rules for `socket` that compare arguments 2 and 0, and then argument 1, with a load
in between. -/
def socketRules : List RuleOp :=
  [.add (allowSocket [⟨2, .ne, 6, 0⟩, ⟨0, .eq, 2, 0⟩]), .dracoLoad,
    .add (allowSocket [⟨1, .gt, 1, 0⟩, ⟨3, .maskedEq, 0xf, 1⟩])]

theorem mask_roundTrip_socket : ∃ s,
    run (ruleStep .empty .x86_64) ([⟨.x86_64, []⟩], Seccomp.zero []) socketRules = some s ∧
      (prctlDracoLoadSeccomp s.2).positions 41 = [1, 2, 3] := by
  obtain ⟨s, h, -⟩ := exists_run_of_map (ruleStep .empty .x86_64)
    ([⟨.x86_64, []⟩], Seccomp.zero []) socketRules (fun _ => true) (by decide)
  refine ⟨s, h, ?_⟩
  rw [((mask_roundTrip .empty [] h).1 41 (by decide)).2.1]
  decide

end Draco
