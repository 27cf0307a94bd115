/-
# Does the profile cover the filter?

On a collection for the native architecture alone the rule of a call is stored as
it was requested, and the mask names the arguments that it compares otherwise than
by `SCMP_CMP_MASKED_EQ`.  The lists that `sys_filter_load` publishes therefore
decide the action of the filter exactly when no argument that is compared by
`SCMP_CMP_MASKED_EQ` only can change it (`covers_iff`).
-/
import Draco.Architectures
import Draco.Lib.Run
import Draco.Lib.Sensitive

namespace Draco

open PartialRun Sensitive

/-! ## Rules and the arguments they compare -/

/-- A rule does not look at arguments that it does not compare. -/
theorem DbApiRule.holds_update {r : DbApiRule} {i : Fin 6} (h : (r.args i).valid = false)
    (x : Fin 6 → UInt64) (v : UInt64) : r.holds (Function.update x i v) ↔ r.holds x := by
  unfold DbApiRule.holds
  refine forall_congr' fun j => imp_congr_right fun hj => ?_
  have hji : j ≠ i := by
    rintro rfl
    rw [h] at hj
    exact absurd hj (by decide)
  rw [Function.update_of_ne hji]

/-- The action for a number is not sensitive to an argument that no rule for that number
compares. -/
theorem not_sensitiveAt_ruleAction {rules : List DbApiRule} {nr : ℤ} {i : Fin 6}
    (h : ∀ r ∈ rules, r.syscall = nr → (r.args i).valid = false) (actDefault : Action) :
    ¬ SensitiveAt (ruleAction rules actDefault nr) i := by
  rintro ⟨x, v, hne⟩
  apply hne
  unfold ruleAction
  rw [List.find?_congr]
  intro r hr
  rw [decide_eq_decide]
  exact and_congr_right fun heq => DbApiRule.holds_update (h r hr heq) x v

/-! ## Successful calls -/

/-- `db_col_rule_add` as a step that must succeed. -/
def addStep (tables : SyscallTables) (native : Arch) (s : List DbFilter × Seccomp)
    (a : RuleAdd) : Option (List DbFilter × Seccomp) :=
  if (dbColRuleAdd tables native s.1 s.2 a).2.2 = 0 then some (addRule tables native s a)
  else none

/-- After successful calls on a collection for a native architecture without a
`rule_add` function the database holds the requested rules in order. -/
theorem run_addStep {tables : SyscallTables} {native : Arch}
    (hnative : native.hasRuleAdd = false) {rules : List DbApiRule} {sec : Seccomp}
    {adds : List RuleAdd} {s : List DbFilter × Seccomp}
    (h : run (addStep tables native) ([⟨native, rules⟩], sec) adds = some s) :
    s = ([⟨native, rules ++ adds.map RuleAdd.rule⟩], adds.foldl RuleAdd.sendMask sec) ∧
      ∀ a ∈ adds, a.Accepted := by
  induction adds generalizing rules sec with
  | nil =>
    rw [run_nil, Option.some.injEq] at h
    rw [List.map_nil, List.append_nil]
    exact ⟨h.symm, fun a ha => absurd ha List.not_mem_nil⟩
  | cons a adds ih =>
    obtain ⟨u, hu, h'⟩ := run_cons_inv h
    unfold addStep at hu
    split_ifs at hu with hrc
    obtain ⟨hacc, hall⟩ := (dbColRuleAdd_eq tables native _ _ a).2.2.mp hrc
    have hstored : a.stored tables native native = [a.rule] := by
      have hle := (a.archAdd_allOrNothing tables native native).1
      rw [RuleAdd.stored, if_pos hacc, a.archAdd_native tables hnative,
        if_pos (Int.le_antisymm hle (hall _ List.mem_cons_self))]
    rw [Option.some.injEq, addRule_eq, List.map_singleton, RuleAdd.storeIn, hstored] at hu
    subst hu
    obtain ⟨hs, haccs⟩ := ih h'
    refine ⟨?_, ?_⟩
    · rw [hs, List.append_assoc]
      rfl
    · intro b hb
      rcases List.mem_cons.mp hb with rfl | hb
      · exact hacc
      · exact haccs b hb

/-! ## Coverage -/

/-- The profile covers the rules: two calls that agree at the listed positions get the same
action. -/
def Seccomp.Covers (sec : Seccomp) (rules : List DbApiRule) (actDefault : Action) : Prop :=
  ∀ (nr : ℤ) (x y : Fin 6 → UInt64), (∀ i, sec.Lists nr i → x i = y i) →
    ruleAction rules actDefault nr x = ruleAction rules actDefault nr y

/-- From the zeroed profile the lists name the arguments compared otherwise than by
`SCMP_CMP_MASKED_EQ`. -/
theorem lists_iff_compares (filter : List Filter) {adds : List RuleAdd}
    (hrange : ∀ a ∈ adds, 0 ≤ a.syscall ∧ a.syscall < 400) (hacc : ∀ a ∈ adds, a.Accepted)
    (F : Filter) (o : LoadOutcome) (nr : ℤ) (i : Fin 6) :
    (sysFilterLoad F o (adds.foldl RuleAdd.sendMask (.zero filter))).1.Lists nr i ↔
      ∃ a ∈ adds, a.syscall = nr ∧ a.Compares i := by
  rw [RuleAdd.lists_load_foldl (Seccomp.wellFormed_zero filter)]
  constructor
  · rintro (hzero | ⟨-, -, a, ha, -, hnr, hcomp⟩)
    · exact absurd hzero (Seccomp.not_pending_zero filter nr i)
    · exact ⟨a, ha, hnr, hcomp⟩
  · rintro ⟨a, ha, rfl, hcomp⟩
    exact Or.inr ⟨(hrange a ha).1, (hrange a ha).2, a, ha, hacc a ha, rfl, hcomp⟩

/-- An argument that no call for the number names does not change the action. -/
theorem not_sensitiveAt_of_not_compares {adds : List RuleAdd} {nr : ℤ} {i : Fin 6}
    (hplain : ∀ a ∈ adds, a.syscall = nr → ¬ a.Compares i)
    (hmasked : ∀ a ∈ adds, a.syscall = nr → ¬ a.ComparesMasked i) (actDefault : Action) :
    ¬ SensitiveAt (ruleAction (adds.map RuleAdd.rule) actDefault nr) i := by
  apply not_sensitiveAt_ruleAction
  intro r hr hnr
  obtain ⟨a, ha, rfl⟩ := List.mem_map.mp hr
  rw [← Bool.not_eq_true]
  intro hv
  obtain ⟨c, hc, hi⟩ := RuleAdd.valid_chain hv
  by_cases hop : c.op = .maskedEq
  · exact hmasked a ha hnr ⟨c, hc, hi, hop⟩
  · exact hplain a ha hnr ⟨c, hc, hi, hop⟩

/-- **When the profile covers the filter**: exactly when no argument that the rules for
a number compare by `SCMP_CMP_MASKED_EQ` only can change the action for that number. -/
theorem covers_iff {tables : SyscallTables} {filter : List Filter} {adds : List RuleAdd}
    {s : List DbFilter × Seccomp} (hrange : ∀ a ∈ adds, 0 ≤ a.syscall ∧ a.syscall < 400)
    (h : run (addStep tables .x86_64) ([⟨.x86_64, []⟩], Seccomp.zero filter) adds = some s)
    (F : Filter) (o : LoadOutcome) (actDefault : Action) :
    (∀ db ∈ s.1, (sysFilterLoad F o s.2).1.Covers db.rules actDefault) ↔
      ∀ (nr : ℤ) (i : Fin 6), (∃ a ∈ adds, a.syscall = nr ∧ a.ComparesMasked i) →
        (∀ a ∈ adds, a.syscall = nr → ¬ a.Compares i) →
        ¬ SensitiveAt (ruleAction (adds.map RuleAdd.rule) actDefault nr) i := by
  obtain ⟨rfl, hacc⟩ := run_addStep rfl h
  have hlists := lists_iff_compares filter hrange hacc F o
  simp only [List.forall_mem_singleton, List.nil_append]
  constructor
  · intro hcov nr i _ hno
    apply dependsOn_iff.mp (fun x y hxy => hcov nr x y hxy)
    intro hi
    obtain ⟨a, ha, hnr, hcomp⟩ := (hlists nr i).mp hi
    exact hno a ha hnr hcomp
  · intro hmasked nr x y hxy
    have hdep : DependsOn (ruleAction (adds.map RuleAdd.rule) actDefault nr)
        {i | (sysFilterLoad F o (adds.foldl RuleAdd.sendMask (.zero filter))).1.Lists nr i} := by
      rw [dependsOn_iff]
      intro i hi
      have hno : ∀ a ∈ adds, a.syscall = nr → ¬ a.Compares i := fun a ha hnr hcomp =>
        hi ((hlists nr i).mpr ⟨a, ha, hnr, hcomp⟩)
      by_cases hm : ∃ a ∈ adds, a.syscall = nr ∧ a.ComparesMasked i
      · exact hmasked nr i hm hno
      · exact not_sensitiveAt_of_not_compares hno
          (fun a ha hnr hcomp => hm ⟨a, ha, hnr, hcomp⟩) actDefault
    exact hdep hxy

/-- Syscall tables that know no syscall. -/
def SyscallTables.empty : SyscallTables := ⟨fun _ _ => none, fun _ _ => NR_SCMP_ERROR⟩

/-- `SCMP_ACT_ALLOW` for `socket`, syscall 41, with the given comparisons. -/
def allowSocket (argArray : List ScmpArgCmp) : RuleAdd :=
  ⟨false, .allow, 41, argArray, true, fun _ => .ok⟩

/-- Argument 1 is compared by `SCMP_CMP_MASKED_EQ` in one rule and by `SCMP_CMP_EQ` in
another: it is listed, and the profile covers both rules. -/
theorem covers_two_sockets : ∃ s,
    run (addStep .empty .x86_64) ([⟨.x86_64, []⟩], Seccomp.zero [])
      [allowSocket [⟨0, .eq, 2, 0⟩, ⟨1, .maskedEq, 0xf, 1⟩], allowSocket [⟨1, .eq, 2, 0⟩]] =
        some s ∧
      ∀ db ∈ s.1, (sysFilterLoad (fun _ => .kill) .ok s.2).1.Covers db.rules .kill := by
  obtain ⟨s, h, -⟩ := exists_run_of_map (addStep .empty .x86_64)
    ([⟨.x86_64, []⟩], Seccomp.zero [])
    [allowSocket [⟨0, .eq, 2, 0⟩, ⟨1, .maskedEq, 0xf, 1⟩], allowSocket [⟨1, .eq, 2, 0⟩]]
    (fun _ => true) (by decide)
  refine ⟨s, h, (covers_iff (by decide) h (fun _ => .kill) .ok .kill).mpr ?_⟩
  have honly : ∀ a ∈
      [allowSocket [⟨0, .eq, 2, 0⟩, ⟨1, .maskedEq, 0xf, 1⟩], allowSocket [⟨1, .eq, 2, 0⟩]],
      a.syscall = 41 ∧ ∀ i : Fin 6, a.ComparesMasked i → i = 1 := by decide
  intro nr i hmasked hno
  obtain ⟨a, ha, hnr, hm⟩ := hmasked
  obtain ⟨h41, hi⟩ := honly a ha
  rw [hi i hm] at hno
  apply absurd _ (hno _ (List.mem_cons_of_mem _ List.mem_cons_self) (h41.symm.trans hnr))
  decide

/-- A rule that compares argument 1 of `socket` by mask only: nothing is listed for
`socket`, and calls with 1 and 2 there get different actions. -/
theorem masked_socket_not_covered : ∃ s,
    run (addStep .empty .x86_64) ([⟨.x86_64, []⟩], Seccomp.zero [])
      [allowSocket [⟨1, .maskedEq, 0xf, 1⟩]] = some s ∧
      ¬ ∀ db ∈ s.1, (sysFilterLoad (fun _ => .kill) .ok s.2).1.Covers db.rules .kill := by
  obtain ⟨s, h, hdiff⟩ := exists_run_of_map (addStep .empty .x86_64)
    ([⟨.x86_64, []⟩], Seccomp.zero []) [allowSocket [⟨1, .maskedEq, 0xf, 1⟩]]
    (fun s => s.1.any fun db =>
      (sysFilterLoad (fun _ => .kill) .ok s.2).1.argumentCount 41 == 0 &&
        ruleAction db.rules .kill 41 (fun _ => 1) !=
          ruleAction db.rules .kill 41 (fun _ => 2)) (by decide)
  refine ⟨s, h, fun hcov => ?_⟩
  obtain ⟨db, hdb, htest⟩ := List.any_eq_true.mp hdiff
  rw [Bool.and_eq_true, beq_iff_eq, bne_iff_ne] at htest
  refine htest.2 (hcov db hdb 41 _ _ fun i hi => ?_)
  have hnone : (sysFilterLoad (fun _ => .kill) .ok s.2).1.positions 41 = [] := by
    rw [Seccomp.positions, htest.1, List.range_zero, List.map_nil]
  exact absurd hi.2.2 (by rw [show (41 : ℤ).toNat = 41 from rfl, hnone]; exact List.not_mem_nil)

end Draco
