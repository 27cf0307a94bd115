/-
# Rules on several architectures

`arch_filter_rule_add` translates the number of a rule for every architecture of
the collection, and `x86_rule_add` moves socket and ipc calls to the multiplexing
calls `socketcall` and `ipc`, with one more comparison on argument 0.
`RuleAdd.archAdd_allOrNothing` says that a database gets all of them or none.
The mask, however, is sent once and for the number before the translation, so the
profile lists what the databases compare only where some call sent that number
itself.
-/
import Draco.Collection

namespace Draco

/-! ## The rules of one architecture -/

/-- The numbers under which the rule for syscall `sys` is stored on `arch`, each with the
operation that argument 0 has to equal when it is a multiplexing call. -/
def concreteCalls (arch : Arch) (sys : ℤ) : List (ℤ × Option ℤ) :=
  if arch.hasRuleAdd = false then [(sys, none)]
  else if (sys ≤ -100 ∧ -120 ≤ sys) ∨ (359 ≤ sys ∧ sys ≤ 373) then
    let sysA := if 0 < sys then sockMux sys else sys
    let sysB := if 0 < sys then sys else sockDemux sys
    if sysA = NR_SCMP_UNDEF then [(sysB, none)]
    else if sysB = NR_SCMP_UNDEF then [(102, some ((-sysA) % 100))]
    else [(102, some ((-sysA) % 100)), (sysB, none)]
  else if sys ≤ -200 ∧ -224 ≤ sys then [(117, some ((-sys) % 200))]
  else [(sys, none)]

/-- The rule as it is stored under a concrete number. -/
def DbApiRule.rewriteTo (rule : DbApiRule) (call : ℤ × Option ℤ) : DbApiRule :=
  match call.2 with
  | some operation => rule.muxed call.1 operation
  | none => { rule with syscall := call.1 }

@[simp] theorem DbApiRule.syscall_rewriteTo (rule : DbApiRule) (call : ℤ × Option ℤ) :
    (rule.rewriteTo call).syscall = call.1 := by
  obtain ⟨nr, _ | operation⟩ := call <;> rfl

/-- A return code that is zero or negative, and with it the given rules or none. -/
def AllOrNothing (rules : List DbApiRule) (p : ℤ × List DbApiRule) : Prop :=
  p.1 ≤ 0 ∧ p.2 = if p.1 = 0 then rules else []

namespace AllOrNothing

variable {rules : List DbApiRule}

/-- A return code of zero comes with all the rules. -/
theorem ok : AllOrNothing rules (0, rules) := ⟨Int.le_refl 0, (if_pos rfl).symm⟩

/-- A failure comes with none. -/
theorem fail {rc : ℤ} (h : rc < 0) : AllOrNothing rules (rc, []) :=
  ⟨Int.le_of_lt h, (if_neg (Int.ne_of_lt h)).symm⟩

/-- A branch is all or nothing if both sides are. -/
theorem ite {c : Prop} [Decidable c] {p q : ℤ × List DbApiRule}
    (hp : c → AllOrNothing rules p) (hq : ¬ c → AllOrNothing rules q) :
    AllOrNothing rules (if c then p else q) := by
  split_ifs with h
  · exact hp h
  · exact hq h

end AllOrNothing

/-- The transaction of `x86_rule_add`. -/
theorem transaction_allOrNothing (o : AddOutcome) (rules : List DbApiRule) :
    AllOrNothing rules
      (if rules.length = 2 ∧ o.mallocRuleB = false then (-ENOMEM, [])
      else if o.transactionStart.val < 0 then (o.transactionStart.val, [])
      else if addAll o.dbRuleAdd rules < 0 then (addAll o.dbRuleAdd rules, [])
      else (0, rules)) := by
  apply AllOrNothing.ite
  · exact fun _ => .fail (by decide)
  · intro _
    apply AllOrNothing.ite
    · exact fun hneg => .fail hneg
    · intro _
      apply AllOrNothing.ite
      · exact fun hneg => .fail hneg
      · exact fun _ => .ok

/-- `x86_rule_add` stores the rules of all the calls it translates to, or fails. -/
theorem x86RuleAdd_allOrNothing (o : AddOutcome) (strict : Bool) (rule : DbApiRule) :
    AllOrNothing ((concreteCalls .x86 rule.syscall).map rule.rewriteTo)
      (x86RuleAdd o strict rule) := by
  unfold x86RuleAdd concreteCalls
  rw [if_neg (by decide)]
  apply AllOrNothing.ite
  · -- socket calls
    intro hsock
    rw [if_pos hsock]
    apply AllOrNothing.ite
    · exact fun _ => .fail (by decide)
    · intro _
      apply AllOrNothing.ite
      · exact fun _ => .fail (by decide)
      · intro _
        have hlist : ∀ sysA sysB : ℤ,
            (if sysA = NR_SCMP_UNDEF then [(sysB, none)]
            else if sysB = NR_SCMP_UNDEF then [(102, some ((-sysA) % 100))]
            else [(102, some ((-sysA) % 100)), (sysB, none)]).map rule.rewriteTo =
            if sysA = NR_SCMP_UNDEF then [{ rule with syscall := sysB }]
            else if sysB = NR_SCMP_UNDEF then [rule.muxed 102 ((-sysA) % 100)]
            else [rule.muxed 102 ((-sysA) % 100), { rule with syscall := sysB }] := by
          intro sysA sysB
          split_ifs <;> rfl
        dsimp only
        rw [hlist]
        exact transaction_allOrNothing o _
  · intro hsock
    rw [if_neg hsock]
    apply AllOrNothing.ite
    · -- ipc calls
      intro hipc
      rw [if_pos hipc]
      apply AllOrNothing.ite
      · exact fun _ => .fail (by decide)
      · intro _
        apply AllOrNothing.ite
        · exact fun hneg => .fail hneg
        · exact fun _ => .ok
    · intro hipc
      rw [if_neg hipc]
      apply AllOrNothing.ite
      · intro _
        apply AllOrNothing.ite
        · exact fun hneg => .fail hneg
        · exact fun _ => .ok
      · intro _
        apply AllOrNothing.ite
        · exact fun _ => .fail (by decide)
        · exact fun _ => .ok

/-- The architectures with a `rule_add` of their own multiplex the same calls. -/
theorem concreteCalls_of_hasRuleAdd {arch : Arch} (h : arch.hasRuleAdd = true) (sys : ℤ) :
    concreteCalls arch sys = concreteCalls .x86 sys := by
  unfold concreteCalls
  rw [h]
  rfl

/-- **The rules that a call stores in a database**: one for every concrete number of the
translated syscall, or none. -/
theorem RuleAdd.archAdd_allOrNothing (tables : SyscallTables) (native : Arch) (a : RuleAdd)
    (arch : Arch) :
    AllOrNothing
      ((archSyscallTranslate tables native arch a.syscall).elim [] fun sys =>
        (concreteCalls arch sys).map a.rule.rewriteTo)
      (a.archAdd tables native arch) := by
  unfold RuleAdd.archAdd archRules
  apply AllOrNothing.ite
  · exact fun _ => .fail (by decide)
  intro _
  cases archSyscallTranslate tables native arch a.syscall with
  | none => exact .fail (by decide)
  | some sys =>
    -- the number of the rule is overwritten, so the translated rule can stand for it
    have hrule : (concreteCalls arch sys).map a.rule.rewriteTo =
        (concreteCalls arch sys).map (DbApiRule.rewriteTo ⟨a.action, sys, a.chain⟩) := by
      apply List.map_congr_left
      rintro ⟨nr, _ | operation⟩ _ <;> rfl
    show AllOrNothing ((concreteCalls arch sys).map a.rule.rewriteTo) _
    rw [hrule]
    apply AllOrNothing.ite
    · exact fun _ => .fail (by decide)
    intro _
    apply AllOrNothing.ite
    · intro hadd
      rw [concreteCalls_of_hasRuleAdd hadd]
      exact x86RuleAdd_allOrNothing (a.outcome arch) a.strict _
    · intro hadd
      have hcalls : (concreteCalls arch sys).map (DbApiRule.rewriteTo ⟨a.action, sys, a.chain⟩) =
          [⟨a.action, sys, a.chain⟩] := by
        rw [concreteCalls, if_pos (Bool.eq_false_iff.mpr hadd)]
        rfl
      rw [hcalls]
      apply AllOrNothing.ite
      · exact fun _ => .fail (by decide)
      · intro _
        apply AllOrNothing.ite
        · exact fun _ => .ok
        · intro hrc
          exact .fail (Int.lt_iff_le_and_ne.mpr ⟨((a.outcome arch).dbRuleAdd _).property, hrc⟩)

/-- On the native architecture, if it has no `rule_add` function, the rule is stored as it
is. -/
theorem RuleAdd.archAdd_native (tables : SyscallTables) {native : Arch}
    (hnative : native.hasRuleAdd = false) (a : RuleAdd) :
    (a.archAdd tables native native).2 =
      if (a.archAdd tables native native).1 = 0 then [a.rule] else [] := by
  have htr : archSyscallTranslate tables native native a.syscall = some a.syscall :=
    if_neg (not_not_intro rfl)
  rw [(a.archAdd_allOrNothing tables native native).2, htr, Option.elim_some, concreteCalls,
    if_pos hnative]
  rfl

/-! ## What the databases compare -/

/-- The rule compares argument `i` with an operator other than `SCMP_CMP_MASKED_EQ`. -/
def DbApiRule.Compares (r : DbApiRule) (i : Fin 6) : Prop :=
  (r.args i).valid = true ∧ (r.args i).op ≠ .maskedEq

instance (r : DbApiRule) (i : Fin 6) : Decidable (r.Compares i) :=
  inferInstanceAs (Decidable (_ ∧ _))

/-- A rewritten rule compares what the user compares, and argument 0 where the call is
multiplexed. -/
theorem DbApiRule.compares_rewriteTo {a : RuleAdd} (h : a.Accepted) (call : ℤ × Option ℤ)
    (i : Fin 6) :
    (a.rule.rewriteTo call).Compares i ↔ a.Compares i ∨ (call.2 ≠ none ∧ i.val = 0) := by
  obtain ⟨nr, _ | operation⟩ := call
  · rw [RuleAdd.compares_iff h]
    simp [DbApiRule.rewriteTo, DbApiRule.Compares, RuleAdd.rule]
  · show (a.rule.muxed nr operation).Compares i ↔ _
    unfold DbApiRule.Compares DbApiRule.muxed
    by_cases hi : i.val = 0
    · simp only [if_pos hi]
      exact iff_of_true ⟨trivial, by decide⟩ (Or.inr ⟨Option.some_ne_none _, hi⟩)
    · simp only [hi, if_false, and_false, or_false]
      exact (RuleAdd.compares_iff h i).symm

/-- The call makes the database of `arch` compare argument `i` for the concrete number
`nr`: the database takes the rule, `nr` is one of the numbers that the translated syscall
has there, and `i` is an argument compared by the call or the operation of a
multiplexing call. -/
def RuleAdd.ComparesOn (tables : SyscallTables) (native : Arch) (a : RuleAdd) (arch : Arch)
    (nr : ℤ) (i : Fin 6) : Prop :=
  a.Accepted ∧ (a.archAdd tables native arch).1 = 0 ∧
    ∃ sys, archSyscallTranslate tables native arch a.syscall = some sys ∧
      ∃ operation, (nr, operation) ∈ concreteCalls arch sys ∧
        (a.Compares i ∨ (operation ≠ none ∧ i.val = 0))

/-- An add compares an argument on an architecture where one of the rules it stores there does. -/
theorem RuleAdd.comparesOn_iff {tables : SyscallTables} {native : Arch} {a : RuleAdd}
    {arch : Arch} {nr : ℤ} {i : Fin 6} :
    a.ComparesOn tables native arch nr i ↔
      ∃ r ∈ a.stored tables native arch, r.syscall = nr ∧ r.Compares i := by
  unfold RuleAdd.ComparesOn RuleAdd.stored
  by_cases hacc : a.Accepted
  · rw [if_pos hacc, (a.archAdd_allOrNothing tables native arch).2]
    by_cases hrc : (a.archAdd tables native arch).1 = 0
    · rw [if_pos hrc]
      cases archSyscallTranslate tables native arch a.syscall with
      | none => simp
      | some sys =>
        constructor
        · rintro ⟨-, -, sys', hsys, operation, hmem, hcomp⟩
          obtain rfl := Option.some.inj hsys
          exact ⟨_, List.mem_map_of_mem hmem, DbApiRule.syscall_rewriteTo _ _,
            (DbApiRule.compares_rewriteTo hacc _ i).mpr hcomp⟩
        · rintro ⟨r, hr, hnr, hcomp⟩
          obtain ⟨⟨nr', operation⟩, hmem, rfl⟩ := List.mem_map.mp hr
          rw [DbApiRule.syscall_rewriteTo] at hnr
          obtain rfl : nr' = nr := hnr
          exact ⟨hacc, hrc, sys, rfl, operation, hmem,
            (DbApiRule.compares_rewriteTo hacc _ i).mp hcomp⟩
    · simp [hrc]
  · simp [hacc]

/-! ## Coverage of every architecture -/

/-- Every argument that a rule of the collection compares for a concrete number is listed
for that number. -/
def Seccomp.ListsAll (sec : Seccomp) (filters : List DbFilter) : Prop :=
  ∀ db ∈ filters, ∀ r ∈ db.rules, 0 ≤ r.syscall → r.syscall < 400 →
    ∀ i, r.Compares i → sec.Lists r.syscall i

/-- **When the profile covers every architecture**: exactly when each argument that some
database compares for a concrete number was pending before, or was sent by a call that
names this very number. -/
theorem archCovered_iff (tables : SyscallTables) (native : Arch) (archs : List Arch)
    {sec : Seccomp} (h : sec.WellFormed) (adds : List RuleAdd) (F : Filter) (o : LoadOutcome)
    {s : List DbFilter × Seccomp}
    (hs : adds.foldl (addRule tables native) (archs.map fun arch => ⟨arch, []⟩, sec) = s) :
    (sysFilterLoad F o s.2).1.ListsAll s.1 ↔
      ∀ arch ∈ archs, ∀ a ∈ adds, ∀ nr i, 0 ≤ nr → nr < 400 →
        a.ComparesOn tables native arch nr i →
        sec.Pending nr i ∨ ∃ b ∈ adds, b.Sends nr i := by
  subst hs
  rw [foldl_addRule]
  have hlists : ∀ nr i, 0 ≤ nr → nr < 400 →
      ((sysFilterLoad F o (adds.foldl RuleAdd.sendMask sec)).1.Lists nr i ↔
        sec.Pending nr i ∨ ∃ b ∈ adds, b.Sends nr i) := by
    intro nr i h0 h400
    rw [RuleAdd.lists_load_foldl h]
    simp only [h0, h400, true_and]
  constructor
  · intro hall arch harch a ha nr i h0 h400 hcomp
    obtain ⟨r, hr, rfl, hrcomp⟩ := RuleAdd.comparesOn_iff.mp hcomp
    rw [← hlists r.syscall i h0 h400]
    refine hall ⟨arch, [] ++ adds.flatMap fun a => a.stored tables native arch⟩ ?_ r ?_ h0 h400
      i hrcomp
    · rw [List.map_map]
      exact List.mem_map_of_mem harch
    · exact List.mem_flatMap.mpr ⟨a, ha, hr⟩
  · intro hall db hdb r hr h0 h400 i hcomp
    rw [List.map_map] at hdb
    obtain ⟨arch, harch, rfl⟩ := List.mem_map.mp hdb
    obtain ⟨a, ha, hr⟩ := List.mem_flatMap.mp hr
    rw [hlists r.syscall i h0 h400]
    exact hall arch harch a ha r.syscall i h0 h400
      (RuleAdd.comparesOn_iff.mpr ⟨r, hr, rfl, hcomp⟩)

/-- The names of `syslog` and `socket` on x86_64 and x86. -/
def someTables : SyscallTables where
  resolveNum := fun arch nr =>
    match arch, nr with
    | .x86_64, 103 => some "syslog"
    | .x86_64, 41 => some "socket"
    | _, _ => none
  resolveName := fun arch name =>
    match arch, name with
    | .x86_64, "syslog" => 103
    | .x86, "syslog" => 103
    | .x86_64, "socket" => 41
    | .x86, "socket" => -101
    | _, _ => NR_SCMP_ERROR

/-- `SCMP_ACT_ALLOW` with one comparison, on argument 0. -/
def allowArg0 (syscall : ℤ) : RuleAdd :=
  ⟨false, .allow, syscall, [⟨0, .eq, 2, 0⟩], true, fun _ => .ok⟩

/-- `syslog` has the number 103 on both architectures, so both are covered. -/
theorem syslog_covered_on_both : ∃ s,
    [allowArg0 103].foldl (addRule someTables .x86_64)
      ([Arch.x86_64, .x86].map fun arch => ⟨arch, []⟩, Seccomp.zero []) = s ∧
      (sysFilterLoad (fun _ => .kill) .ok s.2).1.ListsAll s.1 := by
  refine ⟨_, rfl, (archCovered_iff someTables .x86_64 [.x86_64, .x86]
    (Seccomp.wellFormed_zero []) [allowArg0 103] (fun _ => .kill) .ok rfl).mpr ?_⟩
  have hstored : ∀ arch ∈ [Arch.x86_64, .x86],
      ∀ r ∈ (allowArg0 103).stored someTables .x86_64 arch,
        r.syscall = 103 ∧ ∀ i : Fin 6, r.Compares i → i = 0 := by decide
  intro arch harch a ha nr i _ _ hcomp
  obtain rfl := List.mem_singleton.mp ha
  obtain ⟨r, hr, rfl, hrcomp⟩ := RuleAdd.comparesOn_iff.mp hcomp
  obtain ⟨hnr, hi⟩ := hstored arch harch r hr
  rw [hnr, hi i hrcomp]
  exact Or.inr ⟨_, ha, by decide⟩

/-- A rule for `socket` that compares argument 0 is stored on x86 for `socketcall`, 102,
and for the direct call, 359; for neither of them anything is listed. -/
theorem socket_not_covered_on_x86 : ∃ s,
    [allowArg0 41].foldl (addRule someTables .x86_64)
      ([Arch.x86_64, .x86].map fun arch => ⟨arch, []⟩, Seccomp.zero []) = s ∧
      ¬ (sysFilterLoad (fun _ => .kill) .ok s.2).1.ListsAll s.1 := by
  refine ⟨_, rfl, fun hall => ?_⟩
  obtain ⟨db, hdb, r, hr, hnr, hcomp⟩ : ∃ db ∈
      ([allowArg0 41].foldl (addRule someTables .x86_64)
        ([Arch.x86_64, .x86].map fun arch => ⟨arch, []⟩, Seccomp.zero [])).1,
      ∃ r ∈ db.rules, r.syscall = 359 ∧ r.Compares 0 := by decide
  have hlisted := hall db hdb r hr (by omega) (by omega) 0 hcomp
  rw [hnr] at hlisted
  revert hlisted
  decide

end Draco
