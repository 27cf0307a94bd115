/-
# What the fast path lets through

`insert_value` records the key of a call when it misses, before the filters of
the task have judged the call.  A call that hits is a call whose key an earlier
call of the same task and number presented (`hits_inv`); whether that
earlier call was allowed is not part of the table.  The main result says
what follows for a filter that reads the listed arguments only: the fast path
agrees with the filter in exactly the runs that do not repeat a call which the
filter denied and the table remembers.
-/
import Draco.Refinement

namespace Draco

open PartialRun Machine

/-! ## Keys -/

theorem getArgument_ofNat_succ (regs : PtRegs) (i : Fin 6) :
    getArgument regs (UInt8.ofNat (i + 1)) = syscallArgument .x86_64 regs i := by
  match i with
  | 0 | 1 | 2 | 3 | 4 | 5 => rfl

/-- Calls of one task and syscall have equal keys when the registers at the listed
positions are equal. -/
theorem key_eq_iff {profile : TaskId → Seccomp} {c d : SysCall} (hcur : d.cur = c.cur)
    (hid : d.syscallId = c.syscallId) :
    d.key profile = c.key profile ↔
      ∀ p ∈ (profile c.cur).positions c.syscallId, getArgument d.regs p = getArgument c.regs p := by
  rw [SysCall.key, SysCall.key, argumentList, argumentList, hcur, hid, List.map_inj_left]

/-! ## Hits come from earlier calls -/

/-- A hit has an earlier call of the same task and number with the same key since the
module was empty, which the table remembered right after that call. -/
theorem hits_inv_of_empty {jhash : List UInt64 → UInt32} {profile : TaskId → Seccomp}
    {calls : List SysCall} {m₀ m : Machine} {c : SysCall}
    (h₀ : Refines jhash profile m₀ Cache.empty) (hrun : run (callStep jhash) m₀ calls = some m)
    (h : Hits jhash m c) :
    c.InRange ∧ ∃ xs d ys, calls = xs ++ d :: ys ∧ (Cache.after profile xs).Obtains d ∧
      d.cur = c.cur ∧ d.nr = c.nr ∧ d.key profile = c.key profile ∧
      (Cache.after profile (xs ++ [d])).Remembers jhash profile d := by
  have hS := h₀.run_of_empty hrun
  obtain ⟨m', hm'⟩ := h
  obtain ⟨hc, -, hrem⟩ := (hits_iff hS ⟨m', 1, hm'⟩).mp ⟨m', hm'⟩
  obtain ⟨xs, d, ys, rfl, hobt, hcur, hid, hkey⟩ :=
    Cache.mem_presented_iff.mp (Cache.mem_presented_of_mem_recorded hrem).1
  refine ⟨hc, xs, d, ys, rfl, hobt, hcur, nr_eq_of_syscallId_eq hc hobt.1 hid, hkey, ?_⟩
  rw [Cache.Remembers, hkey, hcur, hid]
  refine Cache.mem_recorded_of_append ys ?_ ?_
  · exact Cache.mem_presented_iff.mpr ⟨xs, d, [], rfl, hobt, hcur, hid, hkey⟩
  · rw [List.append_assoc]
    exact hrem

/-- The same for the loaded module. -/
theorem hits_inv {jhash : List UInt64 → UInt32} {profile : TaskId → Seccomp}
    {calls : List SysCall} {m : Machine} {c : SysCall}
    (hrun : run (callStep jhash) (boot profile) calls = some m) (h : Hits jhash m c) :
    c.InRange ∧ ∃ xs d ys, calls = xs ++ d :: ys ∧ (Cache.after profile xs).Obtains d ∧
      d.cur = c.cur ∧ d.nr = c.nr ∧ d.key profile = c.key profile ∧
      (Cache.after profile (xs ++ [d])).Remembers jhash profile d :=
  hits_inv_of_empty (refines_boot jhash profile) hrun h

/-- A call whose key the table remembered hits whenever it returns. -/
theorem hits_of_remembers {jhash : List UInt64 → UInt32} {profile : TaskId → Seccomp}
    {xs ys : List SysCall} {m : Machine} {c d : SysCall}
    (hrun : run (callStep jhash) (boot profile) (xs ++ ys) = some m)
    (hret : ∃ m' r, callChecker jhash m c = some (m', r)) (hc : c.InRange)
    (hcur : d.cur = c.cur) (hnr : d.nr = c.nr) (hkey : d.key profile = c.key profile)
    (hrem : (Cache.after profile xs).Remembers jhash profile d) : Hits jhash m c := by
  have hS := refines_run hrun
  have hrem' : (Cache.after profile (xs ++ ys)).Remembers jhash profile c := by
    have := (Cache.recorded_mono jhash profile xs ys _ _ _).subset hrem
    rwa [hkey, hcur, SysCall.syscallId, hnr] at this
  refine (hits_iff hS hret).mpr ⟨hc, fun hnone => ?_, hrem'⟩
  have := (Cache.mem_presented_of_mem_recorded hrem').1
  rw [hS.unused _ _ hnone] at this
  exact absurd this List.not_mem_nil

/-! ## Against the filter -/

/-- The filter's verdict on a native call depends on the number and the arguments
at the positions that the profile lists for it. -/
def Filter.DependsOnListed (F : Filter) (sec : Seccomp) : Prop :=
  ∀ sd sd' : SeccompData, sd.arch = .x86_64 → sd'.arch = .x86_64 → sd.nr = sd'.nr →
    (∀ i : Fin 6, UInt8.ofNat (i + 1) ∈ sec.positions sd.nr.toNat → sd.args i = sd'.args i) →
    F sd = F sd'

/-- Native calls of one task with one number and equal keys get one verdict. -/
theorem Filter.DependsOnListed.verdict_eq {F : Filter} {profile : TaskId → Seccomp}
    {c d : SysCall} (hF : F.DependsOnListed (profile c.cur)) (hc : c.abi = .x86_64)
    (hd : d.abi = .x86_64) (hcur : d.cur = c.cur) (hnr : d.nr = c.nr)
    (hkey : d.key profile = c.key profile) : F d.data = F c.data := by
  have hid := syscallId_congr hnr
  refine hF _ _ hd hc hnr fun i hi => ?_
  have hreg := (key_eq_iff hcur hid).mp hkey (UInt8.ofNat (i + 1))
    (by rw [← hid]; exact hi)
  rw [getArgument_ofNat_succ, getArgument_ofNat_succ] at hreg
  show syscallArgument d.abi d.regs i = syscallArgument c.abi c.regs i
  rw [hc, hd, hreg]

theorem filter_run {jhash : List UInt64 → UInt32} {profile : TaskId → Seccomp}
    {calls : List SysCall} {m : Machine}
    (hrun : run (callStep jhash) (boot profile) calls = some m) (t : TaskId) :
    (m.seccomp t).filter = (profile t).filter := by
  refine (run_invariant (I := fun m => m.Live ∧ (m.seccomp t).filter = (profile t).filter)
    (fun m c m' hm hstep => ?_) ⟨live_boot profile, rfl⟩ hrun).2
  obtain ⟨r, -, he⟩ := callStep_inv hm.1 hstep
  exact ⟨live_callStep hm.1 hstep, (he.frame.filter t).trans hm.2⟩

/-- Every call of task `P` in the run that takes the fast path is one that the
filters of `P` allow. -/
def FastPathAllowed (jhash : List UInt64 → UInt32) (profile : TaskId → Seccomp) (P : TaskId)
    (calls : List SysCall) : Prop :=
  ∀ pre c post u, calls = pre ++ c :: post →
    run (Kernel.step jhash) (Kernel.boot profile) pre = some u → c.cur = P →
    FastPath jhash u.machine c → runFilters (u.machine.seccomp P).filter c.data = .allow

/-- **When the fast path agrees with the filter.**  Task `P` runs natively under one
filter `F` that depends on the listed arguments only.  In a run of the kernel
every call of `P` that takes the fast path is allowed exactly when every call of
`P` whose key the table remembers, and which `P` repeats, was allowed by `F`. -/
theorem fastPathAllowed_iff (jhash : List UInt64 → UInt32) (profile : TaskId → Seccomp)
    {P : TaskId} {F : Filter} (hfilter : (profile P).filter = [F])
    (hF : F.DependsOnListed (profile P)) {calls : List SysCall} {k : Kernel}
    (hnative : ∀ c ∈ calls, c.cur = P → c.abi = .x86_64)
    (hrun : run (Kernel.step jhash) (Kernel.boot profile) calls = some k) :
    FastPathAllowed jhash profile P calls ↔
      ∀ pre d mid c post, calls = pre ++ d :: mid ++ c :: post → d.cur = P → c.cur = P →
        d.InRange → d.nr = c.nr → d.key profile = c.key profile →
        (Cache.after profile (pre ++ [d])).Remembers jhash profile d → F d.data = .allow := by
  have hverdict : ∀ {pre : List SysCall} {u : Kernel} (c : SysCall),
      run (Kernel.step jhash) (Kernel.boot profile) pre = some u →
      runFilters (u.machine.seccomp P).filter c.data = F c.data := by
    intro pre u c hu
    rw [filter_run (Kernel.run_machine hu), hfilter, runFilters_singleton]
  constructor
  · intro hprop pre d mid c post hsplit hdP hcP hd hnr hkey hrem
    obtain ⟨u, v, hu, hstep, -⟩ := run_split (hsplit ▸ hrun)
    -- the repetition returns, so it hits
    have hmu := Kernel.run_machine hu
    have hlive := live_run_calls (live_boot profile) hmu
    obtain ⟨-, -, -, hcall, -⟩ := Kernel.step_inv hstep
    obtain ⟨r, hr, -⟩ := callStep_inv hlive hcall
    have hc : c.InRange := inRange_congr hnr hd
    have hmu' : run (callStep jhash) (boot profile) ((pre ++ [d]) ++ mid) = some u.machine := by
      rw [List.append_assoc]
      exact hmu
    have hhit : Hits jhash u.machine c :=
      hits_of_remembers hmu' ⟨_, r, hr⟩ hc (hdP.trans hcP.symm) hnr hkey hrem
    have hallow := hprop _ c post u hsplit hu hcP ((fastPath_iff_hits hlive).mpr hhit)
    rw [hverdict c hu] at hallow
    rw [(hcP.symm ▸ hF : F.DependsOnListed (profile c.cur)).verdict_eq
      (hnative c (by rw [hsplit]; simp) hcP) (hnative d (by rw [hsplit]; simp) hdP)
      (hdP.trans hcP.symm) hnr hkey, hallow]
  · intro hcond pre c post u hsplit hu hcP hfast
    have hmu := Kernel.run_machine hu
    have hlive := live_run_calls (live_boot profile) hmu
    obtain ⟨hc, xs, d, ys, rfl, hobt, hcur, hnr, hkey, hrem⟩ :=
      hits_inv hmu ((fastPath_iff_hits hlive).mp hfast)
    have hdP := hcur.trans hcP
    rw [hverdict c hu, ← hcond xs d ys c post hsplit hdP hcP hobt.1 hnr hkey hrem]
    exact ((hcP.symm ▸ hF : F.DependsOnListed (profile c.cur)).verdict_eq
      (hnative c (by rw [hsplit]; simp) hcP) (hnative d (by rw [hsplit]; simp) hdP)
      hcur hnr hkey).symm

/-- A filter that denies `socket` with the first argument 2. -/
def denySocket : Filter := fun sd =>
  if sd.nr = 41 ∧ sd.args 0 = 2 then .errno 13 else .allow

/-- The profile of that filter: the first argument of `socket`. -/
def socketProfile (_ : TaskId) : Seccomp :=
  prctlDracoLoadSeccomp (prctlDracoAddSeccomp (Seccomp.zero [denySocket]) 41 1).1

/-- Task 1 calls `socket` with a first argument. -/
def socketCall (domain : UInt64) : SysCall :=
  ⟨1, 41, .x86_64, { (default : PtRegs) with di := domain }, ⟨true, true⟩⟩

/-- The values of `jhash` on the keys of `socketCall 2` and `socketCall 1`. -/
def socketHash (key : List UInt64) : UInt32 :=
  if key = [2] then 1189623660 else 4026472505

theorem denySocket_dependsOnListed : denySocket.DependsOnListed (socketProfile 1) := by
  intro sd sd' _ _ hnr hargs
  unfold denySocket
  rw [← hnr]
  by_cases h41 : sd.nr = 41
  · have harg : sd.args 0 = sd'.args 0 := by
      refine hargs 0 ?_
      rw [h41]
      decide
    rw [harg]
  · rw [if_neg (fun h => h41 h.1), if_neg (fun h => h41 h.1)]

/-- The denied call passes when it is made again. -/
theorem denied_socket_passes :
    ¬ (∀ (jhash : List UInt64 → UInt32) (profile : TaskId → Seccomp) (P : TaskId) (F : Filter)
      (calls : List SysCall), (profile P).filter = [F] → F.DependsOnListed (profile P) →
      (∀ c ∈ calls, c.cur = P → c.abi = .x86_64) →
      FastPathAllowed jhash profile P calls) := by
  intro hall
  have hclaim := hall socketHash socketProfile 1 denySocket [socketCall 2, socketCall 2] rfl
    denySocket_dependsOnListed (by decide)
  obtain ⟨u, hu, htest⟩ := exists_run_of_map (Kernel.step socketHash)
    (Kernel.boot socketProfile) [socketCall 2]
    (fun u => decide ((secureComputing socketHash u.machine (socketCall 2)).map Prod.snd =
        some .skipped) &&
      decide (runFilters (u.machine.seccomp 1).filter (socketCall 2).data = .errno 13))
    (by decide)
  rw [Bool.and_eq_true, decide_eq_true_eq, decide_eq_true_eq] at htest
  obtain ⟨⟨m', v⟩, hm', hv⟩ := Option.map_eq_some_iff.mp htest.1
  cases hv
  have hallow := hclaim [socketCall 2] (socketCall 2) [] u rfl hu rfl ⟨m', hm'⟩
  rw [htest.2] at hallow
  cases hallow

/-- A run in which only allowed calls are repeated. -/
theorem fastPathAllowed_allowed_socket :
    FastPathAllowed socketHash socketProfile 1 [socketCall 1, socketCall 1] := by
  obtain ⟨k, hk, -⟩ := exists_run_of_map (Kernel.step socketHash)
    (Kernel.boot socketProfile) [socketCall 1, socketCall 1]
    (fun _ => true) (by decide)
  refine (fastPathAllowed_iff socketHash socketProfile rfl denySocket_dependsOnListed
    (by decide) hk).mpr fun pre d mid c post hsplit _ _ _ _ _ _ => ?_
  have hd : d ∈ [socketCall 1, socketCall 1] := by rw [hsplit]; simp
  rcases List.mem_cons.mp hd with rfl | hd
  · decide
  · rw [List.mem_singleton.mp hd]
    decide

end Draco
