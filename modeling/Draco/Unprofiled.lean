/-
# Tasks without a loaded profile

The module serves every task under seccomp, also those whose filter was installed
without the modified library, for which `argument_count_table` is all zero.  Their
keys are empty, so all calls of a number share one key and every call after the
first that reached the table hits, whatever its arguments are
(`hits_iff_number_repeated`).  `hitsAgree_iff` says when that is harmless: when
each such call agrees with an earlier one on the arguments that the filter reads.
-/
import Draco.FastPath
import Draco.Lib.Sensitive

namespace Draco

open PartialRun Machine

/-! ## The arguments a filter reads -/

/-- The verdict of the filter on the number can change with argument `i` alone.  The other
arguments do not matter, also several at a time (`Filter.verdict_eq_of_reads`). -/
def Filter.Reads (F : Filter) (nr : ℤ) (i : Fin 6) : Prop :=
  ∃ arch ip, Sensitive.SensitiveAt (fun args => F ⟨nr, arch, ip, args⟩) i

/-- Two inputs that agree on everything the filter reads get one verdict. -/
theorem Filter.verdict_eq_of_reads {F : Filter} {sd sd' : SeccompData} (hnr : sd.nr = sd'.nr)
    (harch : sd.arch = sd'.arch) (hip : sd.instructionPointer = sd'.instructionPointer)
    (hargs : ∀ i, F.Reads sd.nr i → sd.args i = sd'.args i) : F sd = F sd' := by
  obtain ⟨nr, arch, ip, args⟩ := sd
  obtain ⟨nr', arch', ip', args'⟩ := sd'
  cases hnr
  cases harch
  cases hip
  exact Sensitive.dependsOn_sensitive (fun args => F ⟨nr, arch, ip, args⟩)
    fun i hi => hargs i ⟨arch, ip, hi⟩

/-! ## Empty keys -/

section

variable {jhash : List UInt64 → UInt32} {profile : TaskId → Seccomp} {P : TaskId}
  (hzero : ∀ s < SYSCALL_COUNT, (profile P).argumentCount s = 0)

include hzero

theorem key_eq_nil {c : SysCall} (hP : c.cur = P) (hc : c.InRange) : c.key profile = [] := by
  rw [← List.length_eq_zero_iff, SysCall.key, argumentList, List.length_map,
    Seccomp.length_positions, hP]
  exact hzero _ (syscallId_lt hc)

/-- All presented keys are empty, so the first of them is remembered. -/
theorem remembers_of_presented {calls : List SysCall} {c : SysCall} (hP : c.cur = P)
    (hc : c.InRange)
    (hpres : (Cache.after profile calls).presented P c.syscallId ≠ []) :
    (Cache.after profile calls).Remembers jhash profile c := by
  have hnil : ∀ key ∈ (Cache.after profile calls).presented P c.syscallId, key = [] := by
    intro key hkey
    obtain ⟨xs, d, ys, -, hobt, hdP, -, rfl⟩ := Cache.mem_presented_iff.mp hkey
    exact key_eq_nil hzero hdP hobt.1
  rw [Cache.Remembers, key_eq_nil hzero hP hc, Cache.recorded, hP]
  cases hlist : (Cache.after profile calls).presented P c.syscallId with
  | nil => exact absurd hlist hpres
  | cons key keys =>
    rw [hnil key (by rw [hlist]; exact List.mem_cons_self),
      List.filter_cons_of_pos (by simp)]
    exact FirstCome.head_mem_firstCome (by decide) _ _

/-- **A task without a profile hits on the number alone**: whenever it has called
the number before and that call reached a table. -/
theorem hits_iff_number_repeated {calls : List SysCall} {m : Machine} {c : SysCall}
    (hrun : run (callStep jhash) (boot profile) calls = some m)
    (hret : ∃ m' r, callChecker jhash m c = some (m', r)) (hP : c.cur = P) :
    Hits jhash m c ↔ c.InRange ∧ ∃ xs d ys, calls = xs ++ d :: ys ∧ d.cur = P ∧ d.nr = c.nr ∧
      (Cache.after profile xs).Obtains d := by
  constructor
  · intro h
    obtain ⟨hc, xs, d, ys, hsplit, hobt, hcur, hnr, -⟩ := hits_inv hrun h
    exact ⟨hc, xs, d, ys, hsplit, hcur.trans hP, hnr, hobt⟩
  · rintro ⟨hc, xs, d, ys, hsplit, hdP, hnr, hobt⟩
    have hid := syscallId_congr hnr
    have hmem : d.key profile ∈ (Cache.after profile calls).presented P c.syscallId :=
      Cache.mem_presented_iff.mpr ⟨xs, d, ys, hsplit, hobt, hdP, hid, rfl⟩
    rw [← List.append_nil calls] at hrun
    exact hits_of_remembers hrun hret hc rfl rfl rfl
      (remembers_of_presented hzero hP hc (List.ne_nil_of_mem hmem))

end

/-- Every call of task `P` in the run on which the handler returns 1 agrees with an
earlier call of `P` with the same number on all arguments that the filters of `P`
read for that number. -/
def HitsAgree (jhash : List UInt64 → UInt32) (profile : TaskId → Seccomp) (P : TaskId)
    (calls : List SysCall) : Prop :=
  ∀ pre c post u, calls = pre ++ c :: post →
    run (Kernel.step jhash) (Kernel.boot profile) pre = some u → c.cur = P →
    Hits jhash u.machine c →
    ∃ d ∈ pre, d.cur = P ∧ d.nr = c.nr ∧
      ∀ i, Filter.Reads (runFilters (u.machine.seccomp P).filter) c.nr i →
        d.data.args i = c.data.args i

/-- **When a task without a profile is accelerated safely**: exactly when every call
that repeats a number which already has a table agrees with some earlier call of
that number on the arguments the filters read. -/
theorem hitsAgree_iff (jhash : List UInt64 → UInt32) (profile : TaskId → Seccomp) {P : TaskId}
    (hzero : ∀ s < SYSCALL_COUNT, (profile P).argumentCount s = 0) {calls : List SysCall}
    {k : Kernel} (hrun : run (Kernel.step jhash) (Kernel.boot profile) calls = some k) :
    HitsAgree jhash profile P calls ↔
      ∀ xs d mid c post, calls = xs ++ d :: mid ++ c :: post → d.cur = P → c.cur = P →
        d.nr = c.nr → (Cache.after profile xs).Obtains d →
        ∃ e ∈ xs ++ d :: mid, e.cur = P ∧ e.nr = c.nr ∧
          ∀ i, Filter.Reads (runFilters (profile P).filter) c.nr i →
            e.data.args i = c.data.args i := by
  constructor
  · intro hprop xs d mid c post hsplit hdP hcP hnr hobt
    obtain ⟨u, v, hu, hstep, -⟩ := run_split (hsplit ▸ hrun)
    have hmu := Kernel.run_machine hu
    obtain ⟨-, -, -, hcall, -⟩ := Kernel.step_inv hstep
    obtain ⟨r, hr, -⟩ := callStep_inv (live_run_calls (live_boot profile) hmu) hcall
    have hc : c.InRange := inRange_congr hnr hobt.1
    have hhit : Hits jhash u.machine c := (hits_iff_number_repeated hzero hmu ⟨_, r, hr⟩ hcP).mpr
      ⟨hc, xs, d, mid, rfl, hdP, hnr, hobt⟩
    have hagree := hprop _ c post u hsplit hu hcP hhit
    rwa [filter_run hmu] at hagree
  · intro hcond pre c post u hsplit hu hcP hhit
    have hmu := Kernel.run_machine hu
    obtain ⟨m', hm'⟩ := id hhit
    obtain ⟨-, xs, d, mid, rfl, hdP, hnr, hobt⟩ :=
      (hits_iff_number_repeated hzero hmu ⟨m', 1, hm'⟩ hcP).mp hhit
    rw [filter_run hmu]
    exact hcond xs d mid c post hsplit hdP hcP hnr hobt

/-- `denySocket` installed without a profile. -/
def bareSocketProfile (_ : TaskId) : Seccomp := Seccomp.zero [denySocket]

/-- After an allowed `socket` a denied one hits. -/
theorem hitsAgree_fails_socket :
    ¬ (∀ (jhash : List UInt64 → UInt32) (profile : TaskId → Seccomp) (P : TaskId)
      (calls : List SysCall), (∀ s < SYSCALL_COUNT, (profile P).argumentCount s = 0) →
      HitsAgree jhash profile P calls) := by
  intro hall
  have hclaim := hall emptyKeyHash bareSocketProfile 1 [socketCall 1, socketCall 2]
    (fun _ _ => rfl)
  obtain ⟨u, hu, htest⟩ := exists_run_of_map (Kernel.step emptyKeyHash)
    (Kernel.boot bareSocketProfile) [socketCall 1]
    (fun u => decide ((callChecker emptyKeyHash u.machine (socketCall 2)).map Prod.snd =
      some 1)) (by decide)
  rw [decide_eq_true_eq] at htest
  obtain ⟨⟨m', r⟩, hm', hr⟩ := Option.map_eq_some_iff.mp htest
  cases hr
  obtain ⟨d, hd, -, -, hargs⟩ := hclaim [socketCall 1] (socketCall 2) [] u rfl hu rfl ⟨m', hm'⟩
  rw [List.mem_singleton.mp hd, filter_run (Kernel.run_machine hu)] at hargs
  -- the filter reads the argument in which the calls differ
  have hreads : Filter.Reads (runFilters (bareSocketProfile 1).filter) (socketCall 2).nr 0 := by
    refine ⟨.x86_64, 0, (socketCall 1).data.args, 2, ?_⟩
    decide
  exact absurd (hargs 0 hreads) (by decide)

/-- Repeating the same `socket` call is harmless. -/
theorem hitsAgree_same_socket :
    HitsAgree emptyKeyHash bareSocketProfile 1 [socketCall 1, socketCall 1] := by
  obtain ⟨k, hk, -⟩ := exists_run_of_map (Kernel.step emptyKeyHash)
    (Kernel.boot bareSocketProfile) [socketCall 1, socketCall 1]
    (fun _ => true) (by decide)
  refine (hitsAgree_iff emptyKeyHash bareSocketProfile (fun _ _ => rfl) hk).mpr
    fun xs d mid c post hsplit hdP hcP hnr _ => ?_
  have hall : ∀ e ∈ [socketCall 1, socketCall 1], e = socketCall 1 := by decide
  have hc : c = socketCall 1 := hall c (by rw [hsplit]; simp)
  have hd : d = socketCall 1 := hall d (by rw [hsplit]; simp)
  exact ⟨d, by simp, hdP, hnr, fun i _ => by rw [hc, hd]⟩

end Draco
