/-
# System calls of two ABIs

`get_argument` reads the registers of the x86_64 convention whatever ABI a call was
made with, and tables are indexed by the bare number.  A compat call and a native
call with one number thus share a table, and a compat call is compared by
registers that do not hold its arguments.  `hitsSameAbi_iff` says in which runs
this does no harm.
-/
import Draco.FastPath
import Draco.Provenance

namespace Draco

open PartialRun Machine

namespace Cache

/-- The call's key becomes remembered with this call. -/
def Records (jhash : List UInt64 → UInt32) (profile : TaskId → Seccomp) (S : Cache)
    (c : SysCall) : Prop :=
  S.Obtains c ∧ ¬ S.Remembers jhash profile c ∧ (S.step profile c).Remembers jhash profile c

/-- A key becomes remembered at most once. -/
theorem records_unique {jhash : List UInt64 → UInt32} {profile : TaskId → Seccomp}
    {xs ys xs' ys' : List SysCall} {d d' : SysCall} (hsplit : xs ++ d :: ys = xs' ++ d' :: ys')
    (hcur : d.cur = d'.cur) (hid : d.syscallId = d'.syscallId)
    (hkey : d.key profile = d'.key profile) (h : (after profile xs).Records jhash profile d)
    (h' : (after profile xs').Records jhash profile d') : xs = xs' ∧ d = d' := by
  -- after the first of the two the key stays remembered
  have hkeep : ∀ {xs zs : List SysCall} {d d' : SysCall}, d.cur = d'.cur →
      d.syscallId = d'.syscallId → d.key profile = d'.key profile →
      (after profile xs).Records jhash profile d →
      (after profile (xs ++ d :: zs)).Remembers jhash profile d' := by
    intro xs zs d d' hcur hid hkey h
    have hrem := h.2.2
    rw [← after_snoc] at hrem
    have := (recorded_mono jhash profile (xs ++ [d]) zs _ _ _).subset hrem
    rw [hkey, hcur, hid, List.append_assoc] at this
    exact this
  rcases List.append_eq_append_iff.mp hsplit with ⟨as, hxs', hrest⟩ | ⟨bs, hxs, hrest⟩
  · cases as with
    | nil =>
      rw [List.append_nil] at hxs'
      exact ⟨hxs'.symm, (List.cons.inj hrest).1⟩
    | cons a as =>
      obtain ⟨rfl, -⟩ := List.cons.inj hrest
      rw [hxs'] at h'
      exact absurd (hkeep hcur hid hkey h) h'.2.1
  · cases bs with
    | nil =>
      rw [List.append_nil] at hxs
      exact ⟨hxs, (List.cons.inj hrest).1.symm⟩
    | cons b bs =>
      obtain ⟨rfl, -⟩ := List.cons.inj hrest
      rw [hxs] at h
      exact absurd (hkeep hcur.symm hid.symm hkey.symm h') h.2.1

end Cache

/-- A call that fills an entry of the machine records its key in the cache. -/
theorem Refines.records {jhash : List UInt64 → UInt32} {profile : TaskId → Seccomp}
    {w : Machine} {S : Cache} {d : SysCall} {i e : ℕ} (hS : Refines jhash profile w S)
    (h : Machine.Records jhash w d i e) : S.Records jhash profile d := by
  obtain ⟨hd, m', hstep, hlive, hocc, hslot, hset, hrow, hmiss⟩ := h.spec hS.live
  obtain ⟨r, -, he⟩ := callStep_inv hS.live hstep
  have hS' := hS.step he
  refine ⟨(hS.obtains_iff he).mpr ⟨hd, by rw [hslot]; exact Option.some_ne_none i⟩, ?_, ?_⟩
  · intro hrem
    cases hold : w.slotOf d.cur d.syscallId with
    | none =>
      have := (Cache.mem_presented_of_mem_recorded hrem).1
      rw [hS.unused _ _ hold] at this
      exact absurd this List.not_mem_nil
    | some j =>
      rw [he.slot_unique hold hslot] at hold
      exact hmiss ((hS.matches_iff hold).mpr hrem)
  · rw [← hS'.matches_iff hslot, Matches, hS'.callKey]
    rw [hS.callKey] at hset hrow
    obtain ⟨k, j, hj, rfl⟩ := exists_set e
    have hk : k = hashCode jhash (d.key profile) := by omega
    subst hk
    have hlt := (occupied_iff hlive.owned i _ hj).mp hocc
    refine ⟨_, List.getElem_mem hlt, ?_⟩
    rw [getElem_rowsAt hlt, hrow]
    exact prefix_padded _

/-- Under a fixed profile the recorder of a hit has the key of the hit. -/
theorem recorder_key {jhash : List UInt64 → UInt32} {profile : TaskId → Seccomp}
    {xs ys : List SysCall} {u w : Machine} {c d : SysCall} {i e : ℕ}
    (hrun : run (callStep jhash) (boot profile) (xs ++ d :: ys) = some u)
    (hw : run (callStep jhash) (boot profile) xs = some w)
    (hrec : Machine.Records jhash w d i e) (h : hitEntry jhash u c = some (i, e)) :
    d.cur = c.cur ∧ d.nr = c.nr ∧ d.key profile = c.key profile := by
  have hrun' : run (opStep jhash) (boot profile)
      (xs.map .call ++ .call d :: ys.map .call) = some u := by
    rwa [run_callStep, List.map_append, List.map_cons] at hrun
  have hw' : run (opStep jhash) (boot profile) (xs.map .call) = some w := by
    rwa [run_callStep] at hw
  have hr := hrec.recorder hrun' hw' h
  refine ⟨hr.cur, hr.nr, ?_⟩
  have hmatch := hr.matched
  rw [(refines_run hw).callKey, (refines_run hrun).callKey] at hmatch
  -- both keys have the length of the profile
  refine ((prefix_padded_iff ?_).mp hmatch).symm
  rw [SysCall.key, SysCall.key, argumentList, argumentList, List.length_map, List.length_map,
    Seccomp.length_positions, Seccomp.length_positions, hr.cur, syscallId_congr hr.nr]

/-- A hit has a recorder. -/
theorem exists_recorder_call {jhash : List UInt64 → UInt32} {profile : TaskId → Seccomp}
    {pre : List SysCall} {u : Machine} {c : SysCall} {i e : ℕ}
    (hrun : run (callStep jhash) (boot profile) pre = some u)
    (h : hitEntry jhash u c = some (i, e)) :
    ∃ xs d ys w, pre = xs ++ d :: ys ∧ run (callStep jhash) (boot profile) xs = some w ∧
      Machine.Records jhash w d i e := by
  rw [run_callStep] at hrun
  obtain ⟨xs, d, ys, w, hsplit, hrec⟩ := recorder_of_hit hrun h
  obtain ⟨xs', rest, rfl, rfl, hrest⟩ := List.map_eq_append_iff.mp hsplit
  obtain ⟨d', ys', rfl, hd', rfl⟩ := List.map_eq_cons_iff.mp hrest
  cases hd'
  refine ⟨xs', d, ys', w, rfl, ?_, hrec.records⟩
  rw [run_callStep]
  exact hrec.before

/-- The same ABI, and the same arguments at the positions listed for the number. -/
def SameAsSeen (profile : TaskId → Seccomp) (d c : SysCall) : Prop :=
  d.abi = c.abi ∧ ∀ j : Fin 6, UInt8.ofNat (j + 1) ∈ (profile c.cur).positions c.syscallId →
    d.data.args j = c.data.args j

/-- Every hit of the run is on an entry that a call of the same ABI with the same
listed arguments recorded. -/
def HitsSameAbi (jhash : List UInt64 → UInt32) (profile : TaskId → Seccomp)
    (calls : List SysCall) : Prop :=
  ∀ pre c post u, calls = pre ++ c :: post →
    run (callStep jhash) (boot profile) pre = some u → Hits jhash u c →
    ∃ i e, hitEntry jhash u c = some (i, e) ∧
      ∃ xs d ys w, pre = xs ++ d :: ys ∧ run (callStep jhash) (boot profile) xs = some w ∧
        Machine.Records jhash w d i e ∧ SameAsSeen profile d c

/-- **When the key tells the ABIs apart**: exactly when no call that has the key of an
earlier recorded call of its task and number differs from it in the ABI or in a
listed argument. -/
theorem hitsSameAbi_iff (jhash : List UInt64 → UInt32) (profile : TaskId → Seccomp)
    {calls : List SysCall} {m : Machine}
    (hrun : run (callStep jhash) (boot profile) calls = some m) :
    HitsSameAbi jhash profile calls ↔
      ∀ xs d mid c post, calls = xs ++ d :: mid ++ c :: post → d.cur = c.cur → d.nr = c.nr →
        d.key profile = c.key profile → (Cache.after profile xs).Records jhash profile d →
        SameAsSeen profile d c := by
  constructor
  · intro hprop xs d mid c post hsplit hcur hnr hkey hrec
    have hid := syscallId_congr hnr
    obtain ⟨u, v, hu, hstep, -⟩ := run_split (hsplit ▸ hrun)
    obtain ⟨r, hr, -⟩ := callStep_inv (live_run_calls (live_boot profile) hu) hstep
    have hc : c.InRange := inRange_congr hnr hrec.1.1
    have hrem : (Cache.after profile (xs ++ [d])).Remembers jhash profile d := by
      rw [Cache.after_snoc]
      exact hrec.2.2
    have hu' : run (callStep jhash) (boot profile) ((xs ++ [d]) ++ mid) = some u := by
      rw [List.append_assoc]
      exact hu
    obtain ⟨i, e, he, xs', d', ys', w, hpre, hw, hrec', hsame⟩ :=
      hprop _ c post u hsplit hu (hits_of_remembers hu' ⟨v, r, hr⟩ hc hcur hnr hkey hrem)
    -- the recorder of the entry is the recorded call of the hypothesis
    obtain ⟨hcur', hnr', hkey'⟩ := recorder_key (hpre ▸ hu) hw hrec' he
    have hid' := syscallId_congr hnr'
    obtain ⟨-, rfl⟩ := Cache.records_unique hpre (hcur.trans hcur'.symm)
      (hid.trans hid'.symm) (hkey.trans hkey'.symm) hrec ((refines_run hw).records hrec')
    exact hsame
  · intro hcond pre c post u hsplit hu hhit
    obtain ⟨i, e, he⟩ := (hits_iff_hitEntry (live_run_calls (live_boot profile) hu)).mp hhit
    obtain ⟨xs, d, ys, w, rfl, hw, hrec⟩ := exists_recorder_call hu he
    obtain ⟨hcur, hnr, hkey⟩ := recorder_key hu hw hrec he
    exact ⟨i, e, he, xs, d, ys, w, rfl, hw, hrec, hcond xs d ys c post hsplit hcur hnr hkey
      ((refines_run hw).records hrec)⟩

/-- Number 3, which is `close` natively and `read` for compat calls, with 5 in `di`. -/
def numberThree (abi : Abi) : SysCall :=
  ⟨1, 3, abi, { (default : PtRegs) with di := 5 }, ⟨true, true⟩⟩

/-- The value of `jhash` on the key of these calls. -/
def fiveHash (_ : List UInt64) : UInt32 := 3866714370

/-- A compat `read` of descriptor 0 hits on the entry of a native `close`. -/
theorem compat_read_hits_native_close :
    ¬ (∀ (jhash : List UInt64 → UInt32) (profile : TaskId → Seccomp) (calls : List SysCall),
      HitsSameAbi jhash profile calls) := by
  intro hall
  have hclaim := hall fiveHash closeProfile [numberThree .x86_64, numberThree .i386]
  obtain ⟨u, hu, htest⟩ := exists_run_of_map (callStep fiveHash)
    (boot closeProfile) [numberThree .x86_64]
    (fun u => decide ((callChecker fiveHash u (numberThree .i386)).map Prod.snd = some 1))
    (by decide)
  rw [decide_eq_true_eq] at htest
  obtain ⟨⟨m', r⟩, hm', hr⟩ := Option.map_eq_some_iff.mp htest
  cases hr
  obtain ⟨i, e, -, xs, d, ys, w, hpre, -, -, hsame⟩ :=
    hclaim [numberThree .x86_64] (numberThree .i386) [] u rfl hu ⟨m', hm'⟩
  have hd : d = numberThree .x86_64 := List.mem_singleton.mp (by rw [hpre]; simp)
  have habi := hsame.1
  rw [hd] at habi
  cases habi

/-- Two native calls do no harm. -/
theorem hitsSameAbi_native_close :
    HitsSameAbi fiveHash closeProfile [numberThree .x86_64, numberThree .x86_64] := by
  obtain ⟨m, hm, -⟩ := exists_run_of_map (callStep fiveHash) (boot closeProfile)
    [numberThree .x86_64, numberThree .x86_64] (fun _ => true) (by decide)
  refine (hitsSameAbi_iff fiveHash closeProfile hm).mpr
    fun xs d mid c post hsplit _ _ _ _ => ?_
  have hall : ∀ e ∈ [numberThree .x86_64, numberThree .x86_64], e = numberThree .x86_64 := by
    decide
  have hc : c = numberThree .x86_64 := hall c (by rw [hsplit]; simp)
  have hd : d = numberThree .x86_64 := hall d (by rw [hsplit]; simp)
  rw [hc, hd]
  exact ⟨rfl, fun _ _ => rfl⟩

end Draco
