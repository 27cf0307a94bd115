/-
# Rows outlive filters and profiles

Nothing ever clears a row.  A row that was recorded before a filter was installed
still hits after it (`hitsAfterAttach_iff`), and a row that was recorded under one
list of positions is still compared with keys built from another, longer list,
which its zero padding can match (`hitsExplained_iff`).
-/
import Draco.FastPath
import Draco.Provenance

namespace Draco

open PartialRun Machine

/-! ## Installing a filter -/

/-- Every hit of `P` in the run is on an entry that was recorded after the most
recent filter installation of `P`. -/
def HitsAfterAttach (jhash : List UInt64 → UInt32) (profile : TaskId → Seccomp) (P : TaskId)
    (ops : List Op) : Prop :=
  ∀ pre c post u, ops = pre ++ .call c :: post →
    run (opStep jhash) (boot profile) pre = some u → c.cur = P → Hits jhash u c →
    ∃ i e, hitEntry jhash u c = some (i, e) ∧
      ∃ xs d ys w, pre = xs ++ .call d :: ys ∧ run (opStep jhash) (boot profile) xs = some w ∧
        Records jhash w d i e ∧ ∀ F, Op.attachFilter P F ∉ ys

/-- The table of `P` for the number of `c` holds, in state `w`, a row in the set of
the key that `c` has in state `u`, and the key matches that row. -/
def HeldRow (jhash : List UInt64 → UInt32) (w u : Machine) (c : SysCall) : Prop :=
  ∃ i e, w.slotOf c.cur c.syscallId = some i ∧ Occupied w i e ∧
    e / 4 = hashCode jhash (u.callKey c) ∧ u.callKey c <+: w.row i e

/-- A call that matches a held row hits, on an entry that was occupied then. -/
theorem hitEntry_of_heldRow {jhash : List UInt64 → UInt32} {profile : TaskId → Seccomp}
    {xs zs : List Op} {w u : Machine} {c : SysCall} (hc : c.InRange)
    (hw : run (opStep jhash) (boot profile) xs = some w)
    (hu : run (opStep jhash) (boot profile) (xs ++ zs) = some u)
    (h : HeldRow jhash w u c) : ∃ i e, hitEntry jhash u c = some (i, e) ∧ Occupied w i e := by
  obtain ⟨i, e, hi, hocc, hset, hpre⟩ := h
  have hwlive := live_run (live_boot profile) hw
  have hulive := live_run (live_boot profile) hu
  have hext := extends_of_append hw hu
  obtain ⟨hocc', hrow'⟩ := hext.row hwlive.owned hulive.owned hocc
  obtain ⟨e', hle, he'⟩ := exists_hitEntry jhash hulive.owned hc (hext.slotOf _ _ _ hi) hocc' hset
    (by rw [hrow']; exact hpre)
  have hset' := (hitEntry_spec hulive.owned he').2.2.2.1
  exact ⟨i, e', he', hocc.of_le hwlive.owned hle (by omega)⟩

/-- **When installing a filter invalidates earlier verdicts**: exactly when no call
after an installation matches a row that its table held at the installation. -/
theorem hitsAfterAttach_iff (jhash : List UInt64 → UInt32) (profile : TaskId → Seccomp)
    (P : TaskId) (ops : List Op) :
    HitsAfterAttach jhash profile P ops ↔
      ∀ xs F ys c post w u, ops = (xs ++ .attachFilter P F :: ys) ++ .call c :: post →
        run (opStep jhash) (boot profile) xs = some w →
        run (opStep jhash) (boot profile) (xs ++ .attachFilter P F :: ys) = some u →
        c.cur = P → c.InRange → ¬ HeldRow jhash w u c := by
  constructor
  · intro hprop xs F ys c post w u hsplit hw hu hcP hc hheld
    have hulive := live_run (live_boot profile) hu
    obtain ⟨i, e, he, hold⟩ := hitEntry_of_heldRow hc hw hu hheld
    obtain ⟨i₁, e₁, he₁, xs₁, d, ys₁, w₁, hsplit₁, hw₁, hrec, hno⟩ :=
      hprop _ c post u hsplit hu hcP ((hits_iff_hitEntry hulive).mpr ⟨i, e, he⟩)
    rw [he] at he₁
    cases he₁
    -- the entry was occupied at the installation, so it was recorded before
    rcases List.append_eq_append_iff.mp hsplit₁ with ⟨as, rfl, has⟩ | ⟨bs, rfl, hbs⟩
    · exact not_records_of_occupied hw hw₁ hold hrec
    · cases bs with
      | nil => cases hbs
      | cons b bs =>
        obtain ⟨-, rfl⟩ := List.cons.inj hbs
        exact hno F (by simp)
  · intro hcond pre c post u hsplit hu hcP hhit
    have hulive := live_run (live_boot profile) hu
    obtain ⟨i, e, he⟩ := (hits_iff_hitEntry hulive).mp hhit
    obtain ⟨hc, -, -, hset, hpre, -⟩ := hitEntry_spec hulive.owned he
    obtain ⟨xs, d, ys, w, rfl, hrec⟩ := recorder_of_hit hu he
    refine ⟨i, e, he, xs, d, ys, w, rfl, hrec.before, hrec.records, fun F hmem => ?_⟩
    obtain ⟨ys₁, ys₂, rfl⟩ := List.append_of_mem hmem
    -- the state at an installation after the recording
    have hu' : run (opStep jhash) (boot profile)
        ((xs ++ .call d :: ys₁) ++ .attachFilter P F :: ys₂) = some u := by
      simpa using hu
    obtain ⟨w₁, -, hw₁, -, -⟩ := run_split hu'
    obtain ⟨hocc₁, hrow₁, hslot₁⟩ := hrec.records.persist hw₁ hrec.before
    obtain ⟨-, hrow, -⟩ := hrec.records.persist hu hrec.before
    refine hcond (xs ++ .call d :: ys₁) F ys₂ c post w₁ u (by rw [hsplit]; simp) hw₁ hu' hcP hc
      ⟨i, e, ?_, hocc₁, hset, by rw [hrow₁, ← hrow]; exact hpre⟩
    rwa [hrec.cur, syscallId_congr hrec.nr] at hslot₁

/-- A `socket` call recorded under the first filter hits after `denySocket` has been
stacked on it. -/
theorem recorded_socket_hits_after_attach :
    ¬ (∀ (jhash : List UInt64 → UInt32) (profile : TaskId → Seccomp) (P : TaskId)
      (ops : List Op), HitsAfterAttach jhash profile P ops) := by
  intro hall
  have hclaim := hall socketHash socketProfile 1
    [.call (socketCall 1), .attachFilter 1 denySocket, .call (socketCall 1)]
  obtain ⟨u, hu, htest⟩ := exists_run_of_map (opStep socketHash)
    (boot socketProfile) [.call (socketCall 1), .attachFilter 1 denySocket]
    (fun u => decide ((callChecker socketHash u (socketCall 1)).map Prod.snd = some 1))
    (by decide)
  rw [decide_eq_true_eq] at htest
  obtain ⟨⟨m', r⟩, hm', hr⟩ := Option.map_eq_some_iff.mp htest
  cases hr
  obtain ⟨i, e, -, xs, d, ys, w, hsplit, -, -, hno⟩ :=
    hclaim [.call (socketCall 1), .attachFilter 1 denySocket] (socketCall 1) [] u rfl hu rfl
      ⟨m', hm'⟩
  -- the only call of the run comes before the installation
  cases xs with
  | nil =>
    obtain ⟨-, rfl⟩ := List.cons.inj hsplit
    exact hno denySocket List.mem_cons_self
  | cons x xs =>
    have hmem : Op.call d ∈ [Op.attachFilter 1 denySocket] := by
      rw [(List.cons.inj hsplit).2]
      simp
    cases List.mem_singleton.mp hmem

/-! ## Changing the profile -/

/-- Call `d` has the arguments of `c` at every position that is listed for `c` in
state `u`. -/
def AgreesNow (u : Machine) (d c : SysCall) : Prop :=
  ∀ p ∈ (u.seccomp c.cur).positions c.syscallId, getArgument d.regs p = getArgument c.regs p

/-- Every hit of `P` in the run has an earlier call of `P` with the same number that
agrees with it at every position listed at the time of the hit. -/
def HitsExplained (jhash : List UInt64 → UInt32) (profile : TaskId → Seccomp) (P : TaskId)
    (ops : List Op) : Prop :=
  ∀ pre c post u, ops = pre ++ .call c :: post →
    run (opStep jhash) (boot profile) pre = some u → c.cur = P → Hits jhash u c →
    ∃ d, Op.call d ∈ pre ∧ d.cur = P ∧ d.nr = c.nr ∧ AgreesNow u d c

/-- **When profile changes do no harm**: exactly when every call whose key matches the
padded key that an earlier call of its task and number recorded under another
list of positions, in the set of that key, has an earlier call of the task and
number that agrees with it under the current list. -/
theorem hitsExplained_iff (jhash : List UInt64 → UInt32) (profile : TaskId → Seccomp)
    (P : TaskId) (ops : List Op) :
    HitsExplained jhash profile P ops ↔
      ∀ xs d mid c post w u i e, ops = (xs ++ .call d :: mid) ++ .call c :: post →
        run (opStep jhash) (boot profile) xs = some w →
        run (opStep jhash) (boot profile) (xs ++ .call d :: mid) = some u →
        d.cur = P → c.cur = P → d.nr = c.nr → Records jhash w d i e →
        (w.seccomp P).positions c.syscallId ≠ (u.seccomp P).positions c.syscallId →
        hashCode jhash (w.callKey d) = hashCode jhash (u.callKey c) →
        u.callKey c <+: padded (w.callKey d) →
        ∃ d', Op.call d' ∈ xs ++ .call d :: mid ∧ d'.cur = P ∧ d'.nr = c.nr ∧
          AgreesNow u d' c := by
  constructor
  · intro hprop xs d mid c post w u i e hsplit hw hu hdP hcP hnr hrec _ hhash hmatch
    refine hprop _ c post u hsplit hu hcP ?_
    have hwlive := live_run (live_boot profile) hw
    have hulive := live_run (live_boot profile) hu
    obtain ⟨hd, -, -, -, -, -, hset, -, -⟩ := hrec.spec hwlive
    obtain ⟨hocc, hrow, hi⟩ := hrec.persist hu hw
    have hc : c.InRange := inRange_congr hnr hd
    rw [hdP, ← hcP, syscallId_congr hnr] at hi
    obtain ⟨e', -, he'⟩ := exists_hitEntry jhash hulive.owned hc hi hocc (hset.trans hhash)
      (by rw [hrow]; exact hmatch)
    exact (hits_iff_hitEntry hulive).mpr ⟨i, e', he'⟩
  · intro hcond pre c post u hsplit hu hcP hhit
    have hulive := live_run (live_boot profile) hu
    obtain ⟨i, e, he⟩ := (hits_iff_hitEntry hulive).mp hhit
    obtain ⟨xs, d, ys, w, rfl, hrec⟩ := recorder_of_hit hu he
    have hid := syscallId_congr hrec.nr
    by_cases hpos : (w.seccomp P).positions c.syscallId = (u.seccomp P).positions c.syscallId
    · -- one list of positions: the keys are equal
      refine ⟨d, by simp, hrec.cur.trans hcP, hrec.nr, ?_⟩
      have hkeys : u.callKey c = w.callKey d := by
        refine (prefix_padded_iff ?_).mp hrec.matched
        rw [length_callKey, length_callKey, ← Seccomp.length_positions,
          ← Seccomp.length_positions, hrec.cur, hid, hcP, hpos]
      rw [callKey, callKey, argumentList, argumentList, hrec.cur, hid, hcP, hpos] at hkeys
      unfold AgreesNow
      rw [hcP]
      exact List.map_inj_left.mp hkeys.symm
    · exact hcond xs d ys c post w u i e hsplit hrec.before hu (hrec.cur.trans hcP) hcP hrec.nr
        hrec.records hpos hrec.hash hrec.matched

/-- Task 1 calls `socket` with the first two arguments. -/
def socketCall₂ (domain type : UInt64) : SysCall :=
  ⟨1, 41, .x86_64, { (default : PtRegs) with di := domain, si := type }, ⟨true, true⟩⟩

/-- The values of `jhash` on the keys `[203]` and `[203, 0]`, both 62 modulo 149. -/
def paddingHash (key : List UInt64) : UInt32 :=
  if key = [203] then 58874581 else 1127861969

/-- The padding of a row that was recorded for the first argument alone matches a
later call whose second argument is 0. -/
theorem padding_matches_new_position :
    ¬ (∀ (jhash : List UInt64 → UInt32) (profile : TaskId → Seccomp) (P : TaskId)
      (ops : List Op), HitsExplained jhash profile P ops) := by
  intro hall
  have hclaim := hall paddingHash socketProfile 1
    [.call (socketCall₂ 203 5), .dracoAdd 1 41 2, .dracoLoad 1, .call (socketCall₂ 203 0)]
  obtain ⟨u, hu, htest⟩ := exists_run_of_map (opStep paddingHash)
    (boot socketProfile)
    [.call (socketCall₂ 203 5), .dracoAdd 1 41 2, .dracoLoad 1]
    (fun u => decide ((callChecker paddingHash u (socketCall₂ 203 0)).map Prod.snd =
        some 1) && decide (2 ∈ (u.seccomp 1).positions 41))
    (by decide)
  rw [Bool.and_eq_true, decide_eq_true_eq, decide_eq_true_eq] at htest
  obtain ⟨⟨m', r⟩, hm', hr⟩ := Option.map_eq_some_iff.mp htest.1
  cases hr
  obtain ⟨d, hd, -, -, hagree⟩ :=
    hclaim [.call (socketCall₂ 203 5), .dracoAdd 1 41 2, .dracoLoad 1] (socketCall₂ 203 0) [] u
      rfl hu rfl ⟨m', hm'⟩
  have hd' : d = socketCall₂ 203 5 := by simpa using hd
  -- the second argument is listed, and the calls differ in it
  have hsi := hagree 2 htest.2
  rw [hd'] at hsi
  exact absurd hsi (by decide)

end Draco
