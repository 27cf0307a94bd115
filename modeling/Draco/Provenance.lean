/-
# Where an entry comes from

An entry is a row of a table: the index of the table in the pool and of the row
in the table.  `hitEntry` is the entry on which a call hits, and `Records` says
that a call fills an entry.  Every occupied entry was filled by a call of the
task and syscall that own the table (`exists_records`, `Records.spec`), holds the
padded key that the call had then, and keeps it for ever (`Extends.row`).
-/
import Draco.Kernel

namespace Draco

open PartialRun

namespace Machine

/-! ## Entries -/

/-- Row `e` of the table at `i` is in use. -/
def Occupied (m : Machine) (i e : ℕ) : Prop := (tableAt m i).flag e = 1

instance (m : Machine) (i e : ℕ) : Decidable (Occupied m i e) :=
  inferInstanceAs (Decidable (_ = _))

/-- Row `e` of the table at `i`. -/
def row (m : Machine) (i e : ℕ) : List UInt64 := (tableAt m i).table e

/-- The entry on which a call hits: the row at which the loop of `insert_value`
stops, in the table of the call. -/
def hitEntry (jhash : List UInt64 → UInt32) (m : Machine) (c : SysCall) : Option (ℕ × ℕ) :=
  if c.InRange then
    (m.slotOf c.cur c.syscallId).bind fun i =>
      match probe (tableAt m i) (m.callKey c) (hashCode jhash (m.callKey c) * ASOS) ASOS 0 with
      | (index, true) => some (i, hashCode jhash (m.callKey c) * ASOS + index)
      | (_, false) => none
  else none

/-- The entries of set `h` are the four from `4 * h` on. -/
theorem occupied_iff {m : Machine} (ho : m.Owned) (i h : ℕ) {j : ℕ} (hj : j < 4) :
    Occupied m i (h * 4 + j) ↔ j < (m.rowsAt i h).length :=
  (ho.tidy i).flag_eq_one_iff hj

theorem getElem_rowsAt {m : Machine} {i h j : ℕ} (hj : j < (m.rowsAt i h).length) :
    (m.rowsAt i h)[j] = m.row i (h * 4 + j) :=
  PerSyscall.getElem_rows hj

theorem length_rowsAt_le (m : Machine) (i h : ℕ) : (m.rowsAt i h).length ≤ 4 :=
  (tableAt m i).length_rows_le h

/-- Every entry lies in a set. -/
theorem exists_set (e : ℕ) : ∃ h j, j < 4 ∧ e = h * 4 + j :=
  ⟨e / 4, e % 4, Nat.mod_lt e (by decide), by omega⟩

/-- Among the entries of a set the occupied ones come first. -/
theorem Occupied.of_le {m : Machine} (ho : m.Owned) {i e e' : ℕ} (h : Occupied m i e)
    (hle : e' ≤ e) (hset : e' / 4 = e / 4) : Occupied m i e' := by
  obtain ⟨k, j, hj, rfl⟩ := exists_set e
  obtain ⟨k', j', hj', rfl⟩ := exists_set e'
  have hk : k' = k := by omega
  subst hk
  exact (ho.tidy i).leading k' j' j (by omega) hj h

/-- An occupied entry stays occupied and keeps its row. -/
theorem Extends.row {m m' : Machine} (h : Extends m m') (ho : m.Owned) (ho' : m'.Owned)
    {i e : ℕ} (hocc : Occupied m i e) : Occupied m' i e ∧ m'.row i e = m.row i e := by
  obtain ⟨k, j, hj, rfl⟩ := exists_set e
  rw [occupied_iff ho i k hj] at hocc
  have hpre := h.rowsAt i k
  have hlt : j < (m'.rowsAt i k).length := Nat.lt_of_lt_of_le hocc hpre.length_le
  refine ⟨(occupied_iff ho' i k hj).mpr hlt, ?_⟩
  rw [← getElem_rowsAt hlt, ← getElem_rowsAt hocc, hpre.getElem hocc]

/-! ## The entry of a hit -/

/-- On a hit: the entry is the first of the key's set whose row the key matches. -/
theorem hitEntry_spec {jhash : List UInt64 → UInt32} {m : Machine} (ho : m.Owned)
    {c : SysCall} {i e : ℕ} (h : hitEntry jhash m c = some (i, e)) :
    c.InRange ∧ m.slotOf c.cur c.syscallId = some i ∧ Occupied m i e ∧
      e / 4 = hashCode jhash (m.callKey c) ∧ m.callKey c <+: m.row i e ∧
      ∀ e' < e, e' / 4 = e / 4 → ¬ m.callKey c <+: m.row i e' := by
  unfold hitEntry at h
  split_ifs at h with hc
  obtain ⟨i', hi', hmatch⟩ := Option.bind_eq_some_iff.mp h
  have hhit := probe_fst_of_hit (tableAt m i') (m.callKey c)
    (hashCode jhash (m.callKey c) * ASOS) ASOS 0
  rcases hp : probe (tableAt m i') (m.callKey c) (hashCode jhash (m.callKey c) * ASOS) ASOS 0
    with ⟨index, _ | _⟩ <;> rw [hp] at hmatch hhit <;> simp only [reduceCtorEq] at hmatch
  obtain ⟨j, hj, hidx, hpre, hfirst⟩ := hhit rfl
  obtain ⟨rfl, rfl⟩ := Prod.mk.inj (Option.some.inj hmatch)
  have hj' : j < (m.rowsAt i' (hashCode jhash (m.callKey c))).length := hj
  have hj4 : j < 4 := Nat.lt_of_lt_of_le hj' (length_rowsAt_le _ _ _)
  have hij : index = j := hidx.trans (Nat.zero_add j)
  subst hij
  refine ⟨hc, hi', (occupied_iff ho _ _ hj4).mpr hj', by simp only [ASOS]; omega, ?_, ?_⟩
  · rw [← getElem_rowsAt hj']
    exact hpre
  · intro e' he' hset hpre'
    have hlt : e' - hashCode jhash (m.callKey c) * 4 < index := by
      simp only [ASOS] at he' hset
      omega
    refine hfirst _ hlt ?_
    have heq : e' = hashCode jhash (m.callKey c) * 4 +
        (e' - hashCode jhash (m.callKey c) * 4) := by
      simp only [ASOS] at he' hset
      omega
    rw [heq, ← getElem_rowsAt (Nat.lt_trans hlt hj')] at hpre'
    exact hpre'

/-- A call hits at the latest on a given occupied entry of its set that its key
matches. -/
theorem exists_hitEntry (jhash : List UInt64 → UInt32) {m : Machine} (ho : m.Owned)
    {c : SysCall} {i e : ℕ} (hc : c.InRange) (hi : m.slotOf c.cur c.syscallId = some i)
    (hocc : Occupied m i e) (hset : e / 4 = hashCode jhash (m.callKey c))
    (hpre : m.callKey c <+: m.row i e) : ∃ e' ≤ e, hitEntry jhash m c = some (i, e') := by
  obtain ⟨k, j, hj, rfl⟩ := exists_set e
  have hk : k = hashCode jhash (m.callKey c) := by omega
  subst hk
  have hlt := (occupied_iff ho i _ hj).mp hocc
  have hmem : ∃ r ∈ (tableAt m i).rowsFrom (hashCode jhash (m.callKey c) * ASOS) ASOS 0,
      m.callKey c <+: r :=
    ⟨_, List.getElem_mem hlt, by rw [getElem_rowsAt hlt]; exact hpre⟩
  have htrue := (probe_snd_eq_true_iff _ _ _ _ _).mpr hmem
  obtain ⟨j', hj', hidx, hpre', hfirst⟩ := probe_fst_of_hit _ _ _ _ _ htrue
  refine ⟨hashCode jhash (m.callKey c) * 4 + j', ?_, ?_⟩
  · -- the loop cannot have gone past the given row
    have hle : j' ≤ j := by
      by_contra hgt
      refine hfirst j (by omega) ?_
      rw [← getElem_rowsAt hlt] at hpre
      exact hpre
    omega
  · unfold hitEntry
    rw [if_pos hc, hi, Option.bind_some]
    rcases hp : probe (tableAt m i) (m.callKey c) (hashCode jhash (m.callKey c) * ASOS) ASOS 0
      with ⟨index, _ | _⟩ <;> rw [hp] at htrue hidx
    · exact absurd htrue Bool.false_ne_true
    · have hij : index = j' := hidx.trans (Nat.zero_add j')
      rw [hij]

/-- A call hits exactly when there is an entry on which it hits. -/
theorem hits_iff_hitEntry {jhash : List UInt64 → UInt32} {m : Machine} (hm : m.Live)
    {c : SysCall} : Hits jhash m c ↔ ∃ i e, hitEntry jhash m c = some (i, e) := by
  constructor
  · rintro ⟨m', hm'⟩
    obtain ⟨hc, i, hi, r, hr, hpre⟩ :=
      ((callChecker_effect hm hm').result_iff hm.owned).mp rfl
    obtain ⟨j, hj, rfl⟩ := List.mem_iff_getElem.mp hr
    have hj4 : j < 4 := Nat.lt_of_lt_of_le hj (length_rowsAt_le _ _ _)
    rw [getElem_rowsAt hj] at hpre
    obtain ⟨e, -, he⟩ := exists_hitEntry jhash hm.owned hc hi
      ((occupied_iff hm.owned _ _ hj4).mpr hj) (by omega) hpre
    exact ⟨i, e, he⟩
  · rintro ⟨i, e, he⟩
    obtain ⟨hc, hi, hocc, hset, hpre, -⟩ := hitEntry_spec hm.owned he
    have hlen : (m.callKey c).length ≤ 6 :=
      Nat.le_trans hpre.length_le (Nat.le_of_eq ((hm.owned.tidy i).length e))
    rw [length_callKey] at hlen
    obtain ⟨m', r, hr⟩ := handler_isSome jhash hm.owned (fun _ => hlen)
    rw [← callChecker_live hm] at hr
    have h1 : r = 1 := by
      rw [(callChecker_effect hm hr).result_iff hm.owned]
      obtain ⟨k, j, hj, rfl⟩ := exists_set e
      have hk : k = hashCode jhash (m.callKey c) := by omega
      subst hk
      have hlt := (occupied_iff hm.owned i _ hj).mp hocc
      exact ⟨hc, i, hi, _, List.getElem_mem hlt, by rw [getElem_rowsAt hlt]; exact hpre⟩
    exact ⟨m', h1 ▸ hr⟩

/-! ## The call that filled an entry -/

/-- Call `d` fills entry `e` of the table at `i`. -/
def Records (jhash : List UInt64 → UInt32) (m : Machine) (d : SysCall) (i e : ℕ) : Prop :=
  ¬ Occupied m i e ∧ ∃ m', callStep jhash m d = some m' ∧ Occupied m' i e

/-- What a call that fills an entry leaves there: its own padded key, in the set of
that key, in the table of its task for its syscall. -/
theorem Records.spec {jhash : List UInt64 → UInt32} {m : Machine} {d : SysCall} {i e : ℕ}
    (hm : m.Live) (h : Records jhash m d i e) :
    d.InRange ∧ ∃ m', callStep jhash m d = some m' ∧ m'.Live ∧
      Occupied m' i e ∧ m'.slotOf d.cur d.syscallId = some i ∧
      e / 4 = hashCode jhash (m.callKey d) ∧ m'.row i e = padded (m.callKey d) ∧
      ¬ Matches jhash m d i := by
  obtain ⟨hfree, m', hstep, hocc⟩ := h
  obtain ⟨r, -, he⟩ := callStep_inv hm hstep
  have hlive := live_callStep hm hstep
  obtain ⟨k, j, hj, rfl⟩ := exists_set e
  have hfree' := mt (occupied_iff hm.owned i k hj).mpr hfree
  have hocc' := (occupied_iff hlive.owned i k hj).mp hocc
  have hrows := he.rows i k
  split_ifs at hrows with hcond
  · obtain ⟨hd, hslot, rfl, hmiss, -⟩ := hcond
    have hj' : j = (m.rowsAt i (hashCode jhash (m.callKey d))).length := by
      rw [hrows, List.length_append, List.length_singleton] at hocc'
      omega
    refine ⟨hd, m', hstep, hlive, hocc, hslot, by omega, ?_, hmiss⟩
    rw [← getElem_rowsAt hocc']
    subst hj'
    simp only [hrows, List.getElem_concat_length]
  · rw [hrows] at hocc'
    exact absurd hocc' hfree'

/-- Every occupied entry was filled by a call. -/
theorem exists_records {jhash : List UInt64 → UInt32} {m₀ m : Machine} {ops : List Op}
    {i e : ℕ} (h : run (opStep jhash) m₀ ops = some m)
    (hfree : ¬ Occupied m₀ i e) (hocc : Occupied m i e) :
    ∃ xs d ys w, ops = xs ++ .call d :: ys ∧ run (opStep jhash) m₀ xs = some w ∧
      Records jhash w d i e := by
  obtain ⟨xs, op, ys, u, v, hsplit, hu, hstep, -, hu', hv'⟩ :=
    exists_becoming (P := fun m => Occupied m i e) h hfree hocc
  rcases opStep_cases hstep with ⟨d, rfl, hd⟩ | ⟨-, cur, sec, -, rfl⟩
  · exact ⟨xs, d, ys, u, hsplit, hu, hu', v, hd, hv'⟩
  · exact absurd hv' hu'

theorem not_occupied_boot (profile : TaskId → Seccomp) (i e : ℕ) :
    ¬ Occupied (boot profile) i e := by
  show ¬ (0 : UInt8) = 1
  decide

/-- An entry that a call of the run filled keeps its row and its owner. -/
theorem Records.persist {jhash : List UInt64 → UInt32} {profile : TaskId → Seccomp}
    {xs ys : List Op} {u w : Machine} {d : SysCall} {i e : ℕ}
    (hrun : run (opStep jhash) (boot profile) (xs ++ .call d :: ys) = some u)
    (hw : run (opStep jhash) (boot profile) xs = some w) (hrec : Records jhash w d i e) :
    Occupied u i e ∧ u.row i e = padded (w.callKey d) ∧
      u.slotOf d.cur d.syscallId = some i := by
  have hlive := live_run (live_boot profile) hw
  obtain ⟨-, v, hv, hvlive, hvocc, hslot, -, hrow, -⟩ := hrec.spec hlive
  obtain ⟨w', v', hw', hv', hrest⟩ := run_split hrun
  rw [hw] at hw'
  cases hw'
  have hvv : some v = some v' := hv.symm.trans hv'
  cases hvv
  have hext := extends_run hvlive hrest
  obtain ⟨hocc, hrow'⟩ := hext.row hvlive.owned (live_run hvlive hrest).owned hvocc
  exact ⟨hocc, hrow'.trans hrow, hext.slotOf _ _ _ hslot⟩

/-- An occupied entry is not filled again. -/
theorem not_records_of_occupied {jhash : List UInt64 → UInt32} {profile : TaskId → Seccomp}
    {xs zs : List Op} {u w : Machine} {d : SysCall} {i e : ℕ}
    (hw : run (opStep jhash) (boot profile) xs = some w)
    (hu : run (opStep jhash) (boot profile) (xs ++ zs) = some u) (hocc : Occupied w i e) :
    ¬ Records jhash u d i e := fun hrec =>
  hrec.1 ((extends_of_append hw hu).row (live_run (live_boot profile) hw).owned
    (live_run (live_boot profile) hu).owned hocc).1

/-- Call `d`, made in state `w` after the events `xs`, filled the entry on which call
`c` hits in state `u`. -/
structure Recorder (jhash : List UInt64 → UInt32) (profile : TaskId → Seccomp) (u : Machine)
    (c : SysCall) (i e : ℕ) (xs : List Op) (d : SysCall) (w : Machine) : Prop where
  before : run (opStep jhash) (boot profile) xs = some w
  records : Records jhash w d i e
  cur : d.cur = c.cur
  nr : d.nr = c.nr
  hash : hashCode jhash (w.callKey d) = hashCode jhash (u.callKey c)
  matched : u.callKey c <+: padded (w.callKey d)

/-- The call that filled the entry of a hit is a call of the same task and number
whose padded key the key of the hit matches. -/
theorem Records.recorder {jhash : List UInt64 → UInt32} {profile : TaskId → Seccomp}
    {xs ys : List Op} {u w : Machine} {c d : SysCall} {i e : ℕ}
    (hrun : run (opStep jhash) (boot profile) (xs ++ .call d :: ys) = some u)
    (hw : run (opStep jhash) (boot profile) xs = some w) (hrec : Records jhash w d i e)
    (h : hitEntry jhash u c = some (i, e)) : Recorder jhash profile u c i e xs d w := by
  have hu := live_run (live_boot profile) hrun
  have hlive := live_run (live_boot profile) hw
  obtain ⟨hc, hi, -, hset, hpre, -⟩ := hitEntry_spec hu.owned h
  obtain ⟨hd, -, -, -, -, -, hset', -, -⟩ := hrec.spec hlive
  obtain ⟨-, hrow, hslot⟩ := hrec.persist hrun hw
  obtain ⟨hcur, hid⟩ := hu.owned.slotInj _ _ _ _ i hslot hi
  rw [hrow] at hpre
  exact ⟨hw, hrec, hcur, nr_eq_of_syscallId_eq hc hd hid, by rw [← hset', hset], hpre⟩

/-- **Every hit has a recorder.** -/
theorem recorder_of_hit {jhash : List UInt64 → UInt32} {profile : TaskId → Seccomp}
    {ops : List Op} {u : Machine} {c : SysCall} {i e : ℕ}
    (hrun : run (opStep jhash) (boot profile) ops = some u)
    (h : hitEntry jhash u c = some (i, e)) :
    ∃ xs d ys w, ops = xs ++ .call d :: ys ∧ Recorder jhash profile u c i e xs d w := by
  have hu := live_run (live_boot profile) hrun
  obtain ⟨-, -, hocc, -⟩ := hitEntry_spec hu.owned h
  obtain ⟨xs, d, ys, w, rfl, hw, hrec⟩ :=
    exists_records hrun (not_occupied_boot profile i e) hocc
  exact ⟨xs, d, ys, w, rfl, hrec.recorder hrun hw h⟩

end Machine

end Draco
