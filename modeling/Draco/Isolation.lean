/-
# Isolation of tasks and syscalls

The pool, its cursor and the process list are shared by all tasks.  Two runs are
compared here: a run of calls and profile changes by all tasks, and the run that
keeps one task's calls of one number and its profile changes.  While the pool lasts
the two return the same results for these calls, and a hit of the first run is
always a hit of the second (`isolation`).  The relation that the two runs keep is
`Isolated`: one profile, and tables for the number that show the same rows, unless
the first run found the pool used up.
-/
import Draco.FastPath
import Draco.Lib.TwoRuns
import Mathlib.Data.Finset.Card

namespace Draco

open PartialRun Machine

/-! ## Profiles that differ in the hook and the filters -/

/-- The states have the same Draco profile. -/
def SameProfile (sec sec' : Seccomp) : Prop :=
  sec' = { sec with dracoHook := sec'.dracoHook, filter := sec'.filter }

namespace SameProfile

variable {sec sec' : Seccomp}

theorem argumentCount (h : SameProfile sec sec') (s : ℕ) :
    sec'.argumentCount s = sec.argumentCount s := by
  rw [h]
  rfl

theorem positions (h : SameProfile sec sec') (s : ℕ) : sec'.positions s = sec.positions s := by
  rw [h]
  rfl

/-- A profile equal to a well-formed one is well formed. -/
theorem wellFormed (h : SameProfile sec sec') (hwf : sec.WellFormed) : sec'.WellFormed := by
  rw [h]
  exact ⟨⟨hwf.nodup, hwf.lt, hwf.fill, hwf.maskOff⟩, hwf.mask, hwf.countOff, hwf.count⟩

/-- `prctl_draco_add_seccomp` reads and writes the profile only. -/
theorem add (h : SameProfile sec sec') (syscall : ℤ) (argPosition : BitVec 32) :
    SameProfile (prctlDracoAddSeccomp sec syscall argPosition).1
      (prctlDracoAddSeccomp sec' syscall argPosition).1 := by
  rw [h]
  unfold prctlDracoAddSeccomp orMask fillBlock
  split_ifs <;> rfl

/-- `prctl_draco_load_seccomp` reads and writes the profile only. -/
theorem load (h : SameProfile sec sec') :
    SameProfile (prctlDracoLoadSeccomp sec) (prctlDracoLoadSeccomp sec') := by
  have hfold : ∀ (l : List ℕ) (sec sec' : Seccomp), SameProfile sec sec' →
      SameProfile (l.foldl loadSyscall sec) (l.foldl loadSyscall sec') := by
    intro l
    induction l with
    | nil => exact fun _ _ h => h
    | cons a l ih =>
      intro sec sec' h
      apply ih
      rw [h]
      rfl
  have hreg : sec'.registered = sec.registered := by
    rw [h]
    rfl
  rw [Seccomp.prctlDracoLoadSeccomp_eq, Seccomp.prctlDracoLoadSeccomp_eq, hreg]
  exact hfold _ _ _ h

end SameProfile

/-! ## The pairs that a run touches -/

/-- The task and the syscall of a call in range. -/
def Op.pair : Op → Option (TaskId × ℕ)
  | .call c => if c.InRange then some (c.cur, c.syscallId) else none
  | _ => none

/-- The (task, syscall) pairs that a run touches. -/
def touched (ops : List Op) : Finset (TaskId × ℕ) := (ops.filterMap Op.pair).toFinset

/-- An event without a pair touches nothing new. -/
theorem touched_snoc_of_none (ops : List Op) {op : Op} (h : op.pair = none) :
    touched (ops ++ [op]) = touched ops := by
  simp [touched, h]

/-- An event with a pair touches that pair. -/
theorem touched_snoc_of_some (ops : List Op) {op : Op} {p : TaskId × ℕ} (h : op.pair = some p) :
    touched (ops ++ [op]) = insert p (touched ops) := by
  simp [touched, h]

/-- A longer run touches more. -/
theorem touched_mono (xs ys : List Op) : touched xs ⊆ touched (xs ++ ys) := by
  unfold touched
  rw [List.filterMap_append, List.toFinset_append]
  exact Finset.subset_union_left

/-- All allocations of the run succeed. -/
def AllocationsSucceed (ops : List Op) : Prop := ∀ c, Op.call c ∈ ops → c.kmalloc = ⟨true, true⟩

namespace Machine

/-- The tables in use are those of the given pairs. -/
structure Tracks (pairs : Finset (TaskId × ℕ)) (m : Machine) : Prop where
  live : m.Live
  cursor : m.cursor = pairs.card
  mem : ∀ t s, m.slotOf t s ≠ none ↔ (t, s) ∈ pairs

/-- At boot no table is in use. -/
theorem tracks_boot (profile : TaskId → Seccomp) : Tracks ∅ (boot profile) where
  live := live_boot profile
  cursor := rfl
  mem := fun t s => by simp [slotOf_boot]

/-- A call in range adds its pair, as long as the pool has room for it. -/
theorem Tracks.call {jhash : List UInt64 → UInt32} {m m' : Machine} {c : SysCall} {r : ℤ}
    {pairs : Finset (TaskId × ℕ)} (h : Tracks pairs m) (he : HandlerEffect jhash m c m' r)
    (hk : c.kmalloc = ⟨true, true⟩) (hc : c.InRange)
    (hroom : (insert (c.cur, c.syscallId) pairs).card ≤ PRE_ALLOCATED_SYSCALL_TABLE_COUNT) :
    Tracks (insert (c.cur, c.syscallId) pairs) m' := by
  have hlive : m'.Live := ⟨he.owned, he.frame.dracoChecker.trans h.live.checker⟩
  have hother : ∀ t s, ¬ (t = c.cur ∧ s = c.syscallId) → m'.slotOf t s = m.slotOf t s :=
    fun t s hts => he.slotOther t s fun h => hts h.2
  have hmem := h.mem c.cur c.syscallId
  by_cases hin : (c.cur, c.syscallId) ∈ pairs
  · -- the pair has its table already
    obtain ⟨i, hi⟩ := Option.ne_none_iff_exists'.mp (hmem.mpr hin)
    rw [Finset.insert_eq_of_mem hin]
    refine ⟨hlive, (he.cursorKeep (Or.inl (hmem.mpr hin))).trans h.cursor, fun t s => ?_⟩
    by_cases hts : t = c.cur ∧ s = c.syscallId
    · rw [hts.1, hts.2, he.slotKeep _ _ i hi]
      simp [hin]
    · rw [hother t s hts, h.mem]
  · -- a new table
    have hnone : m.slotOf c.cur c.syscallId = none := by
      by_contra hne
      exact hin (hmem.mp hne)
    rw [Finset.card_insert_of_notMem hin, ← h.cursor] at hroom
    have hsome : m'.slotOf c.cur c.syscallId ≠ none :=
      (he.obtained hc).mpr ⟨Or.inr (by rw [hk]; exact ⟨rfl, rfl⟩), Or.inr (by omega)⟩
    obtain ⟨i, hi⟩ := Option.ne_none_iff_exists'.mp hsome
    refine ⟨hlive, ?_, fun t s => ?_⟩
    · rw [(he.slotNew i hnone hi).2, Finset.card_insert_of_notMem hin, h.cursor]
    · rw [Finset.mem_insert, Prod.mk.injEq]
      by_cases hts : t = c.cur ∧ s = c.syscallId
      · rw [hts.1, hts.2]
        simp [hsome]
      · rw [hother t s hts, h.mem]
        simp only [hts, false_or]

/-- With room in the pool, the tables in use stay those of the pairs that the run touched. -/
theorem Tracks.opStep {jhash : List UInt64 → UInt32} {u m : Machine} {ops : List Op} {op : Op}
    (hI : Tracks (touched ops) u) (hstep : opStep jhash u op = some m)
    (hk : ∀ c, op = .call c → c.kmalloc = ⟨true, true⟩)
    (hroom : (touched (ops ++ [op])).card ≤ PRE_ALLOCATED_SYSCALL_TABLE_COUNT) :
    Tracks (touched (ops ++ [op])) m := by
  rcases opStep_cases hstep with ⟨c, rfl, hc⟩ | ⟨hno, cur, sec, hsec, rfl⟩
  · obtain ⟨r, hr, he⟩ := callStep_inv hI.live hc
    by_cases hin : c.InRange
    · have hpair : Op.pair (.call c) = some (c.cur, c.syscallId) := if_pos hin
      rw [touched_snoc_of_some ops hpair] at hroom ⊢
      exact hI.call he (hk c rfl) hin hroom
    · have hpair : Op.pair (.call c) = none := if_neg hin
      rw [touched_snoc_of_none ops hpair]
      have hslot : ∀ t s, m.slotOf t s = u.slotOf t s :=
        fun t s => he.slotOther t s fun h => hin h.1
      refine ⟨live_callStep hI.live hc, ?_, fun t s => by rw [hslot, hI.mem]⟩
      rw [← hI.cursor]
      apply he.cursorKeep
      rw [hslot]
      exact Or.symm (Classical.em _)
  · have hpair : op.pair = none := by
      cases op with
      | call c => exact absurd rfl (hno c)
      | dracoAdd => rfl
      | dracoLoad => rfl
      | attachFilter => rfl
    rw [touched_snoc_of_none ops hpair]
    exact ⟨live_setSeccomp hsec hI.live, hI.cursor, fun t s => by
      rw [slotOf_setSeccomp hsec, hI.mem]⟩

/-- **As long as the pool lasts, the tables in use are those of the pairs touched.** -/
theorem tracks_run {jhash : List UInt64 → UInt32} {profile : TaskId → Seccomp} {m : Machine}
    {ops : List Op} (h : run (opStep jhash) (boot profile) ops = some m)
    (hk : AllocationsSucceed ops)
    (hroom : (touched ops).card ≤ PRE_ALLOCATED_SYSCALL_TABLE_COUNT) :
    Tracks (touched ops) m := by
  induction ops using List.reverseRecOn generalizing m with
  | nil =>
    cases h
    exact tracks_boot profile
  | append_singleton ops op ih =>
    obtain ⟨u, hu, hstep⟩ := run_append_inv h
    rw [run_singleton] at hstep
    have hk' : AllocationsSucceed ops := fun c hc => hk c (List.mem_append_left _ hc)
    have hle := Finset.card_le_card (touched_mono ops [op])
    refine (ih hu hk' (Nat.le_trans hle hroom)).opStep hstep ?_ hroom
    rintro c rfl
    exact hk c (by simp)

/-! ## The relation between the two runs -/

/-- The tables of `P` for syscall `s` in the two runs: both show the same rows, or there is
none, or the first run found the pool used up. -/
inductive TableView (m m' : Machine) (P : TaskId) (s : ℕ) : Prop
  | shared (i i' : ℕ) (hi : m.slotOf P s = some i) (hi' : m'.slotOf P s = some i')
      (rows : ∀ h, m'.rowsAt i' h = m.rowsAt i h)
  | missing (hnone : m.slotOf P s = none) (hnone' : m'.slotOf P s = none)
  | exhausted (hnone : m.slotOf P s = none) (hsome : m'.slotOf P s ≠ none)
      (full : m.cursor = PRE_ALLOCATED_SYSCALL_TABLE_COUNT)

/-- What the two runs keep in common for the calls of `P` with number `nr`. -/
structure Isolated (P : TaskId) (nr : ℤ) (m m' : Machine) : Prop where
  live : m.Live
  live' : m'.Live
  profile : SameProfile (m.seccomp P) (m'.seccomp P)
  room : m'.slotOf P nr.toNat = none → m'.cursor = 0
  view : 0 ≤ nr → nr < 400 → TableView m m' P nr.toNat

namespace Isolated

variable {jhash : List UInt64 → UInt32} {P : TaskId} {nr : ℤ} {m m' u u' : Machine}
  {c : SysCall} {r r' : ℤ}

/-- The key of a call of `P` is the same in both runs. -/
theorem callKey (h : Isolated P nr m m') (hP : c.cur = P) : m'.callKey c = m.callKey c := by
  rw [Machine.callKey, Machine.callKey, argumentList, argumentList, hP, h.profile.positions]

/-- The cursor of a pool that is used up stays where it is. -/
theorem cursor_full (he : HandlerEffect jhash m c u r)
    (hfull : m.cursor = PRE_ALLOCATED_SYSCALL_TABLE_COUNT) :
    u.cursor = PRE_ALLOCATED_SYSCALL_TABLE_COUNT := by
  rw [← hfull]
  apply he.cursorKeep
  by_contra hboth
  rw [not_or, not_not] at hboth
  obtain ⟨i, hi⟩ := Option.ne_none_iff_exists'.mp hboth.2
  have hcur := (he.slotNew i hboth.1 hi).2
  have hle := he.owned.cursorLe
  omega

/-- A call of another task or number leaves the relation as it is. -/
theorem otherCall (h : Isolated P nr m m') (he : HandlerEffect jhash m c u r)
    (hother : ¬ (c.cur = P ∧ c.nr = nr)) : Isolated P nr u m' where
  live := ⟨he.owned, he.frame.dracoChecker.trans h.live.checker⟩
  live' := h.live'
  profile := by
    unfold SameProfile
    rw [he.frame.seccomp]
    exact h.profile
  room := h.room
  view := fun h0 h400 => by
    have hslot : u.slotOf P nr.toNat = m.slotOf P nr.toNat := by
      apply he.slotOther
      rintro ⟨hc, hP, hs⟩
      have hc0 := hc.1
      rw [SysCall.syscallId] at hs
      exact hother ⟨hP.symm, by omega⟩
    cases h.view h0 h400 with
    | shared i i' hi hi' rows =>
      refine .shared i i' (hslot.trans hi) hi' fun k => ?_
      rw [rows, he.rows, if_neg]
      rintro ⟨hc, hi₂, -⟩
      obtain ⟨hP, hs⟩ := he.owned.slotInj _ _ _ _ i hi₂ (hslot.trans hi)
      have hc0 := hc.1
      rw [SysCall.syscallId] at hs
      exact hother ⟨hP, by omega⟩
    | missing hnone hnone' => exact .missing (hslot.trans hnone) hnone'
    | exhausted hnone hsome full => exact .exhausted (hslot.trans hnone) hsome (cursor_full he full)

/-- The profile part after a call in both runs. -/
theorem profile_calls (h : Isolated P nr m m') (he : HandlerEffect jhash m c u r)
    (he' : HandlerEffect jhash m' c u' r') : SameProfile (u.seccomp P) (u'.seccomp P) := by
  unfold SameProfile
  rw [he.frame.seccomp, he'.frame.seccomp, h.profile]

/-- In tables that show the same rows a call finds the same and leaves the same. -/
theorem sharedCall (h : Isolated P nr m m') (he : HandlerEffect jhash m c u r)
    (he' : HandlerEffect jhash m' c u' r') (hP : c.cur = P) {i i' : ℕ}
    (hi : u.slotOf c.cur c.syscallId = some i) (hi' : u'.slotOf c.cur c.syscallId = some i')
    (rows : ∀ k, m'.rowsAt i' k = m.rowsAt i k) :
    r = r' ∧ ∀ k, u'.rowsAt i' k = u.rowsAt i k := by
  have hmatch : Matches jhash m' c i' ↔ Matches jhash m c i := by
    unfold Matches
    rw [h.callKey hP, rows]
  have hres : r = 1 ↔ r' = 1 := by
    rw [he.result_iff h.live.owned, he'.result_iff h.live'.owned]
    refine and_congr_right fun _ => ⟨?_, ?_⟩
    · rintro ⟨j, hj, hm⟩
      rw [← he.slot_unique hj hi] at hmatch
      exact ⟨i', he'.slotOf_of_matches h.live'.owned hi' (hmatch.mpr hm), hmatch.mpr hm⟩
    · rintro ⟨j, hj, hm⟩
      rw [← he'.slot_unique hj hi'] at hmatch
      exact ⟨i, he.slotOf_of_matches h.live.owned hi (hmatch.mp hm), hmatch.mp hm⟩
  refine ⟨?_, fun k => ?_⟩
  · rcases he.result_zero_or_one with rfl | rfl <;> rcases he'.result_zero_or_one with rfl | rfl
    · rfl
    · exact absurd (hres.mpr rfl) (by decide)
    · exact absurd (hres.mp rfl) (by decide)
    · rfl
  · rw [he.rows, he'.rows, h.callKey hP, rows]
    simp only [hi, hi', hmatch]

/-- A call that finds no table returns 0. -/
theorem result_of_none (he : HandlerEffect jhash m c u r) (ho : m.Owned)
    (hnone : m.slotOf c.cur c.syscallId = none) : r = 0 := by
  refine he.result_zero_or_one.resolve_right fun h1 => ?_
  obtain ⟨-, i, hi, -⟩ := (he.result_iff ho).mp h1
  rw [hnone] at hi
  cases hi

/-- A call out of range leaves the relation as it is and returns 0 in both runs. -/
theorem idleCall (h : Isolated c.cur c.nr m m') (he : HandlerEffect jhash m c u r)
    (he' : HandlerEffect jhash m' c u' r') (hc : ¬ c.InRange) :
    Isolated c.cur c.nr u u' ∧ r = 0 ∧ r' = 0 := by
  have hslot' : u'.slotOf c.cur c.nr.toNat = m'.slotOf c.cur c.nr.toNat :=
    he'.slotOther _ _ fun h => hc h.1
  refine ⟨⟨⟨he.owned, he.frame.dracoChecker.trans h.live.checker⟩,
    ⟨he'.owned, he'.frame.dracoChecker.trans h.live'.checker⟩, h.profile_calls he he',
    fun hnone => ?_, fun h0 h400 => absurd ⟨h0, h400⟩ hc⟩, ?_, ?_⟩
  · rw [← h.room (hslot'.symm.trans hnone)]
    exact he'.cursorKeep (Or.inr hnone)
  · exact he.result_zero_or_one.resolve_right fun h1 => hc ((he.result_iff h.live.owned).mp h1).1
  · exact he'.result_zero_or_one.resolve_right fun h1 =>
      hc ((he'.result_iff h.live'.owned).mp h1).1

/-- **A call that both runs make.**  The relation stays, a hit of the first run is a hit of
the second, and the results are equal unless the first run finds the pool used up. -/
theorem keptCall (h : Isolated c.cur c.nr m m') (he : HandlerEffect jhash m c u r)
    (he' : HandlerEffect jhash m' c u' r') (hk : c.kmalloc = ⟨true, true⟩) :
    Isolated c.cur c.nr u u' ∧ (r = 1 → r' = 1) ∧
      ((c.InRange → m.slotOf c.cur c.syscallId ≠ none ∨
        m.cursor ≠ PRE_ALLOCATED_SYSCALL_TABLE_COUNT) → r = r') := by
  by_cases hc : c.InRange
  swap
  · obtain ⟨hI, rfl, rfl⟩ := h.idleCall he he' hc
    exact ⟨hI, fun h => absurd h (by decide), fun _ => rfl⟩
  have hkmalloc : c.kmalloc.perProcess = true ∧ c.kmalloc.processNode = true := by
    rw [hk]
    exact ⟨rfl, rfl⟩
  have hIso : (u'.slotOf c.cur c.nr.toNat = none → u'.cursor = 0) →
      TableView u u' c.cur c.nr.toNat → Isolated c.cur c.nr u u' := fun hroom hview =>
    ⟨⟨he.owned, he.frame.dracoChecker.trans h.live.checker⟩,
      ⟨he'.owned, he'.frame.dracoChecker.trans h.live'.checker⟩, h.profile_calls he he', hroom,
      fun _ _ => hview⟩
  -- in a pool that is used up a task without a table does not get one
  have hfullNone : m.slotOf c.cur c.syscallId = none →
      m.cursor = PRE_ALLOCATED_SYSCALL_TABLE_COUNT → u.slotOf c.cur c.syscallId = none := by
    intro hnone hfull
    by_contra hne
    rcases ((he.obtained hc).mp hne).2 with h' | h'
    · exact h' hnone
    · exact h' hfull
  cases h.view hc.1 hc.2 with
  | shared i i' hi hi' rows =>
    have hu := he.slotKeep _ _ i hi
    have hu' := he'.slotKeep _ _ i' hi'
    obtain ⟨rfl, hrows⟩ := h.sharedCall he he' rfl hu hu' rows
    refine ⟨hIso (fun hnone => ?_) (.shared i i' hu hu' hrows), id, fun _ => rfl⟩
    rw [hu'] at hnone
    cases hnone
  | missing hnone hnone' =>
    have hsome' : u'.slotOf c.cur c.syscallId ≠ none :=
      (he'.obtained hc).mpr ⟨Or.inr hkmalloc, Or.inr (by rw [h.room hnone']; decide)⟩
    by_cases hfull : m.cursor = PRE_ALLOCATED_SYSCALL_TABLE_COUNT
    · obtain rfl := result_of_none he h.live.owned hnone
      obtain rfl := result_of_none he' h.live'.owned hnone'
      exact ⟨hIso (fun hn => absurd hn hsome')
        (.exhausted (hfullNone hnone hfull) hsome' (cursor_full he hfull)), id, fun _ => rfl⟩
    · have hsome : u.slotOf c.cur c.syscallId ≠ none :=
        (he.obtained hc).mpr ⟨Or.inr hkmalloc, Or.inr hfull⟩
      obtain ⟨i, hi⟩ := Option.ne_none_iff_exists'.mp hsome
      obtain ⟨i', hi'⟩ := Option.ne_none_iff_exists'.mp hsome'
      -- both tables are new, and empty
      have hempty : ∀ k, m'.rowsAt i' k = m.rowsAt i k := by
        intro k
        rw [(he.slotNew i hnone hi).1, (he'.slotNew i' hnone' hi').1,
          h.live.owned.unused _ (Nat.le_refl _), h.live'.owned.unused _ (Nat.le_refl _)]
      obtain ⟨rfl, hrows⟩ := h.sharedCall he he' rfl hi hi' hempty
      exact ⟨hIso (fun hn => absurd hn hsome') (.shared i i' hi hi' hrows), id, fun _ => rfl⟩
  | exhausted hnone hsome full =>
    obtain rfl := result_of_none he h.live.owned hnone
    obtain ⟨i', hi'⟩ := Option.ne_none_iff_exists'.mp hsome
    have hu' := he'.slotKeep _ _ i' hi'
    refine ⟨hIso (fun hn => ?_) (.exhausted (hfullNone hnone full)
      (by rw [hu']; exact Option.some_ne_none i')
      (cursor_full he full)), fun h => absurd h (by decide), fun hroom => ?_⟩
    · rw [hu'] at hn
      cases hn
    · rcases hroom hc with h' | h'
      · exact absurd hnone h'
      · exact absurd full h'

end Isolated

end Machine

/-! ## Whole runs -/

/-- The events of the second run: the calls of `P` with number `nr`, and the changes of the
profile of `P`. -/
def Op.keptFor (P : TaskId) (nr : ℤ) : Op → Bool
  | .call c => decide (c.cur = P ∧ c.nr = nr)
  | .dracoAdd cur _ _ => decide (cur = P)
  | .dracoLoad cur => decide (cur = P)
  | .attachFilter _ _ => false

/-- What a call of `P` with number `nr` returns; other events return nothing. -/
def resultFor (jhash : List UInt64 → UInt32) (P : TaskId) (nr : ℤ) (m : Machine) :
    Op → Option ℤ
  | .call c => if c.cur = P ∧ c.nr = nr then (callChecker jhash m c).map Prod.snd else none
  | _ => none

/-- The profiles list at most six positions for every syscall, in every state of the run. -/
def CountsBounded (jhash : List UInt64 → UInt32) (profile : TaskId → Seccomp)
    (ops : List Op) : Prop :=
  ∀ pre post u, ops = pre ++ post → run (opStep jhash) (boot profile) pre = some u →
    ∀ t, ∀ s < SYSCALL_COUNT, (u.seccomp t).argumentCount s ≤ MAX_ARGUMENT_COUNT

namespace Machine

/-- The two runs start in the same state. -/
theorem isolated_boot (profile : TaskId → Seccomp) (P : TaskId) (nr : ℤ) :
    Isolated P nr (boot profile) (boot profile) where
  live := live_boot profile
  live' := live_boot profile
  profile := rfl
  room := fun _ => rfl
  view := fun _ _ => .missing rfl rfl

/-- Changing profiles keeps the relation, when the profiles of `P` stay the same. -/
theorem Isolated.setSeccomp {P : TaskId} {nr : ℤ} {m m' : Machine} (h : Isolated P nr m m')
    {cur cur' : TaskId} {sec sec' : Seccomp} (hsec : sec.dracoHook = m.hook cur)
    (hsec' : sec'.dracoHook = m'.hook cur')
    (hprofile : SameProfile ((setSeccomp m cur sec).seccomp P)
      ((setSeccomp m' cur' sec').seccomp P)) :
    Isolated P nr (setSeccomp m cur sec) (setSeccomp m' cur' sec') where
  live := live_setSeccomp hsec h.live
  live' := live_setSeccomp hsec' h.live'
  profile := hprofile
  room := by
    intro hn
    rw [slotOf_setSeccomp hsec'] at hn
    exact h.room hn
  view := fun h0 h400 => by
    cases h.view h0 h400 with
    | shared i i' hi hi' rows =>
      exact .shared i i' (by rwa [slotOf_setSeccomp hsec]) (by rwa [slotOf_setSeccomp hsec']) rows
    | missing hnone hnone' =>
      exact .missing (by rwa [slotOf_setSeccomp hsec]) (by rwa [slotOf_setSeccomp hsec'])
    | exhausted hnone hsome full =>
      exact .exhausted (by rwa [slotOf_setSeccomp hsec]) (by rwa [slotOf_setSeccomp hsec']) full

/-- The task whose profile is set has the new one. -/
theorem seccomp_setSeccomp_self (m : Machine) (cur : TaskId) (sec : Seccomp) :
    (Draco.setSeccomp m cur sec).seccomp cur = sec :=
  Function.update_self _ _ _

theorem seccomp_setSeccomp_of_ne (m : Machine) {cur t : TaskId} (sec : Seccomp) (h : t ≠ cur) :
    (Draco.setSeccomp m cur sec).seccomp t = m.seccomp t :=
  Function.update_of_ne h _ _

/-- Writing back the state of a task changes nothing. -/
theorem setSeccomp_seccomp (m : Machine) (cur : TaskId) :
    Draco.setSeccomp m cur (m.seccomp cur) = m := by
  unfold Draco.setSeccomp
  rw [Function.update_eq_self]

/-- A change of the state of one task that the first run makes alone keeps the relation, when
the profile of `P` stays the same. -/
theorem Isolated.setSeccomp_left {P : TaskId} {nr : ℤ} {m m' : Machine} (h : Isolated P nr m m')
    {cur : TaskId} {sec : Seccomp} (hsec : sec.dracoHook = m.hook cur)
    (hprofile : cur = P → SameProfile sec (m'.seccomp P)) :
    Isolated P nr (Draco.setSeccomp m cur sec) m' := by
  rw [← setSeccomp_seccomp m' P]
  refine h.setSeccomp hsec rfl ?_
  rw [seccomp_setSeccomp_self]
  by_cases hP : cur = P
  · rw [← hP, seccomp_setSeccomp_self, hP]
    exact hprofile hP
  · rw [seccomp_setSeccomp_of_ne m sec (Ne.symm hP)]
    exact h.profile

/-- A change of the profile of `P` that both runs make keeps the relation. -/
theorem Isolated.setSeccomp_both {P : TaskId} {nr : ℤ} {m m' : Machine} (h : Isolated P nr m m')
    {sec sec' : Seccomp} (hsec : sec.dracoHook = m.hook P) (hsec' : sec'.dracoHook = m'.hook P)
    (hprofile : SameProfile sec sec') :
    Isolated P nr (Draco.setSeccomp m P sec) (Draco.setSeccomp m' P sec') := by
  refine h.setSeccomp hsec hsec' ?_
  rw [seccomp_setSeccomp_self, seccomp_setSeccomp_self]
  exact hprofile

/-- Setting a well-formed profile keeps all of them so. -/
theorem wellFormed_setSeccomp {m : Machine} (hm : ∀ t, (m.seccomp t).WellFormed) {cur : TaskId}
    {sec : Seccomp} (hsec : sec.WellFormed) (t : TaskId) :
    ((Draco.setSeccomp m cur sec).seccomp t).WellFormed := by
  by_cases ht : t = cur
  · rw [ht, seccomp_setSeccomp_self]
    exact hsec
  · rw [seccomp_setSeccomp_of_ne m sec ht]
    exact hm t

/-- A call under a profile of at most six positions returns. -/
theorem callChecker_isSome_of_count (jhash : List UInt64 → UInt32) {m : Machine} (hm : m.Live)
    {c : SysCall} (hcount : ∀ s < 400, (m.seccomp c.cur).argumentCount s ≤ 6) :
    ∃ m' r, callChecker jhash m c = some (m', r) := by
  rw [callChecker_live hm]
  exact handler_isSome jhash hm.owned fun hc => hcount _ (syscallId_lt hc)

end Machine

section Runs

variable {jhash : List UInt64 → UInt32} {profile : TaskId → Seccomp} {ops : List Op}

/-- In a run that touches no more pairs than the pool has tables, a call in range never finds
the pool used up. -/
theorem room_of_touched (hk : AllocationsSucceed ops)
    (hbound : (touched ops).card ≤ PRE_ALLOCATED_SYSCALL_TABLE_COUNT)
    {pre post : List Op} {c : SysCall} {u : Machine} (hsplit : ops = pre ++ .call c :: post)
    (hu : run (opStep jhash) (boot profile) pre = some u) (hc : c.InRange) :
    u.slotOf c.cur c.syscallId ≠ none ∨ u.cursor ≠ PRE_ALLOCATED_SYSCALL_TABLE_COUNT := by
  have hpair : Op.pair (.call c) = some (c.cur, c.syscallId) := if_pos hc
  have hle : (touched (pre ++ [.call c])).card ≤ PRE_ALLOCATED_SYSCALL_TABLE_COUNT := by
    refine Nat.le_trans (Finset.card_le_card ?_) hbound
    rw [hsplit, show pre ++ .call c :: post = (pre ++ [.call c]) ++ post by simp]
    exact touched_mono _ _
  rw [touched_snoc_of_some pre hpair] at hle
  have hkpre : AllocationsSucceed pre := fun d hd =>
    hk d (by rw [hsplit]; exact List.mem_append_left _ hd)
  have htracks := tracks_run hu hkpre
    (Nat.le_trans (Finset.card_le_card (Finset.subset_insert _ _)) hle)
  by_cases hin : (c.cur, c.syscallId) ∈ touched pre
  · exact Or.inl ((htracks.mem _ _).mpr hin)
  · rw [Finset.card_insert_of_notMem hin, ← htracks.cursor] at hle
    exact Or.inr (by omega)

/-- One event, with a mask of six bits if it adds one, keeps the profiles well formed. -/
theorem wellFormed_opStep {m m' : Machine} {op : Op}
    (hmask : ∀ cur syscall argPosition, op = .dracoAdd cur syscall argPosition →
      argPosition.toNat < 64)
    (hm : m.Live ∧ ∀ t, (m.seccomp t).WellFormed) (h : opStep jhash m op = some m') :
    m'.Live ∧ ∀ t, (m'.seccomp t).WellFormed := by
  refine ⟨live_opStep hm.1 h, ?_⟩
  cases op with
  | call c =>
    intro t
    obtain ⟨r, -, he⟩ := callStep_inv hm.1 h
    refine SameProfile.wellFormed ?_ (hm.2 t)
    rw [he.frame.seccomp]
    rfl
  | dracoAdd cur syscall argPosition =>
    cases h
    exact wellFormed_setSeccomp hm.2
      (Seccomp.wellFormed_add (hm.2 cur) syscall (hmask cur syscall argPosition rfl))
  | dracoLoad cur =>
    cases h
    exact wellFormed_setSeccomp hm.2 (Seccomp.wellFormed_load (hm.2 cur))
  | attachFilter cur F =>
    cases h
    exact wellFormed_setSeccomp hm.2 (SameProfile.wellFormed rfl (hm.2 cur))

/-- Masks of six bits keep the counts bounded. -/
theorem countsBounded_of_masks (jhash : List UInt64 → UInt32)
    (hprofile : ∀ t, (profile t).WellFormed)
    (hmask : ∀ cur syscall argPosition, Op.dracoAdd cur syscall argPosition ∈ ops →
      argPosition.toNat < 64) : CountsBounded jhash profile ops := by
  rintro pre post u rfl hu t s hs
  have hboot : ∀ t, ((boot profile).seccomp t).WellFormed := fun t =>
    (show SameProfile (profile t) ((boot profile).seccomp t) from rfl).wellFormed (hprofile t)
  have hwf := run_invariant_of (fun _ _ _ hop hm hstep => wellFormed_opStep hop hm hstep)
    (fun op hop cur syscall argPosition he =>
      hmask cur syscall argPosition (List.mem_append_left _ (he ▸ hop)))
    ⟨live_boot profile, hboot⟩ hu
  exact (hwf.2 t).count s hs

/-- What one event does in the two runs. -/
theorem follows_isolated (hk : AllocationsSucceed ops)
    (hcount : CountsBounded jhash profile ops) {P : TaskId} {nr : ℤ} {pre post : List Op}
    {op : Op} {u v : Machine} (hsplit : ops = pre ++ op :: post)
    (hu : run (opStep jhash) (boot profile) pre = some u) (hI : Isolated P nr u v) :
    Follows (opStep jhash) (resultFor jhash P nr) (Op.keptFor P nr) (Isolated P nr)
      (fun r r' => (r = 1 → r' = 1) ∧
        ((touched ops).card ≤ PRE_ALLOCATED_SYSCALL_TABLE_COUNT → r = r')) u v op := by
  have hsix := hcount pre (op :: post) u hsplit hu
  cases op with
  | call c =>
    obtain ⟨u', r, hr⟩ := callChecker_isSome_of_count jhash hI.live (hsix c.cur)
    have he := callChecker_effect hI.live hr
    have hstep : opStep jhash u (.call c) = some u' := by
      rw [opStep, callStep, hr]
      rfl
    by_cases hkept : c.cur = P ∧ c.nr = nr
    · obtain ⟨rfl, rfl⟩ := hkept
      have hsix' : ∀ s < 400, (v.seccomp c.cur).argumentCount s ≤ 6 := by
        intro s hs
        rw [hI.profile.argumentCount]
        exact hsix c.cur s hs
      obtain ⟨v', r', hr'⟩ := callChecker_isSome_of_count jhash hI.live' hsix'
      have hstep' : opStep jhash v (.call c) = some v' := by
        rw [opStep, callStep, hr']
        rfl
      obtain ⟨hI', hone, hsame⟩ := hI.keptCall he (callChecker_effect hI.live' hr')
        (hk c (by rw [hsplit]; simp))
      refine .kept (decide_eq_true ⟨rfl, rfl⟩) hstep hstep' hI' ?_
      simp only [resultFor, and_self, if_true, hr, hr', Option.map_some]
      exact .some ⟨hone, fun hbound => hsame (room_of_touched hk hbound hsplit hu)⟩
    · exact .dropped (decide_eq_false hkept) hstep (hI.otherCall he hkept) (if_neg hkept)
  | dracoAdd cur syscall argPosition =>
    by_cases hP : cur = P
    · subst hP
      exact .kept (decide_eq_true rfl) rfl rfl (hI.setSeccomp_both (Seccomp.dracoHook_add _ _ _)
        (Seccomp.dracoHook_add _ _ _) (hI.profile.add syscall argPosition)) .none
    · exact .dropped (decide_eq_false hP) rfl
        (hI.setSeccomp_left (Seccomp.dracoHook_add _ _ _) fun h => absurd h hP) rfl
  | dracoLoad cur =>
    by_cases hP : cur = P
    · subst hP
      exact .kept (decide_eq_true rfl) rfl rfl (hI.setSeccomp_both (Seccomp.dracoHook_load _)
        (Seccomp.dracoHook_load _) hI.profile.load) .none
    · exact .dropped (decide_eq_false hP) rfl
        (hI.setSeccomp_left (Seccomp.dracoHook_load _) fun h => absurd h hP) rfl
  | attachFilter cur F =>
    refine .dropped rfl rfl (hI.setSeccomp_left rfl ?_) rfl
    rintro rfl
    exact hI.profile

/-- **Tasks and syscalls do not influence each other.**  While the run touches no more
(task, syscall) pairs than the pool has tables, the calls of `P` with number `nr` return
what they return in the run that keeps only these calls and the profile changes of `P`; and
a hit is always a hit of that run. -/
theorem isolation (jhash : List UInt64 → UInt32) (profile : TaskId → Seccomp) (P : TaskId)
    (nr : ℤ) {ops : List Op} (hk : AllocationsSucceed ops)
    (hcount : CountsBounded jhash profile ops) :
    ∃ rs rs', outputs (opStep jhash) (resultFor jhash P nr) (boot profile) ops = some rs ∧
      outputs (opStep jhash) (resultFor jhash P nr) (boot profile)
        (ops.filter (Op.keptFor P nr)) = some rs' ∧
      ((touched ops).card ≤ PRE_ALLOCATED_SYSCALL_TABLE_COUNT → rs = rs') ∧
      List.Forall₂ (fun r r' => r = 1 → r' = 1) rs rs' := by
  obtain ⟨rs, rs', hrs, hrs', hrel⟩ := outputs_filter (i := boot profile) (p := [])
    (fun pre op post u v hsplit hu hI => follows_isolated hk hcount hsplit hu hI) rfl
    (isolated_boot profile P nr)
  refine ⟨rs, rs', hrs, hrs', fun hbound => ?_, hrel.imp fun _ _ h => h.1⟩
  rw [← List.forall₂_eq_eq_eq]
  exact hrel.imp fun _ _ h => h.2 hbound

end Runs

/-- Tasks for which no profile was ever loaded. -/
def unprofiled (_ : TaskId) : Seccomp := Seccomp.zero []

/-- Two tasks call `socket`, and one of them makes its profile longer in between. -/
def twoTasks : List Op :=
  [.call (socketCall 1), .call { socketCall 1 with cur := 2 }, .dracoAdd 1 41 1, .dracoLoad 1,
    .call { socketCall 1 with nr := 0 }, .call (socketCall 1), .call (socketCall 1)]

theorem isolation_twoTasks : ∃ rs rs',
    outputs (opStep socketHash) (resultFor socketHash 1 41) (boot unprofiled) twoTasks = some rs ∧
      outputs (opStep socketHash) (resultFor socketHash 1 41) (boot unprofiled)
        (twoTasks.filter (Op.keptFor 1 41)) = some rs' ∧
      rs = rs' := by
  have hk : AllocationsSucceed twoTasks := by
    intro c hc
    simp only [twoTasks, List.mem_cons, Op.call.injEq, reduceCtorEq, List.not_mem_nil, or_false,
      false_or] at hc
    rcases hc with rfl | rfl | rfl | rfl | rfl <;> rfl
  have hmask : ∀ cur syscall argPosition, Op.dracoAdd cur syscall argPosition ∈ twoTasks →
      argPosition.toNat < 64 := by
    intro cur syscall argPosition h
    simp only [twoTasks, List.mem_cons, Op.dracoAdd.injEq, reduceCtorEq, List.not_mem_nil,
      or_false, false_or] at h
    rw [h.2.2]
    decide
  obtain ⟨rs, rs', hrs, hrs', hsame, -⟩ := isolation socketHash unprofiled 1 41 hk
    (countsBounded_of_masks socketHash (fun _ => Seccomp.wellFormed_zero []) hmask)
  exact ⟨rs, rs', hrs, hrs', hsame (by decide)⟩

end Draco
