/-
# Tables are append-only

A row of the pool is written once, by a call that finds no row of its key in a set with
room, and it is the first free row of that set.  No later call and no change of a
profile touches it again (`occupied_run`).  What a set shows of its four entries is the
list of its rows (`Tidy.entry_eq`), so what one call can do to the entries of the whole
pool (`AppendsOne`) follows from what it can do to these lists.
-/
import Draco.Metrics

namespace Draco

open PartialRun Machine

/-! ## Entries and rows -/

namespace PerSyscall

/-- `flag[e]` and `tb[e]` -/
def entry (T : PerSyscall) (e : ℕ) : UInt8 × List UInt64 := (T.flag e, T.table e)

/-- An entry that no call has written. -/
def freeEntry : UInt8 × List UInt64 := (0, List.replicate MAX_ARGUMENT_COUNT 0)

variable {T T' : PerSyscall}

/-- The entries of a set are its rows, then free ones. -/
theorem Tidy.entry_eq (hT : T.Tidy) {h k : ℕ} (hk : k < ASOS) :
    T.entry (h * ASOS + k) = ((T.rows h)[k]?).elim freeEntry fun row => (1, row) := by
  by_cases hlt : k < (T.rows h).length
  · have hflag : T.flag (h * ASOS + k) = 1 := (hT.flag_eq_one_iff hk).mpr hlt
    have hrow : (T.rows h)[k] = T.table (h * ASOS + k) := getElem_rows hlt
    rw [List.getElem?_eq_getElem hlt, Option.elim_some, entry, hflag, hrow]
  · have hflag : T.flag (h * ASOS + k) = 0 := by
      refine (hT.binary _).resolve_right fun hone => ?_
      exact hlt ((hT.flag_eq_one_iff hk).mp hone)
    rw [List.getElem?_eq_none (Nat.le_of_not_lt hlt), Option.elim_none, entry, hflag,
      hT.free _ hflag, freeEntry]

/-- The set and the place in it of an entry. -/
theorem div_add_mod (e : ℕ) : e / ASOS * ASOS + e % ASOS = e := by
  rw [Nat.mul_comm]
  exact Nat.div_add_mod e ASOS

/-- An entry is determined by the rows of its set. -/
theorem entry_congr (hT : T.Tidy) (hT' : T'.Tidy) {e : ℕ}
    (h : T'.rows (e / ASOS) = T.rows (e / ASOS)) : T'.entry e = T.entry e := by
  have hk : e % ASOS < ASOS := Nat.mod_lt e (by decide)
  rw [← div_add_mod e, hT.entry_eq hk, hT'.entry_eq hk, h]

section Appended

variable {h : ℕ} {row : List UInt64}

/-- The entry that an appended row fills was the first free one. -/
theorem entry_append_self (hT : T.Tidy) (hT' : T'.Tidy) (hroom : (T.rows h).length < ASOS)
    (happ : T'.rows h = T.rows h ++ [row]) :
    T.entry (h * ASOS + (T.rows h).length) = freeEntry ∧
      T'.entry (h * ASOS + (T.rows h).length) = (1, row) := by
  constructor
  · rw [hT.entry_eq hroom, List.getElem?_eq_none (Nat.le_refl _)]
    rfl
  · rw [hT'.entry_eq hroom, happ, List.getElem?_concat_length]
    rfl

/-- The other entries of the set are as before. -/
theorem entry_append_of_ne (hT : T.Tidy) (hT' : T'.Tidy) (happ : T'.rows h = T.rows h ++ [row])
    {k : ℕ} (hk : k < ASOS) (hne : k ≠ (T.rows h).length) :
    T'.entry (h * ASOS + k) = T.entry (h * ASOS + k) := by
  rw [hT.entry_eq hk, hT'.entry_eq hk, happ]
  rcases Nat.lt_or_gt_of_ne hne with hlt | hgt
  · rw [List.getElem?_append_left hlt]
  · have hlen : (T.rows h ++ [row]).length ≤ k := by
      rw [List.length_append, List.length_singleton]
      exact hgt
    rw [List.getElem?_eq_none hlen, List.getElem?_eq_none (Nat.le_of_lt hgt)]

end Appended

end PerSyscall

/-! ## One call -/

/-- The entry that a call may write: place `k` of its key's set in the table at `slot`. -/
def callEntry (jhash : List UInt64 → UInt32) (m : Machine) (c : SysCall) (k : ℕ) : ℕ :=
  hashCode jhash (m.callKey c) * ASOS + k

/-- The call fills the first free place of its key's set in its task's table, and
no other entry of the pool. -/
structure Fills (jhash : List UInt64 → UInt32) (m : Machine) (c : SysCall) (m' : Machine)
    (slot k : ℕ) : Prop where
  inRange : c.InRange
  table : m'.slotOf c.cur c.syscallId = some slot
  place : k < ASOS
  bound : callEntry jhash m c k < INIT_HASH_ARGUMENT * ASOS
  leading : ∀ j < k, (tableAt m slot).flag (callEntry jhash m c j) = 1
  before : (tableAt m slot).entry (callEntry jhash m c k) = PerSyscall.freeEntry
  after : (tableAt m' slot).entry (callEntry jhash m c k) = (1, padded (m.callKey c))
  others : ∀ i e, ¬ (i = slot ∧ e = callEntry jhash m c k) →
    (tableAt m' i).entry e = (tableAt m i).entry e

/-- **What a call can do to the pool**: it fills one entry at most, and touches neither an
occupied row, nor a table other than its own, nor a profile. -/
structure AppendsOne (jhash : List UInt64 → UInt32) (m : Machine) (c : SysCall)
    (m' : Machine) : Prop where
  entries : (∀ i e, (tableAt m' i).entry e = (tableAt m i).entry e) ∨
    ∃ slot k, Fills jhash m c m' slot k
  occupied : ∀ i e, (tableAt m i).flag e = 1 → (tableAt m' i).entry e = (tableAt m i).entry e
  others : ∀ i, ¬ (c.InRange ∧ m'.slotOf c.cur c.syscallId = some i) →
    tableAt m' i = tableAt m i
  profiles : ∀ t, m'.seccomp t = { m.seccomp t with dracoHook := m'.hook t }

section Call

variable {jhash : List UInt64 → UInt32} {m m' : Machine} {c : SysCall} {r : ℤ}

theorem Machine.HandlerEffect.fills (ho : m.Owned) (h : HandlerEffect jhash m c m' r)
    (hc : c.InRange) {slot : ℕ} (hslot : m'.slotOf c.cur c.syscallId = some slot)
    (hmiss : ¬ Matches jhash m c slot)
    (hroom : (m.rowsAt slot (hashCode jhash (m.callKey c))).length < ASOS) :
    Fills jhash m c m' slot (m.rowsAt slot (hashCode jhash (m.callKey c))).length := by
  have hT := ho.tidy
  have hT' := h.owned.tidy
  have happ : m'.rowsAt slot (hashCode jhash (m.callKey c)) =
      m.rowsAt slot (hashCode jhash (m.callKey c)) ++ [padded (m.callKey c)] := by
    rw [h.rows, if_pos ⟨hc, hslot, rfl, hmiss, hroom⟩]
  obtain ⟨hbefore, hafter⟩ := PerSyscall.entry_append_self (hT slot) (hT' slot) hroom happ
  refine ⟨hc, hslot, hroom, ?_, fun j hj => ?_, hbefore, hafter, fun i e hne => ?_⟩
  · have hset := hashCode_lt jhash (m.callKey c)
    simp only [callEntry, INIT_HASH_ARGUMENT, ASOS] at hset hroom ⊢
    omega
  · exact ((hT slot).flag_eq_one_iff (Nat.lt_trans hj hroom)).mpr hj
  · by_cases hset : i = slot ∧ e / ASOS = hashCode jhash (m.callKey c)
    · obtain ⟨rfl, hset⟩ := hset
      have he := PerSyscall.div_add_mod e
      rw [hset] at he
      rw [← he]
      refine PerSyscall.entry_append_of_ne (hT i) (hT' i) happ (Nat.mod_lt e (by decide)) ?_
      intro hk
      rw [hk] at he
      exact hne ⟨rfl, he.symm⟩
    · refine PerSyscall.entry_congr (hT i) (hT' i) ?_
      have hrows := h.rows i (e / ASOS)
      rw [if_neg] at hrows
      · exact hrows
      · rintro ⟨-, hi, hset', -, -⟩
        rw [hslot] at hi
        exact hset ⟨(Option.some.inj hi).symm, hset'⟩

theorem Machine.HandlerEffect.entries (ho : m.Owned) (h : HandlerEffect jhash m c m' r) :
    (∀ i e, (tableAt m' i).entry e = (tableAt m i).entry e) ∨
      ∃ slot k, Fills jhash m c m' slot k := by
  by_cases hfill : c.InRange ∧ ∃ slot, m'.slotOf c.cur c.syscallId = some slot ∧
      ¬ Matches jhash m c slot ∧ (m.rowsAt slot (hashCode jhash (m.callKey c))).length < 4
  · obtain ⟨hc, slot, hslot, hmiss, hroom⟩ := hfill
    exact Or.inr ⟨slot, _, h.fills ho hc hslot hmiss hroom⟩
  · refine Or.inl fun i e => PerSyscall.entry_congr (ho.tidy i) (h.owned.tidy i) ?_
    have hrows := h.rows i (e / ASOS)
    rw [if_neg] at hrows
    · exact hrows
    · rintro ⟨hc, hslot, hset, hmiss, hroom⟩
      rw [hset] at hroom
      exact hfill ⟨hc, i, hslot, hmiss, hroom⟩

/-- A filled entry was free. -/
theorem occupied_of_entries
    (h : (∀ i e, (tableAt m' i).entry e = (tableAt m i).entry e) ∨
      ∃ slot k, Fills jhash m c m' slot k) {i e : ℕ} (hf : (tableAt m i).flag e = 1) :
    (tableAt m' i).entry e = (tableAt m i).entry e := by
  rcases h with hsame | ⟨slot, k, hfill⟩
  · exact hsame i e
  · refine hfill.others i e ?_
    rintro ⟨rfl, rfl⟩
    have hfree : (tableAt m i).flag (callEntry jhash m c k) = 0 := congrArg Prod.fst hfill.before
    rw [hf] at hfree
    exact absurd hfree (by decide)

/-- The comparison writes to its own table only. -/
theorem tableAt_compareOrInsert_of_ne (jhash : List UInt64 → UInt32) (m : Machine) (b slot : ℕ)
    (key : List UInt64) (i : ℕ) (hi : i ≠ slot) :
    tableAt (compareOrInsert jhash m b slot key).1 i = tableAt m i := by
  have hargument : tableAt (countArgument m b slot) i = tableAt m i :=
    tableAt_setTable_others (fun _ => rfl) i hi
  rcases compareOrInsert_cases jhash m b slot key with ⟨-, h⟩ | ⟨-, -, h⟩ | ⟨-, -, h⟩ <;> rw [h]
  · rfl
  · exact (tableAt_setTable_others (fun _ => rfl) i hi).trans hargument
  · exact (tableAt_setTable_of_ne _ _ hi).trans hargument

/-- **A call leaves the tables of other tasks and of other syscalls alone.** -/
theorem tableAt_handler_of_ne (ho : m.Owned)
    (h : seccompFilterHandler jhash m c = some (m', r)) {i : ℕ}
    (hi : ¬ (c.InRange ∧ m'.slotOf c.cur c.syscallId = some i)) :
    tableAt m' i = tableAt m i := by
  rcases handler_cases h with ⟨-, rfl, -⟩ | ⟨-, -, hres⟩ |
    ⟨hc, m₁, b, slot, hres, -, hcompare⟩
  · rfl
  · exact (reached_acquireTable hres).tables i
  · have hacq := acquireTable_spec ((sameView_counted m c.syscallId).owned ho) c.cur c.syscallId
      c.kmalloc
    rw [hres] at hacq
    have hcmp := compareOrInsert_effect jhash (countSyscallCall m₁ slot) b slot
      (argumentList ((countSyscallCall m₁ slot).seccomp c.cur) c.syscallId c.regs)
    have hothers := tableAt_compareOrInsert_of_ne jhash (countSyscallCall m₁ slot) b slot
      (argumentList ((countSyscallCall m₁ slot).seccomp c.cur) c.syscallId c.regs)
    rw [hcompare] at hcmp hothers
    have hslot : m'.slotOf c.cur c.syscallId = some slot := by
      rw [hcmp.slotOf, (sameView_countSyscallCall m₁ slot).slotOf, (hacq.found b slot rfl).self]
    have hi' : i ≠ slot := by
      rintro rfl
      exact hi ⟨hc, hslot⟩
    rw [hothers i hi', countSyscallCall, tableAt_setTable_of_ne _ _ hi',
      (reached_acquireTable hres).tables]

/-- A call fills at most one place of the pool. -/
theorem appendsOne_of_call (hm : m.Live) (h : callChecker jhash m c = some (m', r)) :
    AppendsOne jhash m c m' where
  entries := (callChecker_effect hm h).entries hm.owned
  occupied := by
    intro i e hf
    exact occupied_of_entries ((callChecker_effect hm h).entries hm.owned) hf
  others := by
    intro i hi
    rw [callChecker_live hm] at h
    exact tableAt_handler_of_ne hm.owned h hi
  profiles := (callChecker_effect hm h).frame.seccomp

end Call

/-! ## Runs -/

/-- A call, or a new profile under the old hook. -/
def eventStep (jhash : List UInt64 → UInt32) (m : Machine) : Event → Option Machine
  | .call c => callStep jhash m c
  | .profile cur sec => some (setSeccomp m cur { sec with dracoHook := m.hook cur })

variable {jhash : List UInt64 → UInt32} {m m' : Machine}

/-- Every event keeps the module loaded and its tables in order. -/
theorem live_eventStep {e : Event} (hm : m.Live) (h : eventStep jhash m e = some m') :
    m'.Live := by
  cases e with
  | call c => exact live_callStep hm h
  | profile cur sec =>
    cases h
    exact live_setSeccomp rfl hm

/-- The occupied rows of `m` are in `m'` as they were. -/
def Machine.Keeps (m m' : Machine) : Prop :=
  ∀ i e, (tableAt m i).flag e = 1 → (tableAt m' i).entry e = (tableAt m i).entry e

theorem Machine.Keeps.refl (m : Machine) : m.Keeps m := fun _ _ _ => rfl

theorem Machine.Keeps.trans {m₁ m₂ m₃ : Machine} (h₁ : m₁.Keeps m₂) (h₂ : m₂.Keeps m₃) :
    m₁.Keeps m₃ := by
  intro i e hf
  have hflag : (tableAt m₂ i).flag e = (tableAt m₁ i).flag e := congrArg Prod.fst (h₁ i e hf)
  rw [h₂ i e (hflag.trans hf), h₁ i e hf]

/-- Every event keeps the occupied rows. -/
theorem keeps_eventStep {e : Event} (hm : m.Live) (h : eventStep jhash m e = some m') :
    m.Keeps m' := by
  cases e with
  | call c =>
    obtain ⟨r, hcall, -⟩ := callStep_inv hm h
    exact (appendsOne_of_call hm hcall).occupied
  | profile cur sec =>
    cases h
    intro i e _
    rfl

/-- **A row that is occupied stays as it is for the rest of the run.** -/
theorem occupied_run {events : List Event} (hm : m.Live)
    (h : run (eventStep jhash) m events = some m') : m.Keeps m' :=
  run_relation (fun _ _ _ => live_eventStep) Keeps.refl (fun _ _ _ => Keeps.trans)
    (fun _ _ _ => keeps_eventStep) hm h

/-- An event that fits has a next state. -/
theorem exists_eventStep {e : Event} (hm : m.Live) (hfit : m.ListsFit) (he : e.Fits) :
    ∃ m', eventStep jhash m e = some m' ∧ m'.Live ∧ m'.ListsFit := by
  cases e with
  | call c =>
    obtain ⟨m', r, hcall⟩ := callChecker_of_listsFit jhash hm hfit c
    have hstep : eventStep jhash m (.call c) = some m' := by
      rw [eventStep, callStep, hcall]
      rfl
    exact ⟨m', hstep, live_eventStep hm hstep, hfit.effect (callChecker_effect hm hcall)⟩
  | profile cur sec =>
    exact ⟨_, rfl, live_setSeccomp rfl hm, hfit.setSeccomp cur he⟩

/-- **Tables are append-only**: after any calls and changes of profiles of at most six
positions, the occupied rows of every set come first, the free ones are zero, and the next
call returns and fills one free row at most; no later event changes an occupied row. -/
theorem tables_appendOnly (jhash : List UInt64 → UInt32) (profile : TaskId → Seccomp)
    (hprofile : ∀ t, ∀ s < SYSCALL_COUNT, (profile t).argumentCount s ≤ MAX_ARGUMENT_COUNT)
    (events : List Event) (hevents : ∀ e ∈ events, e.Fits) :
    ∃ m, run (eventStep jhash) (boot profile) events = some m ∧
      (∀ i, (tableAt m i).Tidy) ∧
      (∀ c, ∃ m' r, callChecker jhash m c = some (m', r) ∧ AppendsOne jhash m c m') ∧
      ∀ later m', run (eventStep jhash) m later = some m' → m.Keeps m' := by
  have hstep : ∀ m e, (m.Live ∧ m.ListsFit) → Event.Fits e →
      ∃ m', eventStep jhash m e = some m' ∧ m'.Live ∧ m'.ListsFit := by
    intro m e hm he
    exact exists_eventStep hm.1 hm.2 he
  obtain ⟨m, hrun, hlive, hfit⟩ := run_isSome_of hstep ⟨live_boot profile, hprofile⟩ hevents
  refine ⟨m, hrun, hlive.owned.tidy, fun c => ?_, fun later m' => occupied_run hlive⟩
  obtain ⟨m', r, hcall⟩ := callChecker_of_listsFit jhash hlive hfit c
  exact ⟨m', r, hcall, appendsOne_of_call hlive hcall⟩

/-- Two keys of task 1 under a profile that changes from no position to one, and a call of
task 2. -/
theorem tables_appendOnly_threeCalls :
    ∃ m, run (eventStep fun _ => 0) (boot fun _ => Seccomp.zero [])
        [.call ⟨1, 41, .x86_64, default, ⟨true, true⟩⟩,
          .profile 1 (prctlDracoLoadSeccomp (prctlDracoAddSeccomp (Seccomp.zero []) 41 1).1),
          .call ⟨1, 41, .x86_64, default, ⟨true, true⟩⟩,
          .call ⟨2, 41, .x86_64, default, ⟨true, true⟩⟩] = some m ∧
      (∀ i, (tableAt m i).Tidy) ∧
      (∀ c, ∃ m' r, callChecker (fun _ => 0) m c = some (m', r) ∧
        AppendsOne (fun _ => 0) m c m') ∧
      ∀ later m', run (eventStep fun _ => 0) m later = some m' → m.Keeps m' := by
  refine tables_appendOnly _ _ (fun _ => (Seccomp.wellFormed_zero []).count) _ fun e he => ?_
  simp only [List.mem_cons, List.not_mem_nil, or_false] at he
  rcases he with rfl | rfl | rfl | rfl
  · trivial
  · exact (Seccomp.wellFormed_load (Seccomp.wellFormed_add (Seccomp.wellFormed_zero []) 41
      (by decide))).count
  · trivial
  · trivial

end Draco
