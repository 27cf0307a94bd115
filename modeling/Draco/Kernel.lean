/-
# Runs of the kernel with the module loaded

The events that the development follows are the system calls that reach
`__secure_computing`, the two Draco `prctl`s, and the installation of a filter.  A run is
a sequence of events, of whatever tasks: a call is one step, and a `prctl`, a fork or an
exit is an event of its own, not part of a call.  The module takes its lock for the
counters and the process list only: `get_item_from_pool` moves the cursor of the pool
without it, and what calls that overlap do there is left out.
`callStep` and `opStep` give their successor states, `secureComputing` the part of
`__secure_computing` in which the module has a say, and `Kernel` adds the one
thing that ends a task here, a filter that kills it.

What a run can do to the tables is stated once for one event (`extends_opStep`)
and once for all runs (`extends_run`): tables and rows that are there stay.
-/
import Draco.Handler
import Draco.Lib.Run
import Draco.Profile

namespace Draco

open PartialRun Machine

/-! ## Events -/

/-- The state after `draco_init`. -/
def boot (profile : TaskId → Seccomp) : Machine := dracoInit (Machine.loaded profile)

/-- A call as a step, whatever it returns. -/
def callStep (jhash : List UInt64 → UInt32) (m : Machine) (c : SysCall) : Option Machine :=
  (callChecker jhash m c).map Prod.fst

/-- The call returns 1. -/
def Hits (jhash : List UInt64 → UInt32) (m : Machine) (c : SysCall) : Prop :=
  ∃ m', callChecker jhash m c = some (m', 1)

/-- `current->seccomp = sec` -/
def setSeccomp (m : Machine) (cur : TaskId) (sec : Seccomp) : Machine :=
  { m with seccomp := Function.update m.seccomp cur sec }

/-- A call of syscall 0 by task `t`, both allocations of which succeed. -/
def plainCall (t : TaskId) : SysCall := ⟨t, 0, .x86_64, default, ⟨true, true⟩⟩

/-- The value of `jhash` on the empty key. -/
def emptyKeyHash (_ : List UInt64) : UInt32 := 3745928563

/-- The events that read or write the Draco state of a task. -/
inductive Op where
  | call (c : SysCall)
  | dracoAdd (cur : TaskId) (syscall : ℤ) (argPosition : BitVec 32)
  | dracoLoad (cur : TaskId)
  | attachFilter (cur : TaskId) (F : Filter)

/-- One event.  Attaching a filter writes no Draco field. -/
def opStep (jhash : List UInt64 → UInt32) (m : Machine) : Op → Option Machine
  | .call c => callStep jhash m c
  | .dracoAdd cur syscall argPosition =>
    some (setSeccomp m cur (prctlDracoAddSeccomp (m.seccomp cur) syscall argPosition).1)
  | .dracoLoad cur => some (setSeccomp m cur (prctlDracoLoadSeccomp (m.seccomp cur)))
  | .attachFilter cur F =>
    some (setSeccomp m cur { m.seccomp cur with filter := F :: (m.seccomp cur).filter })

/-- What the filters are shown of a call. -/
def SysCall.data (c : SysCall) : SeccompData := populateSeccompData c.abi c.nr c.regs

/-- How `__secure_computing` decides: `draco_checker` has returned a nonzero
value, or the filters of the task have been run. -/
inductive Verdict where
  | skipped
  | filtered (act : Action)
  deriving DecidableEq, Repr

/-- `__secure_computing` of a task in `SECCOMP_MODE_FILTER`. -/
def secureComputing (jhash : List UInt64 → UInt32) (m : Machine) (c : SysCall) :
    Option (Machine × Verdict) :=
  match callChecker jhash m c with
  | none => none
  | some (m', r) =>
    if r ≠ 0 then some (m', .skipped)
    else some (m', .filtered (runFilters (m'.seccomp c.cur).filter c.data))

/-- The machine with the tasks that a filter has killed. -/
structure Kernel where
  machine : Machine
  killed : List TaskId

/-- A system call of a task that is alive. -/
def Kernel.step (jhash : List UInt64 → UInt32) (k : Kernel) (c : SysCall) : Option Kernel :=
  if c.cur ∈ k.killed then none
  else
    match secureComputing jhash k.machine c with
    | none => none
    | some (m, v) => some ⟨m, if v = .filtered .kill then c.cur :: k.killed else k.killed⟩

/-- The loaded module with all tasks alive. -/
def Kernel.boot (profile : TaskId → Seccomp) : Kernel := ⟨Draco.boot profile, []⟩

namespace Machine

/-! ## The loaded module -/

/-- No task has a block at boot. -/
theorem hook_boot (profile : TaskId → Seccomp) (t : TaskId) : (boot profile).hook t = none := rfl

/-- No task owns a table at boot. -/
theorem slotOf_boot (profile : TaskId → Seccomp) (t : TaskId) (s : ℕ) :
    (boot profile).slotOf t s = none := rfl

theorem positions_boot (profile : TaskId → Seccomp) (t : TaskId) (s : ℕ) :
    ((boot profile).seccomp t).positions s = (profile t).positions s := rfl

/-- With an empty hash table and no task hooked everything is in order. -/
theorem owned_of_empty {m : Machine} (hhook : ∀ t, m.hook t = none)
    (htable : m.hashTable = HashTable.zero) : m.Owned where
  hookLt := fun t b h => by rw [hhook] at h; cases h
  hookInj := fun t t' b h => by rw [hhook] at h; cases h
  slotLt := fun t s i h => by rw [slotOf_of_hook_none (hhook t)] at h; cases h
  slotInj := fun t s t' s' i h => by rw [slotOf_of_hook_none (hhook t)] at h; cases h
  cursorLe := by rw [cursor, htable]; exact Nat.zero_le _
  tidy := fun i => by rw [tableAt, htable]; exact PerSyscall.tidy_zero
  unused := fun i _ h => by rw [rowsAt, tableAt, htable]; exact PerSyscall.rows_zero h

/-- Nothing is owned at boot, so nothing is owned twice. -/
theorem owned_boot (profile : TaskId → Seccomp) : (boot profile).Owned :=
  owned_of_empty (hook_boot profile) rfl

/-- The module is loaded and its tables are in order. -/
structure Live (m : Machine) : Prop where
  owned : m.Owned
  checker : m.dracoChecker = .seccompFilterHandler

/-- At boot the module is loaded and owns nothing yet. -/
theorem live_boot (profile : TaskId → Seccomp) : (boot profile).Live :=
  ⟨owned_boot profile, rfl⟩

/-! ## One event -/

/-- With the module loaded, the checker that is called is the handler. -/
theorem callChecker_live {jhash : List UInt64 → UInt32} {m : Machine} (hm : m.Live)
    (c : SysCall) : callChecker jhash m c = seccompFilterHandler jhash m c := by
  rw [callChecker, hm.checker]

/-- So the handler's effect is that of the checker. -/
theorem callChecker_effect {jhash : List UInt64 → UInt32} {m m' : Machine} {c : SysCall}
    {r : ℤ} (hm : m.Live) (h : callChecker jhash m c = some (m', r)) :
    HandlerEffect jhash m c m' r :=
  handler_effect hm.owned (by rwa [callChecker_live hm] at h)

/-- A step of a call is a call of the handler. -/
theorem callStep_inv {jhash : List UInt64 → UInt32} {m m' : Machine} {c : SysCall}
    (hm : m.Live) (h : callStep jhash m c = some m') :
    ∃ r, callChecker jhash m c = some (m', r) ∧ HandlerEffect jhash m c m' r := by
  obtain ⟨⟨m₁, r⟩, h₁, rfl⟩ := Option.map_eq_some_iff.mp h
  exact ⟨r, h₁, callChecker_effect hm h₁⟩

/-- The module stays loaded and its tables in order over a call. -/
theorem live_callStep {jhash : List UInt64 → UInt32} {m m' : Machine} {c : SysCall}
    (hm : m.Live) (h : callStep jhash m c = some m') : m'.Live := by
  obtain ⟨r, -, he⟩ := callStep_inv hm h
  exact ⟨he.owned, he.frame.dracoChecker.trans hm.checker⟩

section Seccomp

variable {m : Machine} {cur : TaskId} {sec : Seccomp}

/-- A new profile that keeps its `draco_hook` moves no block. -/
theorem hook_setSeccomp (hsec : sec.dracoHook = m.hook cur) (t : TaskId) :
    (setSeccomp m cur sec).hook t = m.hook t := by
  by_cases h : t = cur
  · subst h
    rw [← hsec]
    simp [hook, setSeccomp]
  · simp [hook, setSeccomp, h]

/-- So it moves no table either. -/
theorem slotOf_setSeccomp (hsec : sec.dracoHook = m.hook cur) (t : TaskId) (s : ℕ) :
    (setSeccomp m cur sec).slotOf t s = m.slotOf t s := by
  rw [slotOf, hook_setSeccomp hsec]
  rfl

/-- They do over a change of a profile. -/
theorem live_setSeccomp (hsec : sec.dracoHook = m.hook cur) (hm : m.Live) :
    (setSeccomp m cur sec).Live where
  owned :=
    { hookLt := fun t b h => hm.owned.hookLt t b (by rwa [hook_setSeccomp hsec] at h)
      hookInj := fun t t' b h h' =>
        hm.owned.hookInj t t' b (by rwa [hook_setSeccomp hsec] at h)
          (by rwa [hook_setSeccomp hsec] at h')
      slotLt := fun t s i h => hm.owned.slotLt t s i (by rwa [slotOf_setSeccomp hsec] at h)
      slotInj := fun t s t' s' i h h' =>
        hm.owned.slotInj t s t' s' i (by rwa [slotOf_setSeccomp hsec] at h)
          (by rwa [slotOf_setSeccomp hsec] at h')
      cursorLe := hm.owned.cursorLe
      tidy := hm.owned.tidy
      unused := hm.owned.unused }
  checker := hm.checker

end Seccomp

/-- An event is a call, or it writes the profile of one task and keeps its hook. -/
theorem opStep_cases {jhash : List UInt64 → UInt32} {m m' : Machine} {op : Op}
    (h : opStep jhash m op = some m') :
    (∃ c, op = .call c ∧ callStep jhash m c = some m') ∨
    ((∀ c, op ≠ .call c) ∧
      ∃ cur sec, sec.dracoHook = m.hook cur ∧ m' = setSeccomp m cur sec) := by
  cases op with
  | call c => exact Or.inl ⟨c, rfl, h⟩
  | dracoAdd cur syscall argPosition =>
    exact Or.inr ⟨fun _ => by simp, cur, _, Seccomp.dracoHook_add _ _ _,
      (Option.some.inj h).symm⟩
  | dracoLoad cur =>
    exact Or.inr ⟨fun _ => by simp, cur, _, Seccomp.dracoHook_load _, (Option.some.inj h).symm⟩
  | attachFilter cur F =>
    exact Or.inr ⟨fun _ => by simp, cur,
      { m.seccomp cur with filter := F :: (m.seccomp cur).filter }, rfl,
      (Option.some.inj h).symm⟩

/-- And so over every event. -/
theorem live_opStep {jhash : List UInt64 → UInt32} {m m' : Machine} {op : Op} (hm : m.Live)
    (h : opStep jhash m op = some m') : m'.Live := by
  rcases opStep_cases h with ⟨c, -, hc⟩ | ⟨-, cur, sec, hsec, rfl⟩
  · exact live_callStep hm hc
  · exact live_setSeccomp hsec hm

/-! ## Tables and rows only grow -/

/-- Every table and every row of `m` is in `m'`, where it was. -/
structure Extends (m m' : Machine) : Prop where
  slotOf : ∀ t s i, m.slotOf t s = some i → m'.slotOf t s = some i
  rowsAt : ∀ i h, m.rowsAt i h <+: m'.rowsAt i h

theorem Extends.refl (m : Machine) : Extends m m :=
  ⟨fun _ _ _ h => h, fun _ _ => List.prefix_refl _⟩

theorem Extends.trans {m₁ m₂ m₃ : Machine} (h₁ : Extends m₁ m₂) (h₂ : Extends m₂ m₃) :
    Extends m₁ m₃ :=
  ⟨fun t s i h => h₂.slotOf t s i (h₁.slotOf t s i h), fun i h => (h₁.rowsAt i h).trans
    (h₂.rowsAt i h)⟩

/-- A call only takes tables from the pool and adds rows to them. -/
theorem HandlerEffect.extends {jhash : List UInt64 → UInt32} {m m' : Machine} {c : SysCall}
    {r : ℤ} (h : HandlerEffect jhash m c m' r) : Extends m m' := by
  refine ⟨h.slotKeep, fun i k => ?_⟩
  rw [h.rows]
  split_ifs
  · exact List.prefix_append _ _
  · exact List.prefix_refl _

/-- Neither a call nor a profile change takes a row or a table back. -/
theorem extends_opStep {jhash : List UInt64 → UInt32} {m m' : Machine} {op : Op}
    (hm : m.Live) (h : opStep jhash m op = some m') : Extends m m' := by
  rcases opStep_cases h with ⟨c, -, hc⟩ | ⟨-, cur, sec, hsec, rfl⟩
  · obtain ⟨r, -, he⟩ := callStep_inv hm hc
    exact he.extends
  · exact ⟨fun t s i hi => by rwa [slotOf_setSeccomp hsec], fun _ _ => List.prefix_refl _⟩

/-- The module stays loaded and its tables in order over every run. -/
theorem live_run {jhash : List UInt64 → UInt32} {m m' : Machine} {ops : List Op} (hm : m.Live)
    (h : run (opStep jhash) m ops = some m') : m'.Live :=
  run_invariant (fun _ _ _ hs hstep => live_opStep hs hstep) hm h

/-- **Tables and rows that are there stay.** -/
theorem extends_run {jhash : List UInt64 → UInt32} {m m' : Machine} {ops : List Op}
    (hm : m.Live) (h : run (opStep jhash) m ops = some m') : Extends m m' :=
  run_relation (fun _ _ _ hs hstep => live_opStep hs hstep) Extends.refl
    (fun _ _ _ => Extends.trans) (fun _ _ _ hs hstep => extends_opStep hs hstep) hm h

/-- What a run has recorded, every continuation of it still holds. -/
theorem extends_of_append {jhash : List UInt64 → UInt32} {profile : TaskId → Seccomp}
    {xs zs : List Op} {w u : Machine} (hw : run (opStep jhash) (boot profile) xs = some w)
    (hu : run (opStep jhash) (boot profile) (xs ++ zs) = some u) : Extends w u := by
  obtain ⟨w', hw', hrest⟩ := run_append_inv hu
  rw [hw] at hw'
  cases hw'
  exact extends_run (live_run (live_boot profile) hw) hrest

/-! ## Runs of calls -/

/-- A run of calls is a run of events. -/
theorem run_callStep (jhash : List UInt64 → UInt32) (m : Machine) (calls : List SysCall) :
    run (callStep jhash) m calls = run (opStep jhash) m (calls.map .call) := by
  have hcall : ∀ m c, opStep jhash m (.call c) = callStep jhash m c := fun _ _ => rfl
  exact (run_map Op.call hcall m calls).symm

theorem live_run_calls {jhash : List UInt64 → UInt32} {m m' : Machine} {calls : List SysCall}
    (hm : m.Live) (h : run (callStep jhash) m calls = some m') : m'.Live :=
  live_run hm (by rwa [run_callStep] at h)

end Machine

/-! ## Runs of the kernel -/

/-- The fast path of `__secure_computing`. -/
def FastPath (jhash : List UInt64 → UInt32) (m : Machine) (c : SysCall) : Prop :=
  ∃ m', secureComputing jhash m c = some (m', .skipped)

/-- The fast path is taken exactly when the checker returns 1. -/
theorem fastPath_iff_hits {jhash : List UInt64 → UInt32} {m : Machine} (hm : m.Live)
    {c : SysCall} : FastPath jhash m c ↔ Hits jhash m c := by
  unfold FastPath Hits secureComputing
  cases hc : callChecker jhash m c with
  | none => simp
  | some p =>
    obtain ⟨m', r⟩ := p
    rcases (callChecker_effect hm hc).result_zero_or_one with rfl | rfl <;> simp

namespace Kernel

/-- A step of the kernel is a step of its machine. -/
theorem step_inv {jhash : List UInt64 → UInt32} {k k' : Kernel} {c : SysCall}
    (h : step jhash k c = some k') :
    c.cur ∉ k.killed ∧ ∃ v, secureComputing jhash k.machine c = some (k'.machine, v) ∧
      callStep jhash k.machine c = some k'.machine ∧
      k'.killed = if v = .filtered .kill then c.cur :: k.killed else k.killed := by
  unfold step at h
  split_ifs at h with hk
  cases hv : secureComputing jhash k.machine c with
  | none =>
    rw [hv] at h
    cases h
  | some p =>
    obtain ⟨m, v⟩ := p
    rw [hv] at h
    cases h
    refine ⟨hk, v, rfl, ?_, rfl⟩
    unfold secureComputing at hv
    rw [callStep]
    cases hc : callChecker jhash k.machine c with
    | none =>
      rw [hc] at hv
      cases hv
    | some p =>
      rw [hc] at hv
      dsimp only at hv
      split_ifs at hv <;> cases hv <;> rfl

/-- A run of the kernel is a run of its machine. -/
theorem run_machine {jhash : List UInt64 → UInt32} {k k' : Kernel} {calls : List SysCall}
    (h : run (step jhash) k calls = some k') :
    run (callStep jhash) k.machine calls = some k'.machine := by
  induction calls generalizing k with
  | nil =>
    cases h
    rfl
  | cons c calls ih =>
    obtain ⟨u, hu, h'⟩ := run_cons_inv h
    obtain ⟨-, -, -, hstep, -⟩ := step_inv hu
    exact run_cons_of hstep (ih h')

end Kernel

end Draco
