/-
# Registrations that fail

The registration part of `insert_value` allocates the block of the task, sets its
hook, and overwrites `process_head.next` with the result of the second `kmalloc`
before it looks at it.  When the first `kmalloc` fails nothing has happened yet; when
the second one fails the task keeps its hook and the list of all earlier tasks is
lost.  So a failed registration leaves the registry alone exactly when it is the
block that could not be allocated (`failedRegistration_iff`).
-/
import Draco.LifeCycle

namespace Draco

open PartialRun

namespace Machine

variable {jhash : List UInt64 → UInt32} {m m' : Machine} {c : SysCall}

/-- Block `b` is held by a task on the process list. -/
def Held (m : Machine) (b : ℕ) : Prop :=
  ∃ l, m.registryView.Linked l ∧ ∃ t ∈ m.registryView.processes l, m.hook t = some b

/-- What a failed registration of task `cur` should leave: the list with its nodes,
no hook, no block that the list does not lead to any more, and with it the chance to
retry, and an unloading that detaches whom it would have detached before. -/
structure LeavesRegistry (m m' : Machine) (cur : TaskId) : Prop where
  list : ∃ l, m.registryView.Linked l ∧ m'.registryView.Linked l ∧ ∀ a ∈ l, m'.nodes a = m.nodes a
  hook : m'.hook cur = none
  kept : ∀ b < m'.nextBlock, m'.Held b ∨ b < m.nextBlock ∧ ¬ m.Held b
  retry : (registerProcess m' cur ⟨true, true⟩).1.registryView = m'.registryView.enroll cur
  reaches : ∀ t, (freeHashTable m).hook t = none → (freeHashTable m').hook t = none

/-! ## The two failures -/

/-- A call whose registration fails returns 0. -/
theorem handler_of_unregistered (jhash : List UInt64 → UInt32) (hc : c.InRange)
    (hhook : m.hook c.cur = none)
    (hfail : c.kmalloc.perProcess = false ∨ c.kmalloc.processNode = false) :
    ∃ m', seccompFilterHandler jhash m c = some (m', 0) := by
  have hreg : ∃ m₁, registerProcess (countCall (countSyscallNumber m c.syscallId)) c.cur
      c.kmalloc = (m₁, none) := by
    rcases registerProcess_cases (countCall (countSyscallNumber m c.syscallId)) c.cur c.kmalloc
      with ⟨b, hb, -⟩ | ⟨-, -, h⟩ | ⟨-, -, -, h⟩ | ⟨-, hb, hn, -⟩
    · exact absurd (hhook.symm.trans hb) (Option.some_ne_none b).symm
    · exact ⟨_, h⟩
    · exact ⟨_, h⟩
    · rw [hb, hn] at hfail
      simp at hfail
  obtain ⟨m₁, h₁⟩ := hreg
  refine ⟨m₁, ?_⟩
  unfold seccompFilterHandler insertValue acquireTable
  rw [if_neg (fun hn => not_inRange_iff.mp hn hc), h₁]

/-- Nothing has happened when the block could not be allocated. -/
theorem leavesRegistry_of_registryView {l : List ℕ} {cur : TaskId}
    (hl : m.registryView.Linked l) (hhook : m.hook cur = none)
    (h : m'.registryView = m.registryView) : LeavesRegistry m m' cur := by
  have hl' : m'.registryView.Linked l := h ▸ hl
  have hhooks : m'.hook = m.hook := congrArg RegistryView.hook h
  refine ⟨⟨l, hl, hl', fun a _ => congrFun (congrArg RegistryView.nodes h) a⟩, ?_, fun b hb => ?_,
    ?_, fun t ht => ?_⟩
  · rw [hhooks, hhook]
  · have hnext : m'.nextBlock = m.nextBlock := congrArg RegistryView.nextBlock h
    by_cases hheld : m.Held b
    · refine Or.inl ?_
      unfold Held at hheld ⊢
      rwa [h, hhooks]
    · exact Or.inr ⟨hnext ▸ hb, hheld⟩
  · rw [registryView_registerProcess]
    exact RegistryView.register_of_success ((congrFun hhooks cur).trans hhook) rfl rfl
  · have hfree := registryView_freeHashTable hl
    rw [← h, ← registryView_freeHashTable hl'] at hfree
    exact (congrArg (fun v => v.hook t) hfree).symm.trans ht

end Machine

namespace World

open Machine

variable {jhash : List UInt64 → UInt32} {w w' : World}

/-- In every reachable state the module is loaded and the list ends. -/
theorem linked_run {profile : TaskId → Seccomp} {live : TaskId → Bool} {es : List LifeOp}
    (h : run (lifeStep jhash) (boot profile live) es = some w) :
    w.registry.checker = .seccompFilterHandler ∧ ∃ l, w.registry.Linked l := by
  refine run_invariant
    (I := fun w => (registry w).checker = .seccompFilterHandler ∧ ∃ l, (registry w).Linked l)
    ?_ ⟨rfl, [], (enrolled_boot profile live).linked⟩ h
  rintro w e w' ⟨hchk, l, hl⟩ hstep
  cases e with
  | op o =>
    obtain ⟨-, hop, -⟩ := lifeStep_op hstep
    rw [registry, registryView_opStep hchk hop]
    cases o with
    | call c =>
      show RegistryView.checker (if c.InRange then _ else _) = _ ∧
        ∃ l', RegistryView.Linked (if c.InRange then _ else _) l'
      split_ifs
      · rcases RegistryView.register_cases w.registry c.cur c.kmalloc with
          ⟨-, hreg⟩ | ⟨-, -, -, hreg⟩ | ⟨-, -, -, hreg⟩ <;>
          rw [show w.machine.registryView.register c.cur c.kmalloc = _ from hreg]
        · exact ⟨hchk, l, hl⟩
        · exact ⟨hchk, [], .lose _ _⟩
        · exact ⟨hchk, _, hl.enroll _⟩
      · exact ⟨hchk, l, hl⟩
    | dracoAdd _ _ _ => exact ⟨hchk, l, hl⟩
    | dracoLoad _ => exact ⟨hchk, l, hl⟩
    | attachFilter _ _ => exact ⟨hchk, l, hl⟩
  | fork parent child =>
    obtain ⟨-, -, hreg, -⟩ := lifeStep_fork hstep
    rw [hreg]
    exact ⟨hchk, l, ⟨hl.isList, hl.lt⟩⟩
  | exit t =>
    obtain ⟨-, hreg, -⟩ := lifeStep_exit hstep
    rw [hreg]
    exact ⟨hchk, l, hl⟩

/-- **What a failed registration leaves**: the first call of a task whose block or node
cannot be allocated returns 0 and leaves the registry as it was exactly when it is the
block that cannot be allocated. -/
theorem failedRegistration_iff {profile : TaskId → Seccomp} {live : TaskId → Bool}
    {es : List LifeOp} (h : run (lifeStep jhash) (boot profile live) es = some w) {c : SysCall}
    (hc : c.InRange) (hfirst : w.machine.hook c.cur = none)
    (hfail : c.kmalloc.perProcess = false ∨ c.kmalloc.processNode = false) :
    (∃ m', callChecker jhash w.machine c = some (m', 0) ∧ LeavesRegistry w.machine m' c.cur) ↔
      c.kmalloc.perProcess = false := by
  obtain ⟨hchk, l, hl⟩ := linked_run h
  obtain ⟨m₁, h₁⟩ := handler_of_unregistered jhash hc hfirst hfail
  have hcall : callChecker jhash w.machine c = some (m₁, 0) := by
    rw [callChecker, show w.machine.dracoChecker = _ from hchk]
    exact h₁
  have hview := registryView_handler hc h₁
  constructor
  · rintro ⟨m', hm', hleaves⟩
    rw [hcall] at hm'
    cases hm'
    by_contra hb
    have hb' := Bool.eq_true_of_not_eq_false hb
    rw [RegistryView.register_of_noNode hfirst hb' (hfail.resolve_left hb)] at hview
    -- the task keeps the hook to its new block
    have hhook : m₁.hook c.cur = some w.machine.nextBlock :=
      (congrArg (fun v => v.hook c.cur) hview).trans (by
        simp [RegistryView.lose, registryView])
    rw [hleaves.hook] at hhook
    cases hhook
  · intro hb
    rw [RegistryView.register_of_noBlock hb] at hview
    exact ⟨m₁, hcall, leavesRegistry_of_registryView hl hfirst hview⟩

/-- Task 1 is registered when the first call of task 2 gets no block: nothing happens. -/
theorem failedRegistration_noBlock :
    ∃ w m', run (lifeStep fun _ => 0) (boot (fun _ => Seccomp.zero []) fun _ => true)
        [.op (.call (plainCall 1))] = some w ∧
      callChecker (fun _ => 0) w.machine { plainCall 2 with kmalloc := ⟨false, true⟩ } =
        some (m', 0) ∧ LeavesRegistry w.machine m' 2 := by
  obtain ⟨w, hw, hhook⟩ := exists_run_of_map (lifeStep fun _ => 0)
    (boot (fun _ => Seccomp.zero []) fun _ => true) [.op (.call (plainCall 1))]
    (fun w => decide (w.machine.hook 2 = none)) (by decide)
  obtain ⟨m', hcall, hleaves⟩ := (failedRegistration_iff hw
    (c := { plainCall 2 with kmalloc := ⟨false, true⟩ }) (by decide) (of_decide_eq_true hhook)
    (by decide)).mpr rfl
  exact ⟨w, m', hw, hcall, hleaves⟩

/-- The first call of task 2 gets a block but no node: task 2 keeps a hook. -/
theorem not_leavesRegistry_noNode :
    ∃ w, run (lifeStep fun _ => 0) (boot (fun _ => Seccomp.zero []) fun _ => true)
        [.op (.call (plainCall 1))] = some w ∧ w.machine.hook 2 = none ∧
      ¬ ∃ m', callChecker (fun _ => 0) w.machine { plainCall 2 with kmalloc := ⟨true, false⟩ } =
        some (m', 0) ∧ LeavesRegistry w.machine m' 2 := by
  obtain ⟨w, hw, htest⟩ := exists_run_of_map (lifeStep fun _ => 0)
    (boot (fun _ => Seccomp.zero []) fun _ => true) [.op (.call (plainCall 1))]
    (fun w => decide (w.machine.hook 2 = none) &&
      decide ((callChecker (fun _ => 0) w.machine
        { plainCall 2 with kmalloc := ⟨true, false⟩ }).map (fun p => p.1.hook 2) = some (some 1)))
    (by decide)
  rw [Bool.and_eq_true, decide_eq_true_eq, decide_eq_true_eq] at htest
  refine ⟨w, hw, htest.1, fun ⟨m', hm', hleaves⟩ => ?_⟩
  have hhook := htest.2
  rw [hm', Option.map_some, hleaves.hook] at hhook
  cases hhook

end World

end Draco
