/-
# Tasks come and go

A task is forked by `dup_task_struct`, which zeroes the seccomp state of the new
task, and `copy_seccomp`, which then copies the whole `struct seccomp` of the
parent, with its `draco_hook`; a task that exits does nothing in the module.  Only
the first call of a task without a hook puts it on the process list.  This file asks
when the list and the hooks stay in agreement (`RegistryAgrees`), so that
`free_hash_table` is safe (`FreeSafe`): in exactly the runs in which no task with a
hook forks or exits and no registration stops half-way (`registryAgrees_iff`).
-/
import Draco.ProcessList

namespace Draco

open PartialRun

/-! ## Life-cycle steps -/

/-- The kernel state with the tasks that are alive. -/
structure World where
  machine : Machine
  live : TaskId → Bool

/-- An event of one task, a fork or an exit. -/
inductive LifeOp where
  | op (o : Op)
  | fork (parent child : TaskId)
  | exit (t : TaskId)

/-- The task that an event is of. -/
def Op.task : Op → TaskId
  | .call c => c.cur
  | .dracoAdd cur _ _ => cur
  | .dracoLoad cur => cur
  | .attachFilter cur _ => cur

/-- What `dup_task_struct` leaves in the new task: `memset(&(tsk->seccomp), 0, ..)`. -/
def dupTaskStruct (m : Machine) (child : TaskId) : Machine :=
  setSeccomp m child (Seccomp.zero [])

/-- `copy_seccomp`: `p->seccomp = current->seccomp` -/
def copySeccomp (m : Machine) (parent child : TaskId) : Machine :=
  setSeccomp m child (m.seccomp parent)

/-- One step.  Only tasks that are alive make calls, fork and exit; the `task_struct`
of a new task is not in use. -/
def lifeStep (jhash : List UInt64 → UInt32) (w : World) : LifeOp → Option World
  | .op o =>
    if w.live o.task then (opStep jhash w.machine o).map fun m => { w with machine := m }
    else none
  | .fork parent child =>
    if w.live parent && !w.live child then
      some
        { machine := copySeccomp (dupTaskStruct w.machine child) parent child
          live := Function.update w.live child true }
    else none
  | .exit t =>
    if w.live t then some { w with live := Function.update w.live t false } else none

/-- The loaded module, with the tasks `live`. -/
def World.boot (profile : TaskId → Seccomp) (live : TaskId → Bool) : World :=
  ⟨Draco.boot profile, live⟩

namespace World

/-- The registry of the machine. -/
def registry (w : World) : RegistryView := w.machine.registryView

/-- **The list and the hooks agree**: a live task with a hook is named by exactly one
node, no two live tasks share a block, and the nodes name live tasks only. -/
def RegistryAgrees (w : World) : Prop :=
  ∃ l, w.registry.Linked l ∧
    (∀ t, w.live t → w.machine.hook t ≠ none → (w.registry.processes l).count t = 1) ∧
    (∀ t t' b, w.live t → w.live t' → w.machine.hook t = some b → w.machine.hook t' = some b →
      t = t') ∧
    ∀ t ∈ w.registry.processes l, w.live t

/-- Unloading now would touch live tasks only, and leave no live task with a hook to
freed memory. -/
def FreeSafe (w : World) : Prop :=
  (∀ t, (freeHashTable w.machine).seccomp t ≠ w.machine.seccomp t → w.live t) ∧
    ∀ t b, w.live t → (freeHashTable w.machine).hook t = some b →
      b ∉ (freeHashTable w.machine).kfreedBlocks

/-- What a step must not be: a registration that gets its block but no node, the fork
of a task with a hook, or the exit of one. -/
def Permitted (w : World) : LifeOp → Prop
  | .op (.call c) =>
    c.InRange → w.machine.hook c.cur = none → c.kmalloc.perProcess = true →
      c.kmalloc.processNode = true
  | .op _ => True
  | .fork parent _ => w.machine.hook parent = none
  | .exit t => w.machine.hook t = none

/-! ## Agreement makes unloading safe -/

/-- After unloading no live task has a hook. -/
theorem RegistryAgrees.hook_freeHashTable {w : World} (h : w.RegistryAgrees) {t : TaskId}
    (ht : w.live t) : (freeHashTable w.machine).hook t = none := by
  obtain ⟨l, hl, honce, -, -⟩ := h
  have hfree := congrArg (fun v => v.hook t) (Machine.registryView_freeHashTable hl)
  refine hfree.trans ((RegistryView.hook_freeAll _ l t).trans ?_)
  by_cases hhook : w.machine.hook t = none
  · exact (ite_eq_left_iff.mpr fun _ => hhook)
  · refine if_pos (List.one_le_count_iff.mp ?_)
    exact Nat.le_of_eq (honce t ht hhook).symm

theorem RegistryAgrees.freeSafe {w : World} (h : w.RegistryAgrees) : w.FreeSafe := by
  refine ⟨fun t hne => ?_, fun t b ht hb => ?_⟩
  · obtain ⟨l, hl, -, -, halive⟩ := h
    rw [Machine.freeHashTable_eq hl, Machine.seccomp_foldl_freeTurn] at hne
    split_ifs at hne with hmem
    · exact halive t hmem
    · exact absurd rfl hne
  · rw [h.hook_freeHashTable ht] at hb
    cases hb

end World

/-! ## The invariant -/

/-- The tasks on the list `l` are the live ones with a hook, each named once and with
a block of its own. -/
structure RegistryView.Enrolled (v : RegistryView) (live : TaskId → Bool) (l : List ℕ) :
    Prop where
  checker : v.checker = .seccompFilterHandler
  linked : v.Linked l
  nodup : (v.processes l).Nodup
  mem_iff : ∀ t, t ∈ v.processes l ↔ live t ∧ v.hook t ≠ none
  hookInj : ∀ t t' b, live t → live t' → v.hook t = some b → v.hook t' = some b → t = t'
  hookLt : ∀ t b, live t → v.hook t = some b → b < v.nextBlock

namespace RegistryView.Enrolled

variable {v : RegistryView} {live : TaskId → Bool} {l : List ℕ}

/-- A live task without a hook gets a block and a node. -/
theorem enroll (h : v.Enrolled live l) {cur : TaskId} (hcur : live cur)
    (hhook : v.hook cur = none) : (v.enroll cur).Enrolled live (v.nextNode :: l) := by
  have hself : (v.enroll cur).hook cur = some v.nextBlock := Function.update_self ..
  have hother : ∀ t, t ≠ cur → (v.enroll cur).hook t = v.hook t := fun t ht =>
    Function.update_of_ne ht _ _
  have hfresh : ∀ t, live t → v.hook t ≠ some v.nextBlock := fun t ht hb =>
    Nat.lt_irrefl _ (h.hookLt t _ ht hb)
  have hout : cur ∉ v.processes l := fun hmem => ((h.mem_iff cur).mp hmem).2 hhook
  refine ⟨h.checker, h.linked.enroll cur, ?_, fun t => ?_, fun t t' b ht ht' hb hb' => ?_,
    fun t b ht hb => ?_⟩
  · rw [processes_enroll h.linked]
    exact List.nodup_cons.mpr ⟨hout, h.nodup⟩
  · rw [processes_enroll h.linked, List.mem_cons, h.mem_iff]
    by_cases ht : t = cur
    · simp [ht, hself, hcur]
    · simp [ht, hother t ht]
  · by_cases h₁ : t = cur <;> by_cases h₂ : t' = cur
    · rw [h₁, h₂]
    · rw [h₁, hself] at hb
      rw [hother t' h₂, ← hb] at hb'
      exact absurd hb' (hfresh t' ht')
    · rw [h₂, hself] at hb'
      rw [hother t h₁, ← hb'] at hb
      exact absurd hb (hfresh t ht)
    · rw [hother t h₁] at hb
      rw [hother t' h₂] at hb'
      exact h.hookInj t t' b ht ht' hb hb'
  · show b < v.nextBlock + 1
    by_cases h₁ : t = cur
    · rw [h₁, hself] at hb
      cases hb
      exact Nat.lt_succ_self _
    · rw [hother t h₁] at hb
      exact Nat.lt_succ_of_lt (h.hookLt t b ht hb)

/-- A new task without a hook. -/
theorem fork (h : v.Enrolled live l) {child : TaskId} (hchild : live child = false) :
    ({ v with hook := Function.update v.hook child none } : RegistryView).Enrolled
      (Function.update live child true) l := by
  -- the new task is the only one whose entries change, and it has no hook
  have hhook : ∀ t b, Function.update v.hook child none t = some b →
      t ≠ child ∧ v.hook t = some b := by
    intro t b hb
    by_cases ht : t = child
    · rw [ht, Function.update_self] at hb
      cases hb
    · exact ⟨ht, by rwa [Function.update_of_ne ht] at hb⟩
  have hlive : ∀ t, t ≠ child → Function.update live child true t → live t := by
    intro t ht hl
    rwa [Function.update_of_ne ht] at hl
  refine ⟨h.checker, ⟨h.linked.isList, h.linked.lt⟩, h.nodup, fun t => ?_,
    fun t t' b ht ht' hb hb' => ?_, fun t b ht hb => ?_⟩
  · refine (h.mem_iff t).trans ?_
    by_cases ht : t = child
    · simp [ht, hchild]
    · simp [ht]
  · obtain ⟨hne, hb⟩ := hhook t b hb
    obtain ⟨hne', hb'⟩ := hhook t' b hb'
    exact h.hookInj t t' b (hlive t hne ht) (hlive t' hne' ht') hb hb'
  · obtain ⟨hne, hb⟩ := hhook t b hb
    exact h.hookLt t b (hlive t hne ht) hb

/-- A task without a hook goes. -/
theorem exit (h : v.Enrolled live l) {t : TaskId} (hhook : v.hook t = none) :
    v.Enrolled (Function.update live t false) l := by
  have hlive : ∀ u, Function.update live t false u → live u := by
    intro u hu
    by_cases hut : u = t
    · rw [hut, Function.update_self] at hu
      cases hu
    · rwa [Function.update_of_ne hut] at hu
  refine ⟨h.checker, h.linked, h.nodup, fun u => ?_,
    fun u u' b hu hu' => h.hookInj u u' b (hlive u hu) (hlive u' hu'),
    fun u b hu => h.hookLt u b (hlive u hu)⟩
  refine (h.mem_iff u).trans ?_
  by_cases hut : u = t
  · simp [hut, hhook]
  · simp [hut]

end RegistryView.Enrolled

namespace World

variable {jhash : List UInt64 → UInt32} {w w' : World} {l : List ℕ}

theorem registryAgrees_of_enrolled (h : w.registry.Enrolled w.live l) : w.RegistryAgrees :=
  ⟨l, h.linked,
    fun t ht hhook => List.count_eq_one_of_mem h.nodup ((h.mem_iff t).mpr ⟨ht, hhook⟩),
    h.hookInj, fun t ht => ((h.mem_iff t).mp ht).1⟩

theorem enrolled_boot (profile : TaskId → Seccomp) (live : TaskId → Bool) :
    (boot profile live).registry.Enrolled live [] where
  checker := rfl
  linked := ⟨.nil, fun a ha => absurd ha List.not_mem_nil⟩
  nodup := List.nodup_nil
  mem_iff := fun t => ⟨fun ht => absurd ht List.not_mem_nil, fun ht => absurd rfl ht.2⟩
  hookInj := fun t t' b _ _ hb => by cases hb
  hookLt := fun t b _ hb => by cases hb

/-! ## Steps -/

/-- An event of a task leaves the tasks alone. -/
theorem lifeStep_op {o : Op} (h : lifeStep jhash w (.op o) = some w') :
    w.live o.task ∧ opStep jhash w.machine o = some w'.machine ∧ w'.live = w.live := by
  simp only [lifeStep] at h
  split_ifs at h with hlive
  obtain ⟨m, hm, rfl⟩ := Option.map_eq_some_iff.mp h
  exact ⟨hlive, hm, rfl⟩

/-- The child of a fork has the hook of its parent. -/
theorem lifeStep_fork {parent child : TaskId}
    (h : lifeStep jhash w (.fork parent child) = some w') :
    w.live parent ∧ w.live child = false ∧
      w'.registry = { w.registry with
        hook := Function.update w.registry.hook child (w.registry.hook parent) } ∧
      w'.live = Function.update w.live child true := by
  simp only [lifeStep] at h
  split_ifs at h with hlive
  cases h
  rw [Bool.and_eq_true, Bool.not_eq_true'] at hlive
  obtain ⟨hparent, hchild⟩ := hlive
  have hne : parent ≠ child := by
    intro he
    rw [he, hchild] at hparent
    cases hparent
  refine ⟨hparent, hchild, RegistryView.ext rfl (funext fun t => ?_) rfl rfl rfl rfl rfl rfl, rfl⟩
  by_cases ht : t = child
  · simp [ht, registry, Machine.registryView, Machine.hook, copySeccomp, dupTaskStruct,
      setSeccomp, hne]
  · simp [ht, registry, Machine.registryView, Machine.hook, copySeccomp, dupTaskStruct,
      setSeccomp]

theorem lifeStep_exit {t : TaskId} (h : lifeStep jhash w (.exit t) = some w') :
    w.live t ∧ w'.registry = w.registry ∧ w'.live = Function.update w.live t false := by
  simp only [lifeStep] at h
  split_ifs at h with hlive
  cases h
  exact ⟨hlive, rfl, rfl⟩

/-- A permitted step keeps the invariant. -/
theorem enrolled_lifeStep {e : LifeOp} (hw : w.registry.Enrolled w.live l)
    (h : lifeStep jhash w e = some w') (hperm : w.Permitted e) :
    ∃ l', w'.registry.Enrolled w'.live l' := by
  cases e with
  | op o =>
    obtain ⟨hlive, hstep, hsame⟩ := lifeStep_op h
    rw [registry, Machine.registryView_opStep hw.checker hstep, hsame]
    cases o with
    | call c =>
      show ∃ l', RegistryView.Enrolled (if c.InRange then _ else _) _ _
      split_ifs with hc
      · rcases RegistryView.register_cases w.registry c.cur c.kmalloc with
          ⟨-, hreg⟩ | ⟨hhook, hb, hn, -⟩ | ⟨hhook, -, -, hreg⟩
        · exact ⟨l, hreg.symm ▸ hw⟩
        · rw [hperm hc hhook hb] at hn
          cases hn
        · exact ⟨_, hreg.symm ▸ hw.enroll hlive hhook⟩
      · exact ⟨l, hw⟩
    | dracoAdd _ _ _ => exact ⟨l, hw⟩
    | dracoLoad _ => exact ⟨l, hw⟩
    | attachFilter _ _ => exact ⟨l, hw⟩
  | fork parent child =>
    obtain ⟨-, hchild, hreg, hlive⟩ := lifeStep_fork h
    rw [hreg, hlive, show w.registry.hook parent = none from hperm]
    exact ⟨l, hw.fork hchild⟩
  | exit t =>
    obtain ⟨-, hreg, hlive⟩ := lifeStep_exit h
    rw [hreg, hlive]
    exact ⟨l, hw.exit hperm⟩

/-- A step after which list and hooks agree was permitted. -/
theorem permitted_of_registryAgrees {e : LifeOp} (hw : w.registry.Enrolled w.live l)
    (h : lifeStep jhash w e = some w') (hagree : w'.RegistryAgrees) : w.Permitted e := by
  obtain ⟨l', hl', honce, hunshared, halive⟩ := hagree
  cases e with
  | op o =>
    cases o with
    | call c =>
      intro hc hhook hb
      by_contra hn
      obtain ⟨hlive, hstep, hsame⟩ := lifeStep_op h
      have hreg : w'.registry = w.registry.lose c.cur := by
        rw [registry, Machine.registryView_opStep hw.checker hstep]
        show (if c.InRange then _ else _) = _
        rw [if_pos hc]
        exact RegistryView.register_of_noNode hhook hb (Bool.eq_false_of_not_eq_true hn)
      -- the list is gone, but the task has its block
      have hnil : l' = [] := hl'.unique (hreg ▸ RegistryView.Linked.lose _ _)
      have hcur : w'.machine.hook c.cur = some w.registry.nextBlock :=
        (congrArg (fun v => v.hook c.cur) hreg).trans (Function.update_self ..)
      have hcount := honce c.cur (hsame ▸ hlive) (by rw [hcur]; exact Option.some_ne_none _)
      rw [hnil] at hcount
      cases hcount
    | dracoAdd _ _ _ => trivial
    | dracoLoad _ => trivial
    | attachFilter _ _ => trivial
  | fork parent child =>
    obtain ⟨hparent, hchild, hreg, hlive⟩ := lifeStep_fork h
    have hne : parent ≠ child := by
      intro he
      rw [he, hchild] at hparent
      cases hparent
    show w.machine.hook parent = none
    by_contra hhook
    obtain ⟨b, hb⟩ := Option.ne_none_iff_exists'.mp hhook
    -- parent and child hold the same block
    have hhooks : ∀ t, w'.machine.hook t =
        Function.update w.registry.hook child (w.registry.hook parent) t :=
      fun t => congrArg (fun v => v.hook t) hreg
    have hbp : w'.machine.hook parent = some b := by
      rw [hhooks, Function.update_of_ne hne]
      exact hb
    have hbc : w'.machine.hook child = some b := by
      rw [hhooks, Function.update_self]
      exact hb
    refine hne (hunshared parent child b ?_ ?_ hbp hbc)
    · rwa [hlive, Function.update_of_ne hne]
    · rw [hlive, Function.update_self]
  | exit t =>
    obtain ⟨hlive, hreg, hlive'⟩ := lifeStep_exit h
    show w.machine.hook t = none
    by_contra hhook
    -- the node of the task is still on the list
    have hmem : t ∈ w'.registry.processes l' := by
      rw [hreg] at hl' ⊢
      rw [hl'.unique hw.linked]
      exact (hw.mem_iff t).mpr ⟨hlive, hhook⟩
    have hdead := halive t hmem
    rw [hlive', Function.update_self] at hdead
    cases hdead

/-- **When registry and life cycle agree**: in exactly the runs of calls, forks and exits
in which every registration that gets its block also gets its node, and no task with a
hook forks or exits, list and hooks agree in every state and unloading is safe there. -/
theorem registryAgrees_iff (jhash : List UInt64 → UInt32) (profile : TaskId → Seccomp)
    (live : TaskId → Bool) (es : List LifeOp) :
    AllStates (lifeStep jhash) (fun w => RegistryAgrees w ∧ FreeSafe w) (boot profile live) es ↔
      AllSteps (lifeStep jhash) (fun w e _ => Permitted w e) (boot profile live) es := by
  refine allStates_iff (I := fun w => ∃ l, (registry w).Enrolled w.live l) ?_ ?_ ?_
    ⟨[], enrolled_boot profile live⟩ es
  · rintro w ⟨l, hw⟩
    have hagree := registryAgrees_of_enrolled hw
    exact ⟨hagree, hagree.freeSafe⟩
  · rintro w e w' ⟨l, hw⟩ h hP
    exact permitted_of_registryAgrees hw h hP.1
  · rintro w e w' ⟨l, hw⟩ h hperm
    exact enrolled_lifeStep hw h hperm

/-- Task 1 makes a call and forks task 2: both hold one block, and the list does not
know task 2. -/
theorem not_registryAgrees_fork :
    ¬ AllStates (lifeStep fun _ => 0) (fun w => RegistryAgrees w ∧ FreeSafe w)
      (boot (fun _ => Seccomp.zero []) fun t => t == 1) [.op (.call (plainCall 1)), .fork 1 2] := by
  intro h
  obtain ⟨-, h⟩ := h
  obtain ⟨-, h⟩ := h _ rfl
  obtain ⟨⟨l, -, -, hunshared, -⟩, -⟩ := h _ rfl
  exact absurd (hunshared 1 2 0 rfl rfl rfl rfl) (by decide)

end World

end Draco
