/-
# What one call of the handler does

The rest of the development looks at a `Machine` through four views: the block a
task is hooked to (`hook`), the pool table a task has for a syscall (`slotOf`),
the visible rows of a set of a table (`rowsAt`), and the positions of the task's
profile.  This file states once what a call of `__seccomp_filter_handler` can do
to them (`handler_effect`): nothing, a table at most for the calling task and the
called syscall, and a row at most at the end of one set of that table.

The statement needs that blocks and tables have one owner each (`Owned`), which
every call preserves (`HandlerEffect.owned`).
-/
import Draco.Table

namespace Draco

/-! ## Views -/

namespace Machine

/-- `task->seccomp.draco_hook` -/
def hook (m : Machine) (t : TaskId) : Option ℕ := (m.seccomp t).dracoHook

/-- The index in the pool of the table that task `t` has for syscall `s`. -/
def slotOf (m : Machine) (t : TaskId) (s : ℕ) : Option ℕ :=
  (m.hook t).bind fun b => (m.blocks b).syscallTable s

/-- The visible rows of set `h` of the table at `slot`. -/
def rowsAt (m : Machine) (slot h : ℕ) : List (List UInt64) := (tableAt m slot).rows h

/-- `pool.cursor` -/
def cursor (m : Machine) : ℕ := m.hashTable.pool.cursor

/-- A task with a per-process block finds its table of a call in that block. -/
theorem slotOf_of_hook {m : Machine} {t : TaskId} {b : ℕ} (h : m.hook t = some b) (s : ℕ) :
    m.slotOf t s = (m.blocks b).syscallTable s := by
  rw [slotOf, h]
  rfl

/-- A task without a per-process block owns no table. -/
theorem slotOf_of_hook_none {m : Machine} {t : TaskId} (h : m.hook t = none) (s : ℕ) :
    m.slotOf t s = none := by
  rw [slotOf, h]
  rfl

/-- Blocks and tables have one owner each, and what lies beyond the two
allocation marks is untouched. -/
structure Owned (m : Machine) : Prop where
  hookLt : ∀ t b, m.hook t = some b → b < m.nextBlock
  hookInj : ∀ t t' b, m.hook t = some b → m.hook t' = some b → t = t'
  slotLt : ∀ t s i, m.slotOf t s = some i → i < m.cursor
  slotInj : ∀ t s t' s' i, m.slotOf t s = some i → m.slotOf t' s' = some i → t = t' ∧ s = s'
  cursorLe : m.cursor ≤ PRE_ALLOCATED_SYSCALL_TABLE_COUNT
  tidy : ∀ i, (tableAt m i).Tidy
  unused : ∀ i, m.cursor ≤ i → ∀ h, m.rowsAt i h = []

/-- The states differ in counters only. -/
structure SameView (m m' : Machine) : Prop where
  dracoChecker : m'.dracoChecker = m.dracoChecker
  seccomp : m'.seccomp = m.seccomp
  syscallTable : ∀ b, (m'.blocks b).syscallTable = (m.blocks b).syscallTable
  nextBlock : m'.nextBlock = m.nextBlock
  cursor : m'.cursor = m.cursor
  flag : ∀ i, (tableAt m' i).flag = (tableAt m i).flag
  table : ∀ i, (tableAt m' i).table = (tableAt m i).table
  processHead : m'.hashTable.processHead = m.hashTable.processHead
  nodes : m'.nodes = m.nodes
  nextNode : m'.nextNode = m.nextNode

namespace SameView

theorem trans {m₁ m₂ m₃ : Machine} (h₁ : SameView m₁ m₂) (h₂ : SameView m₂ m₃) :
    SameView m₁ m₃ where
  dracoChecker := h₂.dracoChecker.trans h₁.dracoChecker
  seccomp := h₂.seccomp.trans h₁.seccomp
  syscallTable := fun b => (h₂.syscallTable b).trans (h₁.syscallTable b)
  nextBlock := h₂.nextBlock.trans h₁.nextBlock
  cursor := h₂.cursor.trans h₁.cursor
  flag := fun i => (h₂.flag i).trans (h₁.flag i)
  table := fun i => (h₂.table i).trans (h₁.table i)
  processHead := h₂.processHead.trans h₁.processHead
  nodes := h₂.nodes.trans h₁.nodes
  nextNode := h₂.nextNode.trans h₁.nextNode

variable {m m' : Machine}

/-- A step that keeps the view keeps the hook of every task. -/
theorem hook (h : SameView m m') (t : TaskId) : m'.hook t = m.hook t := by
  rw [Machine.hook, h.seccomp, Machine.hook]

/-- A step that keeps the view keeps who owns which table. -/
theorem slotOf (h : SameView m m') (t : TaskId) (s : ℕ) : m'.slotOf t s = m.slotOf t s := by
  rw [Machine.slotOf, h.hook, Machine.slotOf]
  cases m.hook t with
  | none => rfl
  | some b =>
    show (m'.blocks b).syscallTable s = (m.blocks b).syscallTable s
    rw [h.syscallTable]

/-- A step that keeps the view keeps the recorded rows. -/
theorem rowsAt (h : SameView m m') (slot k : ℕ) : m'.rowsAt slot k = m.rowsAt slot k :=
  PerSyscall.rowsFrom_congr fun i _ _ => by rw [h.flag, h.table]; exact ⟨rfl, rfl⟩

/-- A tidy table stays tidy under a step that keeps the view, since only its rows count. -/
theorem tidy (h : SameView m m') {slot : ℕ} (ht : (tableAt m slot).Tidy) :
    (tableAt m' slot).Tidy := by
  refine ⟨?_, ?_, ?_, ?_⟩ <;> simp only [h.flag, h.table]
  · exact ht.binary
  · exact ht.leading
  · exact ht.free
  · exact ht.length

/-- Ownership of tables is a property of the view. -/
theorem owned (h : SameView m m') (ho : m.Owned) : m'.Owned where
  hookLt := fun t b hb => by rw [h.nextBlock]; exact ho.hookLt t b (by rwa [← h.hook])
  hookInj := fun t t' b hb hb' => ho.hookInj t t' b (by rwa [← h.hook]) (by rwa [← h.hook])
  slotLt := fun t s i hi => by rw [h.cursor]; exact ho.slotLt t s i (by rwa [← h.slotOf])
  slotInj := fun t s t' s' i hi hi' =>
    ho.slotInj t s t' s' i (by rwa [← h.slotOf]) (by rwa [← h.slotOf])
  cursorLe := by rw [h.cursor]; exact ho.cursorLe
  tidy := fun i => h.tidy (ho.tidy i)
  unused := fun i hi k => by rw [h.rowsAt]; exact ho.unused i (by rwa [← h.cursor]) k

end SameView

/-- Of the profile of a task only the hook may change. -/
structure Frame (m m' : Machine) : Prop where
  dracoChecker : m'.dracoChecker = m.dracoChecker
  seccomp : ∀ t, m'.seccomp t = { m.seccomp t with dracoHook := m'.hook t }

namespace Frame

/-- A step that touches neither the checker nor a task's profile keeps the frame. -/
theorem of_seccomp_eq {m m' : Machine} (hc : m'.dracoChecker = m.dracoChecker)
    (hs : m'.seccomp = m.seccomp) : Frame m m' :=
  ⟨hc, fun t => by rw [hook, hs]⟩

theorem trans {m₁ m₂ m₃ : Machine} (h₁ : Frame m₁ m₂) (h₂ : Frame m₂ m₃) : Frame m₁ m₃ :=
  ⟨h₂.dracoChecker.trans h₁.dracoChecker, fun t => by rw [h₂.seccomp, h₁.seccomp]⟩

/-- The frame keeps the listed positions of every task and call. -/
theorem positions {m m' : Machine} (h : Frame m m') (t : TaskId) (s : ℕ) :
    (m'.seccomp t).positions s = (m.seccomp t).positions s := by
  rw [h.seccomp]
  rfl

/-- The frame keeps the filter of every task. -/
theorem filter {m m' : Machine} (h : Frame m m') (t : TaskId) :
    (m'.seccomp t).filter = (m.seccomp t).filter := by
  rw [h.seccomp]

end Frame

theorem SameView.frame {m m' : Machine} (h : SameView m m') : Frame m m' :=
  Frame.of_seccomp_eq h.dracoChecker h.seccomp

/-! ## The counters -/

theorem tableAt_setTable_self (m : Machine) (slot : ℕ) (T : PerSyscall) :
    tableAt (setTable m slot T) slot = T := by
  simp [tableAt, setTable]

theorem tableAt_setTable_of_ne (m : Machine) {slot i : ℕ} (T : PerSyscall) (h : i ≠ slot) :
    tableAt (setTable m slot T) i = tableAt m i := by
  simp [tableAt, setTable, h]

/-- Storing a table with the same flags and rows changes counters only. -/
theorem sameView_setTable (m : Machine) (slot : ℕ) {T : PerSyscall}
    (hf : T.flag = (tableAt m slot).flag) (ht : T.table = (tableAt m slot).table) :
    SameView m (setTable m slot T) := by
  refine ⟨rfl, rfl, fun _ => rfl, rfl, rfl, fun i => ?_, fun i => ?_, rfl, rfl, rfl⟩
  · by_cases hi : i = slot
    · rw [hi, tableAt_setTable_self, hf]
    · rw [tableAt_setTable_of_ne m T hi]
  · by_cases hi : i = slot
    · rw [hi, tableAt_setTable_self, ht]
    · rw [tableAt_setTable_of_ne m T hi]

/-- Changing the counters of a block leaves its table pointers alone. -/
theorem syscallTable_update (m : Machine) (b : ℕ) {p : PerProcess}
    (h : p.syscallTable = (m.blocks b).syscallTable) (b' : ℕ) :
    (Function.update m.blocks b p b').syscallTable = (m.blocks b').syscallTable := by
  by_cases hb : b' = b
  · rw [hb, Function.update_self, h]
  · rw [Function.update_of_ne hb]

/-- Counting a call keeps the view. -/
theorem sameView_countCall (m : Machine) : SameView m (countCall m) :=
  ⟨rfl, rfl, fun _ => rfl, rfl, rfl, fun _ => rfl, fun _ => rfl, rfl, rfl, rfl⟩

theorem sameView_countSyscallNumber (m : Machine) (s : ℕ) :
    SameView m (countSyscallNumber m s) :=
  ⟨rfl, rfl, fun _ => rfl, rfl, rfl, fun _ => rfl, fun _ => rfl, rfl, rfl, rfl⟩

theorem sameView_countHit (m : Machine) : SameView m (countHit m) :=
  ⟨rfl, rfl, fun _ => rfl, rfl, rfl, fun _ => rfl, fun _ => rfl, rfl, rfl, rfl⟩

/-- Counting a call on its table keeps the view, the rows of that table included. -/
theorem sameView_countSyscallCall (m : Machine) (slot : ℕ) :
    SameView m (countSyscallCall m slot) :=
  sameView_setTable m slot rfl rfl

theorem sameView_countArgument (m : Machine) (b slot : ℕ) :
    SameView m (countArgument m b slot) := by
  refine SameView.trans ?_ (sameView_setTable _ slot ?_ ?_)
  · exact ⟨rfl, rfl, syscallTable_update m b rfl, rfl, rfl, fun _ => rfl, fun _ => rfl, rfl,
      rfl, rfl⟩
  · rfl
  · rfl

theorem sameView_countConflict (m : Machine) (b slot : ℕ) :
    SameView m (countConflict m b slot) := by
  refine SameView.trans ?_ (sameView_setTable _ slot ?_ ?_)
  · exact ⟨rfl, rfl, syscallTable_update m b rfl, rfl, rfl, fun _ => rfl, fun _ => rfl, rfl,
      rfl, rfl⟩
  · rfl
  · rfl

/-! ## Registration -/

theorem hook_attachBlock_self (m : Machine) (cur : TaskId) :
    (attachBlock m cur).hook cur = some m.nextBlock := by
  simp [hook, attachBlock]

/-- Attaching a block for one task leaves the other tasks' hooks alone. -/
theorem hook_attachBlock_of_ne (m : Machine) {cur t : TaskId} (h : t ≠ cur) :
    (attachBlock m cur).hook t = m.hook t := by
  simp [hook, attachBlock, h]

/-- Attaching a block keeps the checker and every profile. -/
theorem frame_attachBlock (m : Machine) (cur : TaskId) : Frame m (attachBlock m cur) := by
  refine ⟨rfl, fun t => ?_⟩
  by_cases h : t = cur
  · subst h
    rw [hook_attachBlock_self]
    simp only [attachBlock, Function.update_self]
  · rw [hook_attachBlock_of_ne m h]
    simp only [attachBlock, Function.update_of_ne h]
    rfl

/-- A new block has no tables yet. -/
theorem slotOf_attachBlock {m : Machine} (ho : m.Owned) {cur : TaskId}
    (hcur : m.hook cur = none) (t : TaskId) (s : ℕ) :
    (attachBlock m cur).slotOf t s = m.slotOf t s := by
  by_cases h : t = cur
  · subst h
    rw [slotOf_of_hook_none hcur, slotOf_of_hook (hook_attachBlock_self m t)]
    simp [attachBlock, PerProcess.zero]
  · rw [slotOf, slotOf, hook_attachBlock_of_ne m h]
    cases hb : m.hook t with
    | none => rfl
    | some b =>
      have hne : b ≠ m.nextBlock := by have := ho.hookLt t b hb; omega
      simp [attachBlock, hne]

/-- A fresh block owns no table, so ownership survives its attachment. -/
theorem owned_attachBlock {m : Machine} (ho : m.Owned) {cur : TaskId}
    (hcur : m.hook cur = none) : (attachBlock m cur).Owned where
  hookLt := by
    intro t b hb
    show b < m.nextBlock + 1
    by_cases h : t = cur
    · rw [h, hook_attachBlock_self] at hb
      cases hb
      omega
    · rw [hook_attachBlock_of_ne m h] at hb
      have := ho.hookLt t b hb
      omega
  hookInj := by
    intro t t' b hb hb'
    -- the new block is not one that another task holds
    have hfresh : ∀ t, t ≠ cur → (attachBlock m cur).hook t ≠ some m.nextBlock := by
      intro t h hb
      rw [hook_attachBlock_of_ne m h] at hb
      exact absurd (ho.hookLt t _ hb) (Nat.lt_irrefl _)
    by_cases h : t = cur <;> by_cases h' : t' = cur
    · rw [h, h']
    · rw [h, hook_attachBlock_self] at hb
      cases hb
      exact absurd hb' (hfresh t' h')
    · rw [h', hook_attachBlock_self] at hb'
      cases hb'
      exact absurd hb (hfresh t h)
    · rw [hook_attachBlock_of_ne m h] at hb
      rw [hook_attachBlock_of_ne m h'] at hb'
      exact ho.hookInj t t' b hb hb'
  slotLt := fun t s i hi => ho.slotLt t s i (by rwa [← slotOf_attachBlock ho hcur])
  slotInj := fun t s t' s' i hi hi' =>
    ho.slotInj t s t' s' i (by rwa [← slotOf_attachBlock ho hcur])
      (by rwa [← slotOf_attachBlock ho hcur])
  cursorLe := ho.cursorLe
  tidy := ho.tidy
  unused := ho.unused

/-- The four ways in which the registration part can end. -/
theorem registerProcess_cases (m : Machine) (cur : TaskId) (k : Kmalloc) :
    (∃ b, m.hook cur = some b ∧ registerProcess m cur k = (m, some b)) ∨
    (m.hook cur = none ∧ k.perProcess = false ∧ registerProcess m cur k = (m, none)) ∨
    (m.hook cur = none ∧ k.perProcess = true ∧ k.processNode = false ∧
      registerProcess m cur k = (dropHead (attachBlock m cur), none)) ∨
    (m.hook cur = none ∧ k.perProcess = true ∧ k.processNode = true ∧
      registerProcess m cur k = (linkNode (attachBlock m cur) cur, some m.nextBlock)) := by
  unfold registerProcess
  cases hh : (m.seccomp cur).dracoHook with
  | some b => exact Or.inl ⟨b, hh, rfl⟩
  | none =>
    refine Or.inr ?_
    cases hp : k.perProcess with
    | false => exact Or.inl ⟨hh, rfl, rfl⟩
    | true =>
      refine Or.inr ?_
      cases hn : k.processNode with
      | false => exact Or.inl ⟨hh, rfl, rfl, rfl⟩
      | true => exact Or.inr ⟨hh, rfl, rfl, rfl⟩

/-- What the registration part leaves: the tables of every task, the pool and the
profiles as they were, and the task hooked to the block it returns. -/
structure Registers (m m' : Machine) (cur : TaskId) (k : Kmalloc) (r : Option ℕ) : Prop where
  owned : m'.Owned
  slotOf : ∀ t s, m'.slotOf t s = m.slotOf t s
  pool : m'.hashTable.pool = m.hashTable.pool
  frame : Frame m m'
  hook : ∀ b, r = some b → m'.hook cur = some b
  hooked : ∀ t, m'.hook t ≠ none ↔ m.hook t ≠ none ∨ t = cur ∧ k.perProcess = true
  reached : r ≠ none ↔ m.hook cur ≠ none ∨ k.perProcess = true ∧ k.processNode = true
  early : r = none → ∀ s, m.slotOf cur s = none

/-- After the attachment the tasks with a block are those that had one and the caller. -/
theorem hook_attachBlock_ne_none {m : Machine} {cur : TaskId} (t : TaskId) :
    (attachBlock m cur).hook t ≠ none ↔ m.hook t ≠ none ∨ t = cur := by
  by_cases h : t = cur
  · rw [h, hook_attachBlock_self]
    simp
  · rw [hook_attachBlock_of_ne m h]
    simp [h]

/-- What `register_process` can do in any state in which tables have one owner. -/
theorem registerProcess_spec {m : Machine} (ho : m.Owned) (cur : TaskId) (k : Kmalloc) :
    Registers m (registerProcess m cur k).1 cur k (registerProcess m cur k).2 := by
  rcases registerProcess_cases m cur k with ⟨b, hb, h⟩ | ⟨hh, hp, h⟩ | ⟨hh, hp, hn, h⟩ |
    ⟨hh, hp, hn, h⟩ <;> rw [h]
  · refine ⟨ho, fun _ _ => rfl, rfl, Frame.of_seccomp_eq rfl rfl, fun b' hb' => ?_,
      fun t => ?_, ?_, fun hn => by cases hn⟩
    · cases hb'
      exact hb
    · constructor
      · exact Or.inl
      · rintro (h | ⟨rfl, -⟩)
        · exact h
        · simp [hb]
    · simp [hb]
  · exact ⟨ho, fun _ _ => rfl, rfl, Frame.of_seccomp_eq rfl rfl, fun b hb => by (cases hb),
      fun t => by simp [hp], by simp [hh, hp], fun _ => slotOf_of_hook_none hh⟩
  · have ho' := owned_attachBlock ho hh
    exact ⟨⟨ho'.hookLt, ho'.hookInj, ho'.slotLt, ho'.slotInj, ho'.cursorLe, ho'.tidy,
        ho'.unused⟩, slotOf_attachBlock ho hh, rfl, ⟨rfl, (frame_attachBlock m cur).seccomp⟩,
      fun b hb => by (cases hb), fun t => (hook_attachBlock_ne_none t).trans (by simp [hp]),
      by simp [hh, hn], fun _ => slotOf_of_hook_none hh⟩
  · have ho' := owned_attachBlock ho hh
    refine ⟨⟨ho'.hookLt, ho'.hookInj, ho'.slotLt, ho'.slotInj, ho'.cursorLe, ho'.tidy,
        ho'.unused⟩, slotOf_attachBlock ho hh, rfl, ⟨rfl, (frame_attachBlock m cur).seccomp⟩,
      fun b hb => ?_,
      fun t => (hook_attachBlock_ne_none t).trans (by simp [hp]), by simp [hp, hn],
      fun hn => by cases hn⟩
    cases hb
    exact hook_attachBlock_self m cur

/-! ## The table of the call -/

/-- Task `cur` has the table at `slot` for `s` afterwards: the one it had, or the
next one of the pool.  Nothing else changes hands. -/
structure Acquires (m m' : Machine) (cur : TaskId) (s slot : ℕ) : Prop where
  self : m'.slotOf cur s = some slot
  other : ∀ t s', ¬ (t = cur ∧ s' = s) → m'.slotOf t s' = m.slotOf t s'
  source : (m.slotOf cur s = some slot ∧ m'.cursor = m.cursor) ∨
    (m.slotOf cur s = none ∧ slot = m.cursor ∧ m'.cursor = m.cursor + 1)

theorem sameView_countProcessCall (m : Machine) (b : ℕ) : SameView m (countProcessCall m b) :=
  ⟨rfl, rfl, syscallTable_update m b rfl, rfl, rfl, fun _ => rfl, fun _ => rfl, rfl, rfl, rfl⟩

/-- The pool after one table has been taken from it. -/
def nextPool (m : Machine) : PerSyscallCallPool :=
  { m.hashTable.pool with cursor := m.cursor + 1 }

/-- The three ways in which the table part can end. -/
theorem lookupTable_cases (m : Machine) (b s : ℕ) :
    (∃ slot, (m.blocks b).syscallTable s = some slot ∧
      lookupTable m b s = (countProcessCall m b, some slot)) ∨
    ((m.blocks b).syscallTable s = none ∧ m.cursor = PRE_ALLOCATED_SYSCALL_TABLE_COUNT ∧
      lookupTable m b s = (countProcessCall m b, none)) ∨
    ((m.blocks b).syscallTable s = none ∧ m.cursor ≠ PRE_ALLOCATED_SYSCALL_TABLE_COUNT ∧
      lookupTable m b s =
        (giveTable (countProcessCall m b) b s m.nextPool m.cursor, some m.cursor)) := by
  have hb := (sameView_countProcessCall m b).syscallTable b
  unfold lookupTable
  simp only [hb]
  cases hs : (m.blocks b).syscallTable s with
  | some slot => exact Or.inl ⟨slot, rfl, rfl⟩
  | none =>
    refine Or.inr ?_
    by_cases hc : m.cursor = PRE_ALLOCATED_SYSCALL_TABLE_COUNT
    · have hpool : getItemFromPool (countProcessCall m b).hashTable.pool =
          (m.hashTable.pool, none) := if_pos hc
      rw [hpool]
      exact Or.inl ⟨rfl, hc, rfl⟩
    · have hpool : getItemFromPool (countProcessCall m b).hashTable.pool =
          (m.nextPool, some m.cursor) := if_neg hc
      rw [hpool]
      exact Or.inr ⟨rfl, hc, rfl⟩

/-- The call a table was taken for finds that table. -/
theorem slotOf_giveTable_self {m : Machine} {cur : TaskId} {b : ℕ} (hb : m.hook cur = some b)
    (s : ℕ) : (giveTable m b s m.nextPool m.cursor).slotOf cur s = some m.cursor := by
  rw [slotOf_of_hook (m := giveTable m b s m.nextPool m.cursor) hb]
  simp [giveTable]

/-- Taking a table for one task and call leaves what every other pair finds. -/
theorem slotOf_giveTable_of_ne {m : Machine} (ho : m.Owned) {cur : TaskId} {b : ℕ}
    (hb : m.hook cur = some b) {s : ℕ} {t : TaskId} {s' : ℕ} (hne : ¬ (t = cur ∧ s' = s)) :
    (giveTable m b s m.nextPool m.cursor).slotOf t s' = m.slotOf t s' := by
  rw [slotOf, slotOf, show (giveTable m b s m.nextPool m.cursor).hook t = m.hook t from rfl]
  cases hb' : m.hook t with
  | none => rfl
  | some b' =>
    show (Function.update m.blocks b _ b').syscallTable s' = _
    by_cases hbb : b' = b
    · subst hbb
      have hs : s' ≠ s := fun hs => hne ⟨ho.hookInj t cur b' hb' hb, hs⟩
      simp [hs]
    · rw [Function.update_of_ne hbb]
      rfl

/-- The slot at the cursor belongs to nobody yet, so giving it away keeps one owner for each
table. -/
theorem owned_giveTable {m : Machine} (ho : m.Owned) {cur : TaskId} {b : ℕ}
    (hb : m.hook cur = some b) {s : ℕ} (hc : m.cursor ≠ PRE_ALLOCATED_SYSCALL_TABLE_COUNT) :
    (giveTable m b s m.nextPool m.cursor).Owned where
  hookLt := ho.hookLt
  hookInj := ho.hookInj
  slotLt := by
    intro t s' i hi
    show i < m.cursor + 1
    by_cases h : t = cur ∧ s' = s
    · rw [h.1, h.2, slotOf_giveTable_self hb] at hi
      cases hi
      omega
    · rw [slotOf_giveTable_of_ne ho hb h] at hi
      have := ho.slotLt t s' i hi
      omega
  slotInj := by
    intro t s₁ t' s₂ i hi hi'
    -- the table given out was below nobody's mark
    have hfresh : ∀ t s', ¬ (t = cur ∧ s' = s) →
        (giveTable m b s m.nextPool m.cursor).slotOf t s' ≠ some m.cursor := by
      intro t s' h hs
      rw [slotOf_giveTable_of_ne ho hb h] at hs
      exact absurd (ho.slotLt t s' _ hs) (Nat.lt_irrefl _)
    by_cases h : t = cur ∧ s₁ = s <;> by_cases h' : t' = cur ∧ s₂ = s
    · exact ⟨h.1.trans h'.1.symm, h.2.trans h'.2.symm⟩
    · rw [h.1, h.2, slotOf_giveTable_self hb] at hi
      cases hi
      exact absurd hi' (hfresh t' s₂ h')
    · rw [h'.1, h'.2, slotOf_giveTable_self hb] at hi'
      cases hi'
      exact absurd hi (hfresh t s₁ h)
    · rw [slotOf_giveTable_of_ne ho hb h] at hi
      rw [slotOf_giveTable_of_ne ho hb h'] at hi'
      exact ho.slotInj t s₁ t' s₂ i hi hi'
  cursorLe := by
    show m.cursor + 1 ≤ _
    have := ho.cursorLe
    omega
  tidy := ho.tidy
  unused := fun i hi => ho.unused i (Nat.le_of_succ_le hi)

/-- What the table part leaves. -/
structure LooksUp (m m' : Machine) (cur : TaskId) (s : ℕ) (r : Option ℕ) : Prop where
  owned : m'.Owned
  seccomp : m'.seccomp = m.seccomp
  dracoChecker : m'.dracoChecker = m.dracoChecker
  poolInternal : ∀ i h, m'.rowsAt i h = m.rowsAt i h
  found : ∀ slot, r = some slot → Acquires m m' cur s slot
  obtained : r ≠ none ↔ m.slotOf cur s ≠ none ∨ m.cursor ≠ PRE_ALLOCATED_SYSCALL_TABLE_COUNT
  exhausted : r = none → m.slotOf cur s = none ∧ m'.cursor = m.cursor ∧
    ∀ t s', m'.slotOf t s' = m.slotOf t s'

/-- What `lookup_table` can do for a task with a block. -/
theorem lookupTable_spec {m : Machine} (ho : m.Owned) {cur : TaskId} {b : ℕ}
    (hb : m.hook cur = some b) (s : ℕ) :
    LooksUp m (lookupTable m b s).1 cur s (lookupTable m b s).2 := by
  have hv := sameView_countProcessCall m b
  have hslot := slotOf_of_hook hb s
  rcases lookupTable_cases m b s with ⟨slot, hs, h⟩ | ⟨hs, hc, h⟩ | ⟨hs, hc, h⟩ <;> rw [h]
  · refine ⟨hv.owned ho, hv.seccomp, hv.dracoChecker, hv.rowsAt, fun slot' h' => ?_,
      by simp [hslot, hs], fun hn => by cases hn⟩
    cases h'
    exact ⟨by rw [hv.slotOf, hslot, hs], fun t s' _ => hv.slotOf t s',
      Or.inl ⟨hslot.trans hs, hv.cursor⟩⟩
  · exact ⟨hv.owned ho, hv.seccomp, hv.dracoChecker, hv.rowsAt, fun slot' h' => by (cases h'),
      by simp [hslot, hs, hc], fun _ => ⟨hslot.trans hs, hv.cursor, hv.slotOf⟩⟩
  · have hb' : (countProcessCall m b).hook cur = some b := by rw [hv.hook, hb]
    have ho' := hv.owned ho
    refine ⟨owned_giveTable ho' hb' hc, hv.seccomp, hv.dracoChecker, hv.rowsAt, fun slot' h' => ?_,
      by simp [hc], fun hn => by cases hn⟩
    cases h'
    exact ⟨slotOf_giveTable_self hb' s,
      fun t s' hne => (slotOf_giveTable_of_ne ho' hb' hne).trans (hv.slotOf t s'),
      Or.inr ⟨hslot.trans hs, rfl, rfl⟩⟩

/-! ## Both parts together -/

/-- What the call has when it starts to compare: its table, if any. -/
structure AcquireSpec (m m' : Machine) (cur : TaskId) (s : ℕ) (k : Kmalloc)
    (r : Option (ℕ × ℕ)) : Prop where
  owned : m'.Owned
  hooked : ∀ t, m'.hook t ≠ none ↔ m.hook t ≠ none ∨ t = cur ∧ k.perProcess = true
  obtained : r ≠ none ↔
    (m.hook cur ≠ none ∨ k.perProcess = true ∧ k.processNode = true) ∧
      (m.slotOf cur s ≠ none ∨ m.cursor ≠ PRE_ALLOCATED_SYSCALL_TABLE_COUNT)
  frame : Frame m m'
  rowsAt : ∀ i h, m'.rowsAt i h = m.rowsAt i h
  found : ∀ b slot, r = some (b, slot) → Acquires m m' cur s slot
  early : r = none → m.slotOf cur s = none ∧ m'.cursor = m.cursor ∧
    ∀ t s', m'.slotOf t s' = m.slotOf t s'

/-- The call returns without a block, or goes on to look for its table. -/
theorem acquireTable_cases (m : Machine) (cur : TaskId) (s : ℕ) (k : Kmalloc) :
    (∃ m₁, registerProcess m cur k = (m₁, none) ∧ acquireTable m cur s k = (m₁, none)) ∨
    ∃ m₁ b, registerProcess m cur k = (m₁, some b) ∧
      acquireTable m cur s k =
        ((lookupTable m₁ b s).1, (lookupTable m₁ b s).2.map fun slot => (b, slot)) := by
  unfold acquireTable
  rcases registerProcess m cur k with ⟨m₁, _ | b⟩ <;> dsimp only
  · exact Or.inl ⟨m₁, rfl, rfl⟩
  · refine Or.inr ⟨m₁, b, rfl, ?_⟩
    rcases lookupTable m₁ b s with ⟨m₂, _ | slot⟩ <;> rfl

theorem Registers.rowsAt {m m₁ : Machine} {cur : TaskId} {k : Kmalloc} {r : Option ℕ}
    (h : Registers m m₁ cur k r) (i n : ℕ) : m₁.rowsAt i n = m.rowsAt i n := by
  rw [Machine.rowsAt, tableAt, h.pool]
  rfl

theorem Registers.cursor {m m₁ : Machine} {cur : TaskId} {k : Kmalloc} {r : Option ℕ}
    (h : Registers m m₁ cur k r) : m₁.cursor = m.cursor := by
  rw [Machine.cursor, h.pool, Machine.cursor]

/-- The table part after a registration. -/
theorem Registers.acquireSpec {m m₁ : Machine} {cur : TaskId} {k : Kmalloc} {b : ℕ}
    (hr : Registers m m₁ cur k (some b)) (s : ℕ) :
    AcquireSpec m (lookupTable m₁ b s).1 cur s k
      ((lookupTable m₁ b s).2.map fun slot => (b, slot)) := by
  have hl := lookupTable_spec hr.owned (hr.hook b rfl) s
  have hframe : Frame m (lookupTable m₁ b s).1 :=
    hr.frame.trans (Frame.of_seccomp_eq hl.dracoChecker hl.seccomp)
  have hrows : ∀ i k, (lookupTable m₁ b s).1.rowsAt i k = m.rowsAt i k := by
    intro i k
    rw [hl.poolInternal, hr.rowsAt]
  have hhook : ∀ t, (lookupTable m₁ b s).1.hook t ≠ none ↔
      m.hook t ≠ none ∨ t = cur ∧ k.perProcess = true := by
    intro t
    rw [Machine.hook, hl.seccomp]
    exact hr.hooked t
  have hreach := hr.reached.mp (Option.some_ne_none b)
  have hobt := hl.obtained
  rw [hr.slotOf, hr.cursor] at hobt
  rcases h₂ : (lookupTable m₁ b s).2 with _ | slot <;> rw [h₂] at hl hobt
  · obtain ⟨hs, hc, hsame⟩ := hl.exhausted rfl
    rw [hr.slotOf] at hs
    refine ⟨hl.owned, hhook, ?_, hframe, hrows, fun b slot h' => by (cases h'),
      fun _ => ⟨hs, hc.trans hr.cursor, fun t s' => by rw [hsame, hr.slotOf]⟩⟩
    exact ⟨fun hn => absurd rfl hn, fun hn => absurd rfl (hobt.mpr hn.2)⟩
  · refine ⟨hl.owned, hhook, ?_, hframe, hrows, fun b' slot' h' => ?_, fun hn => by cases hn⟩
    · exact ⟨fun _ => ⟨hreach, hobt.mp (Option.some_ne_none slot)⟩, fun _ => Option.some_ne_none _⟩
    · cases h'
      have ha := hl.found slot rfl
      refine ⟨ha.self, fun t s' hne => by rw [ha.other t s' hne, hr.slotOf], ?_⟩
      have hsource := ha.source
      rw [hr.slotOf, hr.cursor] at hsource
      exact hsource

/-- Both look-ups in sequence: the block of the process, then the table of the call. -/
theorem acquireTable_spec {m : Machine} (ho : m.Owned) (cur : TaskId) (s : ℕ) (k : Kmalloc) :
    AcquireSpec m (acquireTable m cur s k).1 cur s k (acquireTable m cur s k).2 := by
  have hr := registerProcess_spec ho cur k
  rcases acquireTable_cases m cur s k with ⟨m₁, h, hres⟩ | ⟨m₁, b, h, hres⟩ <;> rw [h] at hr <;>
    rw [hres]
  · refine ⟨hr.owned, hr.hooked, ?_, hr.frame, hr.rowsAt, fun b slot h' => by (cases h'),
      fun _ => ⟨hr.early rfl s, hr.cursor, hr.slotOf⟩⟩
    exact ⟨fun hn => absurd rfl hn, fun hn => absurd rfl (hr.reached.mpr hn.1)⟩
  · exact hr.acquireSpec s

/-- Counters in front of the registration may be left out. -/
theorem AcquireSpec.of_sameView {m m₀ m' : Machine} {cur : TaskId} {s : ℕ} {k : Kmalloc}
    {r : Option (ℕ × ℕ)} (h : AcquireSpec m₀ m' cur s k r) (hv : SameView m m₀) :
    AcquireSpec m m' cur s k r where
  owned := h.owned
  hooked := fun t => by rw [h.hooked, hv.hook]
  obtained := by rw [h.obtained, hv.hook, hv.slotOf, hv.cursor]
  frame := hv.frame.trans h.frame
  rowsAt := fun i k => by rw [h.rowsAt, hv.rowsAt]
  found := by
    intro b slot hr
    have ha := h.found b slot hr
    refine ⟨ha.self, fun t s' hne => by rw [ha.other t s' hne, hv.slotOf], ?_⟩
    rw [← hv.slotOf, ← hv.cursor]
    exact ha.source
  early := by
    intro hr
    rw [← hv.slotOf, ← hv.cursor]
    refine ⟨(h.early hr).1, (h.early hr).2.1, fun t s' => ?_⟩
    rw [(h.early hr).2.2, hv.slotOf]

/-! ## The whole call -/

theorem rowsAt_setTable_self (m : Machine) (slot : ℕ) (T : PerSyscall) (h : ℕ) :
    (setTable m slot T).rowsAt slot h = T.rows h := by
  rw [rowsAt, tableAt_setTable_self]

theorem rowsAt_setTable_of_ne (m : Machine) {slot i : ℕ} (T : PerSyscall) (hi : i ≠ slot)
    (h : ℕ) : (setTable m slot T).rowsAt i h = m.rowsAt i h := by
  rw [rowsAt, tableAt_setTable_of_ne m T hi, rowsAt]

/-- What the comparison part does with key `key` in the table at `slot`. -/
inductive CompareEffect (jhash : List UInt64 → UInt32) (m m' : Machine) (slot : ℕ)
    (key : List UInt64) : ℤ → Prop
  | hit (same : SameView m m')
      (found : ∃ r ∈ m.rowsAt slot (hashCode jhash key), key <+: r) :
      CompareEffect jhash m m' slot key 1
  | conflict (same : SameView m m')
      (missed : ¬ ∃ r ∈ m.rowsAt slot (hashCode jhash key), key <+: r)
      (full : (m.rowsAt slot (hashCode jhash key)).length = 4) :
      CompareEffect jhash m m' slot key 0
  | insert (m₁ : Machine) (same : SameView m m₁)
      (missed : ¬ ∃ r ∈ m.rowsAt slot (hashCode jhash key), key <+: r)
      (room : (m.rowsAt slot (hashCode jhash key)).length < 4)
      (stored : m' = setTable m₁ slot (recordRow (tableAt m₁ slot)
        (hashCode jhash key * 4 + (m₁.rowsAt slot (hashCode jhash key)).length) key)) :
      CompareEffect jhash m m' slot key 0

/-- **The three ways in which the comparison can end**: a hit, a conflict, or a new row. -/
theorem compareOrInsert_cases (jhash : List UInt64 → UInt32) (m : Machine) (b slot : ℕ)
    (key : List UInt64) :
    ((∃ r ∈ m.rowsAt slot (hashCode jhash key), key <+: r) ∧
      compareOrInsert jhash m b slot key = (countHit m, 1)) ∨
    ((¬ ∃ r ∈ m.rowsAt slot (hashCode jhash key), key <+: r) ∧
      (m.rowsAt slot (hashCode jhash key)).length = 4 ∧
      compareOrInsert jhash m b slot key = (countConflict (countArgument m b slot) b slot, 0)) ∨
    ((¬ ∃ r ∈ m.rowsAt slot (hashCode jhash key), key <+: r) ∧
      (m.rowsAt slot (hashCode jhash key)).length < 4 ∧
      compareOrInsert jhash m b slot key =
        (setTable (countArgument m b slot) slot
          (recordRow (tableAt (countArgument m b slot) slot)
            (hashCode jhash key * 4 + (m.rowsAt slot (hashCode jhash key)).length) key), 0)) := by
  have hsnd := probe_snd_eq_true_iff (tableAt m slot) key (hashCode jhash key * ASOS) ASOS 0
  have hfst := probe_fst_of_miss (tableAt m slot) key (hashCode jhash key * ASOS) ASOS 0
  rcases hp : probe (tableAt m slot) key (hashCode jhash key * ASOS) ASOS 0 with ⟨index, _ | _⟩
    <;> rw [hp] at hsnd hfst
  · have hidx : index = (m.rowsAt slot (hashCode jhash key)).length :=
      (hfst rfl).trans (Nat.zero_add _)
    have hmiss : ¬ ∃ r ∈ m.rowsAt slot (hashCode jhash key), key <+: r :=
      fun h => Bool.false_ne_true (hsnd.mpr h)
    have hle : index ≤ 4 := hidx ▸ (tableAt m slot).length_rows_le (hashCode jhash key)
    refine Or.inr ?_
    by_cases hfull : index = ASOS
    · refine Or.inl ⟨hmiss, hidx.symm.trans hfull, ?_⟩
      simp only [compareOrInsert, hp, if_pos hfull]
    · rw [← hidx]
      refine Or.inr ⟨hmiss, Nat.lt_of_le_of_ne hle hfull, ?_⟩
      simp only [compareOrInsert, hp, if_neg hfull]
  · refine Or.inl ⟨hsnd.mp rfl, ?_⟩
    simp only [compareOrInsert, hp]

/-- What `compare_or_insert` can do: a hit that changes nothing, a recorded tuple, or a full hash
set. -/
theorem compareOrInsert_effect (jhash : List UInt64 → UInt32) (m : Machine) (b slot : ℕ)
    (key : List UInt64) :
    CompareEffect jhash m (compareOrInsert jhash m b slot key).1 slot key
      (compareOrInsert jhash m b slot key).2 := by
  have hv := sameView_countArgument m b slot
  rcases compareOrInsert_cases jhash m b slot key with ⟨hfound, h⟩ | ⟨hmiss, hfull, h⟩ |
    ⟨hmiss, hroom, h⟩ <;> rw [h]
  · exact .hit (sameView_countHit m) hfound
  · exact .conflict (hv.trans (sameView_countConflict _ b slot)) hmiss hfull
  · refine .insert (countArgument m b slot) hv hmiss hroom ?_
    rw [hv.rowsAt]

/-- The rows after a comparison: one more at the end of the set of the key when it
was new and there was room, and the same everywhere else. -/
theorem CompareEffect.rowsAt {jhash : List UInt64 → UInt32} {m m' : Machine} {slot : ℕ}
    {key : List UInt64} {r : ℤ} (h : CompareEffect jhash m m' slot key r) (ho : m.Owned)
    (hkey : key.length ≤ 6) (i k : ℕ) :
    m'.rowsAt i k =
      if i = slot ∧ k = hashCode jhash key ∧ (¬ ∃ r ∈ m.rowsAt slot k, key <+: r) ∧
        (m.rowsAt slot k).length < 4
      then m.rowsAt i k ++ [padded key] else m.rowsAt i k := by
  cases h with
  | hit same found =>
    rw [same.rowsAt, if_neg]
    rintro ⟨-, rfl, hmiss, -⟩
    exact hmiss found
  | conflict same missed full =>
    rw [same.rowsAt, if_neg]
    rintro ⟨-, rfl, -, hroom⟩
    omega
  | insert m₁ same missed room stored =>
    subst stored
    by_cases hi : i = slot
    · subst hi
      rw [rowsAt_setTable_self]
      have htidy : (tableAt m₁ i).Tidy := (same.owned ho).tidy i
      have hlen : ((tableAt m₁ i).rows (hashCode jhash key)).length < 4 := by
        have := congrArg List.length (same.rowsAt i (hashCode jhash key))
        exact this ▸ room
      by_cases hk : k = hashCode jhash key
      · subst hk
        rw [if_pos ⟨rfl, rfl, missed, room⟩, ← same.rowsAt]
        exact PerSyscall.rows_recordRow_self htidy hkey hlen
      · rw [if_neg (fun h => hk h.2.1), ← same.rowsAt]
        exact PerSyscall.rows_recordRow_of_ne _ key hlen hk
    · rw [rowsAt_setTable_of_ne m₁ _ hi, same.rowsAt, if_neg (fun h => hi h.1)]

/-- Comparing a key with an owned table keeps ownership. -/
theorem CompareEffect.owned {jhash : List UInt64 → UInt32} {m m' : Machine} {slot : ℕ}
    {key : List UInt64} {r : ℤ} (h : CompareEffect jhash m m' slot key r) (ho : m.Owned)
    (hkey : key.length ≤ 6) (hslot : slot < m.cursor) : m'.Owned := by
  have hrows := h.rowsAt ho hkey
  cases h with
  | hit same found => exact same.owned ho
  | conflict same missed full => exact same.owned ho
  | insert m₁ same missed room stored =>
    have ho₁ := same.owned ho
    subst stored
    refine ⟨ho₁.hookLt, ho₁.hookInj, ho₁.slotLt, ho₁.slotInj, ho₁.cursorLe, fun i => ?_,
      fun i hi k => ?_⟩
    · by_cases hi : i = slot
      · subst hi
        rw [tableAt_setTable_self]
        exact (ho₁.tidy i).recordRow hkey (by
          have := congrArg List.length (same.rowsAt i (hashCode jhash key))
          exact this ▸ room)
      · rw [tableAt_setTable_of_ne m₁ _ hi]
        exact ho₁.tidy i
    · have hi' : m.cursor ≤ i := same.cursor ▸ hi
      rw [hrows, if_neg (by rintro ⟨rfl, -⟩; omega)]
      exact ho.unused i hi' k

/-- Apart from counters the comparison writes to its table at most. -/
theorem CompareEffect.exists_sameView {jhash : List UInt64 → UInt32} {m m' : Machine} {slot : ℕ}
    {key : List UInt64} {r : ℤ} (h : CompareEffect jhash m m' slot key r) :
    ∃ m₁, SameView m m₁ ∧ (m' = m₁ ∨ ∃ T, m' = setTable m₁ slot T) := by
  cases h with
  | hit same found => exact ⟨m', same, Or.inl rfl⟩
  | conflict same missed full => exact ⟨m', same, Or.inl rfl⟩
  | insert m₁ same missed room stored => exact ⟨m₁, same, Or.inr ⟨_, stored⟩⟩

theorem CompareEffect.slotOf {jhash : List UInt64 → UInt32} {m m' : Machine} {slot : ℕ}
    {key : List UInt64} {r : ℤ} (h : CompareEffect jhash m m' slot key r) (t : TaskId) (s : ℕ) :
    m'.slotOf t s = m.slotOf t s := by
  obtain ⟨m₁, same, rfl | ⟨T, rfl⟩⟩ := h.exists_sameView
  · exact same.slotOf t s
  · exact same.slotOf t s

theorem CompareEffect.seccomp {jhash : List UInt64 → UInt32} {m m' : Machine} {slot : ℕ}
    {key : List UInt64} {r : ℤ} (h : CompareEffect jhash m m' slot key r) :
    m'.seccomp = m.seccomp := by
  obtain ⟨m₁, same, rfl | ⟨T, rfl⟩⟩ := h.exists_sameView
  · exact same.seccomp
  · exact same.seccomp

theorem CompareEffect.dracoChecker {jhash : List UInt64 → UInt32} {m m' : Machine} {slot : ℕ}
    {key : List UInt64} {r : ℤ} (h : CompareEffect jhash m m' slot key r) :
    m'.dracoChecker = m.dracoChecker := by
  obtain ⟨m₁, same, rfl | ⟨T, rfl⟩⟩ := h.exists_sameView
  · exact same.dracoChecker
  · exact same.dracoChecker

theorem CompareEffect.cursor {jhash : List UInt64 → UInt32} {m m' : Machine} {slot : ℕ}
    {key : List UInt64} {r : ℤ} (h : CompareEffect jhash m m' slot key r) :
    m'.cursor = m.cursor := by
  obtain ⟨m₁, same, rfl | ⟨T, rfl⟩⟩ := h.exists_sameView
  · exact same.cursor
  · exact same.cursor

/-- The result is 1 exactly when a visible row of the key's set matches it. -/
theorem CompareEffect.result {jhash : List UInt64 → UInt32} {m m' : Machine} {slot : ℕ}
    {key : List UInt64} {r : ℤ} (h : CompareEffect jhash m m' slot key r) :
    (r = 1 ∧ ∃ r ∈ m.rowsAt slot (hashCode jhash key), key <+: r) ∨
    (r = 0 ∧ ¬ ∃ r ∈ m.rowsAt slot (hashCode jhash key), key <+: r) := by
  cases h with
  | hit same found => exact Or.inl ⟨rfl, found⟩
  | conflict same missed full => exact Or.inr ⟨rfl, missed⟩
  | insert m₁ same missed room stored => exact Or.inr ⟨rfl, missed⟩

/-- Counters in front of the comparison may be left out. -/
theorem CompareEffect.of_sameView {jhash : List UInt64 → UInt32} {m m₀ m' : Machine}
    {slot : ℕ} {key : List UInt64} {r : ℤ} (h : CompareEffect jhash m₀ m' slot key r)
    (hv : SameView m m₀) : CompareEffect jhash m m' slot key r := by
  cases h with
  | hit same found =>
    rw [hv.rowsAt] at found
    exact .hit (hv.trans same) found
  | conflict same missed full =>
    rw [hv.rowsAt] at missed full
    exact .conflict (hv.trans same) missed full
  | insert m₁ same missed room stored =>
    rw [hv.rowsAt] at missed room
    exact .insert m₁ (hv.trans same) missed room stored

/-- The key of a call: the arguments at the positions of the task's profile. -/
def callKey (m : Machine) (c : SysCall) : List UInt64 :=
  argumentList (m.seccomp c.cur) c.syscallId c.regs

/-- The key of a call has as many words as the profile lists positions for it. -/
theorem length_callKey (m : Machine) (c : SysCall) :
    (m.callKey c).length = (m.seccomp c.cur).argumentCount c.syscallId := by
  rw [callKey, argumentList, List.length_map, Seccomp.length_positions]

/-- A visible row of the call's set matches its key, in the table at `i`. -/
def Matches (jhash : List UInt64 → UInt32) (m : Machine) (c : SysCall) (i : ℕ) : Prop :=
  ∃ row ∈ m.rowsAt i (hashCode jhash (m.callKey c)), m.callKey c <+: row

instance (jhash : List UInt64 → UInt32) (m : Machine) (c : SysCall) (i : ℕ) :
    Decidable (Matches jhash m c i) :=
  inferInstanceAs (Decidable (∃ row ∈ m.rowsAt i (hashCode jhash (m.callKey c)), _))

/-- **The effect of one call**: the calling task may get a table for the called
syscall, the key may become the last row of its set in that table, and the
result says whether a row of that set matched. -/
structure HandlerEffect (jhash : List UInt64 → UInt32) (m : Machine) (c : SysCall)
    (m' : Machine) (r : ℤ) : Prop where
  owned : m'.Owned
  frame : Frame m m'
  slotOther : ∀ t s, ¬ (c.InRange ∧ t = c.cur ∧ s = c.syscallId) → m'.slotOf t s = m.slotOf t s
  slotKeep : ∀ t s i, m.slotOf t s = some i → m'.slotOf t s = some i
  slotNew : ∀ i, m.slotOf c.cur c.syscallId = none → m'.slotOf c.cur c.syscallId = some i →
    i = m.cursor ∧ m'.cursor = m.cursor + 1
  cursorKeep : m.slotOf c.cur c.syscallId ≠ none ∨ m'.slotOf c.cur c.syscallId = none →
    m'.cursor = m.cursor
  hooked : ∀ t, m'.hook t ≠ none ↔
    m.hook t ≠ none ∨ c.InRange ∧ t = c.cur ∧ c.kmalloc.perProcess = true
  obtained : c.InRange → (m'.slotOf c.cur c.syscallId ≠ none ↔
    (m.hook c.cur ≠ none ∨ c.kmalloc.perProcess = true ∧ c.kmalloc.processNode = true) ∧
      (m.slotOf c.cur c.syscallId ≠ none ∨ m.cursor ≠ PRE_ALLOCATED_SYSCALL_TABLE_COUNT))
  rows : ∀ i h, m'.rowsAt i h =
    if c.InRange ∧ m'.slotOf c.cur c.syscallId = some i ∧ h = hashCode jhash (m.callKey c) ∧
      ¬ Matches jhash m c i ∧ (m.rowsAt i h).length < 4
    then m.rowsAt i h ++ [padded (m.callKey c)] else m.rowsAt i h
  result : (r = 1 ∧ c.InRange ∧ ∃ i, m'.slotOf c.cur c.syscallId = some i ∧ Matches jhash m c i) ∨
    (r = 0 ∧ ¬ (c.InRange ∧ ∃ i, m'.slotOf c.cur c.syscallId = some i ∧ Matches jhash m c i))
  keyLength : c.InRange → m'.slotOf c.cur c.syscallId ≠ none → (m.callKey c).length ≤ 6

/-- The guard of the handler is the negation of `InRange`. -/
theorem not_inRange_iff {c : SysCall} :
    (c.nr < 0 ∨ (SYSCALL_COUNT : ℤ) ≤ c.nr) ↔ ¬ c.InRange := by
  rw [SysCall.InRange]
  omega

/-- A call in range indexes the tables inside their 400 rows. -/
theorem syscallId_lt {c : SysCall} (hc : c.InRange) : c.syscallId < 400 := by
  have := hc.2
  simp only [SYSCALL_COUNT] at this
  rw [SysCall.syscallId]
  omega

/-- The index of a call depends on its number only. -/
theorem syscallId_congr {c d : SysCall} (h : d.nr = c.nr) : d.syscallId = c.syscallId := by
  rw [SysCall.syscallId, SysCall.syscallId, h]

theorem inRange_congr {c d : SysCall} (h : d.nr = c.nr) (hd : d.InRange) : c.InRange := by
  unfold SysCall.InRange at hd ⊢
  rwa [← h]

/-- Among calls in range the index determines the number. -/
theorem nr_eq_of_syscallId_eq {c d : SysCall} (hc : c.InRange) (hd : d.InRange)
    (h : d.syscallId = c.syscallId) : d.nr = c.nr := by
  have hc₀ := hc.1
  have hd₀ := hd.1
  rw [SysCall.syscallId, SysCall.syscallId] at h
  omega

/-- A call out of range is a miss that changes nothing. -/
theorem handlerEffect_refl {jhash : List UInt64 → UInt32} {m : Machine} (ho : m.Owned)
    {c : SysCall} (hc : ¬ c.InRange) : HandlerEffect jhash m c m 0 where
  owned := ho
  frame := Frame.of_seccomp_eq rfl rfl
  slotOther := fun _ _ _ => rfl
  slotKeep := fun _ _ _ h => h
  slotNew := fun i h h' => by rw [h] at h'; cases h'
  cursorKeep := fun _ => rfl
  hooked := fun t => ⟨Or.inl, fun h => h.resolve_right fun h => hc h.1⟩
  obtained := fun h => absurd h hc
  rows := fun _ _ => (if_neg fun h => hc h.1).symm
  result := Or.inr ⟨rfl, fun h => hc h.1⟩
  keyLength := fun h => absurd h hc

/-- A call that gets no table changes nothing but the registration. -/
theorem handlerEffect_of_none (jhash : List UInt64 → UInt32) {m m' : Machine} {c : SysCall}
    (hin : c.InRange) (hacq : AcquireSpec m m' c.cur c.syscallId c.kmalloc none) :
    HandlerEffect jhash m c m' 0 := by
  obtain ⟨hnone, hcursor, hsame⟩ := hacq.early rfl
  have hnone' : m'.slotOf c.cur c.syscallId = none := by rw [hsame, hnone]
  have hno : ∀ i, m'.slotOf c.cur c.syscallId ≠ some i := by
    intro i hi
    rw [hnone'] at hi
    cases hi
  exact
    { owned := hacq.owned
      frame := hacq.frame
      slotOther := fun t s _ => hsame t s
      slotKeep := fun t s i hi => by rw [hsame, hi]
      slotNew := fun i _ hi => absurd hi (hno i)
      cursorKeep := fun _ => hcursor
      hooked := fun t => by rw [hacq.hooked, and_iff_right hin]
      obtained := fun _ =>
        ⟨fun hn => absurd hnone' hn, fun hn => absurd rfl (hacq.obtained.mpr hn)⟩
      rows := fun i k => by rw [hacq.rowsAt, if_neg fun h => hno i h.2.1]
      result := Or.inr ⟨rfl, fun ⟨_, i, hi, _⟩ => hno i hi⟩
      keyLength := fun _ hne => absurd hnone' hne }

/-- A call that gets the table at `slot` compares with it. -/
theorem handlerEffect_of_compare {jhash : List UInt64 → UInt32} {m m₁ m' : Machine}
    {c : SysCall} {r : ℤ} {b slot : ℕ} (hin : c.InRange)
    (hacq : AcquireSpec m m₁ c.cur c.syscallId c.kmalloc (some (b, slot)))
    (hlen : (m.callKey c).length ≤ 6) (hcmp : CompareEffect jhash m₁ m' slot (m.callKey c) r) :
    HandlerEffect jhash m c m' r := by
  have ha := hacq.found b slot rfl
  have hself : m'.slotOf c.cur c.syscallId = some slot := by rw [hcmp.slotOf, ha.self]
  have hsome : ∀ i, m'.slotOf c.cur c.syscallId = some i ↔ i = slot := by
    intro i
    rw [hself, Option.some.injEq, eq_comm]
  refine ⟨hcmp.owned hacq.owned hlen (hacq.owned.slotLt _ _ _ ha.self),
    hacq.frame.trans (Frame.of_seccomp_eq hcmp.dracoChecker hcmp.seccomp), fun t s hne => ?_,
    fun t s i hi => ?_, fun i hn hi => ?_, fun hk => ?_, fun t => ?_, fun _ => ?_, fun i k => ?_,
    ?_, fun _ _ => hlen⟩
  · rw [hcmp.slotOf, ha.other t s fun h => hne ⟨hin, h⟩]
  · rw [hcmp.slotOf]
    by_cases hts : t = c.cur ∧ s = c.syscallId
    · rw [hts.1, hts.2] at hi ⊢
      rcases ha.source with ⟨hs, -⟩ | ⟨hs, -⟩
      · rw [ha.self, ← hs, hi]
      · rw [hi] at hs
        cases hs
    · rw [ha.other t s hts, hi]
  · rcases ha.source with ⟨hs, -⟩ | ⟨-, hs, hc⟩
    · rw [hn] at hs
      cases hs
    · rw [(hsome i).mp hi, hs, hcmp.cursor, hc]
      exact ⟨rfl, rfl⟩
  · rcases ha.source with ⟨-, hc⟩ | ⟨hs, -, -⟩
    · rw [hcmp.cursor, hc]
    · rcases hk with hk | hk
      · exact absurd hs hk
      · rw [hself] at hk
        cases hk
  · rw [hook, hcmp.seccomp, ← hook, hacq.hooked, and_iff_right hin]
  · exact ⟨fun _ => hacq.obtained.mp (Option.some_ne_none _),
      fun _ => by rw [hself]; exact Option.some_ne_none _⟩
  · rw [hcmp.rowsAt hacq.owned hlen, hacq.rowsAt, hacq.rowsAt]
    apply if_congr _ rfl rfl
    rw [hsome]
    constructor
    · rintro ⟨rfl, rfl, hmiss, hroom⟩
      exact ⟨hin, rfl, rfl, hmiss, hroom⟩
    · rintro ⟨-, rfl, rfl, hmiss, hroom⟩
      exact ⟨rfl, rfl, hmiss, hroom⟩
  · simp only [hsome, exists_eq_left]
    have hres := hcmp.result
    rw [hacq.rowsAt] at hres
    rcases hres with ⟨rfl, hm⟩ | ⟨rfl, hm⟩
    · exact Or.inl ⟨rfl, hin, hm⟩
    · exact Or.inr ⟨rfl, fun hh => hm hh.2⟩

/-! ## The ways in which a call can end -/

/-- A number outside the tables changes nothing. -/
theorem handler_outOfRange (jhash : List UInt64 → UInt32) (m : Machine) {c : SysCall}
    (hc : ¬ c.InRange) : seccompFilterHandler jhash m c = some (m, 0) :=
  if_pos (not_inRange_iff.mpr hc)

/-- **The three ways in which a call can end**: out of range, without a table, or with the
comparison of its key in a table. -/
theorem handler_cases {jhash : List UInt64 → UInt32} {m m' : Machine} {c : SysCall} {r : ℤ}
    (h : seccompFilterHandler jhash m c = some (m', r)) :
    (¬ c.InRange ∧ m' = m ∧ r = 0) ∨
    (c.InRange ∧ r = 0 ∧
      acquireTable (countCall (countSyscallNumber m c.syscallId)) c.cur c.syscallId c.kmalloc =
        (m', none)) ∨
    (c.InRange ∧ ∃ m₁ b slot,
      acquireTable (countCall (countSyscallNumber m c.syscallId)) c.cur c.syscallId c.kmalloc =
        (m₁, some (b, slot)) ∧
      ((countSyscallCall m₁ slot).seccomp c.cur).argumentCount c.syscallId ≤ MAX_ARGUMENT_COUNT ∧
      compareOrInsert jhash (countSyscallCall m₁ slot) b slot
        (argumentList ((countSyscallCall m₁ slot).seccomp c.cur) c.syscallId c.regs) =
        (m', r)) := by
  by_cases hc : c.InRange
  · rw [seccompFilterHandler, if_neg fun hr => not_inRange_iff.mp hr hc, insertValue] at h
    rcases hres : acquireTable (countCall (countSyscallNumber m c.syscallId)) c.cur c.syscallId
      c.kmalloc with ⟨m₁, _ | ⟨b, slot⟩⟩ <;> rw [hres] at h <;> dsimp only at h
    · cases h
      exact Or.inr (Or.inl ⟨hc, rfl, rfl⟩)
    · split_ifs at h with hcount
      exact Or.inr (Or.inr ⟨hc, m₁, b, slot, rfl, Nat.le_of_not_lt hcount, Option.some.inj h⟩)
  · rw [handler_outOfRange jhash m hc] at h
    cases h
    exact Or.inl ⟨hc, rfl, rfl⟩

/-- The counters in front of the registration change nothing that the call looks at. -/
theorem sameView_counted (m : Machine) (s : ℕ) :
    SameView m (countCall (countSyscallNumber m s)) :=
  (sameView_countSyscallNumber m s).trans (sameView_countCall _)

/-- The one statement about `seccomp_filter_handler` that later invariants use: everything a call
can do to the machine. -/
theorem handler_effect {jhash : List UInt64 → UInt32} {m m' : Machine} {c : SysCall} {r : ℤ}
    (ho : m.Owned) (h : seccompFilterHandler jhash m c = some (m', r)) :
    HandlerEffect jhash m c m' r := by
  have hv := sameView_counted m c.syscallId
  have hacq := (acquireTable_spec (hv.owned ho) c.cur c.syscallId c.kmalloc).of_sameView hv
  rcases handler_cases h with ⟨hc, rfl, rfl⟩ | ⟨hc, rfl, hres⟩ |
    ⟨hc, m₁, b, slot, hres, hcount, hcompare⟩
  · exact handlerEffect_refl ho hc
  · rw [hres] at hacq
    exact handlerEffect_of_none jhash hc hacq
  · rw [hres] at hacq
    have hv₂ := sameView_countSyscallCall m₁ slot
    have hpos : ((countSyscallCall m₁ slot).seccomp c.cur).positions c.syscallId =
        (m.seccomp c.cur).positions c.syscallId := by
      rw [hv₂.seccomp, hacq.frame.positions]
    have hkey : argumentList ((countSyscallCall m₁ slot).seccomp c.cur) c.syscallId c.regs =
        m.callKey c := by
      rw [callKey, argumentList, argumentList, hpos]
    have hlen : (m.callKey c).length ≤ 6 := by
      rw [length_callKey, ← Seccomp.length_positions, ← hpos, Seccomp.length_positions]
      exact hcount
    have hcmp := compareOrInsert_effect jhash (countSyscallCall m₁ slot) b slot (m.callKey c)
    rw [hkey] at hcompare
    rw [hcompare] at hcmp
    exact handlerEffect_of_compare hc hacq hlen (hcmp.of_sameView hv₂)

/-! ## Consequences -/

namespace HandlerEffect

variable {jhash : List UInt64 → UInt32} {m m' : Machine} {c : SysCall} {r : ℤ}

/-- A task keeps the table that it has for a syscall. -/
theorem slot_unique (h : HandlerEffect jhash m c m' r) {t : TaskId} {s i j : ℕ}
    (hj : m.slotOf t s = some j) (hi : m'.slotOf t s = some i) : j = i := by
  have hkeep := h.slotKeep t s j hj
  rw [hi] at hkeep
  exact (Option.some.inj hkeep).symm

/-- A table that the call itself obtains is empty, so only a table that the task
already had can produce a hit. -/
theorem slotOf_of_matches (h : HandlerEffect jhash m c m' r) (ho : m.Owned) {i : ℕ}
    (hi : m'.slotOf c.cur c.syscallId = some i) (hm : Matches jhash m c i) :
    m.slotOf c.cur c.syscallId = some i := by
  cases hs : m.slotOf c.cur c.syscallId with
  | some i' => rw [← h.slotKeep _ _ _ hs, hi]
  | none =>
    obtain ⟨row, hrow, -⟩ := hm
    rw [(h.slotNew i hs hi).1, ho.unused m.cursor (Nat.le_refl _)] at hrow
    exact absurd hrow List.not_mem_nil

/-- **The result is 1 exactly when the task has a table in which a row of the
call's set matches its key.** -/
theorem result_iff (h : HandlerEffect jhash m c m' r) (ho : m.Owned) :
    r = 1 ↔ c.InRange ∧ ∃ i, m.slotOf c.cur c.syscallId = some i ∧ Matches jhash m c i := by
  constructor
  · rintro rfl
    rcases h.result with ⟨-, hc, i, hi, hm⟩ | ⟨h0, -⟩
    · exact ⟨hc, i, h.slotOf_of_matches ho hi hm, hm⟩
    · exact absurd h0 (by decide)
  · rintro ⟨hc, i, hi, hm⟩
    rcases h.result with ⟨h1, -⟩ | ⟨-, hn⟩
    · exact h1
    · exact absurd ⟨hc, i, h.slotKeep _ _ _ hi, hm⟩ hn

/-- The checker answers with a miss or a hit and nothing else. -/
theorem result_zero_or_one (h : HandlerEffect jhash m c m' r) : r = 0 ∨ r = 1 :=
  h.result.elim (fun h => Or.inr h.1) (fun h => Or.inl h.1)

end HandlerEffect

/-- A call whose profile lists at most six positions returns. -/
theorem handler_isSome (jhash : List UInt64 → UInt32) {m : Machine} (ho : m.Owned)
    {c : SysCall} (hcount : c.InRange → (m.seccomp c.cur).argumentCount c.syscallId ≤ 6) :
    ∃ m' r, seccompFilterHandler jhash m c = some (m', r) := by
  by_cases hin : c.InRange
  · have hv := sameView_counted m c.syscallId
    have hacq := acquireTable_spec (hv.owned ho) c.cur c.syscallId c.kmalloc
    rw [seccompFilterHandler, if_neg fun hr => not_inRange_iff.mp hr hin, insertValue]
    rcases hres : acquireTable (countCall (countSyscallNumber m c.syscallId)) c.cur c.syscallId
      c.kmalloc with ⟨m₁, _ | ⟨b, slot⟩⟩ <;> rw [hres] at hacq
    · exact ⟨m₁, 0, rfl⟩
    · have hle : ((countSyscallCall m₁ slot).seccomp c.cur).argumentCount c.syscallId ≤ 6 := by
        rw [(sameView_countSyscallCall m₁ slot).seccomp, ← Seccomp.length_positions,
          hacq.frame.positions, hv.seccomp, Seccomp.length_positions]
        exact hcount hin
      exact ⟨_, _, if_neg (Nat.not_lt.mpr hle)⟩
  · exact ⟨m, 0, handler_outOfRange jhash m hin⟩

end Machine

end Draco
