/-
# The metrics add up

A build with `METRICS_DRACO` counts on three levels: for every table, for every block
and in total.  A counter that exists on all three levels (`Counter`) adds up when the
blocks have the sums over their tables and the total is the sum over the blocks
(`Counter.Adds`).  Every call bumps the three levels of the argument counter or of
none, and of the conflict counter with it when its set is full, so the counters add up
after every run (`metrics_conserved`), modulo `2^32`.
-/
import Draco.ProcessList
import Mathlib.Algebra.BigOperators.Group.Finset.Basic
import Mathlib.Algebra.BigOperators.Group.Finset.Piecewise
import Mathlib.Data.UInt
import Mathlib.Tactic.Abel

namespace Draco

open PartialRun Machine Finset

/-! ## Counters on three levels -/

/-- A counter that every table, every block and the hash table have. -/
structure Counter where
  perSyscall : PerSyscall → UInt32
  perProcess : PerProcess → UInt32
  total : HashTable → UInt32

/-- The calls that did not hit. -/
def argumentCounter : Counter :=
  ⟨PerSyscall.perSyscallArgumentCount, PerProcess.perProcessArgumentCount,
    HashTable.totalArgumentCount⟩

/-- The calls that found their set full. -/
def conflictCounter : Counter :=
  ⟨PerSyscall.perSyscallConflictCount, PerProcess.perProcessConflictCount,
    HashTable.totalConflictCount⟩

/-- The sum of a counter over the tables of block `b`. -/
def Machine.sumTables (m : Machine) (b : ℕ) (f : PerSyscall → UInt32) : UInt32 :=
  ∑ s ∈ range SYSCALL_COUNT, ((m.blocks b).syscallTable s).elim 0 fun i => f (tableAt m i)

/-- The number of non-`NULL` entries in `syscall_table` of block `b`. -/
def Machine.tableCount (m : Machine) (b : ℕ) : ℕ :=
  ((range SYSCALL_COUNT).filter fun s => (m.blocks b).syscallTable s ≠ none).card

/-- The number of set flags of a table. -/
def PerSyscall.flagCount (T : PerSyscall) : ℕ :=
  ((range (INIT_HASH_ARGUMENT * ASOS)).filter fun e => T.flag e = 1).card

/-- The attached block counts from zero. -/
theorem blocks_attachBlock_self (m : Machine) (cur : TaskId) :
    (attachBlock m cur).blocks m.nextBlock = PerProcess.zero :=
  Function.update_self ..

/-- The blocks allocated before keep their counters. -/
theorem blocks_attachBlock_of_lt {m : Machine} (cur : TaskId) {b : ℕ} (hb : b < m.nextBlock) :
    (attachBlock m cur).blocks b = m.blocks b :=
  Function.update_of_ne (Nat.ne_of_lt hb) _ _

namespace Counter

/-- The counter adds up. -/
def Adds (k : Counter) (m : Machine) : Prop :=
  (∀ b < m.nextBlock, k.perProcess (m.blocks b) = m.sumTables b k.perSyscall) ∧
    k.total m.hashTable = ∑ b ∈ range m.nextBlock, k.perProcess (m.blocks b)

/-- All three levels grow by `d`, for the table at `slot` and the block `b`. -/
structure Bumps (k : Counter) (m m' : Machine) (b slot : ℕ) (d : UInt32) : Prop where
  perSyscall : ∀ i, k.perSyscall (tableAt m' i) =
    k.perSyscall (tableAt m i) + if i = slot then d else 0
  perProcess : ∀ b', k.perProcess (m'.blocks b') =
    k.perProcess (m.blocks b') + if b' = b then d else 0
  total : k.total m'.hashTable = k.total m.hashTable + d

variable {k : Counter} {m m₁ m₂ m' : Machine} {b slot : ℕ} {d d' : UInt32}

/-- A step that leaves a counter alone adds nothing on all three levels. -/
theorem Bumps.of_same (htable : ∀ i, k.perSyscall (tableAt m' i) = k.perSyscall (tableAt m i))
    (hblock : ∀ b', k.perProcess (m'.blocks b') = k.perProcess (m.blocks b'))
    (htotal : k.total m'.hashTable = k.total m.hashTable) : Bumps k m m' b slot 0 where
  perSyscall := fun i => by rw [htable, ite_self, UInt32.add_zero]
  perProcess := fun b' => by rw [hblock, ite_self, UInt32.add_zero]
  total := by rw [htotal, UInt32.add_zero]

theorem Bumps.trans (h₁ : Bumps k m m₁ b slot d) (h₂ : Bumps k m₁ m₂ b slot d') :
    Bumps k m m₂ b slot (d + d') where
  perSyscall := by
    intro i
    rw [h₂.perSyscall, h₁.perSyscall]
    split_ifs <;> abel
  perProcess := by
    intro b'
    rw [h₂.perProcess, h₁.perProcess]
    split_ifs <;> abel
  total := by rw [h₂.total, h₁.total, UInt32.add_assoc]

/-- The table at `slot` is the one of block `b` for syscall `s`, and of no other. -/
structure Owns (m : Machine) (b s slot : ℕ) : Prop where
  block : b < m.nextBlock
  syscall : s < SYSCALL_COUNT
  entry : (m.blocks b).syscallTable s = some slot
  unique : ∀ b' < m.nextBlock, ∀ s', (m.blocks b').syscallTable s' = some slot → b' = b ∧ s' = s

/-- The sums over the tables after a bump. -/
theorem Bumps.sumTables (h : Bumps k m m' b slot d) {s : ℕ} (hown : Owns m b s slot)
    (htable : ∀ b', (m'.blocks b').syscallTable = (m.blocks b').syscallTable) {b' : ℕ}
    (hb' : b' < m.nextBlock) :
    m'.sumTables b' k.perSyscall = m.sumTables b' k.perSyscall + if b' = b then d else 0 := by
  have hentry : ∀ s',
      ((m'.blocks b').syscallTable s').elim 0 (fun i => k.perSyscall (tableAt m' i)) =
      ((m.blocks b').syscallTable s').elim 0 (fun i => k.perSyscall (tableAt m i)) +
        if s' = s then (if b' = b then d else 0) else 0 := by
    intro s'
    rw [htable]
    cases hs' : (m.blocks b').syscallTable s' with
    | none =>
      have hne : ¬ (s' = s ∧ b' = b) := by
        rintro ⟨rfl, rfl⟩
        rw [hown.entry] at hs'
        cases hs'
      simp only [Option.elim_none, UInt32.zero_add]
      split_ifs with h₁ h₂ <;> first | rfl | exact absurd ⟨h₁, h₂⟩ hne
    | some i =>
      simp only [Option.elim_some]
      rw [h.perSyscall]
      congr 1
      by_cases hi : i = slot
      · subst hi
        obtain ⟨rfl, rfl⟩ := hown.unique b' hb' s' hs'
        simp
      · rw [if_neg hi]
        split_ifs with h₁ h₂
        · subst h₁ h₂
          rw [hown.entry] at hs'
          exact absurd (Option.some.inj hs').symm hi
        · rfl
        · rfl
  unfold Machine.sumTables
  rw [Finset.sum_congr rfl fun s' _ => hentry s', Finset.sum_add_distrib, Finset.sum_ite_eq',
    if_pos (mem_range.mpr hown.syscall)]

/-- **A bump keeps the sums.** -/
theorem Adds.bump (hm : k.Adds m) (h : Bumps k m m' b slot d) {s : ℕ} (hown : Owns m b s slot)
    (htable : ∀ b', (m'.blocks b').syscallTable = (m.blocks b').syscallTable)
    (hnext : m'.nextBlock = m.nextBlock) : k.Adds m' := by
  refine ⟨fun b' hb' => ?_, ?_⟩
  · rw [hnext] at hb'
    rw [h.perProcess, hm.1 b' hb', h.sumTables hown htable hb']
  · rw [h.total, hm.2, hnext, Finset.sum_congr rfl fun b' _ => h.perProcess b',
      Finset.sum_add_distrib, Finset.sum_ite_eq', if_pos (mem_range.mpr hown.block)]

/-- What leaves all three levels and their sums alone. -/
theorem Adds.of_same (hm : k.Adds m) (hnext : m'.nextBlock = m.nextBlock)
    (hsum : ∀ b < m.nextBlock, m'.sumTables b k.perSyscall = m.sumTables b k.perSyscall)
    (hblock : ∀ b, k.perProcess (m'.blocks b) = k.perProcess (m.blocks b))
    (htotal : k.total m'.hashTable = k.total m.hashTable) : k.Adds m' := by
  refine ⟨fun b hb => ?_, ?_⟩
  · rw [hnext] at hb
    rw [hblock, hm.1 b hb, hsum b hb]
  · rw [htotal, hm.2, hnext]
    exact Finset.sum_congr rfl fun b _ => (hblock b).symm

/-- A new block counts nothing yet. -/
theorem Adds.attachBlock (hm : k.Adds m) (cur : TaskId) (hzero : k.perProcess PerProcess.zero = 0)
    (htotal : k.total (attachBlock m cur).hashTable = k.total m.hashTable) :
    k.Adds (attachBlock m cur) := by
  refine ⟨fun b hb => ?_, ?_⟩
  · rcases Nat.lt_succ_iff_lt_or_eq.mp hb with hlt | rfl
    · rw [Machine.sumTables, blocks_attachBlock_of_lt cur hlt]
      exact hm.1 b hlt
    · rw [Machine.sumTables, blocks_attachBlock_self, hzero]
      exact (Finset.sum_eq_zero fun _ _ => rfl).symm
  · rw [htotal, hm.2]
    show _ = ∑ b ∈ range (m.nextBlock + 1), _
    rw [Finset.sum_range_succ, blocks_attachBlock_self, hzero, UInt32.add_zero]
    exact Finset.sum_congr rfl fun b hb => by
      rw [blocks_attachBlock_of_lt cur (mem_range.mp hb)]

/-- A new table counts nothing yet. -/
theorem sumTables_giveTable {b s : ℕ} (hnone : (m.blocks b).syscallTable s = none)
    (hfresh : tableAt m m.cursor = PerSyscall.zero) {f : PerSyscall → UInt32}
    (hzero : f PerSyscall.zero = 0) (b' : ℕ) :
    (giveTable m b s m.nextPool m.cursor).sumTables b' f = m.sumTables b' f := by
  refine Finset.sum_congr rfl fun s' _ => ?_
  show (((giveTable m b s m.nextPool m.cursor).blocks b').syscallTable s').elim 0
    (fun i => f (tableAt m i)) = _
  by_cases hb : b' = b
  · subst hb
    by_cases hs : s' = s
    · subst hs
      simp [giveTable, hnone, hfresh, hzero]
    · simp [giveTable, hs]
  · simp [giveTable, hb]

end Counter

/-! ## What the registration and the table part keep -/

/-- All counters that a run keeps in step with the tables. -/
structure Balanced (m : Machine) : Prop where
  argument : argumentCounter.Adds m
  conflict : conflictCounter.Adds m
  syscalls : ∀ b < m.nextBlock,
    (m.blocks b).perProcessSyscallCount = UInt32.ofNat (m.tableCount b)
  processes : m.hashTable.totalProcessCount = UInt32.ofNat m.nextBlock
  fresh : ∀ i, m.cursor ≤ i → tableAt m i = PerSyscall.zero
  flags : ∀ i, UInt32.ofNat (tableAt m i).flagCount =
    (tableAt m i).perSyscallArgumentCount - (tableAt m i).perSyscallConflictCount
  hooked : ∀ b < m.nextBlock, ∃ t, m.hook t = some b

/-- A new table has no flag set. -/
theorem flagCount_zero : PerSyscall.zero.flagCount = 0 := by
  rw [PerSyscall.flagCount, Finset.card_eq_zero, Finset.filter_eq_empty_iff]
  intro e _
  simp [PerSyscall.zero]

/-- All counters are zero at boot. -/
theorem balanced_boot (profile : TaskId → Seccomp) : Balanced (boot profile) where
  argument := ⟨fun b hb => absurd hb (Nat.not_lt_zero b), rfl⟩
  conflict := ⟨fun b hb => absurd hb (Nat.not_lt_zero b), rfl⟩
  syscalls := fun b hb => absurd hb (Nat.not_lt_zero b)
  processes := rfl
  fresh := fun _ _ => rfl
  flags := by
    intro i
    show UInt32.ofNat PerSyscall.zero.flagCount = 0 - 0
    rw [flagCount_zero]
    decide
  hooked := fun b hb => absurd hb (Nat.not_lt_zero b)

/-- A fresh block adds a summand of zero. -/
theorem Balanced.attachBlock {m : Machine} (hm : Balanced m) {cur : TaskId}
    (hcur : m.hook cur = none) : Balanced (attachBlock m cur) where
  argument := hm.argument.attachBlock cur rfl rfl
  conflict := hm.conflict.attachBlock cur rfl rfl
  syscalls := by
    intro b hb
    rcases Nat.lt_succ_iff_lt_or_eq.mp hb with hlt | rfl
    · rw [tableCount, blocks_attachBlock_of_lt cur hlt]
      exact hm.syscalls b hlt
    · rw [tableCount, blocks_attachBlock_self]
      simp [PerProcess.zero]
  processes := by
    show m.hashTable.totalProcessCount + 1 = UInt32.ofNat (m.nextBlock + 1)
    rw [hm.processes, UInt32.ofNat_add]
    rfl
  fresh := hm.fresh
  flags := hm.flags
  hooked := by
    intro b hb
    rcases Nat.lt_succ_iff_lt_or_eq.mp hb with hlt | rfl
    · obtain ⟨t, ht⟩ := hm.hooked b hlt
      have hne : t ≠ cur := by
        intro he
        rw [he, hcur] at ht
        cases ht
      exact ⟨t, (hook_attachBlock_of_ne m hne).trans ht⟩
    · exact ⟨cur, hook_attachBlock_self m cur⟩

/-- What leaves the tables, the blocks and the totals alone. -/
theorem Balanced.of_same {m m' : Machine} (hm : Balanced m) (hcursor : m'.cursor = m.cursor)
    (hpool : ∀ i, tableAt m' i = tableAt m i)
    (htable : ∀ b, (m'.blocks b).syscallTable = (m.blocks b).syscallTable)
    (hblock : ∀ b, (m'.blocks b).perProcessArgumentCount = (m.blocks b).perProcessArgumentCount ∧
      (m'.blocks b).perProcessConflictCount = (m.blocks b).perProcessConflictCount ∧
      (m'.blocks b).perProcessSyscallCount = (m.blocks b).perProcessSyscallCount)
    (htotal : m'.hashTable.totalArgumentCount = m.hashTable.totalArgumentCount ∧
      m'.hashTable.totalConflictCount = m.hashTable.totalConflictCount ∧
      m'.hashTable.totalProcessCount = m.hashTable.totalProcessCount)
    (hnext : m'.nextBlock = m.nextBlock) (hhook : ∀ t, m'.hook t = m.hook t) : Balanced m' := by
  have hsum : ∀ f b, m'.sumTables b f = m.sumTables b f := fun f b =>
    Finset.sum_congr rfl fun s _ => by
      rw [htable]
      cases (m.blocks b).syscallTable s with
      | none => rfl
      | some i => exact congrArg f (hpool i)
  refine ⟨?_, ?_, fun b hb => ?_, ?_, fun i hi => ?_, fun i => ?_, fun b hb => ?_⟩
  · exact hm.argument.of_same hnext (fun b _ => hsum _ b) (fun b => (hblock b).1) htotal.1
  · exact hm.conflict.of_same hnext (fun b _ => hsum _ b) (fun b => (hblock b).2.1) htotal.2.1
  · rw [hnext] at hb
    rw [(hblock b).2.2, hm.syscalls b hb, tableCount, tableCount, htable]
  · rw [htotal.2.2, hm.processes, hnext]
  · rw [hpool]
    exact hm.fresh i (hcursor ▸ hi)
  · rw [hpool]
    exact hm.flags i
  · rw [hnext] at hb
    obtain ⟨t, ht⟩ := hm.hooked b hb
    exact ⟨t, (hhook t).trans ht⟩

/-- The registration keeps the counters in step. -/
theorem Balanced.registerProcess {m : Machine} (hm : Balanced m) (cur : TaskId) (k : Kmalloc) :
    Balanced (registerProcess m cur k).1 := by
  rcases registerProcess_cases m cur k with ⟨b, hb, h⟩ | ⟨-, -, h⟩ | ⟨hh, -, -, h⟩ |
    ⟨hh, -, -, h⟩ <;> rw [h]
  · exact hm
  · exact hm
  · exact (hm.attachBlock hh).of_same rfl (fun _ => rfl) (fun _ => rfl)
      (fun _ => ⟨rfl, rfl, rfl⟩) ⟨rfl, rfl, rfl⟩ rfl (fun _ => rfl)
  · exact (hm.attachBlock hh).of_same rfl (fun _ => rfl) (fun _ => rfl)
      (fun _ => ⟨rfl, rfl, rfl⟩) ⟨rfl, rfl, rfl⟩ rfl (fun _ => rfl)

/-- The number of calls of a block is in none of the sums, so counting it keeps them. -/
theorem Balanced.countProcessCall {m : Machine} (hm : Balanced m) (b : ℕ) :
    Balanced (countProcessCall m b) := by
  refine hm.of_same rfl (fun _ => rfl) (syscallTable_update m b rfl) (fun b' => ?_)
    ⟨rfl, rfl, rfl⟩ rfl (fun _ => rfl)
  by_cases hb : b' = b
  · simp [Draco.countProcessCall, hb]
  · simp [Draco.countProcessCall, hb]

section GiveTable

variable (m : Machine) {b s : ℕ}

/-- Giving out a table touches one block only. -/
theorem blocks_giveTable_of_ne {b' : ℕ} (hb : b' ≠ b) :
    (giveTable m b s m.nextPool m.cursor).blocks b' = m.blocks b' :=
  Function.update_of_ne hb _ _

/-- A new table bumps neither of the two counters of its block. -/
theorem perProcess_giveTable (b' : ℕ) :
    ((giveTable m b s m.nextPool m.cursor).blocks b').perProcessArgumentCount =
        (m.blocks b').perProcessArgumentCount ∧
      ((giveTable m b s m.nextPool m.cursor).blocks b').perProcessConflictCount =
        (m.blocks b').perProcessConflictCount := by
  by_cases hb : b' = b
  · simp [giveTable, hb]
  · rw [blocks_giveTable_of_ne m hb]
    exact ⟨rfl, rfl⟩

variable {m}

/-- A new table is one more entry of its block. -/
theorem tableCount_giveTable_self (hs : s < SYSCALL_COUNT)
    (hnone : (m.blocks b).syscallTable s = none) :
    (giveTable m b s m.nextPool m.cursor).tableCount b = m.tableCount b + 1 := by
  have hfilter : ((range SYSCALL_COUNT).filter fun s' =>
      ((giveTable m b s m.nextPool m.cursor).blocks b).syscallTable s' ≠ none) =
      insert s ((range SYSCALL_COUNT).filter fun s' => (m.blocks b).syscallTable s' ≠ none) := by
    ext s'
    by_cases hss : s' = s
    · simp [giveTable, hss, hs]
    · simp [giveTable, hss]
  rw [tableCount, hfilter, Finset.card_insert_of_notMem (by simp [hnone])]
  rfl

/-- A table given out starts with counters of zero. -/
theorem Balanced.giveTable (hm : Balanced m) (hs : s < SYSCALL_COUNT)
    (hnone : (m.blocks b).syscallTable s = none) :
    Balanced (giveTable m b s m.nextPool m.cursor) := by
  have hfresh := hm.fresh m.cursor (Nat.le_refl _)
  refine ⟨?_, ?_, fun b' hb' => ?_, hm.processes, fun i hi => ?_, hm.flags, hm.hooked⟩
  · exact hm.argument.of_same rfl (fun b' _ => Counter.sumTables_giveTable hnone hfresh rfl b')
      (fun b' => (perProcess_giveTable m b').1) rfl
  · exact hm.conflict.of_same rfl (fun b' _ => Counter.sumTables_giveTable hnone hfresh rfl b')
      (fun b' => (perProcess_giveTable m b').2) rfl
  · by_cases hb : b' = b
    · subst hb
      rw [tableCount_giveTable_self hs hnone, UInt32.ofNat_add, ← hm.syscalls b' hb']
      simp [Draco.giveTable]
    · rw [tableCount, blocks_giveTable_of_ne m hb]
      exact hm.syscalls b' hb'
  · exact hm.fresh i (Nat.le_of_succ_le hi)

end GiveTable

/-- A call that looks for its table leaves the counters in step. -/
theorem Balanced.acquireTable {m : Machine} (hm : Balanced m) (cur : TaskId) {s : ℕ}
    (hs : s < SYSCALL_COUNT) (k : Kmalloc) : Balanced (acquireTable m cur s k).1 := by
  have hreg := hm.registerProcess cur k
  rcases acquireTable_cases m cur s k with ⟨m₁, h, hres⟩ | ⟨m₁, b, h, hres⟩ <;> rw [h] at hreg <;>
    rw [hres]
  · exact hreg
  · rcases lookupTable_cases m₁ b s with ⟨slot, -, hl⟩ | ⟨-, -, hl⟩ | ⟨hnone, -, hl⟩ <;> rw [hl]
    · exact hreg.countProcessCall b
    · exact hreg.countProcessCall b
    · refine (hreg.countProcessCall b).giveTable hs ?_
      rw [(sameView_countProcessCall m₁ b).syscallTable]
      exact hnone

/-- It touches neither the tables nor the totals of the calls. -/
theorem acquireTable_totals (m : Machine) (cur : TaskId) (s : ℕ) (k : Kmalloc) :
    (acquireTable m cur s k).1.hashTable.pool.poolInternal = m.hashTable.pool.poolInternal ∧
      (acquireTable m cur s k).1.hashTable.totalCallCount = m.hashTable.totalCallCount ∧
      (acquireTable m cur s k).1.hashTable.totalHitCount = m.hashTable.totalHitCount ∧
      (acquireTable m cur s k).1.hashTable.totalArgumentCount = m.hashTable.totalArgumentCount := by
  have hreg : (registerProcess m cur k).1.hashTable.pool = m.hashTable.pool ∧
      (registerProcess m cur k).1.hashTable.totalCallCount = m.hashTable.totalCallCount ∧
      (registerProcess m cur k).1.hashTable.totalHitCount = m.hashTable.totalHitCount ∧
      (registerProcess m cur k).1.hashTable.totalArgumentCount =
        m.hashTable.totalArgumentCount := by
    rcases registerProcess_cases m cur k with ⟨b, -, h⟩ | ⟨-, -, h⟩ | ⟨-, -, -, h⟩ |
      ⟨-, -, -, h⟩ <;> rw [h] <;> exact ⟨rfl, rfl, rfl, rfl⟩
  rcases acquireTable_cases m cur s k with ⟨m₁, h, hres⟩ | ⟨m₁, b, h, hres⟩ <;> rw [h] at hreg <;>
    rw [hres] <;> obtain ⟨hpool, hrest⟩ := hreg
  · exact ⟨congrArg _ hpool, hrest⟩
  · have hinternal : m₁.hashTable.pool.poolInternal = m.hashTable.pool.poolInternal :=
      congrArg PerSyscallCallPool.poolInternal hpool
    rcases lookupTable_cases m₁ b s with ⟨slot, -, hl⟩ | ⟨-, -, hl⟩ | ⟨-, -, hl⟩ <;> rw [hl] <;>
      exact ⟨hinternal, hrest⟩

/-! ## What the comparison counts -/

/-- What stays when calls are counted. -/
structure SameLayout (m m' : Machine) : Prop where
  syscallTable : ∀ b, (m'.blocks b).syscallTable = (m.blocks b).syscallTable
  syscallCount : ∀ b, (m'.blocks b).perProcessSyscallCount = (m.blocks b).perProcessSyscallCount
  totalProcess : m'.hashTable.totalProcessCount = m.hashTable.totalProcessCount
  nextBlock : m'.nextBlock = m.nextBlock
  cursor : m'.cursor = m.cursor
  seccomp : m'.seccomp = m.seccomp

theorem SameLayout.trans {m₁ m₂ m₃ : Machine} (h₁ : SameLayout m₁ m₂) (h₂ : SameLayout m₂ m₃) :
    SameLayout m₁ m₃ where
  syscallTable := fun b => (h₂.syscallTable b).trans (h₁.syscallTable b)
  syscallCount := fun b => (h₂.syscallCount b).trans (h₁.syscallCount b)
  totalProcess := h₂.totalProcess.trans h₁.totalProcess
  nextBlock := h₂.nextBlock.trans h₁.nextBlock
  cursor := h₂.cursor.trans h₁.cursor
  seccomp := h₂.seccomp.trans h₁.seccomp

theorem SameLayout.hook {m m' : Machine} (h : SameLayout m m') (t : TaskId) :
    m'.hook t = m.hook t := by
  rw [Machine.hook, h.seccomp, Machine.hook]

/-- A part of a call that works on the table at `slot` in block `b`: it adds `da` to the
argument counters, `dc` to the conflict counters, and sets `df` flags. -/
structure Compared (m m' : Machine) (b slot : ℕ) (da dc df : UInt32) : Prop where
  layout : SameLayout m m'
  argument : argumentCounter.Bumps m m' b slot da
  conflict : conflictCounter.Bumps m m' b slot dc
  others : ∀ i, i ≠ slot → tableAt m' i = tableAt m i
  flags : UInt32.ofNat (tableAt m' slot).flagCount =
    UInt32.ofNat (tableAt m slot).flagCount + df

/-- What two parts of a comparison count adds up. -/
theorem Compared.trans {m₁ m₂ m₃ : Machine} {b slot : ℕ} {da dc df da' dc' df' : UInt32}
    (h₁ : Compared m₁ m₂ b slot da dc df) (h₂ : Compared m₂ m₃ b slot da' dc' df') :
    Compared m₁ m₃ b slot (da + da') (dc + dc') (df + df') where
  layout := h₁.layout.trans h₂.layout
  argument := h₁.argument.trans h₂.argument
  conflict := h₁.conflict.trans h₂.conflict
  others := fun i hi => (h₂.others i hi).trans (h₁.others i hi)
  flags := by rw [h₂.flags, h₁.flags, UInt32.add_assoc]

/-- Counting keeps the counters in step when the calls that are not conflicts set a flag. -/
theorem Balanced.compared {m m' : Machine} (hm : Balanced m) {b s slot : ℕ} {da dc : UInt32}
    (h : Compared m m' b slot da dc (da - dc)) (hown : Counter.Owns m b s slot)
    (hslot : slot < m.cursor) : Balanced m' where
  argument := hm.argument.bump h.argument hown h.layout.syscallTable h.layout.nextBlock
  conflict := hm.conflict.bump h.conflict hown h.layout.syscallTable h.layout.nextBlock
  syscalls := by
    intro b' hb'
    rw [h.layout.nextBlock] at hb'
    rw [h.layout.syscallCount, hm.syscalls b' hb', tableCount, tableCount, h.layout.syscallTable]
  processes := by rw [h.layout.totalProcess, hm.processes, h.layout.nextBlock]
  fresh := by
    intro i hi
    rw [h.layout.cursor] at hi
    rw [h.others i (by omega)]
    exact hm.fresh i hi
  flags := by
    intro i
    by_cases hi : i = slot
    · subst hi
      have hargument := h.argument.perSyscall i
      have hconflict := h.conflict.perSyscall i
      rw [if_pos rfl] at hargument hconflict
      replace hargument : (tableAt m' i).perSyscallArgumentCount = _ := hargument
      replace hconflict : (tableAt m' i).perSyscallConflictCount = _ := hconflict
      rw [h.flags, hm.flags, hargument, hconflict]
      show _ = (tableAt m i).perSyscallArgumentCount + da -
        ((tableAt m i).perSyscallConflictCount + dc)
      abel
    · rw [h.others i hi]
      exact hm.flags i
  hooked := by
    intro b' hb'
    rw [h.layout.nextBlock] at hb'
    obtain ⟨t, ht⟩ := hm.hooked b' hb'
    exact ⟨t, (h.layout.hook t).trans ht⟩

/-- A counter after a table has been stored. -/
theorem Counter.Bumps.setTable {k : Counter} {m m₁ : Machine} {b slot : ℕ} {T : PerSyscall}
    {d : UInt32} (hpool : ∀ i, tableAt m₁ i = tableAt m i)
    (hsyscall : k.perSyscall T = k.perSyscall (tableAt m slot) + d)
    (hprocess : ∀ b', k.perProcess (m₁.blocks b') =
      k.perProcess (m.blocks b') + if b' = b then d else 0)
    (htotal : k.total (setTable m₁ slot T).hashTable = k.total m.hashTable + d) :
    k.Bumps m (setTable m₁ slot T) b slot d where
  perSyscall := by
    intro i
    by_cases hi : i = slot
    · rw [hi, tableAt_setTable_self, if_pos rfl, hsyscall]
    · rw [tableAt_setTable_of_ne m₁ T hi, hpool, if_neg hi, UInt32.add_zero]
  perProcess := hprocess
  total := htotal

/-- Writing a table leaves the others, also after counters of the machine changed. -/
theorem tableAt_setTable_others {m m₁ : Machine} {slot : ℕ} {T : PerSyscall}
    (hpool : ∀ i, tableAt m₁ i = tableAt m i) (i : ℕ) (hi : i ≠ slot) :
    tableAt (setTable m₁ slot T) i = tableAt m i :=
  (tableAt_setTable_of_ne m₁ T hi).trans (hpool i)

/-- A stored table that counts the same. -/
theorem Counter.Bumps.setTable_zero {k : Counter} {m : Machine} {b slot : ℕ} {T : PerSyscall}
    (hsyscall : k.perSyscall T = k.perSyscall (tableAt m slot))
    (htotal : k.total (Draco.setTable m slot T).hashTable = k.total m.hashTable) :
    k.Bumps m (Draco.setTable m slot T) b slot 0 := by
  refine .of_same (fun i => ?_) (fun _ => rfl) htotal
  by_cases hi : i = slot
  · rw [hi, tableAt_setTable_self, hsyscall]
  · rw [tableAt_setTable_of_ne m T hi]

section Counting

variable (m : Machine) (b slot : ℕ)

/-- `per_syscall_call_count += 1` -/
theorem compared_countSyscallCall : Compared m (countSyscallCall m slot) b slot 0 0 0 where
  layout := ⟨fun _ => rfl, fun _ => rfl, rfl, rfl, rfl, rfl⟩
  argument := .setTable_zero rfl rfl
  conflict := .setTable_zero rfl rfl
  others := tableAt_setTable_others fun _ => rfl
  flags := by
    rw [countSyscallCall, tableAt_setTable_self]
    exact (UInt32.add_zero _).symm

/-- `total_hit_count += 1` -/
theorem compared_countHit : Compared m (countHit m) b slot 0 0 0 where
  layout := ⟨fun _ => rfl, fun _ => rfl, rfl, rfl, rfl, rfl⟩
  argument := .of_same (fun _ => rfl) (fun _ => rfl) rfl
  conflict := .of_same (fun _ => rfl) (fun _ => rfl) rfl
  others := fun _ _ => rfl
  flags := (UInt32.add_zero _).symm

/-- One more call that did not hit. -/
theorem compared_countArgument : Compared m (countArgument m b slot) b slot 1 0 0 where
  layout := by
    refine ⟨syscallTable_update m b rfl, fun b' => ?_, rfl, rfl, rfl, rfl⟩
    by_cases hb : b' = b
    · simp [countArgument, setTable, hb]
    · simp [countArgument, setTable, hb]
  argument := by
    refine .setTable (fun _ => rfl) rfl (fun b' => ?_) rfl
    by_cases hb : b' = b
    · simp [argumentCounter, hb]
    · simp [argumentCounter, hb]
  conflict := by
    refine .setTable (fun _ => rfl) (UInt32.add_zero _).symm (fun b' => ?_)
      (UInt32.add_zero _).symm
    by_cases hb : b' = b
    · simp [conflictCounter, hb]
    · simp [conflictCounter, hb]
  others := tableAt_setTable_others fun _ => rfl
  flags := by
    rw [countArgument, tableAt_setTable_self]
    exact (UInt32.add_zero _).symm

/-- One more call that found its set full. -/
theorem compared_countConflict : Compared m (countConflict m b slot) b slot 0 1 0 where
  layout := by
    refine ⟨syscallTable_update m b rfl, fun b' => ?_, rfl, rfl, rfl, rfl⟩
    by_cases hb : b' = b
    · simp [countConflict, setTable, hb]
    · simp [countConflict, setTable, hb]
  argument := by
    refine .setTable (fun _ => rfl) (UInt32.add_zero _).symm (fun b' => ?_)
      (UInt32.add_zero _).symm
    by_cases hb : b' = b
    · simp [argumentCounter, hb]
    · simp [argumentCounter, hb]
  conflict := by
    refine .setTable (fun _ => rfl) rfl (fun b' => ?_) rfl
    by_cases hb : b' = b
    · simp [conflictCounter, hb]
    · simp [conflictCounter, hb]
  others := tableAt_setTable_others fun _ => rfl
  flags := by
    rw [countConflict, tableAt_setTable_self]
    exact (UInt32.add_zero _).symm

/-- A new row sets one flag. -/
theorem flagCount_recordRow {T : PerSyscall} {e : ℕ} (he : e < INIT_HASH_ARGUMENT * ASOS)
    (hfree : T.flag e ≠ 1) (key : List UInt64) :
    (recordRow T e key).flagCount = T.flagCount + 1 := by
  have hfilter : ((range (INIT_HASH_ARGUMENT * ASOS)).filter fun e' =>
      (recordRow T e key).flag e' = 1) =
      insert e ((range (INIT_HASH_ARGUMENT * ASOS)).filter fun e' => T.flag e' = 1) := by
    ext e'
    rw [PerSyscall.recordRow_flag]
    by_cases hee : e' = e
    · rw [hee]
      simp only [mem_filter, mem_range, Function.update_self, and_true, mem_insert_self, iff_true]
      exact he
    · simp [hee]
  rw [PerSyscall.flagCount, hfilter, Finset.card_insert_of_notMem (by simp [hfree])]
  rfl

/-- Recording a row in a free place sets one flag and counts nothing. -/
theorem compared_recordRow {e : ℕ} (he : e < INIT_HASH_ARGUMENT * ASOS)
    (hfree : (tableAt m slot).flag e ≠ 1) (key : List UInt64) :
    Compared m (setTable m slot (recordRow (tableAt m slot) e key)) b slot 0 0 1 where
  layout := ⟨fun _ => rfl, fun _ => rfl, rfl, rfl, rfl, rfl⟩
  argument := .setTable_zero rfl rfl
  conflict := .setTable_zero rfl rfl
  others := tableAt_setTable_others fun _ => rfl
  flags := by
    rw [tableAt_setTable_self, flagCount_recordRow he hfree, UInt32.ofNat_add]
    rfl

end Counting

/-- The calls that the table at `i` has seen. -/
def Machine.callCount (m : Machine) (i : ℕ) : UInt32 := (tableAt m i).perSyscallCallCount

/-- A table written with its old number of calls keeps all of them. -/
theorem callCount_setTable {m m₁ : Machine} {slot : ℕ} {T : PerSyscall}
    (hpool : ∀ i, tableAt m₁ i = tableAt m i)
    (hT : T.perSyscallCallCount = (tableAt m slot).perSyscallCallCount) (i : ℕ) :
    (setTable m₁ slot T).callCount i = m.callCount i := by
  by_cases hi : i = slot
  · rw [callCount, hi, tableAt_setTable_self, hT, callCount]
  · rw [callCount, tableAt_setTable_others hpool i hi, callCount]

theorem callCount_countConflict (m : Machine) (b slot i : ℕ) :
    (countConflict m b slot).callCount i = m.callCount i := by
  refine callCount_setTable (fun _ => ?_) ?_ i <;> rfl

theorem callCount_recordRow (m : Machine) (slot e : ℕ) (key : List UInt64) (i : ℕ) :
    (setTable m slot (recordRow (tableAt m slot) e key)).callCount i = m.callCount i := by
  refine callCount_setTable (fun _ => ?_) ?_ i <;> rfl

/-- Counting a call adds one for its own table. -/
theorem callCount_countSyscallCall (m : Machine) (slot i : ℕ) :
    (countSyscallCall m slot).callCount i = m.callCount i + if i = slot then 1 else 0 := by
  by_cases hi : i = slot
  · rw [callCount, callCount, hi, if_pos rfl, countSyscallCall, tableAt_setTable_self]
  · rw [callCount, callCount, if_neg hi, countSyscallCall, tableAt_setTable_of_ne m _ hi,
      UInt32.add_zero]

/-- What the comparison counts: a hit, or one more call that did not hit. -/
structure ComparedResult (m m' : Machine) (b slot : ℕ) (r : ℤ) (da dc dh : UInt32) : Prop where
  compared : Compared m m' b slot da dc (da - dc)
  calls : ∀ i, m'.callCount i = m.callCount i
  totalHit : m'.hashTable.totalHitCount = m.hashTable.totalHitCount + dh
  totalCall : m'.hashTable.totalCallCount = m.hashTable.totalCallCount
  result : r = 1 ∧ da = 0 ∧ dh = 1 ∨ r = 0 ∧ da = 1 ∧ dh = 0

/-- What `compare_or_insert` counts, in all its cases. -/
theorem compareOrInsert_compared (jhash : List UInt64 → UInt32) {m : Machine} (b : ℕ) {slot : ℕ}
    (hT : (tableAt m slot).Tidy) (key : List UInt64) :
    ∃ da dc dh, ComparedResult m (compareOrInsert jhash m b slot key).1 b slot
      (compareOrInsert jhash m b slot key).2 da dc dh := by
  have hcalls : ∀ i, (countArgument m b slot).callCount i = m.callCount i :=
    callCount_setTable (fun _ => rfl) rfl
  have hargument := compared_countArgument m b slot
  rcases compareOrInsert_cases jhash m b slot key with ⟨-, h⟩ | ⟨-, -, h⟩ | ⟨-, hroom, h⟩ <;>
    rw [h]
  · exact ⟨0, 0, 1, compared_countHit m b slot, fun _ => rfl, rfl, rfl, Or.inl ⟨rfl, rfl, rfl⟩⟩
  · refine ⟨1, 1, 0, ?_, fun i => ?_, (UInt32.add_zero _).symm, rfl, Or.inr ⟨rfl, rfl, rfl⟩⟩
    · exact hargument.trans (compared_countConflict _ b slot)
    · exact (callCount_countConflict _ b slot i).trans (hcalls i)
  · have hset := hashCode_lt jhash key
    have he : hashCode jhash key * 4 + (m.rowsAt slot (hashCode jhash key)).length <
        INIT_HASH_ARGUMENT * ASOS := by
      simp only [INIT_HASH_ARGUMENT, ASOS] at hset ⊢
      omega
    -- the row behind the visible ones is free
    have hfree : (tableAt (countArgument m b slot) slot).flag
        (hashCode jhash key * 4 + (m.rowsAt slot (hashCode jhash key)).length) ≠ 1 := by
      rw [(sameView_countArgument m b slot).flag]
      intro hf
      exact Nat.lt_irrefl _ ((hT.flag_eq_one_iff hroom).mp hf)
    refine ⟨1, 0, 0, ?_, fun i => ?_, (UInt32.add_zero _).symm, rfl, Or.inr ⟨rfl, rfl, rfl⟩⟩
    · exact hargument.trans (compared_recordRow _ b slot he hfree key)
    · exact (callCount_recordRow _ slot _ key i).trans (hcalls i)

/-! ## One call -/

/-- The call returns because an allocation failed or the pool is used up. -/
def ReturnsEarly (m : Machine) (c : SysCall) : Prop :=
  c.InRange ∧ (acquireTable (countCall (countSyscallNumber m c.syscallId)) c.cur c.syscallId
    c.kmalloc).2 = none

instance (m : Machine) (c : SysCall) : Decidable (ReturnsEarly m c) :=
  inferInstanceAs (Decidable (_ ∧ _))

/-- The block of a call is the one of its task. -/
theorem hook_acquireTable {m m' : Machine} (ho : m.Owned) {cur : TaskId} {s : ℕ} {k : Kmalloc}
    {b slot : ℕ} (h : acquireTable m cur s k = (m', some (b, slot))) : m'.hook cur = some b := by
  have hreg := registerProcess_spec ho cur k
  rcases acquireTable_cases m cur s k with ⟨m₁, hr, hres⟩ | ⟨m₁, b₁, hr, hres⟩ <;>
    rw [hr] at hreg <;> rw [hres] at h
  · cases h
  · obtain ⟨rfl, hmap⟩ := Prod.mk.inj h
    obtain ⟨slot₁, -, hslot⟩ := Option.map_eq_some_iff.mp hmap
    obtain ⟨rfl, -⟩ := Prod.mk.inj hslot
    have hhook := hreg.hook b₁ rfl
    rw [hook, (lookupTable_spec hreg.owned hhook s).seccomp]
    exact hhook

/-- The table of a call belongs to the block of its task alone. -/
theorem owns_acquireTable {m m' : Machine} (ho : m.Owned) {cur : TaskId} {s : ℕ}
    (hs : s < SYSCALL_COUNT) {k : Kmalloc} {b slot : ℕ}
    (h : acquireTable m cur s k = (m', some (b, slot))) (hm' : Balanced m') :
    Counter.Owns m' b s slot ∧ slot < m'.cursor := by
  have hspec := acquireTable_spec ho cur s k
  rw [h] at hspec
  have hhook := hook_acquireTable ho h
  have hself := (hspec.found b slot rfl).self
  refine ⟨⟨hspec.owned.hookLt cur b hhook, hs, (slotOf_of_hook hhook s).symm.trans hself,
    fun b' hb' s' hs' => ?_⟩, hspec.owned.slotLt cur s slot hself⟩
  obtain ⟨t, ht⟩ := hm'.hooked b' hb'
  obtain ⟨rfl, rfl⟩ := hspec.owned.slotInj t s' cur s slot ((slotOf_of_hook ht s').trans hs') hself
  rw [hhook] at ht
  exact ⟨(Option.some.inj ht).symm, rfl⟩

/-- What one call counts, seen from its table and from the totals. -/
structure CallCounts (m m' : Machine) (c : SysCall) (r : ℤ) : Prop where
  balanced : Balanced m'
  calls : ∀ i, m'.callCount i + (tableAt m i).perSyscallArgumentCount =
    m.callCount i + (tableAt m' i).perSyscallArgumentCount +
      if r = 1 ∧ m'.slotOf c.cur c.syscallId = some i then 1 else 0
  totals : m'.hashTable.totalCallCount + m.hashTable.totalHitCount +
      m.hashTable.totalArgumentCount =
    m.hashTable.totalCallCount + m'.hashTable.totalHitCount +
      m'.hashTable.totalArgumentCount + if ReturnsEarly m c then 1 else 0

/-- A number outside the range is not counted. -/
theorem callCounts_refl {m : Machine} (hm : Balanced m) {c : SysCall} (hc : ¬ c.InRange) :
    CallCounts m m c 0 where
  balanced := hm
  calls := by
    intro i
    rw [if_neg fun h => absurd h.1 (by decide), UInt32.add_zero]
  totals := by
    rw [if_neg fun h => hc h.1, UInt32.add_zero]

section Call

variable {m m₁ : Machine} {c : SysCall}

/-- The number of all calls is in none of the sums. -/
theorem balanced_countCall (hm : Balanced m) (s : ℕ) :
    Balanced (countCall (countSyscallNumber m s)) :=
  hm.of_same rfl (fun _ => rfl) (fun _ => rfl) (fun _ => ⟨rfl, rfl, rfl⟩) ⟨rfl, rfl, rfl⟩ rfl
    fun _ => rfl

/-- The tables and the totals when the call looks at its table, or gives up. -/
structure Reached (m m₁ : Machine) : Prop where
  tables : ∀ i, tableAt m₁ i = tableAt m i
  totalCall : m₁.hashTable.totalCallCount = m.hashTable.totalCallCount + 1
  totalHit : m₁.hashTable.totalHitCount = m.hashTable.totalHitCount
  totalArgument : m₁.hashTable.totalArgumentCount = m.hashTable.totalArgumentCount

/-- What the look-ups leave of the tables and the totals. -/
theorem reached_acquireTable {r : Option (ℕ × ℕ)}
    (h : acquireTable (countCall (countSyscallNumber m c.syscallId)) c.cur c.syscallId c.kmalloc =
      (m₁, r)) : Reached m m₁ := by
  obtain ⟨hpool, hcall, hhit, hargument⟩ :=
    acquireTable_totals (countCall (countSyscallNumber m c.syscallId)) c.cur c.syscallId c.kmalloc
  rw [h] at hpool hcall hhit hargument
  exact ⟨fun i => congrFun hpool i, hcall, hhit, hargument⟩

/-- A call that returns early bumps `total_call_count` only. -/
theorem callCounts_early (hm : Balanced m) (hc : c.InRange)
    (h : acquireTable (countCall (countSyscallNumber m c.syscallId)) c.cur c.syscallId c.kmalloc =
      (m₁, none)) : CallCounts m m₁ c 0 := by
  have hreached := reached_acquireTable h
  have hbalanced := (balanced_countCall hm c.syscallId).acquireTable c.cur (syscallId_lt hc)
    c.kmalloc
  rw [h] at hbalanced
  have hearly : ReturnsEarly m c := ⟨hc, by rw [h]⟩
  refine ⟨hbalanced, fun i => ?_, ?_⟩
  · rw [if_neg fun h => absurd h.1 (by decide), UInt32.add_zero, callCount, callCount,
      hreached.tables]
  · rw [if_pos hearly, hreached.totalCall, hreached.totalHit, hreached.totalArgument]
    abel

/-- A call that compares bumps `per_syscall_call_count` of its table, and either
`total_hit_count` or the argument counters. -/
theorem callCounts_compared (jhash : List UInt64 → UInt32) (ho : m.Owned) (hm : Balanced m)
    (hc : c.InRange) {b slot : ℕ}
    (h : acquireTable (countCall (countSyscallNumber m c.syscallId)) c.cur c.syscallId c.kmalloc =
      (m₁, some (b, slot))) (key : List UInt64) :
    CallCounts m (compareOrInsert jhash (countSyscallCall m₁ slot) b slot key).1 c
      (compareOrInsert jhash (countSyscallCall m₁ slot) b slot key).2 := by
  have hreached := reached_acquireTable h
  have ho₀ := (sameView_counted m c.syscallId).owned ho
  have hbalanced := (balanced_countCall hm c.syscallId).acquireTable c.cur (syscallId_lt hc)
    c.kmalloc
  have hspec := acquireTable_spec ho₀ c.cur c.syscallId c.kmalloc
  rw [h] at hbalanced hspec
  obtain ⟨hown, hlt⟩ := owns_acquireTable ho₀ (syscallId_lt hc) h hbalanced
  have hhook := hook_acquireTable ho₀ h
  have hview := sameView_countSyscallCall m₁ slot
  obtain ⟨da, dc, dh, hres⟩ := compareOrInsert_compared jhash b
    (hview.tidy (hspec.owned.tidy slot)) key
  generalize compareOrInsert jhash (countSyscallCall m₁ slot) b slot key = p at hres
  have hcompared : Compared m₁ p.1 b slot da dc (da - dc) := by
    have := (compared_countSyscallCall m₁ b slot).trans hres.compared
    rwa [UInt32.zero_add, UInt32.zero_add, UInt32.zero_add] at this
  have hslot : p.1.slotOf c.cur c.syscallId = some slot := by
    rw [slotOf_of_hook ((hcompared.layout.hook c.cur).trans hhook),
      hcompared.layout.syscallTable]
    exact hown.entry
  have hcalls : ∀ i, p.1.callCount i = m.callCount i + if i = slot then 1 else 0 := by
    intro i
    rw [hres.calls, callCount_countSyscallCall, callCount, callCount, hreached.tables]
  have hargument : ∀ i, (tableAt p.1 i).perSyscallArgumentCount =
      (tableAt m i).perSyscallArgumentCount + if i = slot then da else 0 := by
    intro i
    rw [← hreached.tables]
    exact hcompared.argument.perSyscall i
  have hearly : ¬ ReturnsEarly m c := by
    intro he
    have hnone := he.2
    rw [h] at hnone
    cases hnone
  refine ⟨hbalanced.compared hcompared hown hlt, fun i => ?_, ?_⟩
  · rw [hcalls, hargument, hslot]
    rcases hres.result with ⟨hr, rfl, -⟩ | ⟨hr, rfl, -⟩
    · rw [ite_self, UInt32.add_zero, add_right_comm]
      simp [hr, eq_comm]
    · have hmiss : ¬ (p.2 = 1 ∧ some slot = some i) := fun hhit =>
        absurd (hr.symm.trans hhit.1) (by decide)
      rw [if_neg hmiss, UInt32.add_zero]
      abel
  · have htotal : p.1.hashTable.totalArgumentCount = m.hashTable.totalArgumentCount + da := by
      rw [← hreached.totalArgument]
      exact hcompared.argument.total
    have hhit : p.1.hashTable.totalHitCount = m.hashTable.totalHitCount + dh := by
      rw [← hreached.totalHit]
      exact hres.totalHit
    have hcall : p.1.hashTable.totalCallCount = m.hashTable.totalCallCount + 1 := by
      rw [← hreached.totalCall]
      exact hres.totalCall
    rw [if_neg hearly, htotal, hhit, hcall]
    rcases hres.result with ⟨-, rfl, rfl⟩ | ⟨-, rfl, rfl⟩ <;> abel

end Call

/-- **What one call counts.** -/
theorem handler_counts {jhash : List UInt64 → UInt32} {m m' : Machine} {c : SysCall} {r : ℤ}
    (ho : m.Owned) (hm : Balanced m) (h : seccompFilterHandler jhash m c = some (m', r)) :
    CallCounts m m' c r := by
  rcases handler_cases h with ⟨hc, rfl, rfl⟩ | ⟨hc, rfl, hres⟩ |
    ⟨hc, m₁, b, slot, hres, -, hcompare⟩
  · exact callCounts_refl hm hc
  · exact callCounts_early hm hc hres
  · have hcounts := callCounts_compared jhash ho hm hc hres
      (argumentList ((countSyscallCall m₁ slot).seccomp c.cur) c.syscallId c.regs)
    rw [hcompare] at hcounts
    exact hcounts

/-! ## Runs -/

/-- A call, or a change of what a task has listed; every event of the kernel is one of these
(`exists_tallyStep`). -/
inductive Event where
  | call (c : SysCall)
  | profile (cur : TaskId) (sec : Seccomp)

/-- What the event lists fits into `argument_list`. -/
def Event.Fits : Event → Prop
  | .call _ => True
  | .profile _ sec => ∀ s < SYSCALL_COUNT, sec.argumentCount s ≤ MAX_ARGUMENT_COUNT

/-- What every task has listed fits into `argument_list`. -/
def Machine.ListsFit (m : Machine) : Prop :=
  ∀ t, ∀ s < SYSCALL_COUNT, (m.seccomp t).argumentCount s ≤ MAX_ARGUMENT_COUNT

/-- A call changes no profile, so the rows still fit. -/
theorem Machine.ListsFit.effect {jhash : List UInt64 → UInt32} {m m' : Machine} {c : SysCall}
    {r : ℤ} (hm : m.ListsFit) (h : HandlerEffect jhash m c m' r) : m'.ListsFit := by
  intro t s hs
  rw [h.frame.seccomp]
  exact hm t s hs

/-- A new profile whose rows fit keeps that. -/
theorem Machine.ListsFit.setSeccomp {m : Machine} (hm : m.ListsFit) (cur : TaskId) {sec : Seccomp}
    (hsec : ∀ s < SYSCALL_COUNT, sec.argumentCount s ≤ MAX_ARGUMENT_COUNT) :
    (setSeccomp m cur sec).ListsFit := by
  intro t s hs
  by_cases ht : t = cur
  · simp only [Draco.setSeccomp, ht, Function.update_self]
    exact hsec s hs
  · simp only [Draco.setSeccomp, Function.update_of_ne ht]
    exact hm t s hs

/-- Where the lists fit, every call returns. -/
theorem callChecker_of_listsFit (jhash : List UInt64 → UInt32) {m : Machine} (hm : m.Live)
    (hfit : m.ListsFit) (c : SysCall) : ∃ m' r, callChecker jhash m c = some (m', r) := by
  rw [callChecker_live hm]
  exact handler_isSome jhash hm.owned fun hc => hfit c.cur c.syscallId (syscallId_lt hc)

/-- The machine, with the calls counted from outside: those that hit, for each table,
and those that returned early. -/
structure Tally where
  machine : Machine
  hits : ℕ → ℕ
  failed : ℕ

/-- A new profile leaves the hook alone. -/
def tallyStep (jhash : List UInt64 → UInt32) (w : Tally) : Event → Option Tally
  | .call c =>
    match callChecker jhash w.machine c with
    | none => none
    | some (m', r) =>
      let hit := fun i => r = 1 ∧ m'.slotOf c.cur c.syscallId = some i
      some ⟨m', fun i => if hit i then w.hits i + 1 else w.hits i,
        if ReturnsEarly w.machine c then w.failed + 1 else w.failed⟩
  | .profile cur sec =>
    some { w with
      machine := setSeccomp w.machine cur { sec with dracoHook := w.machine.hook cur } }

/-- Nothing is counted yet. -/
def Tally.start (profile : TaskId → Seccomp) : Tally := ⟨boot profile, fun _ => 0, 0⟩

/-- Every event of the kernel is such an event. -/
theorem exists_tallyStep (jhash : List UInt64 → UInt32) (w : Tally) {op : Op} {m' : Machine}
    (h : opStep jhash w.machine op = some m') :
    ∃ e w', tallyStep jhash w e = some w' ∧ w'.machine = m' := by
  rcases opStep_cases h with ⟨c, -, hc⟩ | ⟨-, cur, sec, hsec, rfl⟩
  · obtain ⟨⟨m₁, r⟩, hr, rfl⟩ := Option.map_eq_some_iff.mp hc
    exact ⟨.call c, _, by rw [tallyStep, hr], rfl⟩
  · exact ⟨.profile cur sec, { w with machine := setSeccomp w.machine cur sec },
      by rw [tallyStep, ← hsec], rfl⟩

/-- What holds of the counters after every run. -/
structure Tallied (w : Tally) : Prop where
  live : w.machine.Live
  fits : ∀ t, ∀ s < SYSCALL_COUNT, (w.machine.seccomp t).argumentCount s ≤ MAX_ARGUMENT_COUNT
  balanced : Balanced w.machine
  calls : ∀ i, w.machine.callCount i =
    UInt32.ofNat (w.hits i) + (tableAt w.machine i).perSyscallArgumentCount
  totals : w.machine.hashTable.totalCallCount = w.machine.hashTable.totalHitCount +
    w.machine.hashTable.totalArgumentCount + UInt32.ofNat w.failed

/-- The counters hold before the first event. -/
theorem tallied_start {profile : TaskId → Seccomp}
    (hprofile : ∀ t, ∀ s < SYSCALL_COUNT, (profile t).argumentCount s ≤ MAX_ARGUMENT_COUNT) :
    Tallied (Tally.start profile) where
  live := live_boot profile
  fits := hprofile
  balanced := balanced_boot profile
  calls := fun _ => rfl
  totals := rfl

/-- Adding one under a condition commutes with the cast to 32 bits. -/
theorem ofNat_ite (n : ℕ) (p : Prop) [Decidable p] :
    UInt32.ofNat (if p then n + 1 else n) = UInt32.ofNat n + if p then 1 else 0 := by
  split_ifs
  · rw [UInt32.ofNat_add]
    rfl
  · rw [UInt32.add_zero]

/-- A call keeps what holds of the counters. -/
theorem Tallied.call {jhash : List UInt64 → UInt32} {w : Tally} (hw : Tallied w) (c : SysCall) :
    ∃ w', tallyStep jhash w (.call c) = some w' ∧ Tallied w' := by
  obtain ⟨m', r, hchecker⟩ := callChecker_of_listsFit jhash hw.live hw.fits c
  have heffect := callChecker_effect hw.live hchecker
  have hcounts := handler_counts hw.live.owned hw.balanced
    ((callChecker_live hw.live c).symm.trans hchecker)
  refine ⟨_, by rw [tallyStep, hchecker],
    ⟨heffect.owned, heffect.frame.dracoChecker.trans hw.live.checker⟩,
    ListsFit.effect hw.fits heffect, hcounts.balanced, fun i => ?_, ?_⟩
  · have hcalls := hcounts.calls i
    rw [hw.calls] at hcalls
    dsimp only
    rw [ofNat_ite]
    refine add_right_cancel (hcalls.trans ?_)
    abel
  · have htotals := hcounts.totals
    rw [hw.totals] at htotals
    dsimp only
    rw [ofNat_ite]
    refine add_right_cancel (b := w.machine.hashTable.totalHitCount +
      w.machine.hashTable.totalArgumentCount) ?_
    rw [← add_assoc, htotals]
    abel

/-- So does a change of a profile. -/
theorem Tallied.profile (jhash : List UInt64 → UInt32) {w : Tally} (hw : Tallied w) (cur : TaskId)
    {sec : Seccomp} (hsec : ∀ s < SYSCALL_COUNT, sec.argumentCount s ≤ MAX_ARGUMENT_COUNT) :
    ∃ w', tallyStep jhash w (.profile cur sec) = some w' ∧ Tallied w' := by
  have hhook : { sec with dracoHook := w.machine.hook cur }.dracoHook = w.machine.hook cur := rfl
  exact ⟨_, rfl, live_setSeccomp hhook hw.live, ListsFit.setSeccomp hw.fits cur hsec,
    hw.balanced.of_same rfl (fun _ => rfl) (fun _ => rfl) (fun _ => ⟨rfl, rfl, rfl⟩)
      ⟨rfl, rfl, rfl⟩ rfl (hook_setSeccomp hhook), hw.calls, hw.totals⟩

/-- The counters agree with each other and with the tables. -/
structure Conserved (w : Tally) : Prop where
  flags : ∀ t s i, w.machine.slotOf t s = some i →
    UInt32.ofNat (tableAt w.machine i).flagCount =
      (tableAt w.machine i).perSyscallArgumentCount - (tableAt w.machine i).perSyscallConflictCount
  calls : ∀ t s i, w.machine.slotOf t s = some i →
    (tableAt w.machine i).perSyscallCallCount =
      UInt32.ofNat (w.hits i) + (tableAt w.machine i).perSyscallArgumentCount
  processArgument : ∀ t b, w.machine.hook t = some b →
    (w.machine.blocks b).perProcessArgumentCount =
      w.machine.sumTables b PerSyscall.perSyscallArgumentCount
  processConflict : ∀ t b, w.machine.hook t = some b →
    (w.machine.blocks b).perProcessConflictCount =
      w.machine.sumTables b PerSyscall.perSyscallConflictCount
  processSyscalls : ∀ t b, w.machine.hook t = some b →
    (w.machine.blocks b).perProcessSyscallCount = UInt32.ofNat (w.machine.tableCount b)
  hooked : ∀ b, b < w.machine.nextBlock ↔ ∃ t, w.machine.hook t = some b
  distinct : ∀ t t' b, w.machine.hook t = some b → w.machine.hook t' = some b → t = t'
  totalArgument : w.machine.hashTable.totalArgumentCount =
    ∑ b ∈ range w.machine.nextBlock, (w.machine.blocks b).perProcessArgumentCount
  totalConflict : w.machine.hashTable.totalConflictCount =
    ∑ b ∈ range w.machine.nextBlock, (w.machine.blocks b).perProcessConflictCount
  totalProcess : w.machine.hashTable.totalProcessCount = UInt32.ofNat w.machine.nextBlock
  totalCall : w.machine.hashTable.totalCallCount = w.machine.hashTable.totalHitCount +
    w.machine.hashTable.totalArgumentCount + UInt32.ofNat w.failed

/-- What holds of the counters after every run is the conservation. -/
theorem Tallied.conserved {w : Tally} (hw : Tallied w) : Conserved w where
  flags := fun _ _ i _ => hw.balanced.flags i
  calls := fun _ _ i _ => hw.calls i
  processArgument := fun t b hb => hw.balanced.argument.1 b (hw.live.owned.hookLt t b hb)
  processConflict := fun t b hb => hw.balanced.conflict.1 b (hw.live.owned.hookLt t b hb)
  processSyscalls := fun t b hb => hw.balanced.syscalls b (hw.live.owned.hookLt t b hb)
  hooked := fun b => ⟨hw.balanced.hooked b, fun ⟨t, ht⟩ => hw.live.owned.hookLt t b ht⟩
  distinct := hw.live.owned.hookInj
  totalArgument := hw.balanced.argument.2
  totalConflict := hw.balanced.conflict.2
  totalProcess := hw.balanced.processes
  totalCall := hw.totals

/-- **The metrics are conserved**: after any calls and changes of profiles of at most six
positions, the counters of the tables, of the processes and of the module agree. -/
theorem metrics_conserved (jhash : List UInt64 → UInt32) (profile : TaskId → Seccomp)
    (hprofile : ∀ t, ∀ s < SYSCALL_COUNT, (profile t).argumentCount s ≤ MAX_ARGUMENT_COUNT)
    (events : List Event) (hevents : ∀ e ∈ events, e.Fits) :
    ∃ w, run (tallyStep jhash) (Tally.start profile) events = some w ∧ Conserved w := by
  have hstep : ∀ w e, Tallied w → Event.Fits e → ∃ w', tallyStep jhash w e = some w' ∧
      Tallied w' := by
    intro w e hw he
    cases e with
    | call c => exact hw.call c
    | profile cur sec => exact hw.profile jhash cur he
  obtain ⟨w, hrun, hw⟩ := run_isSome_of hstep (tallied_start hprofile) hevents
  exact ⟨w, hrun, hw.conserved⟩

/-- Three calls of task 1 under a changing profile, and one of task 2 without memory. -/
theorem metrics_conserved_fourCalls :
    ∃ w, run (tallyStep fun _ => 0) (Tally.start fun _ => Seccomp.zero [])
      [.call ⟨1, 41, .x86_64, default, ⟨true, true⟩⟩, .call ⟨1, 41, .x86_64, default, ⟨true, true⟩⟩,
        .profile 1 (prctlDracoLoadSeccomp (prctlDracoAddSeccomp (Seccomp.zero []) 41 1).1),
        .call ⟨1, 41, .x86_64, default, ⟨true, true⟩⟩,
        .call ⟨2, 41, .x86_64, default, ⟨false, true⟩⟩] = some w ∧ Conserved w := by
  refine metrics_conserved _ _ (fun _ => (Seccomp.wellFormed_zero []).count) _ fun e he => ?_
  simp only [List.mem_cons, List.not_mem_nil, or_false] at he
  rcases he with rfl | rfl | rfl | rfl | rfl
  · trivial
  · trivial
  · exact (Seccomp.wellFormed_load (Seccomp.wellFormed_add (Seccomp.wellFormed_zero []) 41
      (by decide))).count
  · trivial
  · trivial

end Draco
