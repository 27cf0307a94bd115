/-
# The hash table of the module (`draco_module.c`, `draco_module.h`)

The module keeps one block for each task that has made a call
(`hash_table_per_process_type`), reached through `current->seccomp.draco_hook`,
and one table for each syscall that the task has called, handed out from a
static pool.  A table has 149 sets of four rows; `insert_value` looks for the
argument tuple of the call in its set and records it in the first free row when
it is not there.

The global structures, the heap and the tasks make up one state, `Machine`.
Addresses are natural numbers: blocks and list nodes are numbered in the order
in which `kmalloc` returns them, tables by their index in the pool.  Counters are
the ones of a build with `METRICS_DRACO`, as shipped.  `jhash` is the kernel's,
a parameter: its value on the words of a key, with `JHASH_INIT` as the seed.
-/
import Draco.Seccomp

namespace Draco

/-- `INIT_HASH_ARGUMENT` -/
abbrev INIT_HASH_ARGUMENT : ℕ := 149

/-- `ASOS`, the number of rows in a set. -/
abbrev ASOS : ℕ := 4

/-- `PRE_ALLOCATED_SYSCALL_TABLE_COUNT` -/
abbrev PRE_ALLOCATED_SYSCALL_TABLE_COUNT : ℕ := 10000

/-! ## Data -/

/-- `hash_table_per_process_per_syscall_type` -/
structure PerSyscall where
  table : ℕ → List UInt64
  flag : ℕ → UInt8
  perSyscallConflictCount : UInt32
  perSyscallArgumentCount : UInt32
  perSyscallCallCount : UInt32

/-- A table of the zero-filled pool. -/
def PerSyscall.zero : PerSyscall :=
  ⟨fun _ => List.replicate MAX_ARGUMENT_COUNT 0, fun _ => 0, 0, 0, 0⟩

/-- `per_syscall_call_pool_type` -/
structure PerSyscallCallPool where
  poolInternal : ℕ → PerSyscall
  cursor : ℕ

/-- `hash_table_per_process_type`; an entry of `syscallTable` is an index into
the pool. -/
structure PerProcess where
  syscallTable : ℕ → Option ℕ
  perProcessArgumentCount : UInt32
  perProcessSyscallCount : UInt32
  perProcessCallCount : UInt32
  perProcessConflictCount : UInt32

/-- The block after its `memset`. -/
def PerProcess.zero : PerProcess := ⟨fun _ => none, 0, 0, 0, 0⟩

/-- `process_node_type` -/
structure ProcessNode where
  next : Option ℕ
  process : TaskId

/-- `hash_table_type`; of the node `process_head` only `next` is used. -/
structure HashTable where
  processHead : Option ℕ
  pool : PerSyscallCallPool
  totalProcessCount : UInt32
  totalCallCount : UInt32
  totalConflictCount : UInt32
  totalHitCount : UInt32
  totalArgumentCount : UInt32
  totalSyscallCount : UInt32

/-- The values of the function pointer `draco_checker`. -/
inductive Checker where
  | emptyDraco
  | seccompFilterHandler
  deriving DecidableEq, Repr

/-- The kernel state that the module reads and writes.  `blocks` and `nodes` are
the `kmalloc`ed objects below `nextBlock` and `nextNode`; the two `kfreed` lists
are the arguments `kfree` was called with. -/
structure Machine where
  dracoChecker : Checker
  hashTable : HashTable
  syscallNumber : ℕ → UInt32
  seccomp : TaskId → Seccomp
  blocks : ℕ → PerProcess
  nextBlock : ℕ
  nodes : ℕ → ProcessNode
  nextNode : ℕ
  kfreedBlocks : List ℕ
  kfreedNodes : List ℕ

/-- Which of the two `kmalloc`s of a registration succeed. -/
structure Kmalloc where
  perProcess : Bool
  processNode : Bool
  deriving DecidableEq, Repr

/-- A call that reaches the checker: the current task, the syscall number, the
ABI and registers it was made with, and the outcome of the allocations. -/
structure SysCall where
  cur : TaskId
  nr : ℤ
  abi : Abi
  regs : PtRegs
  kmalloc : Kmalloc
  deriving DecidableEq, Repr

/-- The number passes the range check of `__seccomp_filter_handler`. -/
def SysCall.InRange (c : SysCall) : Prop := 0 ≤ c.nr ∧ c.nr < SYSCALL_COUNT

instance (c : SysCall) : Decidable c.InRange := inferInstanceAs (Decidable (_ ∧ _))

/-- `key->syscall_id` of a call in range. -/
def SysCall.syscallId (c : SysCall) : ℕ := c.nr.toNat

/-! ## The small functions -/

/-- `init_hash_table` on the zero-filled structure it leaves. -/
def HashTable.zero : HashTable :=
  ⟨none, ⟨fun _ => PerSyscall.zero, 0⟩, 0, 0, 0, 0, 0, 0⟩

/-- `init_hash_table(&hash_table)` -/
def initHashTable (m : Machine) : Machine :=
  { m with hashTable := HashTable.zero }

/-- `get_argument` -/
def getArgument (regs : PtRegs) (index : UInt8) : UInt64 :=
  match index.toNat with
  | 1 => regs.di
  | 2 => regs.si
  | 3 => regs.dx
  | 4 => regs.r10
  | 5 => regs.r8
  | 6 => regs.r9
  | _ => 0

/-- `get_item_from_pool` -/
def getItemFromPool (p : PerSyscallCallPool) : PerSyscallCallPool × Option ℕ :=
  if p.cursor = PRE_ALLOCATED_SYSCALL_TABLE_COUNT then (p, none)
  else ({ p with cursor := p.cursor + 1 }, some p.cursor)

/-- The words that `insert_value` puts into `key->argument_list`. -/
def argumentList (sec : Seccomp) (syscallId : ℕ) (regs : PtRegs) : List UInt64 :=
  (sec.positions syscallId).map (getArgument regs)

/-- `jhash(...) % INIT_HASH_ARGUMENT` -/
def hashCode (jhash : List UInt64 → UInt32) (key : List UInt64) : ℕ :=
  (jhash key).toNat % INIT_HASH_ARGUMENT

/-! ## `insert_value` -/

/-- `current->seccomp.draco_hook = allocated_process`, with the new block zeroed
and the process counted. -/
def attachBlock (m : Machine) (cur : TaskId) : Machine :=
  { m with
    hashTable := { m.hashTable with totalProcessCount := m.hashTable.totalProcessCount + 1 }
    blocks := Function.update m.blocks m.nextBlock PerProcess.zero
    nextBlock := m.nextBlock + 1
    seccomp := Function.update m.seccomp cur
      { m.seccomp cur with dracoHook := some m.nextBlock } }

/-- The new node becomes the head of the process list. -/
def linkNode (m : Machine) (cur : TaskId) : Machine :=
  { m with
    nodes := Function.update m.nodes m.nextNode ⟨m.hashTable.processHead, cur⟩
    nextNode := m.nextNode + 1
    hashTable := { m.hashTable with processHead := some m.nextNode } }

/-- `process_head.next` when the allocation of the node has returned `NULL`. -/
def dropHead (m : Machine) : Machine :=
  { m with hashTable := { m.hashTable with processHead := none } }

/-- The first part of `insert_value`: the block of the current task, allocated
and linked into the process list on the task's first call.  `none` when the call
returns here.  When only the second `kmalloc` fails, the hook stays set and
`process_head.next` stays `NULL`. -/
def registerProcess (m : Machine) (cur : TaskId) (k : Kmalloc) : Machine × Option ℕ :=
  match (m.seccomp cur).dracoHook with
  | some b => (m, some b)
  | none =>
    if k.perProcess = false then (m, none)
    else if k.processNode = false then (dropHead (attachBlock m cur), none)
    else (linkNode (attachBlock m cur) cur, some m.nextBlock)

/-- `per_process_call_count += 1` -/
def countProcessCall (m : Machine) (b : ℕ) : Machine :=
  { m with
    blocks := Function.update m.blocks b
      { m.blocks b with perProcessCallCount := (m.blocks b).perProcessCallCount + 1 } }

/-- `sys_table[key->syscall_id] = slot` with the pool after the allocation, and
`per_process_syscall_count += 1`. -/
def giveTable (m : Machine) (b syscallId : ℕ) (pool : PerSyscallCallPool) (slot : ℕ) :
    Machine :=
  { m with
    hashTable := { m.hashTable with pool := pool }
    blocks := Function.update m.blocks b
      { m.blocks b with
        syscallTable := Function.update (m.blocks b).syscallTable syscallId (some slot)
        perProcessSyscallCount := (m.blocks b).perProcessSyscallCount + 1 } }

/-- The second part: the table of the syscall in the block `b`, taken from the
pool on the first call of that syscall.  `none` when the pool is used up. -/
def lookupTable (m : Machine) (b syscallId : ℕ) : Machine × Option ℕ :=
  let m := countProcessCall m b
  match (m.blocks b).syscallTable syscallId with
  | some slot => (m, some slot)
  | none =>
    match getItemFromPool m.hashTable.pool with
    | (_, none) => (m, none)
    | (pool, some slot) => (giveTable m b syscallId pool slot, some slot)

/-- `memcmp(key->argument_list, row, argument_count * sizeof(unsigned long)) == 0` -/
def memcmpEq (key row : List UInt64) : Bool :=
  row.take key.length == key

/-- `memcpy(row, key->argument_list, argument_count * sizeof(unsigned long))` -/
def memcpyRow (key row : List UInt64) : List UInt64 :=
  key ++ row.drop key.length

/-- The loop `for (index = 0; index < ASOS && flag[entry_position+index] == 1;
++index)`: the index at which it stops, and whether it stopped on a hit. -/
def probe (T : PerSyscall) (key : List UInt64) (entryPosition : ℕ) :
    (fuel index : ℕ) → ℕ × Bool
  | 0, index => (index, false)
  | fuel + 1, index =>
    if T.flag (entryPosition + index) = 1 then
      if memcmpEq key (T.table (entryPosition + index)) then (index, true)
      else probe T key entryPosition fuel (index + 1)
    else (index, false)

/-- Writes a table of the pool. -/
def setTable (m : Machine) (slot : ℕ) (T : PerSyscall) : Machine :=
  { m with
    hashTable :=
      { m.hashTable with
        pool :=
          { m.hashTable.pool with
            poolInternal := Function.update m.hashTable.pool.poolInternal slot T } } }

/-- A table of the pool. -/
def tableAt (m : Machine) (slot : ℕ) : PerSyscall :=
  m.hashTable.pool.poolInternal slot

/-- `total_hit_count += 1` -/
def countHit (m : Machine) : Machine :=
  { m with hashTable := { m.hashTable with totalHitCount := m.hashTable.totalHitCount + 1 } }

/-- The counters of a call that did not hit. -/
def countArgument (m : Machine) (b slot : ℕ) : Machine :=
  let T := tableAt m slot
  setTable
    { m with
      hashTable :=
        { m.hashTable with totalArgumentCount := m.hashTable.totalArgumentCount + 1 }
      blocks := Function.update m.blocks b
        { m.blocks b with
          perProcessArgumentCount := (m.blocks b).perProcessArgumentCount + 1 } }
    slot { T with perSyscallArgumentCount := T.perSyscallArgumentCount + 1 }

/-- The counters of a call that finds its set full. -/
def countConflict (m : Machine) (b slot : ℕ) : Machine :=
  let T := tableAt m slot
  setTable
    { m with
      hashTable :=
        { m.hashTable with totalConflictCount := m.hashTable.totalConflictCount + 1 }
      blocks := Function.update m.blocks b
        { m.blocks b with
          perProcessConflictCount := (m.blocks b).perProcessConflictCount + 1 } }
    slot { T with perSyscallConflictCount := T.perSyscallConflictCount + 1 }

/-- `flag[e] = 1; memcpy(tb[e], ...)` -/
def recordRow (T : PerSyscall) (e : ℕ) (key : List UInt64) : PerSyscall :=
  { T with
    flag := Function.update T.flag e 1
    table := Function.update T.table e (memcpyRow key (T.table e)) }

/-- The last part of `insert_value`: hit, conflict or new row. -/
def compareOrInsert (jhash : List UInt64 → UInt32) (m : Machine) (b slot : ℕ)
    (key : List UInt64) : Machine × ℤ :=
  let entryPosition := hashCode jhash key * ASOS
  match probe (tableAt m slot) key entryPosition ASOS 0 with
  | (_, true) => (countHit m, 1)
  | (index, false) =>
    let m := countArgument m b slot
    if index = ASOS then (countConflict m b slot, 0)
    else (setTable m slot (recordRow (tableAt m slot) (entryPosition + index) key), 0)

/-- `total_call_count += 1` -/
def countCall (m : Machine) : Machine :=
  { m with hashTable := { m.hashTable with totalCallCount := m.hashTable.totalCallCount + 1 } }

/-- `per_syscall_call_count += 1` -/
def countSyscallCall (m : Machine) (slot : ℕ) : Machine :=
  let T := tableAt m slot
  setTable m slot { T with perSyscallCallCount := T.perSyscallCallCount + 1 }

/-- The block and the table that a call works on; `none` when it returns before
it has them. -/
def acquireTable (m : Machine) (cur : TaskId) (syscallId : ℕ) (k : Kmalloc) :
    Machine × Option (ℕ × ℕ) :=
  match registerProcess m cur k with
  | (m, none) => (m, none)
  | (m, some b) =>
    match lookupTable m b syscallId with
    | (m, none) => (m, none)
    | (m, some slot) => (m, some (b, slot))

/-- `insert_value(&hash_table, &key)`.  `none` when `argument_count` exceeds the
six words of `key->argument_list`: the loop that fills it would write past the
end of the key, which C leaves undefined. -/
def insertValue (jhash : List UInt64 → UInt32) (m : Machine) (cur : TaskId)
    (syscallId : ℕ) (regs : PtRegs) (k : Kmalloc) : Option (Machine × ℤ) :=
  match acquireTable (countCall m) cur syscallId k with
  | (m, none) => some (m, 0)
  | (m, some (b, slot)) =>
    let m := countSyscallCall m slot
    if MAX_ARGUMENT_COUNT < (m.seccomp cur).argumentCount syscallId then none
    else some (compareOrInsert jhash m b slot (argumentList (m.seccomp cur) syscallId regs))

/-- The counters that `__seccomp_filter_handler` keeps of every number. -/
def countSyscallNumber (m : Machine) (syscallId : ℕ) : Machine :=
  { m with
    hashTable :=
      { m.hashTable with
        totalSyscallCount :=
          if m.syscallNumber syscallId = 0 then m.hashTable.totalSyscallCount + 1
          else m.hashTable.totalSyscallCount }
    syscallNumber :=
      Function.update m.syscallNumber syscallId (m.syscallNumber syscallId + 1) }

/-- `__seccomp_filter_handler` -/
def seccompFilterHandler (jhash : List UInt64 → UInt32) (m : Machine) (c : SysCall) :
    Option (Machine × ℤ) :=
  if c.nr < 0 ∨ (SYSCALL_COUNT : ℤ) ≤ c.nr then some (m, 0)
  else
    insertValue jhash (countSyscallNumber m c.syscallId) c.cur c.syscallId c.regs c.kmalloc

/-! ## Loading and unloading -/

/-- `free_hash_table`: detaches every task on the list and frees its block and
the node.  The list has fewer nodes than were ever allocated. -/
def freeNodes : (fuel : ℕ) → (traverse : Option ℕ) → Machine → Machine
  | 0, _, m => m
  | _ + 1, none, m => m
  | fuel + 1, some a, m =>
    let node := m.nodes a
    let sec := m.seccomp node.process
    freeNodes fuel node.next
      { m with
        kfreedBlocks := m.kfreedBlocks ++ sec.dracoHook.toList
        seccomp := Function.update m.seccomp node.process { sec with dracoHook := none }
        kfreedNodes := m.kfreedNodes ++ [a] }

/-- `free_hash_table(&hash_table)` -/
def freeHashTable (m : Machine) : Machine :=
  freeNodes (m.nextNode + 1) m.hashTable.processHead m

/-- The first statement of `draco_init`. -/
def publishChecker (m : Machine) : Machine :=
  { m with dracoChecker := .seccompFilterHandler }

/-- `draco_init` -/
def dracoInit (m : Machine) : Machine :=
  initHashTable (publishChecker m)

/-- `draco_exit` -/
def dracoExit (m : Machine) : Machine :=
  freeHashTable { m with dracoChecker := .emptyDraco }

/-- `(*draco_checker)(this_syscall, task_pt_regs(current))` -/
def callChecker (jhash : List UInt64 → UInt32) (m : Machine) (c : SysCall) :
    Option (Machine × ℤ) :=
  match m.dracoChecker with
  | .emptyDraco => some (m, 0)
  | .seccompFilterHandler => seccompFilterHandler jhash m c

/-- The kernel right after the module image is mapped: zero-filled globals, no
task hooked, the profiles of the tasks as given. -/
def Machine.loaded (profile : TaskId → Seccomp) : Machine where
  dracoChecker := .emptyDraco
  hashTable := HashTable.zero
  syscallNumber := fun _ => 0
  seccomp := fun t => { profile t with dracoHook := none }
  blocks := fun _ => PerProcess.zero
  nextBlock := 0
  nodes := fun _ => ⟨none, 0⟩
  nextNode := 0
  kfreedBlocks := []
  kfreedNodes := []

end Draco
