/-
# The lock of `insert_value`

`draco_spinlock` guards the counters and the process list.  `insertValueLocks` gives
the lock operations of one call in their order, together with the writes to the list,
with and without `METRICS_DRACO`, for every call that returns
(`insertValueLocks_isSome_iff`): the sections around counters exist in a build with
metrics only, and there the unlock behind the counters of a new block stands before the
writes to the list that the other build leaves inside the section.  The discipline
holds exactly when the call does not get there (`disciplined_iff`).
-/
import Draco.Handler
import Draco.Lib.Run

namespace Draco

open PartialRun

/-! ## Lock operations -/

/-- An operation on `draco_spinlock`, or a write to `process_head.next` or to a field of
the new node. -/
inductive LockOp where
  | lock
  | unlock
  | writeHead
  | writeNode
  deriving DecidableEq, Repr

/-- One operation, from the lock being held or not.  A lock that is held cannot be taken,
one that is not held cannot be released, and the writes need it. -/
def lockStep : Bool → LockOp → Option Bool
  | false, .lock => some true
  | true, .unlock => some false
  | true, .writeHead => some true
  | true, .writeNode => some true
  | _, _ => none

/-- From unlocked to unlocked. -/
def Disciplined (ops : List LockOp) : Prop := run lockStep false ops = some false

instance (ops : List LockOp) : Decidable (Disciplined ops) := inferInstanceAs (Decidable (_ = _))

/-! ## The operations of `insert_value` -/

/-- A section that touches counters only, `#ifdef METRICS_DRACO`. -/
def countLocks (metrics : Bool) : List LockOp := if metrics then [.lock, .unlock] else []

/-- The operations of the registration part.  The unlock behind the counters of the block
belongs to a build with metrics only. -/
def registerLocks (metrics : Bool) (m : Machine) (cur : TaskId) (k : Kmalloc) : List LockOp :=
  match (m.seccomp cur).dracoHook with
  | some _ => []
  | none =>
    if k.perProcess = false then []
    else
      .lock :: (if metrics then [.unlock] else []) ++
        .writeHead :: (if k.processNode = false then [.unlock]
          else [.writeNode, .writeNode, .unlock])

/-- The operations from the table of the syscall on. -/
def lookupLocks (metrics : Bool) (m : Machine) (b syscallId : ℕ) : List LockOp :=
  countLocks metrics ++
    match (lookupTable m b syscallId).2 with
    | none => []
    | some _ =>
      (if (m.blocks b).syscallTable syscallId = none then countLocks metrics else []) ++
        countLocks metrics

/-- The operations of the comparison. -/
def compareLocks (metrics : Bool) (jhash : List UInt64 → UInt32) (m : Machine) (slot : ℕ)
    (key : List UInt64) : List LockOp :=
  match probe (tableAt m slot) key (hashCode jhash key * ASOS) ASOS 0 with
  | (_, true) => countLocks metrics
  | (index, false) =>
    countLocks metrics ++ if index = ASOS then countLocks metrics else []

/-- The operations of one call of `insert_value`; `none` where the call is undefined. -/
def insertValueLocks (metrics : Bool) (jhash : List UInt64 → UInt32) (m : Machine)
    (cur : TaskId) (syscallId : ℕ) (regs : PtRegs) (k : Kmalloc) : Option (List LockOp) :=
  let first := countLocks metrics ++ registerLocks metrics m cur k
  match registerProcess m cur k with
  | (_, none) => some first
  | (m₁, some b) =>
    let second := first ++ lookupLocks metrics m₁ b syscallId
    match lookupTable m₁ b syscallId with
    | (_, none) => some second
    | (m₂, some slot) =>
      if MAX_ARGUMENT_COUNT < (m₂.seccomp cur).argumentCount syscallId then none
      else
        some (second ++
          compareLocks metrics jhash m₂ slot (argumentList (m₂.seccomp cur) syscallId regs))

/-! ## The operations follow the call -/

/-- The first counter of the call does not matter to its registration. -/
theorem registerProcess_countCall (m : Machine) (cur : TaskId) (k : Kmalloc) :
    registerProcess (countCall m) cur k =
      (countCall (registerProcess m cur k).1, (registerProcess m cur k).2) := by
  unfold registerProcess
  rw [show (countCall m).seccomp = m.seccomp from rfl]
  cases (m.seccomp cur).dracoHook with
  | some b => rfl
  | none =>
    dsimp only
    split_ifs <;> rfl

/-- Nor to the lookup of its table. -/
theorem lookupTable_countCall (m : Machine) (b s : ℕ) :
    lookupTable (countCall m) b s = (countCall (lookupTable m b s).1, (lookupTable m b s).2) := by
  unfold lookupTable
  dsimp only
  rw [show countProcessCall (countCall m) b = countCall (countProcessCall m b) from rfl,
    show (countCall (countProcessCall m b)).blocks = (countProcessCall m b).blocks from rfl,
    show (countCall (countProcessCall m b)).hashTable.pool =
      (countProcessCall m b).hashTable.pool from rfl]
  cases ((countProcessCall m b).blocks b).syscallTable s with
  | some slot => rfl
  | none =>
    rcases getItemFromPool (countProcessCall m b).hashTable.pool with ⟨pool, _ | slot⟩ <;> rfl

/-- The operations are defined for the calls that are. -/
theorem insertValueLocks_isSome_iff (metrics : Bool) (jhash : List UInt64 → UInt32)
    (m : Machine) (cur : TaskId) (syscallId : ℕ) (regs : PtRegs) (k : Kmalloc) :
    (insertValueLocks metrics jhash m cur syscallId regs k).isSome =
      (insertValue jhash m cur syscallId regs k).isSome := by
  unfold insertValueLocks insertValue acquireTable
  rw [registerProcess_countCall]
  rcases registerProcess m cur k with ⟨m₁, _ | b⟩
  · rfl
  · dsimp only
    rw [lookupTable_countCall]
    rcases lookupTable m₁ b syscallId with ⟨m₂, _ | slot⟩
    · rfl
    · show (if _ then none else some _).isSome = (if _ then none else some _).isSome
      rw [show ((countSyscallCall (countCall m₂) slot).seccomp cur) = m₂.seccomp cur from rfl]
      split_ifs <;> rfl

/-! ## The discipline -/

/-- A sequence of operations that starts and ends unlocked. -/
theorem Disciplined.append {xs ys : List LockOp} (hx : Disciplined xs) (hy : Disciplined ys) :
    Disciplined (xs ++ ys) :=
  run_append_of hx hy

theorem disciplined_nil : Disciplined [] := rfl

theorem disciplined_countLocks (metrics : Bool) : Disciplined (countLocks metrics) := by
  cases metrics <;> rfl

theorem disciplined_lookupLocks (metrics : Bool) (m : Machine) (b s : ℕ) :
    Disciplined (lookupLocks metrics m b s) := by
  refine (disciplined_countLocks metrics).append ?_
  cases (lookupTable m b s).2 with
  | none => exact disciplined_nil
  | some slot =>
    refine Disciplined.append ?_ (disciplined_countLocks metrics)
    split_ifs
    · exact disciplined_countLocks metrics
    · exact disciplined_nil

theorem disciplined_compareLocks (metrics : Bool) (jhash : List UInt64 → UInt32) (m : Machine)
    (slot : ℕ) (key : List UInt64) : Disciplined (compareLocks metrics jhash m slot key) := by
  rcases hp : probe (tableAt m slot) key (hashCode jhash key * ASOS) ASOS 0 with ⟨index, _ | _⟩ <;>
    simp only [compareLocks, hp]
  · refine (disciplined_countLocks metrics).append ?_
    split_ifs
    · exact disciplined_countLocks metrics
    · exact disciplined_nil
  · exact disciplined_countLocks metrics

/-- A disciplined sequence in front makes no difference. -/
theorem disciplined_append_iff {xs ys : List LockOp} (hx : Disciplined xs) :
    Disciplined (xs ++ ys) ↔ Disciplined ys := by
  unfold Disciplined at hx ⊢
  rw [run_append, hx, Option.bind_some]

/-- Nor does one behind. -/
theorem append_disciplined_iff {xs ys : List LockOp} (hy : Disciplined ys) :
    Disciplined (xs ++ ys) ↔ Disciplined xs := by
  refine ⟨fun h => ?_, fun hx => hx.append hy⟩
  obtain ⟨held, hxs, hys⟩ := run_append_inv h
  cases held with
  | false => exact hxs
  | true =>
    -- no operation can be the first both with and without the lock
    cases ys with
    | nil => cases hys
    | cons op ys =>
      obtain ⟨_, hfree, -⟩ := run_cons_inv hy
      obtain ⟨_, hheld, -⟩ := run_cons_inv hys
      cases op <;> simp [lockStep] at hfree hheld

/-- Only a registration in a build with metrics breaks the discipline. -/
theorem disciplined_registerLocks_iff (metrics : Bool) (m : Machine) (cur : TaskId)
    (k : Kmalloc) :
    Disciplined (registerLocks metrics m cur k) ↔
      metrics = false ∨ m.hook cur ≠ none ∨ k.perProcess = false := by
  unfold registerLocks Machine.hook
  cases (m.seccomp cur).dracoHook with
  | some b => simp [disciplined_nil]
  | none =>
    rcases k with ⟨_ | _, _ | _⟩ <;> cases metrics <;> decide

/-- The operations of a call are those of its registration between disciplined ones. -/
theorem insertValueLocks_eq {metrics : Bool} {jhash : List UInt64 → UInt32} {m : Machine}
    {cur : TaskId} {syscallId : ℕ} {regs : PtRegs} {k : Kmalloc} {ops : List LockOp}
    (h : insertValueLocks metrics jhash m cur syscallId regs k = some ops) :
    ∃ rest, Disciplined rest ∧
      ops = countLocks metrics ++ registerLocks metrics m cur k ++ rest := by
  unfold insertValueLocks at h
  dsimp only at h
  rcases hreg : registerProcess m cur k with ⟨m₁, _ | b⟩ <;> rw [hreg] at h <;> dsimp only at h
  · cases h
    exact ⟨[], disciplined_nil, (List.append_nil _).symm⟩
  · have hlookup := disciplined_lookupLocks metrics m₁ b syscallId
    rcases hl : lookupTable m₁ b syscallId with ⟨m₂, _ | slot⟩ <;> rw [hl] at h <;> dsimp only at h
    · cases h
      exact ⟨_, hlookup, rfl⟩
    · split_ifs at h
      cases h
      exact ⟨_, hlookup.append (disciplined_compareLocks metrics jhash m₂ slot _),
        List.append_assoc _ _ _⟩

/-- **The lock discipline of `insert_value`**: the operations of a call alternate from
unlocked to unlocked, with all writes inside, exactly when the build has no metrics, or the
task has its block already, or gets none. -/
theorem disciplined_iff {metrics : Bool} {jhash : List UInt64 → UInt32} {m : Machine}
    {cur : TaskId} {syscallId : ℕ} {regs : PtRegs} {k : Kmalloc} {ops : List LockOp}
    (h : insertValueLocks metrics jhash m cur syscallId regs k = some ops) :
    Disciplined ops ↔ metrics = false ∨ m.hook cur ≠ none ∨ k.perProcess = false := by
  obtain ⟨rest, hrest, rfl⟩ := insertValueLocks_eq h
  rw [append_disciplined_iff hrest, disciplined_append_iff (disciplined_countLocks metrics),
    disciplined_registerLocks_iff]

/-- Without metrics the first call of a task keeps the discipline. -/
theorem disciplined_withoutMetrics :
    ∃ ops, insertValueLocks false (fun _ => 0) (Machine.loaded fun _ => Seccomp.zero []) 1 39
        default ⟨true, true⟩ = some ops ∧ Disciplined ops := by
  have h : insertValueLocks false (fun _ => 0) (Machine.loaded fun _ => Seccomp.zero []) 1 39
    default ⟨true, true⟩ = some _ := rfl
  exact ⟨_, h, (disciplined_iff h).mpr (Or.inl rfl)⟩

/-- With metrics, as shipped, the first call of a task writes to the list without the
lock. -/
theorem not_disciplined_withMetrics :
    ∃ ops, insertValueLocks true (fun _ => 0) (Machine.loaded fun _ => Seccomp.zero []) 1 39
        default ⟨true, true⟩ = some ops ∧ ¬ Disciplined ops :=
  ⟨_, rfl, by decide⟩

end Draco
