/-
# The process list

A task is registered on its first call: it gets a block, and a node that names it is
put in front of the `process_head` list.  Of the whole module only this part of
`insert_value` works on hooks, blocks and nodes (`registryView_handler`), and only
`free_hash_table` reads the list.  This file says what one registration does to the
list and what the loop of `free_hash_table` does along it (`freeHashTable_eq`).
-/
import Draco.Kernel
import Draco.Lib.LinkedList

namespace Draco

open PartialRun LinkedList

/-! ## The registry -/

/-- The checker, the hooks, the process list, the two allocation marks and what has been
freed. -/
@[ext]
structure RegistryView where
  checker : Checker
  hook : TaskId → Option ℕ
  nextBlock : ℕ
  head : Option ℕ
  nodes : ℕ → ProcessNode
  nextNode : ℕ
  kfreedBlocks : List ℕ
  kfreedNodes : List ℕ

namespace RegistryView

/-- The task has a new block and there is no list any more. -/
def lose (v : RegistryView) (cur : TaskId) : RegistryView :=
  { v with
    hook := Function.update v.hook cur (some v.nextBlock)
    nextBlock := v.nextBlock + 1
    head := none }

/-- The task has a new block and a new node in front of the list. -/
def enroll (v : RegistryView) (cur : TaskId) : RegistryView :=
  { v with
    hook := Function.update v.hook cur (some v.nextBlock)
    nextBlock := v.nextBlock + 1
    head := some v.nextNode
    nodes := Function.update v.nodes v.nextNode ⟨v.head, cur⟩
    nextNode := v.nextNode + 1 }

/-- What the registration part of `insert_value` does to the registry. -/
def register (v : RegistryView) (cur : TaskId) (k : Kmalloc) : RegistryView :=
  if v.hook cur ≠ none ∨ k.perProcess = false then v
  else if k.processNode = false then v.lose cur
  else v.enroll cur

/-- What an event does to the registry: a call in range registers its task. -/
def after (v : RegistryView) : Op → RegistryView
  | .call c => if c.InRange then v.register c.cur c.kmalloc else v
  | _ => v

/-- One turn of the loop of `free_hash_table`, at the node `a`. -/
def freeNode (v : RegistryView) (a : ℕ) : RegistryView :=
  { v with
    hook := Function.update v.hook (v.nodes a).process none
    kfreedBlocks := v.kfreedBlocks ++ (v.hook (v.nodes a).process).toList
    kfreedNodes := v.kfreedNodes ++ [a] }

/-- The turns of the loop along the nodes `l`. -/
def freeAll (v : RegistryView) (l : List ℕ) : RegistryView := l.foldl freeNode v

/-- The list that starts at `process_head` consists of the allocated nodes `l`. -/
structure Linked (v : RegistryView) (l : List ℕ) : Prop where
  isList : IsList (fun a => (v.nodes a).next) v.head l
  lt : ∀ a ∈ l, a < v.nextNode

/-- The tasks that the nodes `l` name. -/
def processes (v : RegistryView) (l : List ℕ) : List TaskId :=
  l.map fun a => (v.nodes a).process

variable {v : RegistryView} {l : List ℕ} {cur : TaskId} {k : Kmalloc}

theorem processes_cons (v : RegistryView) (a : ℕ) (l : List ℕ) :
    v.processes (a :: l) = (v.nodes a).process :: v.processes l := rfl

/-! ## Registration -/

theorem register_of_hook (h : v.hook cur ≠ none) : v.register cur k = v := if_pos (Or.inl h)

/-- Without memory for the block nothing happens. -/
theorem register_of_noBlock (h : k.perProcess = false) : v.register cur k = v := if_pos (Or.inr h)

/-- With a block but no memory for the node there is no list any more. -/
theorem register_of_noNode (h : v.hook cur = none) (hb : k.perProcess = true)
    (hn : k.processNode = false) : v.register cur k = v.lose cur := by
  simp [register, h, hb, hn]

/-- With both the task is put in front of the list. -/
theorem register_of_success (h : v.hook cur = none) (hb : k.perProcess = true)
    (hn : k.processNode = true) : v.register cur k = v.enroll cur := by
  simp [register, h, hb, hn]

/-- The registry stays, loses its list, or gets one more node. -/
theorem register_cases (v : RegistryView) (cur : TaskId) (k : Kmalloc) :
    ((v.hook cur ≠ none ∨ k.perProcess = false) ∧ v.register cur k = v) ∨
    (v.hook cur = none ∧ k.perProcess = true ∧ k.processNode = false ∧
      v.register cur k = v.lose cur) ∨
    (v.hook cur = none ∧ k.perProcess = true ∧ k.processNode = true ∧
      v.register cur k = v.enroll cur) := by
  by_cases h : v.hook cur = none
  · cases hb : k.perProcess with
    | false => exact Or.inl ⟨Or.inr rfl, register_of_noBlock hb⟩
    | true =>
      cases hn : k.processNode with
      | false => exact Or.inr (Or.inl ⟨h, rfl, rfl, register_of_noNode h hb hn⟩)
      | true => exact Or.inr (Or.inr ⟨h, rfl, rfl, register_of_success h hb hn⟩)
  · exact Or.inl ⟨Or.inl h, register_of_hook h⟩

namespace Linked

theorem nodup (h : v.Linked l) : l.Nodup := h.isList.nodup

/-- The head determines the list. -/
theorem unique {l' : List ℕ} (h : v.Linked l) (h' : v.Linked l') : l = l' :=
  h.isList.unique h'.isList

/-- The list has at most as many nodes as were ever allocated. -/
theorem length_le (h : v.Linked l) : l.length ≤ v.nextNode :=
  length_le_of_nodup_of_lt h.nodup h.lt

theorem lose (v : RegistryView) (cur : TaskId) : (v.lose cur).Linked [] :=
  ⟨.nil, fun _ ha => absurd ha List.not_mem_nil⟩

theorem nextNode_notMem (h : v.Linked l) : v.nextNode ∉ l := fun hmem =>
  Nat.lt_irrefl _ (h.lt _ hmem)

/-- Enrolling a task puts its node in front of the list. -/
theorem enroll (h : v.Linked l) (cur : TaskId) : (v.enroll cur).Linked (v.nextNode :: l) where
  isList := by
    refine h.isList.push h.nextNode_notMem ?_ fun b hb => ?_
    · simp [RegistryView.enroll]
    · simp [RegistryView.enroll, hb]
  lt := by
    intro a ha
    show a < v.nextNode + 1
    rcases List.mem_cons.mp ha with rfl | ha
    · exact Nat.lt_succ_self _
    · exact Nat.lt_succ_of_lt (h.lt a ha)

end Linked

theorem nodes_enroll_of_lt (cur : TaskId) {a : ℕ} (h : a < v.nextNode) :
    (v.enroll cur).nodes a = v.nodes a :=
  Function.update_of_ne (Nat.ne_of_lt h) _ _

/-- The new node names the new task, the other nodes name whom they named. -/
theorem processes_enroll (h : v.Linked l) (cur : TaskId) :
    (v.enroll cur).processes (v.nextNode :: l) = cur :: v.processes l := by
  rw [processes_cons]
  congr 1
  · simp [enroll]
  · exact List.map_congr_left fun a ha => by rw [nodes_enroll_of_lt cur (h.lt a ha)]

/-! ## Unloading -/

@[simp] theorem processes_freeNode (v : RegistryView) (a : ℕ) (l : List ℕ) :
    (v.freeNode a).processes l = v.processes l := rfl

/-- The loop allocates nothing. -/
theorem marks_freeAll (v : RegistryView) (l : List ℕ) :
    (v.freeAll l).nextBlock = v.nextBlock ∧ (v.freeAll l).nextNode = v.nextNode := by
  induction l generalizing v with
  | nil => exact ⟨rfl, rfl⟩
  | cons a l ih => exact ih (v.freeNode a)

/-- The loop detaches the tasks on the list and no others. -/
theorem hook_freeAll (v : RegistryView) (l : List ℕ) (t : TaskId) :
    (v.freeAll l).hook t = if t ∈ v.processes l then none else v.hook t := by
  induction l generalizing v with
  | nil => rfl
  | cons a l ih =>
    rw [freeAll, List.foldl_cons]
    refine (ih (v.freeNode a)).trans ?_
    rw [processes_freeNode, processes_cons]
    by_cases ht : t = (v.nodes a).process
    · simp [freeNode, ht]
    · simp [freeNode, ht]

/-- The loop frees the nodes of the list, each once. -/
theorem kfreedNodes_freeAll (v : RegistryView) (l : List ℕ) :
    (v.freeAll l).kfreedNodes = v.kfreedNodes ++ l := by
  induction l generalizing v with
  | nil => exact (List.append_nil _).symm
  | cons a l ih =>
    rw [freeAll, List.foldl_cons]
    refine (ih (v.freeNode a)).trans ?_
    rw [freeNode, List.append_assoc, List.singleton_append]

/-- The loop frees the blocks of the tasks on the list, each once. -/
theorem kfreedBlocks_freeAll {v : RegistryView} {l : List ℕ} (h : (v.processes l).Nodup) :
    (v.freeAll l).kfreedBlocks = v.kfreedBlocks ++ (v.processes l).filterMap v.hook := by
  induction l generalizing v with
  | nil => exact (List.append_nil _).symm
  | cons a l ih =>
    rw [processes_cons] at h
    obtain ⟨hnot, hnodup⟩ := List.nodup_cons.mp h
    -- the other tasks on the list are still hooked after the first turn
    have hrest : (v.processes l).filterMap (v.freeNode a).hook =
        (v.processes l).filterMap v.hook := by
      refine List.filterMap_congr fun t ht => ?_
      have hne : t ≠ (v.nodes a).process := fun he => hnot (he ▸ ht)
      exact Function.update_of_ne hne _ _
    rw [freeAll, List.foldl_cons]
    refine (ih (v := v.freeNode a) hnodup).trans ?_
    rw [processes_freeNode, hrest, processes_cons, List.filterMap_cons]
    cases hhook : v.hook (v.nodes a).process <;> simp [freeNode, hhook]

end RegistryView

namespace Machine

/-! ## The registry of a state -/

/-- The registry of a state. -/
def registryView (m : Machine) : RegistryView where
  checker := m.dracoChecker
  hook := m.hook
  nextBlock := m.nextBlock
  head := m.hashTable.processHead
  nodes := m.nodes
  nextNode := m.nextNode
  kfreedBlocks := m.kfreedBlocks
  kfreedNodes := m.kfreedNodes

/-- Only the registration part works on the registry. -/
theorem registryView_acquireTable (m : Machine) (cur : TaskId) (s : ℕ) (k : Kmalloc) :
    (acquireTable m cur s k).1.registryView = (registerProcess m cur k).1.registryView := by
  rcases acquireTable_cases m cur s k with ⟨m₁, hr, h⟩ | ⟨m₁, b, hr, h⟩ <;> rw [hr, h]
  rcases lookupTable_cases m₁ b s with ⟨slot, -, h⟩ | ⟨-, -, h⟩ | ⟨-, -, h⟩ <;> rw [h] <;> rfl

/-- Comparing a key touches neither blocks nor nodes. -/
theorem registryView_compareOrInsert (jhash : List UInt64 → UInt32) (m : Machine) (b slot : ℕ)
    (key : List UInt64) :
    (compareOrInsert jhash m b slot key).1.registryView = m.registryView := by
  rcases compareOrInsert_cases jhash m b slot key with ⟨-, h⟩ | ⟨-, -, h⟩ | ⟨-, -, h⟩ <;>
    rw [h] <;> rfl

/-- The counters in front of the registration do not matter to it. -/
theorem registryView_registerProcess_count (m : Machine) (s : ℕ) (cur : TaskId) (k : Kmalloc) :
    (registerProcess (countCall (countSyscallNumber m s)) cur k).1.registryView =
      (registerProcess m cur k).1.registryView := by
  unfold registerProcess
  rw [show (countCall (countSyscallNumber m s)).seccomp = m.seccomp from rfl]
  cases (m.seccomp cur).dracoHook with
  | some b => rfl
  | none =>
    dsimp only
    split_ifs <;> rfl

/-- What `register_process` does, seen from the list of processes. -/
theorem registryView_registerProcess (m : Machine) (cur : TaskId) (k : Kmalloc) :
    (registerProcess m cur k).1.registryView = m.registryView.register cur k := by
  have hattach : (attachBlock m cur).hook = Function.update m.hook cur (some m.nextBlock) := by
    funext t
    by_cases ht : t = cur
    · rw [ht, hook_attachBlock_self, Function.update_self]
    · rw [hook_attachBlock_of_ne m ht, Function.update_of_ne ht]
  rcases registerProcess_cases m cur k with ⟨b, hb, h⟩ | ⟨-, hp, h⟩ | ⟨hh, hp, hn, h⟩ |
    ⟨hh, hp, hn, h⟩ <;> rw [h]
  · exact (RegistryView.register_of_hook (by simp [registryView, hb])).symm
  · exact (RegistryView.register_of_noBlock hp).symm
  · rw [RegistryView.register_of_noNode hh hp hn]
    exact RegistryView.ext rfl hattach rfl rfl rfl rfl rfl rfl
  · rw [RegistryView.register_of_success hh hp hn]
    exact RegistryView.ext rfl hattach rfl rfl rfl rfl rfl rfl

/-- **A call in range registers its task**, and does nothing else to the registry. -/
theorem registryView_handler {jhash : List UInt64 → UInt32} {m m' : Machine} {c : SysCall}
    {r : ℤ} (hc : c.InRange) (h : seccompFilterHandler jhash m c = some (m', r)) :
    m'.registryView = m.registryView.register c.cur c.kmalloc := by
  rw [← registryView_registerProcess, ← registryView_registerProcess_count m c.syscallId,
    ← registryView_acquireTable _ _ c.syscallId]
  rcases handler_cases h with ⟨hn, -, -⟩ | ⟨-, -, hres⟩ | ⟨-, m₁, b, slot, hres, -, hcompare⟩
  · exact absurd hc hn
  · rw [hres]
  · have hcmp := registryView_compareOrInsert jhash (countSyscallCall m₁ slot) b slot
      (argumentList ((countSyscallCall m₁ slot).seccomp c.cur) c.syscallId c.regs)
    rw [hcompare] at hcmp
    rw [hres]
    exact hcmp.trans rfl

/-- A change of a profile that keeps the hook is not seen. -/
theorem registryView_setSeccomp {m : Machine} {cur : TaskId} {sec : Seccomp}
    (hsec : sec.dracoHook = m.hook cur) :
    (setSeccomp m cur sec).registryView = m.registryView :=
  RegistryView.ext rfl (funext fun t => hook_setSeccomp hsec t) rfl rfl rfl rfl rfl rfl

/-- **What an event does to the registry** while the module is loaded. -/
theorem registryView_opStep {jhash : List UInt64 → UInt32} {m m' : Machine} {op : Op}
    (hm : m.dracoChecker = .seccompFilterHandler) (h : opStep jhash m op = some m') :
    m'.registryView = m.registryView.after op := by
  rcases opStep_cases h with ⟨c, rfl, hstep⟩ | ⟨hop, cur, sec, hsec, rfl⟩
  · obtain ⟨⟨m₁, r⟩, hr, rfl⟩ := Option.map_eq_some_iff.mp hstep
    rw [callChecker, hm] at hr
    show m₁.registryView = if c.InRange then _ else _
    split_ifs with hc
    · exact registryView_handler hc hr
    · replace hr : seccompFilterHandler jhash m c = some (m₁, r) := hr
      rw [handler_outOfRange jhash m hc] at hr
      cases hr
      rfl
  · rw [registryView_setSeccomp hsec]
    cases op with
    | call c => exact absurd rfl (hop c)
    | dracoAdd _ _ _ => rfl
    | dracoLoad _ => rfl
    | attachFilter _ _ => rfl

/-! ## The loop of `free_hash_table` -/

/-- One turn of the loop of `free_hash_table`. -/
def freeTurn (m : Machine) (a : ℕ) : Machine :=
  let node := m.nodes a
  let sec := m.seccomp node.process
  { m with
    kfreedBlocks := m.kfreedBlocks ++ sec.dracoHook.toList
    seccomp := Function.update m.seccomp node.process { sec with dracoHook := none }
    kfreedNodes := m.kfreedNodes ++ [a] }

theorem freeNodes_some (fuel a : ℕ) (m : Machine) :
    freeNodes (fuel + 1) (some a) m = freeNodes fuel (m.nodes a).next (freeTurn m a) := rfl

/-- One turn of the loop frees the block and the node of a task. -/
theorem registryView_freeTurn (m : Machine) (a : ℕ) :
    (freeTurn m a).registryView = m.registryView.freeNode a := by
  refine RegistryView.ext rfl (funext fun t => ?_) rfl rfl rfl rfl rfl rfl
  by_cases ht : t = (m.nodes a).process
  · simp [registryView, RegistryView.freeNode, freeTurn, hook, ht]
  · simp [registryView, RegistryView.freeNode, freeTurn, hook, ht]

/-- With enough turns the loop of `free_hash_table` ends, after one turn for each node. -/
theorem freeNodes_eq {fuel : ℕ} {l : List ℕ} {p : Option ℕ} {m : Machine}
    (h : IsList (fun a => (m.nodes a).next) p l) (hfuel : l.length ≤ fuel) :
    freeNodes fuel p m = l.foldl freeTurn m := by
  induction l generalizing fuel p m with
  | nil =>
    cases h
    cases fuel <;> rfl
  | cons a l ih =>
    cases h with
    | cons tail =>
      cases fuel with
      | zero => exact absurd hfuel (Nat.not_succ_le_zero _)
      | succ fuel =>
        rw [freeNodes_some, List.foldl_cons]
        exact ih (m := freeTurn m a) tail (Nat.le_of_succ_le_succ hfuel)

/-- All turns free what the list holds. -/
theorem registryView_foldl_freeTurn (l : List ℕ) (m : Machine) :
    (l.foldl freeTurn m).registryView = m.registryView.freeAll l := by
  induction l generalizing m with
  | nil => rfl
  | cons a l ih =>
    rw [List.foldl_cons, ih, registryView_freeTurn]
    rfl

/-- The loop writes nothing but the hooks of the tasks on the list. -/
theorem seccomp_foldl_freeTurn (l : List ℕ) (m : Machine) (t : TaskId) :
    (l.foldl freeTurn m).seccomp t =
      if t ∈ m.registryView.processes l then { m.seccomp t with dracoHook := none }
      else m.seccomp t := by
  induction l generalizing m with
  | nil => rfl
  | cons a l ih =>
    rw [List.foldl_cons, ih, RegistryView.processes_cons]
    show (if t ∈ m.registryView.processes l then _ else _) = _
    by_cases ht : t = (m.nodes a).process
    · subst ht
      simp [freeTurn, registryView]
    · simp [freeTurn, registryView, ht]

/-- `free_hash_table` takes one turn for each node of the list. -/
theorem freeHashTable_eq {m : Machine} {l : List ℕ} (h : m.registryView.Linked l) :
    freeHashTable m = l.foldl freeTurn m :=
  freeNodes_eq h.isList (Nat.le_succ_of_le h.length_le)

/-- **`free_hash_table` goes once along the list.** -/
theorem registryView_freeHashTable {m : Machine} {l : List ℕ} (h : m.registryView.Linked l) :
    (freeHashTable m).registryView = m.registryView.freeAll l := by
  rw [freeHashTable_eq h, registryView_foldl_freeTurn]

end Machine

end Draco
