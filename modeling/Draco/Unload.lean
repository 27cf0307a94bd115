/-
# Unloading and reloading

A cycle is `draco_init`, a sequence of calls, and `draco_exit`.  Along any number of
cycles the heap events of the module are recorded: what `insert_value` allocates and
uses, and what `free_hash_table` uses and frees.  In a cycle the process list and the
hooks stay in step (`RegistryView.Enrolled`) and every object is held or freed
(`HeapOk`), so the destructive traversal finds what it needs and leaves nothing behind
(`unload_leavesNothing`).
-/
import Draco.FastPath
import Draco.LifeCycle
import Draco.Lib.HeapTrace

namespace Draco

open PartialRun LinkedList HeapTrace Machine

/-! ## Heap events -/

/-- An object that the module gets from `kmalloc`. -/
inductive HeapObject where
  | block (b : ℕ)
  | node (a : ℕ)
  deriving DecidableEq, Repr

/-- The heap events of the registration part: the block is zeroed, and the node filled. -/
def registerTrace (m : Machine) (cur : TaskId) (k : Kmalloc) : List (HeapEvent HeapObject) :=
  if m.hook cur ≠ none ∨ k.perProcess = false then []
  else
    [.kmalloc (.block m.nextBlock), .deref (.block m.nextBlock)] ++
      if k.processNode = false then []
      else [.kmalloc (.node m.nextNode), .deref (.node m.nextNode)]

/-- The heap events of a call: the registration, and the use of the block that it leaves
the task with. -/
def callTrace (m : Machine) (c : SysCall) : List (HeapEvent HeapObject) :=
  if m.dracoChecker = .seccompFilterHandler ∧ c.InRange then
    registerTrace m c.cur c.kmalloc ++
      (registerProcess m c.cur c.kmalloc).2.toList.map fun b => .deref (.block b)
  else []

/-- The heap events of one turn of the loop of `free_hash_table`: `traverse->process`,
`kfree(.. draco_hook)`, `traverse->next`, `kfree(cur)`. -/
def turnTrace (m : Machine) (a : ℕ) : List (HeapEvent HeapObject) :=
  .deref (.node a) :: (m.hook (m.nodes a).process).toList.map (fun b => .kfree (.block b)) ++
    [.deref (.node a), .kfree (.node a)]

/-- The heap events of the loop, which takes the turns that `freeNodes` takes. -/
def freeNodesTrace : (fuel : ℕ) → (traverse : Option ℕ) → Machine → List (HeapEvent HeapObject)
  | 0, _, _ => []
  | _ + 1, none, _ => []
  | fuel + 1, some a, m => turnTrace m a ++ freeNodesTrace fuel (m.nodes a).next (freeTurn m a)

/-- `draco_checker = draco_checker_backup` -/
def withdrawChecker (m : Machine) : Machine := { m with dracoChecker := .emptyDraco }

/-- The heap events of `draco_exit`. -/
def exitTrace (m : Machine) : List (HeapEvent HeapObject) :=
  freeNodesTrace (m.nextNode + 1) m.hashTable.processHead (withdrawChecker m)

/-- The loop of `free_hash_table`, from `traverse` on, ends in the second state. -/
inductive Frees : Option ℕ → Machine → Machine → Prop
  | done (m : Machine) : Frees none m m
  | turn {a : ℕ} {m m' : Machine} (rest : Frees (m.nodes a).next (freeTurn m a) m') :
      Frees (some a) m m'

/-! ## Cycles -/

/-- The machine with the heap events so far. -/
structure Traced where
  machine : Machine
  trace : List (HeapEvent HeapObject)

/-- A call. -/
def tracedCall (jhash : List UInt64 → UInt32) (w : Traced) (c : SysCall) : Option Traced :=
  (callStep jhash w.machine c).map fun m => ⟨m, w.trace ++ callTrace w.machine c⟩

/-- A new module image, with its globals zero, and `draco_init`. -/
def insmod (m : Machine) : Machine :=
  dracoInit { m with hashTable := HashTable.zero, syscallNumber := fun _ => 0 }

/-- The machine with a new module in it. -/
def Traced.insmod (w : Traced) : Traced := ⟨Draco.insmod w.machine, w.trace⟩

/-- `draco_exit` -/
def Traced.rmmod (w : Traced) : Traced := ⟨dracoExit w.machine, w.trace ++ exitTrace w.machine⟩

/-- One cycle. -/
def cycleStep (jhash : List UInt64 → UInt32) (w : Traced) (calls : List SysCall) :
    Option Traced :=
  (run (tracedCall jhash) w.insmod calls).map Traced.rmmod

/-- The kernel before the first cycle. -/
def Traced.start (profile : TaskId → Seccomp) : Traced := ⟨Machine.loaded profile, []⟩

namespace RegistryView

/-! ## The status of the objects -/

/-- The status of an object, as the allocation marks and the lists of freed objects
have it. -/
def status (v : RegistryView) : HeapObject → Status
  | .block b =>
    if v.nextBlock ≤ b then .unused else if b ∈ v.kfreedBlocks then .freed else .live
  | .node a => if v.nextNode ≤ a then .unused else if a ∈ v.kfreedNodes then .freed else .live

variable {v : RegistryView} {l : List ℕ}

/-- A block is held when it was allocated and not freed. -/
theorem status_block_live {b : ℕ} :
    v.status (.block b) = .live ↔ b < v.nextBlock ∧ b ∉ v.kfreedBlocks := by
  simp only [status]
  split_ifs with h₁ h₂
  · simp [Nat.not_lt.mpr h₁]
  · simp [h₂]
  · simp [h₂, Nat.not_le.mp h₁]

theorem status_node_live {a : ℕ} :
    v.status (.node a) = .live ↔ a < v.nextNode ∧ a ∉ v.kfreedNodes := by
  simp only [status]
  split_ifs with h₁ h₂
  · simp [Nat.not_lt.mpr h₁]
  · simp [h₂]
  · simp [h₂, Nat.not_le.mp h₁]

/-- Objects are held or freed, and only allocated objects were freed. -/
structure HeapOk (v : RegistryView) (l : List ℕ) : Prop where
  blockLt : ∀ b ∈ v.kfreedBlocks, b < v.nextBlock
  nodeLt : ∀ a ∈ v.kfreedNodes, a < v.nextNode
  blockLive : ∀ t b, v.hook t = some b → b ∉ v.kfreedBlocks
  nodeLive : ∀ a ∈ l, a ∉ v.kfreedNodes
  blockHeld : ∀ b < v.nextBlock, b ∈ v.kfreedBlocks ∨ ∃ t, v.hook t = some b
  nodeHeld : ∀ a < v.nextNode, a ∈ v.kfreedNodes ∨ a ∈ l

/-! ## A new task -/

/-- Enrolling a task allocates a block and a node. -/
theorem status_enroll (h : v.HeapOk l) (cur : TaskId) :
    (v.enroll cur).status =
      Function.update (Function.update v.status (.block v.nextBlock) .live)
        (.node v.nextNode) .live := by
  have hblock : v.nextBlock ∉ v.kfreedBlocks := fun hm => Nat.lt_irrefl _ (h.blockLt _ hm)
  have hnode : v.nextNode ∉ v.kfreedNodes := fun hm => Nat.lt_irrefl _ (h.nodeLt _ hm)
  funext o
  cases o with
  | block b =>
    rw [Function.update_of_ne (by simp)]
    by_cases hb : b = v.nextBlock
    · rw [hb, Function.update_self]
      exact status_block_live.mpr ⟨Nat.lt_succ_self _, hblock⟩
    · rw [Function.update_of_ne (by simpa using hb)]
      have hle : v.nextBlock + 1 ≤ b ↔ v.nextBlock ≤ b := by omega
      exact if_congr hle rfl rfl
  | node a =>
    by_cases ha : a = v.nextNode
    · rw [ha, Function.update_self]
      exact status_node_live.mpr ⟨Nat.lt_succ_self _, hnode⟩
    · rw [Function.update_of_ne (by simpa using ha), Function.update_of_ne (by simp)]
      have hle : v.nextNode + 1 ≤ a ↔ v.nextNode ≤ a := by omega
      exact if_congr hle rfl rfl

theorem HeapOk.enroll (h : v.HeapOk l) {cur : TaskId} (hhook : v.hook cur = none) :
    (v.enroll cur).HeapOk (v.nextNode :: l) where
  blockLt := fun b hb => Nat.lt_succ_of_lt (h.blockLt b hb)
  nodeLt := fun a ha => Nat.lt_succ_of_lt (h.nodeLt a ha)
  blockLive := by
    intro t b hb hmem
    by_cases ht : t = cur
    · have hself : (v.enroll cur).hook cur = some v.nextBlock := Function.update_self ..
      rw [ht, hself] at hb
      cases hb
      exact Nat.lt_irrefl _ (h.blockLt _ hmem)
    · have hother : (v.enroll cur).hook t = v.hook t := Function.update_of_ne ht _ _
      exact h.blockLive t b (hother ▸ hb) hmem
  nodeLive := by
    intro a ha hmem
    rcases List.mem_cons.mp ha with rfl | ha
    · exact Nat.lt_irrefl _ (h.nodeLt _ hmem)
    · exact h.nodeLive a ha hmem
  blockHeld := by
    intro b hb
    by_cases hnew : b = v.nextBlock
    · exact Or.inr ⟨cur, by rw [hnew]; exact Function.update_self ..⟩
    · refine (h.blockHeld b (by have : b < v.nextBlock + 1 := hb; omega)).imp_right ?_
      rintro ⟨t, ht⟩
      have hne : t ≠ cur := by
        intro he
        rw [he, hhook] at ht
        cases ht
      exact ⟨t, (Function.update_of_ne hne _ _).trans ht⟩
  nodeHeld := by
    intro a ha
    by_cases hnew : a = v.nextNode
    · exact Or.inr (hnew ▸ List.mem_cons_self)
    · exact (h.nodeHeld a (by have : a < v.nextNode + 1 := ha; omega)).imp_right
        (List.mem_cons_of_mem _)

/-! ## The loop of `free_hash_table` -/

/-- What the loop needs of the nodes `l` that are still in front of it. -/
structure Freeable (v : RegistryView) (l : List ℕ) : Prop where
  nodes : l.Nodup
  tasks : (v.processes l).Nodup
  nodeLive : ∀ a ∈ l, v.status (.node a) = .live
  hooked : ∀ t ∈ v.processes l, ∃ b, v.hook t = some b ∧ v.status (.block b) = .live
  hookInj : ∀ t t' b, v.hook t = some b → v.hook t' = some b → t = t'

theorem status_freeNode {a b : ℕ} (hb : v.hook (v.nodes a).process = some b)
    (hblock : v.status (.block b) = .live) (hnode : v.status (.node a) = .live) :
    (v.freeNode a).status =
      Function.update (Function.update v.status (.block b) .freed) (.node a) .freed := by
  rw [status_block_live] at hblock
  rw [status_node_live] at hnode
  funext o
  cases o with
  | block b' =>
    rw [Function.update_of_ne (by simp)]
    by_cases hbb : b' = b
    · subst hbb
      rw [Function.update_self]
      simp [status, freeNode, hb, hblock.1]
    · rw [Function.update_of_ne (by simpa using hbb)]
      simp [status, freeNode, hb, hbb]
  | node a' =>
    by_cases haa : a' = a
    · subst haa
      rw [Function.update_self]
      simp [status, freeNode, hnode.1]
    · rw [Function.update_of_ne (by simpa using haa), Function.update_of_ne (by simp)]
      simp [status, freeNode, haa]

/-- A turn of the loop leaves what the next turns need. -/
theorem Freeable.freeNode {a : ℕ} (h : v.Freeable (a :: l)) : (v.freeNode a).Freeable l := by
  have htasks := h.tasks
  rw [processes_cons] at htasks
  obtain ⟨hnot, htasks⟩ := List.nodup_cons.mp htasks
  obtain ⟨hnotNode, hnodes⟩ := List.nodup_cons.mp h.nodes
  obtain ⟨b, hb, hblock⟩ := h.hooked _ (by rw [processes_cons]; exact List.mem_cons_self)
  have hstatus := status_freeNode hb hblock (h.nodeLive a List.mem_cons_self)
  have hhook : ∀ t b', (v.freeNode a).hook t = some b' →
      t ≠ (v.nodes a).process ∧ v.hook t = some b' := by
    intro t b' ht
    by_cases hta : t = (v.nodes a).process
    · have hself : (v.freeNode a).hook (v.nodes a).process = none := Function.update_self ..
      rw [hta, hself] at ht
      cases ht
    · have hother : (v.freeNode a).hook t = v.hook t := Function.update_of_ne hta _ _
      exact ⟨hta, hother ▸ ht⟩
  refine ⟨hnodes, htasks, fun a' ha' => ?_, fun t ht => ?_, fun t t' b' ht ht' => ?_⟩
  · have hne : a' ≠ a := fun he => hnotNode (he ▸ ha')
    rw [hstatus, Function.update_of_ne (by simpa using hne), Function.update_of_ne (by simp)]
    exact h.nodeLive a' (List.mem_cons_of_mem a ha')
  · have hne : t ≠ (v.nodes a).process := fun he => hnot (he ▸ ht)
    obtain ⟨b', hb', hlive⟩ := h.hooked t (by rw [processes_cons]; exact List.mem_cons_of_mem _ ht)
    refine ⟨b', (Function.update_of_ne hne _ _).trans hb', ?_⟩
    -- the block is not the one that this turn frees
    have hbb : b' ≠ b := fun he => hne (h.hookInj t _ b' hb' (he ▸ hb))
    rw [hstatus, Function.update_of_ne (by simp), Function.update_of_ne (by simpa using hbb)]
    exact hlive
  · exact h.hookInj t t' b' (hhook t b' ht).2 (hhook t' b' ht').2

end RegistryView

open RegistryView

/-- A turn frees a live block and a live node, which it has used before. -/
theorem track_turnTrace {m : Machine} {a : ℕ} {l : List ℕ}
    (h : m.registryView.Freeable (a :: l)) :
    run track m.registryView.status (turnTrace m a) =
      some (freeTurn m a).registryView.status := by
  obtain ⟨b, hb, hblock⟩ := h.hooked _ (by rw [processes_cons]; exact List.mem_cons_self)
  have hnode := h.nodeLive a List.mem_cons_self
  have hnode' : Function.update m.registryView.status (.block b) .freed (.node a) = .live := by
    rw [Function.update_of_ne (by simp)]
    exact hnode
  have htrace : turnTrace m a =
      [.deref (.node a), .kfree (.block b), .deref (.node a), .kfree (.node a)] := by
    rw [turnTrace, show m.hook (m.nodes a).process = some b from hb]
    rfl
  rw [htrace, registryView_freeTurn, status_freeNode hb hblock hnode]
  exact run_cons_of (track_deref hnode) (run_cons_of (track_kfree hblock)
    (run_cons_of (track_deref hnode') (run_cons_of (track_kfree hnode') rfl)))

/-- The heap allows the whole loop. -/
theorem track_freeNodesTrace {fuel : ℕ} {p : Option ℕ} {m : Machine} {l : List ℕ}
    (hl : IsList (fun a => (m.nodes a).next) p l) (hfuel : l.length ≤ fuel)
    (h : m.registryView.Freeable l) :
    run track m.registryView.status (freeNodesTrace fuel p m) =
      some (freeNodes fuel p m).registryView.status := by
  induction l generalizing fuel p m with
  | nil =>
    cases hl
    cases fuel <;> rfl
  | cons a l ih =>
    cases hl with
    | cons tail =>
      cases fuel with
      | zero => exact absurd hfuel (Nat.not_succ_le_zero _)
      | succ fuel =>
        refine run_append_of (track_turnTrace h) ?_
        refine ih (m := freeTurn m a) tail (Nat.le_of_succ_le_succ hfuel) ?_
        rw [registryView_freeTurn]
        exact h.freeNode

/-- The loop ends when the list does. -/
theorem frees_of_isList {p : Option ℕ} {m : Machine} {l : List ℕ}
    (hl : IsList (fun a => (m.nodes a).next) p l) : Frees p m (l.foldl freeTurn m) := by
  induction l generalizing p m with
  | nil =>
    cases hl
    exact .done m
  | cons a l ih =>
    cases hl with
    | cons tail => exact .turn (ih (m := freeTurn m a) tail)

/-! ## One cycle -/

/-- Within a cycle: the tasks on the list `l` are the ones with a hook, and the heap has
allowed all events so far. -/
structure InCycle (w : Traced) (l : List ℕ) : Prop where
  enrolled : w.machine.registryView.Enrolled (fun _ => true) l
  heapOk : w.machine.registryView.HeapOk l
  tracked : run track (fun _ => .unused) w.trace = some w.machine.registryView.status

/-- Between cycles: no task has a hook, and every object that was allocated has been
freed. -/
structure Idle (w : Traced) : Prop where
  unhooked : ∀ t, w.machine.hook t = none
  blockFreed : ∀ b, b < w.machine.nextBlock ↔ b ∈ w.machine.kfreedBlocks
  nodeFreed : ∀ a, a < w.machine.nextNode ↔ a ∈ w.machine.kfreedNodes
  tracked : run track (fun _ => .unused) w.trace = some w.machine.registryView.status

theorem idle_start (profile : TaskId → Seccomp) : Idle (Traced.start profile) where
  unhooked := fun _ => rfl
  blockFreed := fun b => ⟨fun hb => absurd hb (Nat.not_lt_zero b), fun hb => by cases hb⟩
  nodeFreed := fun a => ⟨fun ha => absurd ha (Nat.not_lt_zero a), fun ha => by cases ha⟩
  tracked := by
    refine congrArg some (funext fun o => ?_)
    cases o <;> rfl

/-- The module starts with an empty list. -/
theorem Idle.insmod {w : Traced} (h : Idle w) : InCycle w.insmod [] := by
  have hnone : ∀ t b, w.insmod.machine.registryView.hook t ≠ some b := by
    intro t b hb
    cases (h.unhooked t).symm.trans hb
  exact
    { enrolled :=
        { checker := rfl
          linked := ⟨.nil, fun a ha => absurd ha List.not_mem_nil⟩
          nodup := List.nodup_nil
          mem_iff := fun t => ⟨fun ht => absurd ht List.not_mem_nil,
            fun ht => absurd (h.unhooked t) ht.2⟩
          hookInj := fun t t' b _ _ hb => absurd hb (hnone t b)
          hookLt := fun t b _ hb => absurd hb (hnone t b) }
      heapOk :=
        { blockLt := fun b => (h.blockFreed b).mpr
          nodeLt := fun a => (h.nodeFreed a).mpr
          blockLive := fun t b hb => absurd hb (hnone t b)
          nodeLive := fun a ha => absurd ha List.not_mem_nil
          blockHeld := fun b hb => Or.inl ((h.blockFreed b).mp hb)
          nodeHeld := fun a ha => Or.inl ((h.nodeFreed a).mp ha) }
      tracked := h.tracked }

/-- The heap allows a registration. -/
theorem track_registerTrace {m : Machine} {l : List ℕ} (h : m.registryView.HeapOk l)
    {cur : TaskId} {k : Kmalloc} (hhook : m.hook cur = none) (hk : k = ⟨true, true⟩) :
    run track m.registryView.status (registerTrace m cur k) =
      some (m.registryView.enroll cur).status := by
  have hblock : m.registryView.status (.block m.nextBlock) = .unused := if_pos (Nat.le_refl _)
  have hnode : Function.update m.registryView.status (.block m.nextBlock) .live
      (.node m.nextNode) = .unused := by
    rw [Function.update_of_ne (by simp)]
    exact if_pos (Nat.le_refl _)
  have htrace : registerTrace m cur k =
      [.kmalloc (.block m.nextBlock), .deref (.block m.nextBlock),
        .kmalloc (.node m.nextNode), .deref (.node m.nextNode)] := by
    simp [registerTrace, hhook, hk]
  rw [htrace, status_enroll h]
  exact run_cons_of (track_kmalloc hblock) (run_cons_of
    (track_deref (Function.update_self ..)) (run_cons_of (track_kmalloc hnode)
    (run_cons_of (track_deref (Function.update_self ..)) rfl)))

/-- A call keeps the list and the heap in order. -/
theorem inCycle_tracedCall {jhash : List UInt64 → UInt32} {w w' : Traced} {l : List ℕ}
    {c : SysCall} (h : InCycle w l) (hk : c.kmalloc = ⟨true, true⟩)
    (hstep : tracedCall jhash w c = some w') : ∃ l', InCycle w' l' := by
  obtain ⟨m, hm, rfl⟩ := Option.map_eq_some_iff.mp hstep
  have hchk : w.machine.dracoChecker = .seccompFilterHandler := h.enrolled.checker
  have hview : m.registryView = w.machine.registryView.after (.call c) :=
    registryView_opStep hchk (show opStep jhash w.machine (.call c) = some m from hm)
  by_cases hc : c.InRange
  · have hafter : m.registryView = w.machine.registryView.register c.cur c.kmalloc :=
      hview.trans (if_pos hc)
    have htrace : callTrace w.machine c = registerTrace w.machine c.cur c.kmalloc ++
        (registerProcess w.machine c.cur c.kmalloc).2.toList.map fun b => .deref (.block b) :=
      if_pos ⟨hchk, hc⟩
    rcases registerProcess_cases w.machine c.cur c.kmalloc with ⟨b, hb, hreg⟩ | ⟨-, hp, -⟩ |
      ⟨-, -, hn, -⟩ | ⟨hhook, hp, hn, hreg⟩
    · -- a task with a hook: its block is live
      have hsome : w.machine.hook c.cur ≠ none := by
        rw [hb]
        exact Option.some_ne_none b
      have hsame : m.registryView = w.machine.registryView :=
        hafter.trans (register_of_hook hsome)
      have hlive : w.machine.registryView.status (.block b) = .live :=
        status_block_live.mpr ⟨h.enrolled.hookLt c.cur b rfl hb, h.heapOk.blockLive c.cur b hb⟩
      have htrace' : callTrace w.machine c = [.deref (.block b)] := by
        rw [htrace, hreg]
        simp [registerTrace, hsome]
      refine ⟨l, ?_, ?_, ?_⟩
      · exact hsame.symm ▸ h.enrolled
      · exact hsame.symm ▸ h.heapOk
      · rw [hsame, htrace']
        exact run_append_of h.tracked (run_cons_of (track_deref hlive) rfl)
    · rw [hk] at hp
      cases hp
    · rw [hk] at hn
      cases hn
    · -- a new task
      have hnew : m.registryView = w.machine.registryView.enroll c.cur :=
        hafter.trans (register_of_success hhook hp hn)
      have hheap := h.heapOk.enroll hhook
      have hself : (w.machine.registryView.enroll c.cur).hook c.cur = some w.machine.nextBlock :=
        Function.update_self ..
      have hlive : (w.machine.registryView.enroll c.cur).status (.block w.machine.nextBlock) =
          .live := status_block_live.mpr ⟨Nat.lt_succ_self _, hheap.blockLive c.cur _ hself⟩
      have htrace' : callTrace w.machine c = registerTrace w.machine c.cur c.kmalloc ++
          [.deref (.block w.machine.nextBlock)] := by
        rw [htrace, hreg]
        rfl
      refine ⟨w.machine.nextNode :: l, ?_, ?_, ?_⟩
      · exact hnew.symm ▸ h.enrolled.enroll rfl hhook
      · exact hnew.symm ▸ hheap
      · rw [hnew, htrace']
        exact run_append_of h.tracked (run_append_of (track_registerTrace h.heapOk hhook hk)
          (run_cons_of (track_deref hlive) rfl))
  · -- out of range: nothing happens
    have hsame : m.registryView = w.machine.registryView := hview.trans (if_neg hc)
    have htrace : callTrace w.machine c = [] := if_neg fun hn => hc hn.2
    refine ⟨l, ?_, ?_, ?_⟩
    · exact hsame.symm ▸ h.enrolled
    · exact hsame.symm ▸ h.heapOk
    · rw [hsame, htrace, List.append_nil]
      exact h.tracked

/-- When the module is removed, everything on the list can be freed. -/
theorem InCycle.freeable {w : Traced} {l : List ℕ} (h : InCycle w l) :
    (withdrawChecker w.machine).registryView.Freeable l where
  nodes := h.enrolled.linked.nodup
  tasks := h.enrolled.nodup
  nodeLive := fun a ha => status_node_live.mpr ⟨h.enrolled.linked.lt a ha, h.heapOk.nodeLive a ha⟩
  hooked := by
    intro t ht
    obtain ⟨b, hb⟩ := Option.ne_none_iff_exists'.mp ((h.enrolled.mem_iff t).mp ht).2
    exact ⟨b, hb, status_block_live.mpr
      ⟨h.enrolled.hookLt t b rfl hb, h.heapOk.blockLive t b hb⟩⟩
  hookInj := fun t t' b => h.enrolled.hookInj t t' b rfl rfl

theorem InCycle.linked {w : Traced} {l : List ℕ} (h : InCycle w l) :
    (withdrawChecker w.machine).registryView.Linked l :=
  ⟨h.enrolled.linked.isList, h.enrolled.linked.lt⟩

/-- **Unloading** detaches every task and frees every object. -/
theorem InCycle.rmmod {w : Traced} {l : List ℕ} (h : InCycle w l) : Idle w.rmmod := by
  have hview : w.rmmod.machine.registryView =
      (withdrawChecker w.machine).registryView.freeAll l := registryView_freeHashTable h.linked
  obtain ⟨hblock, hnode⟩ := marks_freeAll (withdrawChecker w.machine).registryView l
  have hmarkBlock : w.rmmod.machine.nextBlock = w.machine.nextBlock :=
    (congrArg RegistryView.nextBlock hview).trans hblock
  have hmarkNode : w.rmmod.machine.nextNode = w.machine.nextNode :=
    (congrArg RegistryView.nextNode hview).trans hnode
  refine ⟨fun t => ?_, fun b => ?_, fun a => ?_, ?_⟩
  · refine (congrArg (fun v => v.hook t) hview).trans ((hook_freeAll _ l t).trans ?_)
    refine ite_eq_left_iff.mpr fun hnot => ?_
    by_contra hhook
    exact hnot ((h.enrolled.mem_iff t).mpr ⟨rfl, hhook⟩)
  · have hfreed : w.rmmod.machine.kfreedBlocks = w.machine.kfreedBlocks ++
        (w.machine.registryView.processes l).filterMap w.machine.hook :=
      (congrArg RegistryView.kfreedBlocks hview).trans
        (kfreedBlocks_freeAll (v := (withdrawChecker w.machine).registryView) h.enrolled.nodup)
    rw [hmarkBlock, hfreed, List.mem_append, List.mem_filterMap]
    constructor
    · intro hb
      refine (h.heapOk.blockHeld b hb).imp_right ?_
      rintro ⟨t, ht⟩
      exact ⟨t, (h.enrolled.mem_iff t).mpr ⟨rfl, by rw [ht]; exact Option.some_ne_none b⟩, ht⟩
    · rintro (hb | ⟨t, -, ht⟩)
      · exact h.heapOk.blockLt b hb
      · exact h.enrolled.hookLt t b rfl ht
  · have hfreed : w.rmmod.machine.kfreedNodes = w.machine.kfreedNodes ++ l :=
      (congrArg RegistryView.kfreedNodes hview).trans
        (kfreedNodes_freeAll (withdrawChecker w.machine).registryView l)
    rw [hmarkNode, hfreed, List.mem_append]
    constructor
    · exact h.heapOk.nodeHeld a
    · rintro (ha | ha)
      · exact h.heapOk.nodeLt a ha
      · exact h.enrolled.linked.lt a ha
  · exact run_append_of h.tracked (track_freeNodesTrace (m := withdrawChecker w.machine)
      h.enrolled.linked.isList (Nat.le_succ_of_le h.enrolled.linked.length_le) h.freeable)

/-! ## Runs of cycles -/

/-- The calls of a cycle keep its invariant. -/
theorem inCycle_run {jhash : List UInt64 → UInt32} {u w : Traced} {calls : List SysCall}
    (hu : Idle u) (hk : ∀ c ∈ calls, c.kmalloc = ⟨true, true⟩)
    (h : run (tracedCall jhash) u.insmod calls = some w) : ∃ l, InCycle w l := by
  have hstep : ∀ w₁ c w₂, c.kmalloc = ⟨true, true⟩ → (∃ l, InCycle w₁ l) →
      tracedCall jhash w₁ c = some w₂ → ∃ l, InCycle w₂ l := by
    rintro w₁ c w₂ hc ⟨l, hl⟩ hcall
    exact inCycle_tracedCall hl hc hcall
  exact run_invariant_of hstep hk ⟨[], hu.insmod⟩ h

/-- A cycle is its calls and then `draco_exit`. -/
theorem cycleStep_inv {jhash : List UInt64 → UInt32} {u v : Traced} {calls : List SysCall}
    (h : cycleStep jhash u calls = some v) :
    ∃ w, run (tracedCall jhash) u.insmod calls = some w ∧ v = w.rmmod := by
  obtain ⟨w, hw, rfl⟩ := Option.map_eq_some_iff.mp h
  exact ⟨w, hw, rfl⟩

/-- A traced run of calls is a run of calls. -/
theorem run_tracedCall {jhash : List UInt64 → UInt32} {u w : Traced} {calls : List SysCall}
    (h : run (tracedCall jhash) u calls = some w) :
    run (callStep jhash) u.machine calls = some w.machine := by
  induction calls generalizing u with
  | nil =>
    cases h
    rfl
  | cons c calls ih =>
    obtain ⟨u', hu', hrest⟩ := run_cons_inv h
    obtain ⟨m, hm, rfl⟩ := Option.map_eq_some_iff.mp hu'
    exact run_cons_of hm (ih hrest)

/-- No profile changes. -/
def SameProfiles (profile : TaskId → Seccomp) (w : Traced) : Prop :=
  ∀ t s, (w.machine.seccomp t).positions s = (profile t).positions s

/-- A module that is loaded again starts as an empty cache. -/
theorem refines_insmod (jhash : List UInt64 → UInt32) {profile : TaskId → Seccomp} {u : Traced}
    (hu : Idle u) (hpos : SameProfiles profile u) :
    Refines jhash profile u.insmod.machine Cache.empty :=
  refines_of_empty jhash rfl hu.unhooked rfl hpos

/-- A cycle leads from rest to rest. -/
theorem idle_cycleStep {jhash : List UInt64 → UInt32} {profile : TaskId → Seccomp}
    {u v : Traced} {calls : List SysCall} (hk : ∀ c ∈ calls, c.kmalloc = ⟨true, true⟩)
    (hu : Idle u ∧ SameProfiles profile u) (h : cycleStep jhash u calls = some v) :
    Idle v ∧ SameProfiles profile v := by
  obtain ⟨w, hw, rfl⟩ := cycleStep_inv h
  obtain ⟨l, hl⟩ := inCycle_run hu.1 hk hw
  refine ⟨hl.rmmod, fun t s => ?_⟩
  have hS := (refines_insmod jhash hu.1 hu.2).run_of_empty (run_tracedCall hw)
  have hsec : w.rmmod.machine.seccomp t = _ := (congrFun (congrArg Machine.seccomp
    (freeHashTable_eq hl.linked)) t).trans (seccomp_foldl_freeTurn l _ t)
  rw [← hS.positions, hsec]
  split_ifs <;> rfl

/-- What a cycle with the calls `calls`, from `u` to `v`, has to leave, in a run that goes
on until `final`: no hook; every object that was ever allocated freed once and not used
after that, up to `final`; a loop in `draco_exit` that has ended; and of every hit, an
earlier call of the same cycle by the same task with the same number and key. -/
structure LeavesNothing (jhash : List UInt64 → UInt32) (profile : TaskId → Seccomp)
    (u : Traced) (calls : List SysCall) (v final : Traced) : Prop where
  unhooked : ∀ t, v.machine.hook t = none
  blockFreed : ∀ b < v.machine.nextBlock,
    FreedForGood v.trace (.block b) ∧ FreedForGood final.trace (.block b)
  nodeFreed : ∀ a < v.machine.nextNode,
    FreedForGood v.trace (.node a) ∧ FreedForGood final.trace (.node a)
  terminates : ∃ w, run (tracedCall jhash) u.insmod calls = some w ∧
    Frees w.machine.hashTable.processHead (withdrawChecker w.machine) v.machine
  explained : ∀ xs c ys w, calls = xs ++ c :: ys →
    run (tracedCall jhash) u.insmod xs = some w → Hits jhash w.machine c →
      ∃ d ∈ xs, d.cur = c.cur ∧ d.nr = c.nr ∧ d.key profile = c.key profile

/-- In a state of rest every object that is not unused is freed. -/
theorem Idle.freed {w : Traced} (h : Idle w) {o : HeapObject}
    (ho : w.machine.registryView.status o ≠ .unused) :
    w.machine.registryView.status o = .freed := by
  cases o with
  | block b =>
    by_cases hb : b < w.machine.nextBlock
    · have hmem := (h.blockFreed b).mp hb
      simp [RegistryView.status, registryView, hb, hmem]
    · exact absurd (if_pos (Nat.le_of_not_lt hb)) ho
  | node a =>
    by_cases ha : a < w.machine.nextNode
    · have hmem := (h.nodeFreed a).mp ha
      simp [RegistryView.status, registryView, ha, hmem]
    · exact absurd (if_pos (Nat.le_of_not_lt ha)) ho

theorem Idle.freedForGood {w : Traced} (h : Idle w) {o : HeapObject}
    (ho : w.machine.registryView.status o ≠ .unused) : FreedForGood w.trace o :=
  freedForGood_of_run h.tracked (by simp) (h.freed ho)

/-- A cycle adds to the trace of the heap. -/
theorem prefix_cycleStep {jhash : List UInt64 → UInt32} {u v : Traced} {calls : List SysCall}
    (h : cycleStep jhash u calls = some v) : u.trace <+: v.trace := by
  obtain ⟨w, hw, rfl⟩ := cycleStep_inv h
  have hcalls : u.insmod.trace <+: w.trace := by
    refine run_relation (I := fun _ => True) (R := fun u w => u.trace <+: w.trace)
      (fun _ _ _ _ _ => trivial) (fun _ => List.prefix_refl _) (fun _ _ _ => List.IsPrefix.trans)
      (fun u c w _ hstep => ?_) trivial hw
    obtain ⟨m, -, rfl⟩ := Option.map_eq_some_iff.mp hstep
    exact List.prefix_append _ _
  exact hcalls.trans (List.prefix_append _ _)

/-- An object that a state of rest has freed is freed for good in every later one. -/
theorem freedForGood_later {jhash : List UInt64 → UInt32} {v final : Traced}
    {cycles : List (List SysCall)} (hv : Idle v) (hfinal : Idle final)
    (h : run (cycleStep jhash) v cycles = some final) {o : HeapObject}
    (ho : v.machine.registryView.status o ≠ .unused) :
    FreedForGood v.trace o ∧ FreedForGood final.trace o := by
  have hgood := hv.freedForGood ho
  refine ⟨hgood, hfinal.freedForGood ?_⟩
  have hpre : v.trace <+: final.trace :=
    run_relation (I := fun _ => True) (R := fun u w => u.trace <+: w.trace)
      (fun _ _ _ _ _ => trivial) (fun _ => List.prefix_refl _) (fun _ _ _ => List.IsPrefix.trans)
      (fun u c w _ hstep => prefix_cycleStep hstep) trivial h
  obtain ⟨xs, ys, htrace, -, -⟩ := hgood
  have hmem : HeapEvent.kfree o ∈ final.trace := hpre.subset (by simp [htrace])
  exact ne_unused_of_mem hfinal.tracked hmem

/-- Every cycle of a run starts and ends at rest. -/
theorem idle_run {jhash : List UInt64 → UInt32} {profile : TaskId → Seccomp} {u v : Traced}
    {cycles : List (List SysCall)} (hk : ∀ calls ∈ cycles, ∀ c ∈ calls, c.kmalloc = ⟨true, true⟩)
    (hu : Idle u ∧ SameProfiles profile u) (h : run (cycleStep jhash) u cycles = some v) :
    Idle v ∧ SameProfiles profile v :=
  run_invariant_of (fun _ _ _ hcalls hidle hcycle => idle_cycleStep hcalls hidle hcycle)
    hk hu h

/-- A hit is explained by a call of the same cycle. -/
theorem explained_of_hits {jhash : List UInt64 → UInt32} {profile : TaskId → Seccomp}
    {u w : Traced} {xs : List SysCall} {c : SysCall} (hu : Idle u)
    (hpos : SameProfiles profile u) (hw : run (tracedCall jhash) u.insmod xs = some w)
    (hhit : Hits jhash w.machine c) :
    ∃ d ∈ xs, d.cur = c.cur ∧ d.nr = c.nr ∧ d.key profile = c.key profile := by
  obtain ⟨-, pre, d, post, rfl, -, hcur, hnr, hkey, -⟩ :=
    hits_inv_of_empty (refines_insmod jhash hu hpos) (run_tracedCall hw) hhit
  exact ⟨d, by simp, hcur, hnr, hkey⟩

/-- **Unload and reload leave nothing behind**, in any number of cycles. -/
theorem unload_leavesNothing {jhash : List UInt64 → UInt32} {profile : TaskId → Seccomp}
    {cycles : List (List SysCall)} {final : Traced}
    (hk : ∀ calls ∈ cycles, ∀ c ∈ calls, c.kmalloc = ⟨true, true⟩)
    (h : run (cycleStep jhash) (Traced.start profile) cycles = some final) :
    ∀ pre calls post, cycles = pre ++ calls :: post →
      ∃ u v, run (cycleStep jhash) (Traced.start profile) pre = some u ∧
        cycleStep jhash u calls = some v ∧
        LeavesNothing jhash profile u calls v final := by
  rintro pre calls post rfl
  obtain ⟨u, v, hu, hcycle, hpost⟩ := run_split h
  have hkpre : ∀ calls' ∈ pre, ∀ c ∈ calls', c.kmalloc = ⟨true, true⟩ := fun calls' hm =>
    hk calls' (by simp [hm])
  have hkcalls : ∀ c ∈ calls, c.kmalloc = ⟨true, true⟩ := hk calls (by simp)
  have hkpost : ∀ calls' ∈ post, ∀ c ∈ calls', c.kmalloc = ⟨true, true⟩ := fun calls' hm =>
    hk calls' (by simp [hm])
  have hiu := idle_run hkpre ⟨idle_start profile, fun _ _ => rfl⟩ hu
  have hiv := idle_cycleStep hkcalls hiu hcycle
  have hif := idle_run hkpost hiv hpost
  refine ⟨u, v, hu, hcycle, hiv.1.unhooked, fun b hb => ?_, fun a ha => ?_, ?_, ?_⟩
  · refine freedForGood_later hiv.1 hif.1 hpost ?_
    simp [RegistryView.status, registryView, hb, (hiv.1.blockFreed b).mp hb]
  · refine freedForGood_later hiv.1 hif.1 hpost ?_
    simp [RegistryView.status, registryView, ha, (hiv.1.nodeFreed a).mp ha]
  · obtain ⟨w, hw, rfl⟩ := cycleStep_inv hcycle
    obtain ⟨l, hl⟩ := inCycle_run hiu.1 hkcalls hw
    refine ⟨w, hw, ?_⟩
    rw [show w.rmmod.machine = _ from freeHashTable_eq hl.linked]
    exact frees_of_isList hl.linked.isList
  · rintro xs c ys w - hw hhit
    exact explained_of_hits hiu.1 hiu.2 hw hhit

/-- Two tasks make calls in a first cycle, and one of them again in a second. -/
theorem unload_leavesNothing_twoCycles :
    ∃ final, run (cycleStep fun _ => 0) (Traced.start fun _ => Seccomp.zero [])
        [[plainCall 1, plainCall 2], [plainCall 1, plainCall 1]] =
          some final ∧
      ∃ u v, run (cycleStep fun _ => 0) (Traced.start fun _ => Seccomp.zero [])
          [[plainCall 1, plainCall 2]] = some u ∧
        cycleStep (fun _ => 0) u [plainCall 1, plainCall 1] = some v ∧
        LeavesNothing (fun _ => 0) (fun _ => Seccomp.zero []) u
          [plainCall 1, plainCall 1] v final := by
  obtain ⟨final, hfinal, -⟩ := exists_run_of_map (cycleStep fun _ => 0)
    (Traced.start fun _ => Seccomp.zero [])
    [[plainCall 1, plainCall 2], [plainCall 1, plainCall 1]]
    (fun _ => true) (by decide)
  refine ⟨final, hfinal, unload_leavesNothing (by simp [plainCall]) hfinal
    [[plainCall 1, plainCall 2]] _ [] rfl⟩

end Draco
