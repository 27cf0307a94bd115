/-
# Start-up of the module

`draco_init` publishes the checker first and zeroes the hash table after that.
Here its two statements are separate steps, between which other tasks may make
calls.  What the tables rely on is `SlotsOwned`: every table in use has one owner
and lies below the cursor, and every task with a block is on the process list.
`startup_slotsOwned_iff` says in which interleavings it holds throughout.
-/
import Draco.ProcessList

namespace Draco

open PartialRun

namespace Machine

/-! ## The process list -/

/-- Task `t` is named by a node of the list that starts at `a`. -/
inductive ListedFrom (nodes : ℕ → ProcessNode) (t : TaskId) : Option ℕ → Prop
  | here {a : ℕ} (h : (nodes a).process = t) : ListedFrom nodes t (some a)
  | next {a : ℕ} (h : ListedFrom nodes t (nodes a).next) : ListedFrom nodes t (some a)

/-- Task `t` is on the `process_head` list. -/
def Listed (m : Machine) (t : TaskId) : Prop := ListedFrom m.nodes t m.hashTable.processHead

/-- What a call can change of the process list. -/
def listView (m : Machine) : Option ℕ × (ℕ → ProcessNode) × ℕ :=
  (m.hashTable.processHead, m.nodes, m.nextNode)

theorem listView_of_registryView {m m' : Machine} (h : m'.registryView = m.registryView) :
    m'.listView = m.listView :=
  congrArg (fun v => (v.head, v.nodes, v.nextNode)) h

/-- Every node lies below the allocation mark, and its successor below the node. -/
structure Chained (m : Machine) : Prop where
  head : ∀ a, m.hashTable.processHead = some a → a < m.nextNode
  next : ∀ a b, (m.nodes a).next = some b → b < a

/-- Allocating a new node leaves the lists of old nodes alone. -/
theorem ListedFrom.update {nodes : ℕ → ProcessNode} (hnext : ∀ a b, (nodes a).next = some b → b < a)
    {t : TaskId} {start : Option ℕ} (h : ListedFrom nodes t start) (n : ℕ) (p : ProcessNode)
    (hlt : ∀ a, start = some a → a < n) : ListedFrom (Function.update nodes n p) t start := by
  induction h with
  | here h =>
    rename_i a
    refine .here ?_
    rw [Function.update_of_ne (Nat.ne_of_lt (hlt a rfl)), h]
  | next h ih =>
    rename_i a
    have ha := hlt a rfl
    refine .next ?_
    rw [Function.update_of_ne (Nat.ne_of_lt ha)]
    exact ih fun b hb => Nat.lt_trans (hnext a b hb) ha

/-! ## The invariant -/

/-- Tables have one owner each and lie below the cursor, and every task with a block
is on the process list. -/
structure SlotsOwned (m : Machine) : Prop where
  slotInj : ∀ t s t' s' i, m.slotOf t s = some i → m.slotOf t' s' = some i → t = t' ∧ s = s'
  slotLt : ∀ t s i, m.slotOf t s = some i → i < m.cursor
  listed : ∀ t, m.hook t ≠ none → m.Listed t

/-- What a run of calls of the initialised module keeps. -/
structure Registry (m : Machine) : Prop where
  live : m.Live
  chained : m.Chained
  listed : ∀ t, m.hook t ≠ none → m.Listed t

theorem Registry.slotsOwned {m : Machine} (h : m.Registry) : m.SlotsOwned :=
  ⟨h.live.owned.slotInj, h.live.owned.slotLt, h.listed⟩

theorem registry_boot (profile : TaskId → Seccomp) : (boot profile).Registry where
  live := live_boot profile
  chained := ⟨fun a h => by (cases h), fun a b h => by (cases h)⟩
  listed := fun t h => absurd (hook_boot profile t) h

/-- Everything that the list lemmas read of a state. -/
theorem chained_of_listView {m m' : Machine} (h : m'.listView = m.listView) (hm : m.Chained) :
    m'.Chained := by
  obtain ⟨hhead, hrest⟩ := Prod.mk.inj h
  obtain ⟨hnodes, hnext⟩ := Prod.mk.inj hrest
  exact ⟨fun a ha => by rw [hnext]; exact hm.head a (by rwa [← hhead]),
    fun a b hab => hm.next a b (by rwa [← hnodes])⟩

theorem listed_of_listView {m m' : Machine} (h : m'.listView = m.listView) {t : TaskId}
    (hm : m.Listed t) : m'.Listed t := by
  obtain ⟨hhead, hrest⟩ := Prod.mk.inj h
  obtain ⟨hnodes, -⟩ := Prod.mk.inj hrest
  rw [Listed, hhead, hnodes]
  exact hm

/-- **One call keeps the registry**, when its allocations succeed. -/
theorem registry_callStep {jhash : List UInt64 → UInt32} {m m' : Machine} {c : SysCall}
    (hm : m.Registry) (hk : c.kmalloc = ⟨true, true⟩) (h : callStep jhash m c = some m') :
    m'.Registry := by
  obtain ⟨r, hr, he⟩ := callStep_inv hm.live h
  have hlive := live_callStep hm.live h
  rw [callChecker_live hm.live] at hr
  by_cases hc : c.InRange
  · have hview := registryView_handler hc hr
    rw [hk] at hview
    by_cases hnone : m.hook c.cur = none
    · -- a new node in front of the list
      rw [RegistryView.register_of_success hnone rfl rfl] at hview
      have hhead : m'.hashTable.processHead = some m.nextNode := congrArg RegistryView.head hview
      have hnodes : m'.nodes =
          Function.update m.nodes m.nextNode ⟨m.hashTable.processHead, c.cur⟩ :=
        congrArg RegistryView.nodes hview
      have hnext : m'.nextNode = m.nextNode + 1 := congrArg RegistryView.nextNode hview
      refine ⟨hlive, ⟨fun a ha => ?_, fun a b hab => ?_⟩, fun t ht => ?_⟩
      · rw [hhead] at ha
        cases ha
        rw [hnext]
        exact Nat.lt_succ_self _
      · rw [hnodes] at hab
        by_cases hA : a = m.nextNode
        · rw [hA, Function.update_self] at hab
          rw [hA]
          exact hm.chained.head b hab
        · rw [Function.update_of_ne hA] at hab
          exact hm.chained.next a b hab
      · rw [Listed, hhead, hnodes]
        rcases (he.hooked t).mp ht with ht | ⟨-, rfl, -⟩
        · refine .next ?_
          rw [Function.update_self]
          exact (hm.listed t ht).update hm.chained.next _ _ hm.chained.head
        · refine .here ?_
          rw [Function.update_self]
    · rw [RegistryView.register_of_hook hnone] at hview
      have hlist := listView_of_registryView hview
      refine ⟨hlive, chained_of_listView hlist hm.chained, fun t ht => ?_⟩
      refine listed_of_listView hlist (hm.listed t ?_)
      rcases (he.hooked t).mp ht with ht | ⟨-, rfl, -⟩
      · exact ht
      · exact hnone
  · -- out of range: nothing happens
    rw [handler_outOfRange jhash _ hc] at hr
    cases hr
    exact hm

end Machine

open Machine

/-! ## The two steps of `draco_init` -/

/-- The steps that are interleaved while the module starts. -/
inductive StartOp where
  | call (c : SysCall)
  | publish
  | init

/-- One step. -/
def startStep (jhash : List UInt64 → UInt32) (m : Machine) : StartOp → Option Machine
  | .call c => callStep jhash m c
  | .publish => some (publishChecker m)
  | .init => some (initHashTable m)

/-- The calls `pre` come before `draco_init`, `mid` between its two steps, `post` after
it. -/
def schedule (pre mid post : List SysCall) : List StartOp :=
  pre.map .call ++ .publish :: mid.map .call ++ .init :: post.map .call

/-- The memory is zero-filled when it is mapped, so without a call in between the
second step changes nothing. -/
theorem initHashTable_boot (profile : TaskId → Seccomp) :
    initHashTable (boot profile) = boot profile := rfl

/-- While no task has a block, nothing is owned twice. -/
theorem slotsOwned_of_unhooked {m : Machine} (h : ∀ t, m.hook t = none) : m.SlotsOwned where
  slotInj := by
    intro t s t' s' i hi
    rw [slotOf_of_hook_none (h t)] at hi
    cases hi
  slotLt := by
    intro t s i hi
    rw [slotOf_of_hook_none (h t)] at hi
    cases hi
  listed := fun t ht => absurd (h t) ht

theorem run_startStep_calls (jhash : List UInt64 → UInt32) (m : Machine)
    (calls : List SysCall) :
    run (startStep jhash) m (calls.map .call) = run (callStep jhash) m calls := by
  have hcall : ∀ m c, startStep jhash m (.call c) = callStep jhash m c := fun _ _ => rfl
  exact run_map StartOp.call hcall m calls

/-- A call out of range, or before the checker is published, changes nothing. -/
theorem callStep_idle (jhash : List UInt64 → UInt32) {m : Machine} {c : SysCall}
    (h : m.dracoChecker = .emptyDraco ∨ ¬ c.InRange) : callStep jhash m c = some m := by
  unfold callStep callChecker
  rcases h with h | h
  · rw [h]
    rfl
  · cases m.dracoChecker with
    | emptyDraco => rfl
    | seccompFilterHandler =>
      simp only [handler_outOfRange jhash m h]
      rfl

/-- Calls without a checker, or out of range, change nothing. -/
theorem run_idle (jhash : List UInt64 → UInt32) {m : Machine} {calls : List SysCall}
    (h : ∀ c ∈ calls, m.dracoChecker = .emptyDraco ∨ ¬ c.InRange) :
    run (callStep jhash) m calls = some m := by
  induction calls with
  | nil => rfl
  | cons c calls ih =>
    exact run_cons_of (callStep_idle jhash (h c List.mem_cons_self))
      (ih fun c' hc' => h c' (List.mem_cons_of_mem c hc'))

theorem run_loaded (jhash : List UInt64 → UInt32) (profile : TaskId → Seccomp)
    (calls : List SysCall) :
    run (startStep jhash) (Machine.loaded profile) (calls.map .call) =
      some (Machine.loaded profile) := by
  rw [run_startStep_calls]
  exact run_idle jhash fun _ _ => Or.inl rfl

/-- The publication of the checker leads from the loaded module to the state in which the
hash table is initialised already: it is still zero. -/
theorem run_publish {jhash : List UInt64 → UInt32} {profile : TaskId → Seccomp}
    (pre : List SysCall) {mid : List SysCall} (hout : ∀ c ∈ mid, ¬ c.InRange) :
    run (startStep jhash) (Machine.loaded profile) (pre.map .call ++ .publish :: mid.map .call) =
      some (boot profile) := by
  apply run_append_of (run_loaded jhash profile pre)
  apply run_cons_of rfl
  rw [run_startStep_calls]
  exact run_idle jhash fun c hc => Or.inr (hout c hc)

/-- A prefix of a sequence of calls is a sequence of calls. -/
theorem calls_of_append {zs ys : List StartOp} {calls : List SysCall}
    (h : calls.map .call = zs ++ ys) : ∃ calls', calls' <+: calls ∧ zs = calls'.map .call := by
  obtain ⟨l₁, l₂, rfl, h₁, -⟩ := List.map_eq_append_iff.mp h
  exact ⟨l₁, List.prefix_append l₁ l₂, h₁.symm⟩

/-- A prefix of a sequence with an event in it ends before the event or contains it. -/
theorem prefix_cases {ε : Type*} {as bs xs ys : List ε} {e : ε}
    (h : as ++ e :: bs = xs ++ ys) :
    (∃ zs, as = xs ++ zs) ∨ ∃ zs, xs = as ++ e :: zs ∧ bs = zs ++ ys := by
  rcases List.append_eq_append_iff.mp h with ⟨zs, rfl, hzs⟩ | ⟨zs, rfl, -⟩
  · rcases zs with _ | ⟨z, zs⟩
    · exact Or.inl ⟨[], by simp⟩
    · obtain ⟨rfl, hbs⟩ := List.cons.inj hzs
      exact Or.inr ⟨zs, rfl, hbs⟩
  · exact Or.inl ⟨zs, rfl⟩

/-- A schedule is interrupted before the first step of `draco_init`, between the two steps
or after the second one. -/
theorem prefix_schedule {pre mid post : List SysCall} {xs ys : List StartOp}
    (h : schedule pre mid post = xs ++ ys) :
    (∃ calls, calls <+: pre ∧ xs = calls.map .call) ∨
      (∃ calls, calls <+: mid ∧ xs = pre.map .call ++ .publish :: calls.map .call) ∨
      ∃ calls, calls <+: post ∧
        xs = (pre.map .call ++ .publish :: mid.map .call) ++ .init :: calls.map .call := by
  unfold schedule at h
  rw [List.append_assoc, List.cons_append] at h
  rcases prefix_cases h with ⟨zs, hzs⟩ | ⟨zs, rfl, hrest⟩
  · exact Or.inl (calls_of_append hzs)
  rcases prefix_cases hrest with ⟨zs', hzs'⟩ | ⟨zs', rfl, hlast⟩
  · obtain ⟨calls, hcalls, rfl⟩ := calls_of_append hzs'
    exact Or.inr (Or.inl ⟨calls, hcalls, rfl⟩)
  · obtain ⟨calls, hcalls, rfl⟩ := calls_of_append hlast
    exact Or.inr (Or.inr ⟨calls, hcalls, by rw [List.append_assoc, List.cons_append]⟩)

/-- From the initialised module on the invariant holds. -/
theorem registry_run {jhash : List UInt64 → UInt32} {profile : TaskId → Seccomp} {m : Machine}
    {calls : List SysCall} (hk : ∀ c ∈ calls, c.kmalloc = ⟨true, true⟩)
    (h : run (callStep jhash) (boot profile) calls = some m) : m.Registry :=
  run_invariant_of (fun _ _ _ hc hm hstep => registry_callStep hm hc hstep) hk
    (registry_boot profile) h

/-- A call in range of the loaded module hooks its task for good. -/
theorem hook_of_call {jhash : List UInt64 → UInt32} {profile : TaskId → Seccomp} {m : Machine}
    {calls : List SysCall} (h : run (callStep jhash) (boot profile) calls = some m)
    {c : SysCall} (hmem : c ∈ calls) (hc : c.InRange) (hk : c.kmalloc = ⟨true, true⟩) :
    m.hook c.cur ≠ none := by
  obtain ⟨xs, ys, rfl⟩ := List.append_of_mem hmem
  obtain ⟨u, v, hu, hstep, hrest⟩ := run_split h
  have hulive := live_run_calls (live_boot profile) hu
  obtain ⟨r, -, he⟩ := callStep_inv hulive hstep
  have hv : v.hook c.cur ≠ none := (he.hooked c.cur).mpr (Or.inr ⟨hc, rfl, by rw [hk]⟩)
  refine (run_invariant (I := fun m => m.Live ∧ m.hook c.cur ≠ none)
    (fun m c' m' hm hstep' => ?_) ⟨live_callStep hulive hstep, hv⟩ hrest).2
  obtain ⟨r', -, he'⟩ := callStep_inv hm.1 hstep'
  exact ⟨live_callStep hm.1 hstep', (he'.hooked c.cur).mpr (Or.inl hm.2)⟩

/-- Every state that the schedule reaches satisfies the invariant. -/
def StaysOwned (jhash : List UInt64 → UInt32) (profile : TaskId → Seccomp)
    (ops : List StartOp) : Prop :=
  ∀ xs ys u, ops = xs ++ ys → run (startStep jhash) (Machine.loaded profile) xs = some u →
    u.SlotsOwned

/-- A task that calls between the two steps is hooked, and then on no list. -/
theorem not_inRange_of_staysOwned {jhash : List UInt64 → UInt32} {profile : TaskId → Seccomp}
    {pre mid post : List SysCall} (hk : ∀ c ∈ mid, c.kmalloc = ⟨true, true⟩) {u : Machine}
    (hmid : run (startStep jhash) (Machine.loaded profile)
      (pre.map .call ++ .publish :: mid.map .call) = some u)
    (hstay : StaysOwned jhash profile (schedule pre mid post)) : ∀ c ∈ mid, ¬ c.InRange := by
  intro c hc hin
  have hinit : run (startStep jhash) (Machine.loaded profile)
      ((pre.map .call ++ .publish :: mid.map .call) ++ [.init]) = some (initHashTable u) :=
    run_append_of hmid rfl
  have howned := hstay _ (post.map .call) _ (by simp [schedule]) hinit
  have hcalls : run (callStep jhash) (boot profile) mid = some u := by
    obtain ⟨w, v, hw, hv, hrest⟩ := run_split hmid
    rw [run_loaded] at hw
    cases hw
    cases hv
    rwa [run_startStep_calls] at hrest
  have hhook : (initHashTable u).hook c.cur ≠ none := hook_of_call hcalls hc hin (hk c hc)
  cases howned.listed c.cur hhook

/-- **When slot ownership survives start-up**: exactly when no task makes a call in
range between the two steps of `draco_init`. -/
theorem startup_slotsOwned_iff (jhash : List UInt64 → UInt32) (profile : TaskId → Seccomp)
    {pre mid post : List SysCall} (hk : ∀ c ∈ pre ++ mid ++ post, c.kmalloc = ⟨true, true⟩)
    {u : Machine} (hmid : run (startStep jhash) (Machine.loaded profile)
      (pre.map .call ++ .publish :: mid.map .call) = some u) :
    StaysOwned jhash profile (schedule pre mid post) ↔ ∀ c ∈ mid, ¬ c.InRange := by
  refine ⟨not_inRange_of_staysOwned (fun c hc => hk c (by simp [hc])) hmid, ?_⟩
  intro hout xs ys v hsplit hv
  rcases prefix_schedule hsplit with ⟨calls, -, rfl⟩ | ⟨calls, hcalls, rfl⟩ | ⟨calls, hcalls, rfl⟩
  · -- before the first step
    rw [run_loaded] at hv
    cases hv
    exact slotsOwned_of_unhooked (hook_boot profile)
  · -- between the steps
    rw [run_publish pre fun c hc => hout c (hcalls.subset hc)] at hv
    cases hv
    exact slotsOwned_of_unhooked (hook_boot profile)
  · -- after the second step
    obtain ⟨w, hw, hv⟩ := run_append_inv hv
    rw [run_publish pre hout] at hw
    cases hw
    obtain ⟨w, hw, hv⟩ := run_cons_inv hv
    cases hw
    rw [initHashTable_boot, run_startStep_calls] at hv
    have hk' : ∀ c ∈ calls, c.kmalloc = ⟨true, true⟩ := fun c hc =>
      hk c (by simp [hcalls.subset hc])
    exact (registry_run hk' hv).slotsOwned

/-- Task 1 calls between the two steps, task 2 after them: both then own the first
table of the pool, and task 1 is on no list. -/
theorem startup_two_owners :
    ¬ (∀ (jhash : List UInt64 → UInt32) (profile : TaskId → Seccomp)
      (pre mid post : List SysCall), (∀ c ∈ pre ++ mid ++ post, c.kmalloc = ⟨true, true⟩) →
      StaysOwned jhash profile (schedule pre mid post)) := by
  intro hall
  have hclaim := hall emptyKeyHash (fun _ => Seccomp.zero []) [] [plainCall 1] [plainCall 2]
    (by decide)
  obtain ⟨u, hu, htest⟩ := exists_run_of_map (startStep emptyKeyHash)
    (Machine.loaded fun _ => Seccomp.zero [])
    (schedule [] [plainCall 1] [plainCall 2])
    (fun u => decide (u.slotOf 1 0 = some 0) && decide (u.slotOf 2 0 = some 0))
    (by decide)
  rw [Bool.and_eq_true, decide_eq_true_eq, decide_eq_true_eq] at htest
  have howned := hclaim _ [] u (by simp) hu
  exact absurd (howned.slotInj 1 0 2 0 0 htest.1 htest.2).1 (by decide)

/-- Calls before and after `draco_init` do no harm. -/
theorem startup_slotsOwned_after :
    StaysOwned emptyKeyHash (fun _ => Seccomp.zero [])
      (schedule [plainCall 1] [] [plainCall 1, plainCall 2]) := by
  obtain ⟨u, hu, -⟩ := exists_run_of_map (startStep emptyKeyHash)
    (Machine.loaded fun _ => Seccomp.zero [])
    ([plainCall 1].map .call ++ .publish :: ([] : List SysCall).map .call)
    (fun _ => true) (by decide)
  exact (startup_slotsOwned_iff emptyKeyHash (fun _ => Seccomp.zero []) (by decide) hu).mpr
    (fun c hc => absurd hc List.not_mem_nil)

end Draco
