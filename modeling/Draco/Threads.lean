/-
# One filter context, many threads

The rules of a filter context belong to the process, the Draco profile to each
thread.  A thread sends the masks of the rules that it adds itself, and a load
publishes the masks of the loading thread for that thread only; with the tsync
attribute the kernel hands the filters of the loading thread to all other threads
(`Process.filter_filterLoad`), without any Draco field.  `threadsCovered_iff` says for
which runs every thread under the filter has all compared arguments listed.
-/
import Draco.Architectures

namespace Draco

variable {ι : Type*} [DecidableEq ι]

/-! ## The process -/

/-- The collection of a filter context and the seccomp state of every thread. -/
structure Process (ι : Type*) where
  filters : List DbFilter
  thread : ι → Seccomp

namespace Process

/-- `db_col_rule_add`, called by one of the threads. -/
def ruleAdd (tables : SyscallTables) (native : Arch) (p : Process ι) (e : ι × RuleAdd) :
    Process ι :=
  let r := dbColRuleAdd tables native p.filters (p.thread e.1) e.2
  ⟨r.1, Function.update p.thread e.1 r.2.1⟩

/-- `sys_filter_load`, called by thread `t`.  When the kernel attaches the filter and the
tsync attribute is set, every other thread gets the filters of `t`. -/
def filterLoad (p : Process ι) (F : Filter) (o : LoadOutcome) (tsync : Bool) (t : ι) :
    Process ι :=
  let sec := (sysFilterLoad F o (p.thread t)).1
  let thread := Function.update p.thread t sec
  if tsync = true ∧ o.Attaches then
    ⟨p.filters, fun u => { thread u with filter := sec.filter }⟩
  else ⟨p.filters, thread⟩

/-- The threads that a load by `t` puts under the filter. -/
def AttachedTo (o : LoadOutcome) (tsync : Bool) (t u : ι) : Prop :=
  o.Attaches ∧ (u = t ∨ tsync = true)

instance (o : LoadOutcome) (tsync : Bool) (t u : ι) : Decidable (AttachedTo o tsync t u) :=
  inferInstanceAs (Decidable (_ ∧ _))

/-- These are the threads whose filters change. -/
theorem filter_filterLoad (p : Process ι) (F : Filter) (o : LoadOutcome) (tsync : Bool)
    (t u : ι) :
    ((p.filterLoad F o tsync t).thread u).filter =
      if AttachedTo o tsync t u then F :: (p.thread t).filter else (p.thread u).filter := by
  unfold filterLoad
  by_cases ho : o.Attaches
  · cases tsync with
    | true =>
      have hatt : AttachedTo o true t u := ⟨ho, Or.inr rfl⟩
      rw [if_pos ⟨rfl, ho⟩, if_pos hatt]
      exact (Seccomp.filter_sysFilterLoad F o _).trans (if_pos ho)
    | false =>
      rw [if_neg (fun h => absurd h.1 (by decide))]
      show (Function.update p.thread t _ u).filter = _
      by_cases hu : u = t
      · have hatt : AttachedTo o false t u := ⟨ho, Or.inl hu⟩
        rw [if_pos hatt, hu, Function.update_self, Seccomp.filter_sysFilterLoad, if_pos ho]
      · have hatt : ¬ AttachedTo o false t u := fun h => h.2.elim hu (by decide)
        rw [if_neg hatt, Function.update_of_ne hu]
  · have hatt : ¬ AttachedTo o tsync t u := fun h => ho h.1
    rw [if_neg (fun h => ho h.2), if_neg hatt]
    show (Function.update p.thread t _ u).filter = _
    by_cases hu : u = t
    · rw [hu, Function.update_self, Seccomp.filter_sysFilterLoad, if_neg ho]
    · rw [Function.update_of_ne hu]

theorem filters_filterLoad (p : Process ι) (F : Filter) (o : LoadOutcome) (tsync : Bool)
    (t : ι) : (p.filterLoad F o tsync t).filters = p.filters := by
  unfold filterLoad
  split_ifs <;> rfl

theorem filters_ruleAdd (tables : SyscallTables) (native : Arch) (p : Process ι)
    (e : ι × RuleAdd) :
    (p.ruleAdd tables native e).filters = p.filters.map (e.2.storeIn tables native) :=
  (dbColRuleAdd_eq tables native p.filters (p.thread e.1) e.2).1

theorem thread_ruleAdd (tables : SyscallTables) (native : Arch) (p : Process ι)
    (e : ι × RuleAdd) :
    (p.ruleAdd tables native e).thread =
      Function.update p.thread e.1 (e.2.sendMask (p.thread e.1)) := by
  rw [← (dbColRuleAdd_eq tables native p.filters (p.thread e.1) e.2).2.1]
  rfl

/-- The rules are shared: the databases see the calls of all threads. -/
theorem filters_foldl_ruleAdd (tables : SyscallTables) (native : Arch) (p : Process ι)
    (es : List (ι × RuleAdd)) :
    (es.foldl (ruleAdd tables native) p).filters =
      p.filters.map fun db =>
        { db with
          rules := db.rules ++ (es.map Prod.snd).flatMap fun a =>
            a.stored tables native db.arch } := by
  rw [← RuleAdd.foldl_storeIn]
  induction es generalizing p with
  | nil => rfl
  | cons e es ih => rw [List.foldl_cons, ih, filters_ruleAdd, List.map_cons, List.foldl_cons]

/-- The masks are not shared: the profile of a thread sees its own calls only. -/
theorem thread_foldl_ruleAdd (tables : SyscallTables) (native : Arch) (p : Process ι)
    (es : List (ι × RuleAdd)) (u : ι) :
    (es.foldl (ruleAdd tables native) p).thread u =
      ((es.filter fun e => e.1 = u).map Prod.snd).foldl RuleAdd.sendMask (p.thread u) := by
  induction es generalizing p with
  | nil => rfl
  | cons e es ih =>
    rw [List.foldl_cons, ih, thread_ruleAdd, List.filter_cons]
    by_cases hu : e.1 = u
    · subst hu
      rw [if_pos (decide_eq_true rfl), List.map_cons, List.foldl_cons, Function.update_self]
    · rw [if_neg (by simpa using hu), Function.update_of_ne (Ne.symm hu)]

/-- What a thread has pending after the calls: what it had before, and what it sent. -/
theorem pending_foldl_ruleAdd (tables : SyscallTables) (native : Arch) (p : Process ι)
    (es : List (ι × RuleAdd)) (u : ι) (nr : ℤ) (i : Fin 6) :
    ((es.foldl (ruleAdd tables native) p).thread u).Pending nr i ↔
      (p.thread u).Pending nr i ∨
        (0 ≤ nr ∧ nr < 400 ∧ ∃ e ∈ es, e.1 = u ∧ e.2.Sends nr i) := by
  rw [thread_foldl_ruleAdd, RuleAdd.pending_foldl]
  simp only [List.mem_map, List.mem_filter, decide_eq_true_eq, and_assoc]
  refine or_congr_right (and_congr_right fun _ => and_congr_right fun _ => ?_)
  constructor
  · rintro ⟨_, ⟨e, he, hu, rfl⟩, hsends⟩
    exact ⟨e, he, hu, hsends⟩
  · rintro ⟨e, he, hu, hsends⟩
    exact ⟨e.2, ⟨e, he, hu, rfl⟩, hsends⟩

/-- Adding rules leaves the published tables of all threads alone. -/
theorem lists_foldl_ruleAdd (tables : SyscallTables) (native : Arch) (p : Process ι)
    (es : List (ι × RuleAdd)) (u : ι) (nr : ℤ) (i : Fin 6) :
    ((es.foldl (ruleAdd tables native) p).thread u).Lists nr i ↔ (p.thread u).Lists nr i := by
  rw [thread_foldl_ruleAdd, RuleAdd.lists_foldl]

/-- What a load publishes: for the loading thread its pending bits, for the others nothing
new. -/
theorem lists_filterLoad {p : Process ι} {t : ι} (h : (p.thread t).WellFormed) (F : Filter)
    (o : LoadOutcome) (tsync : Bool) (u : ι) (nr : ℤ) (i : Fin 6) :
    ((p.filterLoad F o tsync t).thread u).Lists nr i ↔
      if u = t then (p.thread t).Pending nr i else (p.thread u).Lists nr i := by
  have hthread : ((p.filterLoad F o tsync t).thread u).Lists nr i ↔
      (Function.update p.thread t (sysFilterLoad F o (p.thread t)).1 u).Lists nr i := by
    unfold filterLoad
    split_ifs <;> exact Iff.rfl
  rw [hthread]
  split_ifs with hu
  · rw [hu, Function.update_self, Seccomp.lists_sysFilterLoad h]
  · rw [Function.update_of_ne hu]

end Process

/-! ## Coverage of every thread -/

/-- Every argument that a rule of the context compares is listed. -/
def Seccomp.ListsRules (sec : Seccomp) (filters : List DbFilter) : Prop :=
  ∀ db ∈ filters, ∀ r ∈ db.rules, 0 ≤ r.syscall → ∀ i, r.Compares i → sec.Lists r.syscall i

/-- The database of `arch` takes the rule of the call. -/
def RuleAdd.TakenBy (tables : SyscallTables) (native : Arch) (a : RuleAdd) (arch : Arch) :
    Prop :=
  a.Accepted ∧ (a.archAdd tables native arch).1 = 0

/-- The rules of a context for x86_64 are those that the database took. -/
theorem listsRules_iff (tables : SyscallTables) (sec : Seccomp) (adds : List RuleAdd) :
    sec.ListsRules [⟨.x86_64, adds.flatMap fun a => a.stored tables .x86_64 .x86_64⟩] ↔
      ∀ a ∈ adds, a.TakenBy tables .x86_64 .x86_64 → 0 ≤ a.syscall →
        ∀ i, a.Compares i → sec.Lists a.syscall i := by
  have hstored : ∀ a : RuleAdd, ∀ r, r ∈ a.stored tables .x86_64 .x86_64 ↔
      a.TakenBy tables .x86_64 .x86_64 ∧ r = a.rule := by
    intro a r
    rw [RuleAdd.stored, a.archAdd_native tables rfl, RuleAdd.TakenBy]
    split_ifs <;> simp [*]
  unfold Seccomp.ListsRules
  rw [List.forall_mem_singleton]
  constructor
  · intro hall a ha htaken h0 i hcomp
    refine hall a.rule ?_ h0 i ((RuleAdd.compares_iff htaken.1 i).mp hcomp)
    exact List.mem_flatMap.mpr ⟨a, ha, (hstored a _).mpr ⟨htaken, rfl⟩⟩
  · intro hall r hr h0 i hcomp
    obtain ⟨a, ha, hr⟩ := List.mem_flatMap.mp hr
    obtain ⟨htaken, rfl⟩ := (hstored a r).mp hr
    exact hall a ha htaken h0 i ((RuleAdd.compares_iff htaken.1 i).mpr hcomp)

/-- **When every thread under the filter has its profile**: exactly when each argument
that a stored rule compares was pending in the loading thread before, or was sent by that
thread for a number below 400, and, with the tsync attribute, every other thread had it
listed already. -/
theorem threadsCovered_iff (tables : SyscallTables) {p : Process ι}
    (hp : p.filters = [⟨.x86_64, []⟩]) (hwf : ∀ u, (p.thread u).WellFormed)
    (es : List (ι × RuleAdd)) (F : Filter) {o : LoadOutcome} (ho : o.Attaches) (tsync : Bool)
    (t : ι) {q : Process ι}
    (hq : (es.foldl (Process.ruleAdd tables .x86_64) p).filterLoad F o tsync t = q) :
    (∀ u, Process.AttachedTo o tsync t u → (q.thread u).ListsRules q.filters) ↔
      ∀ e ∈ es, e.2.TakenBy tables .x86_64 .x86_64 → 0 ≤ e.2.syscall → ∀ i, e.2.Compares i →
        ((p.thread t).Pending e.2.syscall i ∨
          (e.2.syscall < 400 ∧ ∃ d ∈ es, d.1 = t ∧ d.2.Sends e.2.syscall i)) ∧
        (tsync = true → ∀ u, u ≠ t → (p.thread u).Lists e.2.syscall i) := by
  subst hq
  have hwf' : ((es.foldl (Process.ruleAdd tables .x86_64) p).thread t).WellFormed := by
    rw [Process.thread_foldl_ruleAdd]
    exact RuleAdd.wellFormed_foldl (hwf t) _
  rw [Process.filters_filterLoad, Process.filters_foldl_ruleAdd, hp, List.map_singleton]
  simp only [List.nil_append, listsRules_iff, List.forall_mem_map, Process.lists_filterLoad hwf',
    Process.pending_foldl_ruleAdd, Process.lists_foldl_ruleAdd]
  constructor
  · intro hall e he htaken h0 i hcomp
    refine ⟨?_, fun hsync u hu => ?_⟩
    · have ht := hall t ⟨ho, Or.inl rfl⟩ e he htaken h0 i hcomp
      rw [if_pos rfl] at ht
      exact ht.imp_right And.right
    · have hother := hall u ⟨ho, Or.inr hsync⟩ e he htaken h0 i hcomp
      rwa [if_neg hu] at hother
  · intro hall u hu e he htaken h0 i hcomp
    obtain ⟨hloader, hothers⟩ := hall e he htaken h0 i hcomp
    split_ifs with hut
    · exact hloader.imp_right fun h => ⟨h0, h⟩
    · exact hothers (hu.2.resolve_left hut) u hut

/-- Thread 0 adds a rule and loads it without tsync, while thread 1 looks on. -/
theorem one_thread_covered : ∃ q : Process (Fin 2),
    ([(0, allowArg0 41)].foldl (Process.ruleAdd someTables .x86_64)
      ⟨[⟨.x86_64, []⟩], fun _ => Seccomp.zero []⟩).filterLoad (fun _ => .kill) .ok false 0 = q ∧
      ∀ u, Process.AttachedTo .ok false 0 u → (q.thread u).ListsRules q.filters := by
  refine ⟨_, rfl, (threadsCovered_iff someTables rfl (fun _ => Seccomp.wellFormed_zero [])
    [(0, allowArg0 41)] (fun _ => .kill) (by decide) false 0 rfl).mpr ?_⟩
  intro e he _ _ i hcomp
  obtain rfl := List.mem_singleton.mp he
  exact ⟨Or.inr ⟨by decide, _, he, rfl, by decide, rfl, hcomp⟩, fun h => absurd h (by decide)⟩

/-- Thread 1 adds the rule and thread 0 loads it: the mask stays with thread 1. -/
theorem other_thread_not_covered : ∃ q : Process (Fin 2),
    ([(1, allowArg0 41)].foldl (Process.ruleAdd someTables .x86_64)
      ⟨[⟨.x86_64, []⟩], fun _ => Seccomp.zero []⟩).filterLoad (fun _ => .kill) .ok false 0 = q ∧
      ¬ ∀ u, Process.AttachedTo .ok false 0 u → (q.thread u).ListsRules q.filters := by
  refine ⟨_, rfl, fun hall => ?_⟩
  obtain ⟨db, hdb, r, hr, hnr, hcomp⟩ : ∃ db ∈
      ([(1, allowArg0 41)].foldl (Process.ruleAdd someTables .x86_64)
        (⟨[⟨.x86_64, []⟩], fun _ => Seccomp.zero []⟩ : Process (Fin 2))).filters,
      ∃ r ∈ db.rules, r.syscall = 41 ∧ r.Compares 0 := by decide
  have hlisted := hall 0 (by decide) db hdb r hr (by omega) 0 hcomp
  rw [hnr] at hlisted
  revert hlisted
  decide

end Draco
