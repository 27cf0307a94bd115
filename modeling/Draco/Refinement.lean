/-
# The hash table refines the first-come cache

`Refines` relates a machine to a cache: hooks, tables, the pool cursor, and for
each table the rows of each set, which are the remembered keys of that set with
their zero padding.  `Refines.step` shows that one call keeps the relation,
`refines_run` that every run of the loaded module does, and `hits_iff` reads off
what the next call returns.
-/
import Draco.Cache
import Draco.Kernel

namespace Draco

open FirstCome PartialRun Machine

/-! ## The relation -/

/-- The machine stores what the cache remembers. -/
structure Refines (jhash : List UInt64 → UInt32) (profile : TaskId → Seccomp) (m : Machine)
    (S : Cache) : Prop where
  live : m.Live
  positions : ∀ t s, (m.seccomp t).positions s = (profile t).positions s
  hooked : ∀ t, m.hook t ≠ none ↔ t ∈ S.hooked
  slotOf : ∀ t s i, m.slotOf t s = some i ↔ S.tables[i]? = some (t, s)
  cursor : m.cursor = S.tables.length
  rows : ∀ t s i, m.slotOf t s = some i → ∀ h,
    m.rowsAt i h = (S.recorded jhash t s h).map padded
  length : ∀ t s, ∀ key ∈ S.presented t s, key.length = (profile t).argumentCount s
  unused : ∀ t s, m.slotOf t s = none → S.presented t s = []

/-- With an empty hash table and no task hooked the module is an empty cache. -/
theorem refines_of_empty (jhash : List UInt64 → UInt32) {profile : TaskId → Seccomp}
    {m : Machine} (hchk : m.dracoChecker = .seccompFilterHandler) (hhook : ∀ t, m.hook t = none)
    (htable : m.hashTable = HashTable.zero)
    (hpos : ∀ t s, (m.seccomp t).positions s = (profile t).positions s) :
    Refines jhash profile m Cache.empty where
  live := ⟨owned_of_empty hhook htable, hchk⟩
  positions := hpos
  hooked := fun t => by simp [hhook, Cache.empty]
  slotOf := fun t s i => by rw [slotOf_of_hook_none (hhook t)]; simp [Cache.empty]
  cursor := by rw [cursor, htable]; rfl
  rows := fun t s i h => by rw [slotOf_of_hook_none (hhook t)] at h; cases h
  length := fun _ _ _ h => absurd h List.not_mem_nil
  unused := fun _ _ _ => rfl

/-- The loaded module is empty. -/
theorem refines_boot (jhash : List UInt64 → UInt32) (profile : TaskId → Seccomp) :
    Refines jhash profile (boot profile) Cache.empty :=
  refines_of_empty jhash rfl (hook_boot profile) rfl (positions_boot profile)

/-- A related machine returns from every call. -/
theorem callChecker_isSome {jhash : List UInt64 → UInt32} {profile : TaskId → Seccomp}
    {m : Machine} {S : Cache} (h : Refines jhash profile m S)
    (hcount : ∀ t, ∀ s < 400, (profile t).argumentCount s ≤ 6) (c : SysCall) :
    ∃ m' r, callChecker jhash m c = some (m', r) := by
  rw [callChecker_live h.live]
  refine handler_isSome jhash h.live.owned fun hc => ?_
  rw [← Seccomp.length_positions, h.positions, Seccomp.length_positions]
  exact hcount _ _ (syscallId_lt hc)

namespace Cache

theorem mem_presented_of_mem_recorded {jhash : List UInt64 → UInt32} {S : Cache} {t : TaskId}
    {s h : ℕ} {key : List UInt64} (hk : key ∈ S.recorded jhash t s h) :
    key ∈ S.presented t s ∧ hashCode jhash key = h := by
  simpa using mem_of_mem_firstCome hk

/-- A call offers its key to one set. -/
theorem recorded_step (jhash : List UInt64 → UInt32) (profile : TaskId → Seccomp) (S : Cache)
    (c : SysCall) (t : TaskId) (s h : ℕ) :
    (S.step profile c).recorded jhash t s h =
      if S.Obtains c ∧ t = c.cur ∧ s = c.syscallId ∧ h = hashCode jhash (c.key profile) then
        offer ASOS (S.recorded jhash t s h) (c.key profile)
      else S.recorded jhash t s h := by
  unfold recorded step
  dsimp only
  by_cases hobt : S.Obtains c ∧ t = c.cur ∧ s = c.syscallId
  · rw [if_pos hobt, List.filter_append]
    by_cases hh : hashCode jhash (c.key profile) = h
    · rw [if_pos ⟨hobt.1, hobt.2.1, hobt.2.2, hh.symm⟩,
        List.filter_cons_of_pos (by simpa using hh), List.filter_nil, firstCome_snoc]
    · rw [if_neg (fun h' => hh h'.2.2.2.symm), List.filter_cons_of_neg (by simpa using hh),
        List.filter_nil, List.append_nil]
  · rw [if_neg hobt, if_neg (fun h' => hobt ⟨h'.1, h'.2.1, h'.2.2.1⟩)]

end Cache

/-- The entries of a list with one more element at its end. -/
theorem getElem?_concat_eq_some_iff {α : Type*} {l : List α} {x y : α} {i : ℕ} :
    (l ++ [x])[i]? = some y ↔ l[i]? = some y ∨ (i = l.length ∧ y = x) := by
  rcases Nat.lt_trichotomy i l.length with hlt | rfl | hgt
  · rw [List.getElem?_append_left hlt]
    simp only [Nat.ne_of_lt hlt, false_and, or_false]
  · rw [List.getElem?_concat_length, List.getElem?_eq_none (Nat.le_refl _)]
    simp [eq_comm]
  · rw [List.getElem?_eq_none (by simp; omega), List.getElem?_eq_none (Nat.le_of_lt hgt)]
    simp [Nat.ne_of_gt hgt]

namespace Refines

variable {jhash : List UInt64 → UInt32} {profile : TaskId → Seccomp} {m m' : Machine}
  {S : Cache} {c : SysCall} {r : ℤ}

theorem callKey (h : Refines jhash profile m S) (c : SysCall) :
    m.callKey c = c.key profile := by
  rw [Machine.callKey, SysCall.key, argumentList, argumentList, h.positions]

theorem mem_tables (h : Refines jhash profile m S) (t : TaskId) (s : ℕ) :
    (t, s) ∈ S.tables ↔ m.slotOf t s ≠ none := by
  rw [List.mem_iff_getElem?]
  constructor
  · rintro ⟨i, hi⟩
    rw [(h.slotOf t s i).mpr hi]
    exact Option.some_ne_none i
  · intro hne
    obtain ⟨i, hi⟩ := Option.ne_none_iff_exists'.mp hne
    exact ⟨i, (h.slotOf t s i).mp hi⟩

/-- In a related state a row matches the key of a call exactly when the cache
remembers the key. -/
theorem matches_iff (h : Refines jhash profile m S) {i : ℕ}
    (hi : m.slotOf c.cur c.syscallId = some i) :
    Matches jhash m c i ↔ S.Remembers jhash profile c := by
  unfold Matches Cache.Remembers
  rw [h.callKey, h.rows _ _ i hi]
  -- all keys of a table have the length of the profile
  have hlen : ∀ key ∈ S.recorded jhash c.cur c.syscallId (hashCode jhash (c.key profile)),
      (c.key profile).length = key.length := by
    intro key hkey
    rw [h.length _ _ key (Cache.mem_presented_of_mem_recorded hkey).1, SysCall.key, argumentList,
      List.length_map, Seccomp.length_positions]
  constructor
  · rintro ⟨row, hrow, hpre⟩
    obtain ⟨key, hkey, rfl⟩ := List.mem_map.mp hrow
    rwa [← (prefix_padded_iff (hlen key hkey)).mp hpre] at hkey
  · intro hmem
    exact ⟨_, List.mem_map_of_mem hmem, prefix_padded _⟩

/-- What a call returns is what the cache says. -/
theorem result_iff (h : Refines jhash profile m S) (he : HandlerEffect jhash m c m' r) :
    r = 1 ↔ c.InRange ∧ m.slotOf c.cur c.syscallId ≠ none ∧ S.Remembers jhash profile c := by
  rw [he.result_iff h.live.owned]
  constructor
  · rintro ⟨hc, i, hi, hm⟩
    exact ⟨hc, by rw [hi]; exact Option.some_ne_none i, (h.matches_iff hi).mp hm⟩
  · rintro ⟨hc, hne, hm⟩
    obtain ⟨i, hi⟩ := Option.ne_none_iff_exists'.mp hne
    exact ⟨hc, i, hi, (h.matches_iff hi).mpr hm⟩

theorem obtains_iff (h : Refines jhash profile m S) (he : HandlerEffect jhash m c m' r) :
    S.Obtains c ↔ c.InRange ∧ m'.slotOf c.cur c.syscallId ≠ none := by
  unfold Cache.Obtains Cache.Registers
  rw [← h.hooked, h.mem_tables, ← h.cursor]
  constructor
  · rintro ⟨hc, hobt⟩
    exact ⟨hc, (he.obtained hc).mpr hobt⟩
  · rintro ⟨hc, hne⟩
    exact ⟨hc, (he.obtained hc).mp hne⟩

/-- The tables after a call, as the cache has them. -/
theorem slotOf_step (h : Refines jhash profile m S) (he : HandlerEffect jhash m c m' r)
    (t : TaskId) (s i : ℕ) :
    m'.slotOf t s = some i ↔ (S.step profile c).tables[i]? = some (t, s) := by
  have hobt := h.obtains_iff he
  have hmem := h.mem_tables c.cur c.syscallId
  unfold Cache.step
  dsimp only
  split_ifs with hnew
  · -- a new table: the one at the cursor
    have hnone : m.slotOf c.cur c.syscallId = none := by
      by_contra hne
      exact hnew.2 (hmem.mpr hne)
    obtain ⟨hc, hne⟩ := hobt.mp hnew.1
    obtain ⟨j, hj⟩ := Option.ne_none_iff_exists'.mp hne
    have hjc : j = S.tables.length := (he.slotNew j hnone hj).1.trans h.cursor
    rw [getElem?_concat_eq_some_iff, ← h.slotOf, Prod.mk.injEq]
    by_cases hts : t = c.cur ∧ s = c.syscallId
    · rw [hts.1, hts.2, hj, hnone, Option.some.injEq, hjc]
      simp [eq_comm]
    · rw [he.slotOther t s fun h' => hts h'.2]
      simp only [hts, and_false, or_false]
  · -- no new table
    rw [← h.slotOf]
    by_cases hts : c.InRange ∧ t = c.cur ∧ s = c.syscallId
    · obtain ⟨hc, rfl, rfl⟩ := hts
      cases hs : m.slotOf c.cur c.syscallId with
      | some j => rw [he.slotKeep _ _ j hs]
      | none =>
        cases hs' : m'.slotOf c.cur c.syscallId with
        | none => rfl
        | some j =>
          refine absurd ⟨hobt.mpr ⟨hc, by rw [hs']; exact Option.some_ne_none j⟩, ?_⟩ hnew
          rw [hmem]
          exact fun hne => hne hs
    · rw [he.slotOther t s hts]

theorem cursor_step (h : Refines jhash profile m S) (he : HandlerEffect jhash m c m' r) :
    m'.cursor = (S.step profile c).tables.length := by
  have hobt := h.obtains_iff he
  have hmem := h.mem_tables c.cur c.syscallId
  unfold Cache.step
  dsimp only
  split_ifs with hnew
  · have hnone : m.slotOf c.cur c.syscallId = none := by
      by_contra hne
      exact hnew.2 (hmem.mpr hne)
    obtain ⟨j, hj⟩ := Option.ne_none_iff_exists'.mp (hobt.mp hnew.1).2
    rw [(he.slotNew j hnone hj).2, h.cursor, List.length_append, List.length_singleton]
  · rw [← h.cursor]
    apply he.cursorKeep
    by_contra hboth
    rw [not_or, not_not] at hboth
    -- only a call in range can obtain a table
    have hc : c.InRange := by
      by_contra hc
      exact hboth.2 (by rw [he.slotOther _ _ (fun h' => hc h'.1), hboth.1])
    exact hnew ⟨hobt.mpr ⟨hc, hboth.2⟩, fun hin => hmem.mp hin hboth.1⟩

/-- Before the call the rows of a table were the remembered keys, also of a table that the
call obtains. -/
theorem rows_before (h : Refines jhash profile m S) (he : HandlerEffect jhash m c m' r)
    {t : TaskId} {s i : ℕ} (hi : m'.slotOf t s = some i) (k : ℕ) :
    m.rowsAt i k = (S.recorded jhash t s k).map padded := by
  cases hs : m.slotOf t s with
  | some j =>
    rw [← he.slot_unique hs hi, h.rows t s j hs]
  | none =>
    have hts : c.InRange ∧ t = c.cur ∧ s = c.syscallId := by
      by_contra hts
      rw [he.slotOther t s hts, hs] at hi
      cases hi
    obtain ⟨-, rfl, rfl⟩ := hts
    have hic := (he.slotNew i hs hi).1
    rw [Cache.recorded, h.unused _ _ hs, hic, h.live.owned.unused _ (Nat.le_refl _)]
    rfl

/-- A row matches the key of the call exactly when the cache remembers the key, also in a
table that the call obtains. -/
theorem matches_iff_remembers (h : Refines jhash profile m S)
    (he : HandlerEffect jhash m c m' r) {i : ℕ} (hi : m'.slotOf c.cur c.syscallId = some i) :
    Matches jhash m c i ↔ S.Remembers jhash profile c := by
  cases hs : m.slotOf c.cur c.syscallId with
  | some j => exact h.matches_iff (by rw [hs, he.slot_unique hs hi])
  | none =>
    constructor
    · intro hm
      have hsome := he.slotOf_of_matches h.live.owned hi hm
      rw [hs] at hsome
      cases hsome
    · intro hm
      unfold Cache.Remembers at hm
      rw [Cache.recorded, h.unused _ _ hs] at hm
      exact absurd hm List.not_mem_nil

/-- The rows after a call: the set of the call's key takes the offer. -/
theorem rows_step (h : Refines jhash profile m S) (he : HandlerEffect jhash m c m' r)
    {t : TaskId} {s i : ℕ} (hi : m'.slotOf t s = some i) (k : ℕ) :
    m'.rowsAt i k = ((S.step profile c).recorded jhash t s k).map padded := by
  rw [he.rows, Cache.recorded_step, h.rows_before he hi, h.callKey, List.length_map]
  have hobt := h.obtains_iff he
  by_cases hts : c.InRange ∧ t = c.cur ∧ s = c.syscallId
  · obtain ⟨hc, rfl, rfl⟩ := hts
    have hobt' : S.Obtains c := hobt.mpr ⟨hc, by rw [hi]; exact Option.some_ne_none i⟩
    by_cases hk : k = hashCode jhash (c.key profile)
    · subst hk
      have hm : Matches jhash m c i ↔ c.key profile ∈
          S.recorded jhash c.cur c.syscallId (hashCode jhash (c.key profile)) :=
        h.matches_iff_remembers he hi
      rw [if_pos (c := S.Obtains c ∧ _) ⟨hobt', rfl, rfl, rfl⟩]
      by_cases hmem : c.key profile ∈
          S.recorded jhash c.cur c.syscallId (hashCode jhash (c.key profile))
      · rw [offer_of_mem hmem, if_neg fun h' => h'.2.2.2.1 (hm.mpr hmem)]
      · rcases Nat.lt_or_ge (S.recorded jhash c.cur c.syscallId
          (hashCode jhash (c.key profile))).length 4 with hlt | hge
        · rw [offer_of_new hmem hlt, if_pos ⟨hc, hi, rfl, fun h' => hmem (hm.mp h'), hlt⟩,
            List.map_append]
          rfl
        · rw [offer_of_full hge, if_neg fun h' => by omega]
    · rw [if_neg (fun h' => hk h'.2.2.1), if_neg (fun h' => hk h'.2.2.2)]
  · rw [if_neg (c := S.Obtains c ∧ _) (fun h' => hts ⟨(hobt.mp h'.1).1, h'.2.1, h'.2.2.1⟩)]
    rw [if_neg]
    rintro ⟨hc, hi', -⟩
    obtain ⟨ht, hs⟩ := he.owned.slotInj _ _ _ _ i hi hi'
    exact hts ⟨hc, ht, hs⟩

/-- **One call keeps the relation.** -/
theorem step (h : Refines jhash profile m S) (he : HandlerEffect jhash m c m' r) :
    Refines jhash profile m' (S.step profile c) where
  live := ⟨he.owned, he.frame.dracoChecker.trans h.live.checker⟩
  positions := fun t s => by rw [he.frame.positions, h.positions]
  hooked := fun t => by rw [he.hooked, Cache.mem_hooked_step, h.hooked]
  slotOf := h.slotOf_step he
  cursor := h.cursor_step he
  rows := fun t s i hi k => h.rows_step he hi k
  length := by
    intro t s key hkey
    unfold Cache.step at hkey
    dsimp only at hkey
    split_ifs at hkey with hc
    · rcases List.mem_append.mp hkey with hkey | hkey
      · exact h.length t s key hkey
      · rw [List.mem_singleton.mp hkey, SysCall.key, argumentList, List.length_map,
          Seccomp.length_positions, hc.2.1, hc.2.2]
    · exact h.length t s key hkey
  unused := by
    intro t s hs
    have hs₀ : m.slotOf t s = none := by
      by_contra hne
      obtain ⟨i, hi⟩ := Option.ne_none_iff_exists'.mp hne
      rw [he.slotKeep t s i hi] at hs
      cases hs
    unfold Cache.step
    dsimp only
    rw [if_neg, h.unused t s hs₀]
    rintro ⟨hobt, rfl, rfl⟩
    exact ((h.obtains_iff he).mp hobt).2 hs

end Refines

/-! ## Runs -/

/-- A run from an empty module refines the cache. -/
theorem Refines.run_of_empty {jhash : List UInt64 → UInt32} {profile : TaskId → Seccomp}
    {m₀ m : Machine} {calls : List SysCall} (h₀ : Refines jhash profile m₀ Cache.empty)
    (h : run (callStep jhash) m₀ calls = some m) :
    Refines jhash profile m (Cache.after profile calls) := by
  refine run_simulation (fun s c s' S hS hstep => ?_) h₀ h
  obtain ⟨r, -, he⟩ := callStep_inv hS.live hstep
  exact hS.step he

/-- **Every run of the loaded module refines the cache.** -/
theorem refines_run {jhash : List UInt64 → UInt32} {profile : TaskId → Seccomp} {m : Machine}
    {calls : List SysCall} (h : run (callStep jhash) (boot profile) calls = some m) :
    Refines jhash profile m (Cache.after profile calls) :=
  (refines_boot jhash profile).run_of_empty h

/-- Under profiles of at most six positions every run is defined. -/
theorem run_isSome_of_count {profile : TaskId → Seccomp}
    (hcount : ∀ t, ∀ s < 400, (profile t).argumentCount s ≤ 6)
    (jhash : List UInt64 → UInt32) (calls : List SysCall) :
    ∃ m, run (callStep jhash) (boot profile) calls = some m ∧
      Refines jhash profile m (Cache.after profile calls) := by
  have hI : ∀ m c, (∃ S, Refines jhash profile m S) →
      ∃ m', callStep jhash m c = some m' ∧ ∃ S, Refines jhash profile m' S := by
    rintro m c ⟨S, hS⟩
    obtain ⟨m', r, hr⟩ := callChecker_isSome hS hcount c
    exact ⟨m', by rw [callStep, hr]; rfl, _, hS.step (callChecker_effect hS.live hr)⟩
  obtain ⟨m, hm, -⟩ := run_isSome hI ⟨_, refines_boot jhash profile⟩ calls
  exact ⟨m, hm, refines_run hm⟩

theorem hits_iff {jhash : List UInt64 → UInt32} {profile : TaskId → Seccomp} {m : Machine}
    {S : Cache} (h : Refines jhash profile m S) {c : SysCall}
    (hret : ∃ m' r, callChecker jhash m c = some (m', r)) :
    Hits jhash m c ↔ c.InRange ∧ m.slotOf c.cur c.syscallId ≠ none ∧
      S.Remembers jhash profile c := by
  obtain ⟨m', r, hr⟩ := hret
  rw [← h.result_iff (callChecker_effect h.live hr), Hits]
  constructor
  · rintro ⟨m₁, h₁⟩
    rw [hr] at h₁
    cases h₁
    rfl
  · rintro rfl
    exact ⟨m', hr⟩

/-- **The hash table refines a plain first-come model.**  After any calls by any
tasks the next call returns 1 exactly when its task has a table for the syscall
and its key is one of the first four distinct keys presented to that table with
the same hash code; it returns 0 otherwise.  A key that is remembered hits ever
after, and a key that comes to a full set never does. -/
theorem handler_refines_firstCome (jhash : List UInt64 → UInt32) (profile : TaskId → Seccomp)
    (hcount : ∀ t, ∀ s < SYSCALL_COUNT, (profile t).argumentCount s ≤ MAX_ARGUMENT_COUNT)
    (calls : List SysCall) :
    ∃ m, run (callStep jhash) (boot profile) calls = some m ∧ ∀ c : SysCall,
      (∃ m' r, callChecker jhash m c = some (m', r) ∧ (r = 0 ∨ r = 1) ∧
        (r = 1 ↔ c.InRange ∧ m.slotOf c.cur c.syscallId ≠ none ∧
          c.key profile ∈
            (((Cache.after profile calls).presented c.cur c.syscallId).filter fun key =>
              hashCode jhash key = hashCode jhash (c.key profile)).eraseDups.take ASOS)) ∧
      ∀ later m₂, run (callStep jhash) m later = some m₂ →
        (c.InRange → (Cache.after profile calls).Remembers jhash profile c → Hits jhash m₂ c) ∧
        (ASOS ≤ ((Cache.after profile calls).recorded jhash c.cur c.syscallId
            (hashCode jhash (c.key profile))).length →
          ¬ (Cache.after profile calls).Remembers jhash profile c → ¬ Hits jhash m₂ c) := by
  obtain ⟨m, hm, hS⟩ := run_isSome_of_count hcount jhash calls
  refine ⟨m, hm, fun c => ⟨?_, fun later m₂ hm₂ => ?_⟩⟩
  · obtain ⟨m', r, hr⟩ := callChecker_isSome hS hcount c
    have he := callChecker_effect hS.live hr
    refine ⟨m', r, hr, he.result_zero_or_one, ?_⟩
    rw [hS.result_iff he, ← firstCome_eq_take]
    rfl
  · have hS₂ : Refines jhash profile m₂ (Cache.after profile (calls ++ later)) :=
      refines_run (run_append_of hm hm₂)
    rw [hits_iff hS₂ (callChecker_isSome hS₂ hcount c)]
    constructor
    · intro hc hrem
      have hrem₂ := (Cache.recorded_mono jhash profile calls later _ _ _).subset hrem
      refine ⟨hc, fun hnone => ?_, hrem₂⟩
      have := (Cache.mem_presented_of_mem_recorded hrem₂).1
      rw [hS₂.unused _ _ hnone] at this
      exact absurd this List.not_mem_nil
    · rintro hfull hnot ⟨-, -, hrem⟩
      rw [Cache.Remembers, Cache.recorded_of_full later hfull] at hrem
      exact hnot hrem

/-- Every task has loaded a mask for the first argument of `close`. -/
def closeProfile (_ : TaskId) : Seccomp :=
  prctlDracoLoadSeccomp (prctlDracoAddSeccomp (Seccomp.zero []) 3 1).1

/-- Task 1 closes a descriptor. -/
def closeCall (fd : UInt64) : SysCall :=
  ⟨1, 3, .x86_64, { (default : PtRegs) with di := fd }, ⟨true, true⟩⟩

/-- The values of `jhash` on five descriptors, all 47 modulo 149. -/
def closeHash (key : List UInt64) : UInt32 :=
  if key = [20] then 483954729
  else if key = [26] then 979612318
  else if key = [72] then 519330756
  else if key = [91] then 3131445286
  else 2683199646

/-- Five descriptors with one hash code: the first four are remembered ever after, the fifth
never is. -/
theorem handler_refines_firstCome_close :
    ∃ m, run (callStep closeHash) (boot closeProfile) ([20, 26, 72, 91, 145].map closeCall) =
        some m ∧
      ∀ later m₂, run (callStep closeHash) m later = some m₂ →
        (∀ fd ∈ ([20, 26, 72, 91] : List UInt64), Hits closeHash m₂ (closeCall fd)) ∧
          ¬ Hits closeHash m₂ (closeCall 145) := by
  have hwf : ∀ t, (closeProfile t).WellFormed := fun _ =>
    Seccomp.wellFormed_load (Seccomp.wellFormed_add (Seccomp.wellFormed_zero []) 3 (by decide))
  obtain ⟨m, hm, h⟩ := handler_refines_firstCome closeHash closeProfile
    (fun t => (hwf t).count) ([20, 26, 72, 91, 145].map closeCall)
  refine ⟨m, hm, fun later m₂ hm₂ => ⟨fun fd hfd => ?_, ?_⟩⟩
  · have hrem : ∀ fd ∈ ([20, 26, 72, 91] : List UInt64), (closeCall fd).InRange ∧
        (Cache.after closeProfile ([20, 26, 72, 91, 145].map closeCall)).Remembers closeHash
          closeProfile (closeCall fd) := by
      intro fd hfd
      simp only [List.mem_cons, List.not_mem_nil, or_false] at hfd
      rcases hfd with rfl | rfl | rfl | rfl <;> exact ⟨by decide, by decide⟩
    exact ((h (closeCall fd)).2 later m₂ hm₂).1 (hrem fd hfd).1 (hrem fd hfd).2
  · exact ((h (closeCall 145)).2 later m₂ hm₂).2 (by decide) (by decide)

end Draco
