/-
# What a rule leaves in the databases and in the profile

A call of `db_col_rule_add` splits into two independent halves
(`dbColRuleAdd_eq`): every database of the collection gets the rules that its
architecture makes of the collected chain (`RuleAdd.storeIn`), and the pending
profile of the calling task gets the mask (`RuleAdd.sendMask`).  For both halves
this file says what the loop over `arg_array` collected in terms of the array
itself (`collected_eq_some`, `collected_isSome_iff`), and what a list of calls
leaves behind (`RuleAdd.foldl_storeIn`, `pending_foldl`).
-/
import Draco.Libseccomp
import Draco.Profile

namespace Draco

/-! ## The loop over `arg_array` -/

namespace ScmpArgCmp

/-- The element of the chain that a comparison fills. -/
def apiArg (c : ScmpArgCmp) : DbApiArg :=
  if c.op = .maskedEq then ⟨c.op, c.datumA, c.datumB, true⟩
  else ⟨c.op, DATUM_MAX, c.datumA, true⟩

/-- What a comparison adds to the mask: nothing in the case `SCMP_CMP_MASKED_EQ`. -/
def bit (c : ScmpArgCmp) : BitVec 32 :=
  if c.op = .maskedEq then 0 else 1#32 <<< c.arg

@[simp] theorem op_apiArg (c : ScmpArgCmp) : c.apiArg.op = c.op := by
  unfold apiArg
  split_ifs <;> rfl

@[simp] theorem valid_apiArg (c : ScmpArgCmp) : c.apiArg.valid = true := by
  unfold apiArg
  split_ifs <;> rfl

end ScmpArgCmp

/-- The loop of `db_col_rule_add` goes on while the argument index is in range, not used before,
and the operator known. -/
theorem collectArgs_cons {c : ScmpArgCmp} {rest : List ScmpArgCmp}
    {chain : Fin 6 → DbApiArg} {argPosition : BitVec 32}
    {r : (Fin 6 → DbApiArg) × BitVec 32} :
    collectArgs (c :: rest) chain argPosition = some r ↔
      ∃ h : c.arg < 6, (chain ⟨c.arg, h⟩).valid = false ∧ c.op ≠ .invalid ∧
        collectArgs rest (Function.update chain ⟨c.arg, h⟩ c.apiArg) (argPosition + c.bit) =
          some r := by
  rw [collectArgs]
  by_cases h : c.arg < 6
  · rw [dif_pos h]
    cases hv : (chain ⟨c.arg, h⟩).valid with
    | true => simp [hv, h]
    | false =>
      rw [if_neg (by simp)]
      have hbit : argPosition + 0#32 = argPosition := BitVec.add_zero argPosition
      cases hop : c.op <;> simp [h, hv, ScmpArgCmp.apiArg, ScmpArgCmp.bit, hop]
  · rw [dif_neg h]
    simp [h]

/-- The array is accepted when it names six arguments at most once each and every
operator is known. -/
theorem collectArgs_isSome {l : List ScmpArgCmp} {chain : Fin 6 → DbApiArg}
    {argPosition : BitVec 32} :
    (collectArgs l chain argPosition).isSome = true ↔
      (∀ c ∈ l, ∃ h : c.arg < 6, (chain ⟨c.arg, h⟩).valid = false ∧ c.op ≠ .invalid) ∧
        (l.map ScmpArgCmp.arg).Nodup := by
  induction l generalizing chain argPosition with
  | nil => simp [collectArgs]
  | cons c l ih =>
    rw [Option.isSome_iff_exists]
    simp only [collectArgs_cons]
    constructor
    · rintro ⟨r, h, hv, hop, hr⟩
      obtain ⟨hl, hnodup⟩ := ih.mp (Option.isSome_iff_exists.mpr ⟨r, hr⟩)
      -- the entry just filled is valid, so no later comparison names it
      have hne : ∀ d ∈ l, d.arg ≠ c.arg := by
        intro d hd heq
        obtain ⟨h', hv', -⟩ := hl d hd
        rw [show (⟨d.arg, h'⟩ : Fin 6) = ⟨c.arg, h⟩ from Fin.ext heq, Function.update_self,
          ScmpArgCmp.valid_apiArg] at hv'
        exact absurd hv' (by decide)
      refine ⟨?_, ?_⟩
      · intro d hd
        rcases List.mem_cons.mp hd with rfl | hd
        · exact ⟨h, hv, hop⟩
        · obtain ⟨h', hv', hop'⟩ := hl d hd
          rw [Function.update_of_ne (fun heq => hne d hd (congrArg Fin.val heq))] at hv'
          exact ⟨h', hv', hop'⟩
      · rw [List.map_cons, List.nodup_cons]
        refine ⟨?_, hnodup⟩
        intro hmem
        obtain ⟨d, hd, heq⟩ := List.mem_map.mp hmem
        exact hne d hd heq
    · rintro ⟨hall, hnodup⟩
      obtain ⟨h, hv, hop⟩ := hall c List.mem_cons_self
      rw [List.map_cons, List.nodup_cons] at hnodup
      have hrest : (collectArgs l (Function.update chain ⟨c.arg, h⟩ c.apiArg)
          (argPosition + c.bit)).isSome = true := by
        refine ih.mpr ⟨?_, hnodup.2⟩
        intro d hd
        obtain ⟨h', hv', hop'⟩ := hall d (List.mem_cons_of_mem c hd)
        refine ⟨h', ?_, hop'⟩
        rw [Function.update_of_ne]
        · exact hv'
        · intro heq
          exact hnodup.1 (List.mem_map.mpr ⟨d, hd, congrArg Fin.val heq⟩)
      obtain ⟨r, hr⟩ := Option.isSome_iff_exists.mp hrest
      exact ⟨r, h, hv, hop, hr⟩

/-- The chain: each comparison fills the element of its argument, the other elements
stay. -/
theorem collectArgs_chain {l : List ScmpArgCmp} {chain chain' : Fin 6 → DbApiArg}
    {argPosition argPosition' : BitVec 32}
    (h : collectArgs l chain argPosition = some (chain', argPosition')) (i : Fin 6) :
    chain' i = ((l.find? fun c => c.arg == i.val).map ScmpArgCmp.apiArg).getD (chain i) := by
  induction l generalizing chain argPosition with
  | nil =>
    obtain ⟨rfl, -⟩ := Prod.mk.inj (Option.some.inj h)
    rfl
  | cons c l ih =>
    have hnodup := (collectArgs_isSome.mp (Option.isSome_iff_exists.mpr ⟨_, h⟩)).2
    rw [List.map_cons, List.nodup_cons] at hnodup
    obtain ⟨hc, -, -, hr⟩ := collectArgs_cons.mp h
    rw [ih hr]
    by_cases hi : c.arg = i.val
    · have hnone : l.find? (fun c => c.arg == i.val) = none := by
        rw [List.find?_eq_none]
        intro d hd hdi
        apply hnodup.1
        rw [hi, ← beq_iff_eq.mp hdi]
        exact List.mem_map_of_mem hd
      have hsome : (c :: l).find? (fun c => c.arg == i.val) = some c :=
        List.find?_cons_of_pos (by simpa using hi)
      rw [hnone, hsome, Option.map_none, Option.getD_none,
        show i = ⟨c.arg, hc⟩ from Fin.ext hi.symm, Function.update_self]
      rfl
    · have hskip : (c :: l).find? (fun c => c.arg == i.val) =
          l.find? fun c => c.arg == i.val := List.find?_cons_of_neg (by simpa using hi)
      rw [hskip, Function.update_of_ne]
      intro heq
      exact hi (congrArg Fin.val heq).symm

/-! ## The mask -/

/-- `mask` is a mask of six bits that has the bits of the elements with a comparison
other than `SCMP_CMP_MASKED_EQ`. -/
def MaskOf (chain : Fin 6 → DbApiArg) (mask : BitVec 32) : Prop :=
  mask.toNat < 64 ∧ ∀ i : Fin 6, mask.getLsbD i = true ↔
    (chain i).valid = true ∧ (chain i).op ≠ .maskedEq

/-- Adding a bit that is not set yet is setting it. -/
theorem add_bit {mask : BitVec 32} (hmask : mask.toNat < 64) {n : ℕ} (hn : n < 6)
    (hclear : mask.getLsbD n = false) :
    (mask + 1#32 <<< n).toNat < 64 ∧
      ∀ i : Fin 6, (mask + 1#32 <<< n).getLsbD i = (mask.getLsbD i || decide (i.val = n)) := by
  have hall : ∀ (m : Fin 64) (n : Fin 6), (BitVec.ofNat 32 m).getLsbD n = false →
      (BitVec.ofNat 32 m + 1#32 <<< n.val).toNat < 64 ∧
        ∀ i : Fin 6, (BitVec.ofNat 32 m + 1#32 <<< n.val).getLsbD i =
          ((BitVec.ofNat 32 m).getLsbD i || decide (i.val = n.val)) := by
    decide +kernel
  have h := hall ⟨mask.toNat, hmask⟩ ⟨n, hn⟩
  rw [BitVec.ofNat_toNat, BitVec.setWidth_eq] at h
  exact h hclear

/-- The addition of the source never carries, because the chain element was empty. -/
theorem MaskOf.step {chain : Fin 6 → DbApiArg} {mask : BitVec 32} (h : MaskOf chain mask)
    {c : ScmpArgCmp} (hc : c.arg < 6) (hv : (chain ⟨c.arg, hc⟩).valid = false) :
    MaskOf (Function.update chain ⟨c.arg, hc⟩ c.apiArg) (mask + c.bit) := by
  have hclear : mask.getLsbD c.arg = false := by
    rw [← Bool.not_eq_true]
    intro hset
    have hvalid := ((h.2 ⟨c.arg, hc⟩).mp hset).1
    rw [hv] at hvalid
    exact absurd hvalid (by decide)
  by_cases hop : c.op = .maskedEq
  · rw [ScmpArgCmp.bit, if_pos hop, show mask + 0 = mask from BitVec.add_zero mask]
    refine ⟨h.1, fun i => ?_⟩
    by_cases hi : i = ⟨c.arg, hc⟩
    · subst hi
      simp [hclear, hop]
    · rw [Function.update_of_ne hi]
      exact h.2 i
  · rw [ScmpArgCmp.bit, if_neg hop]
    obtain ⟨hlt, hbits⟩ := add_bit h.1 hc hclear
    refine ⟨hlt, fun i => ?_⟩
    rw [hbits i]
    by_cases hi : i = ⟨c.arg, hc⟩
    · subst hi
      simp [hop]
    · have hne : i.val ≠ c.arg := fun heq => hi (Fin.ext heq)
      rw [Function.update_of_ne hi, decide_eq_false hne, Bool.or_false]
      exact h.2 i

/-- The loop keeps the mask in step with the collected arguments. -/
theorem collectArgs_maskOf {l : List ScmpArgCmp} {chain chain' : Fin 6 → DbApiArg}
    {argPosition argPosition' : BitVec 32}
    (h : collectArgs l chain argPosition = some (chain', argPosition'))
    (hm : MaskOf chain argPosition) : MaskOf chain' argPosition' := by
  induction l generalizing chain argPosition with
  | nil =>
    obtain ⟨rfl, rfl⟩ := Prod.mk.inj (Option.some.inj h)
    exact hm
  | cons c l ih =>
    obtain ⟨hc, hv, -, hr⟩ := collectArgs_cons.mp h
    exact ih hr (hm.step hc hv)

/-! ## One call -/

namespace RuleAdd

/-- The chain and the mask, when the call gets past the loop over `arg_array`. -/
def collected (a : RuleAdd) : Option ((Fin 6 → DbApiArg) × BitVec 32) :=
  if a.mallocChain = false then none else collectArgs a.argArray (fun _ => .zero) 0

/-- The chain can be allocated, and the array names arguments below six, each at most
once, with known operators. -/
def Accepted (a : RuleAdd) : Prop :=
  a.mallocChain = true ∧ (∀ c ∈ a.argArray, c.arg < 6 ∧ c.op ≠ .invalid) ∧
    (a.argArray.map ScmpArgCmp.arg).Nodup

instance (a : RuleAdd) : Decidable a.Accepted := inferInstanceAs (Decidable (_ ∧ _ ∧ _))

/-- The call compares argument `i` with one of the six operators other than
`SCMP_CMP_MASKED_EQ`. -/
def Compares (a : RuleAdd) (i : Fin 6) : Prop :=
  ∃ c ∈ a.argArray, c.arg = i.val ∧ c.op ≠ .maskedEq

instance (a : RuleAdd) (i : Fin 6) : Decidable (a.Compares i) :=
  inferInstanceAs (Decidable (∃ c ∈ a.argArray, _))

/-- The call compares argument `i` with `SCMP_CMP_MASKED_EQ`. -/
def ComparesMasked (a : RuleAdd) (i : Fin 6) : Prop :=
  ∃ c ∈ a.argArray, c.arg = i.val ∧ c.op = .maskedEq

instance (a : RuleAdd) (i : Fin 6) : Decidable (a.ComparesMasked i) :=
  inferInstanceAs (Decidable (∃ c ∈ a.argArray, _))

/-- The chain that an array describes. -/
def chain (a : RuleAdd) (i : Fin 6) : DbApiArg :=
  ((a.argArray.find? fun c => c.arg == i.val).map ScmpArgCmp.apiArg).getD .zero

/-- The rule that a call asks for. -/
def rule (a : RuleAdd) : DbApiRule := ⟨a.action, a.syscall, a.chain⟩

/-- The arguments of an add are collected when it is accepted. -/
theorem collected_isSome_iff (a : RuleAdd) : a.collected.isSome = true ↔ a.Accepted := by
  unfold collected Accepted
  split_ifs with hm
  · simp [hm]
  · rw [collectArgs_isSome]
    simp [hm, DbApiArg.zero]

/-- The first comparison of an argument in an accepted array is the only one. -/
theorem find?_eq_some {a : RuleAdd} (h : a.Accepted) {c : ScmpArgCmp} (hc : c ∈ a.argArray)
    {i : Fin 6} (hi : c.arg = i.val) :
    a.argArray.find? (fun c => c.arg == i.val) = some c := by
  cases hfind : a.argArray.find? (fun c => c.arg == i.val) with
  | none =>
    rw [List.find?_eq_none] at hfind
    exact absurd (beq_iff_eq.mpr hi) (hfind c hc)
  | some d =>
    have hd := List.find?_some hfind
    rw [beq_iff_eq] at hd
    rw [List.inj_on_of_nodup_map h.2.2 (List.mem_of_find?_eq_some hfind) hc (hd.trans hi.symm)]

/-- An element of the chain is in use exactly when the array names its argument. -/
theorem chain_eq_apiArg {a : RuleAdd} (h : a.Accepted) {c : ScmpArgCmp}
    (hc : c ∈ a.argArray) {i : Fin 6} (hi : c.arg = i.val) : a.chain i = c.apiArg := by
  rw [chain, find?_eq_some h hc hi]
  rfl

/-- A collected argument comes from the array of the caller. -/
theorem valid_chain {a : RuleAdd} {i : Fin 6} (h : (a.chain i).valid = true) :
    ∃ c ∈ a.argArray, c.arg = i.val := by
  unfold chain at h
  cases hfind : a.argArray.find? (fun c => c.arg == i.val) with
  | none =>
    rw [hfind] at h
    exact absurd h (by decide)
  | some c =>
    have hc := List.find?_some hfind
    rw [beq_iff_eq] at hc
    exact ⟨c, List.mem_of_find?_eq_some hfind, hc⟩

/-- The elements of the chain that carry a comparison other than
`SCMP_CMP_MASKED_EQ`. -/
theorem compares_iff {a : RuleAdd} (h : a.Accepted) (i : Fin 6) :
    a.Compares i ↔ (a.chain i).valid = true ∧ (a.chain i).op ≠ .maskedEq := by
  constructor
  · rintro ⟨c, hc, hi, hop⟩
    rw [chain_eq_apiArg h hc hi, ScmpArgCmp.valid_apiArg, ScmpArgCmp.op_apiArg]
    exact ⟨rfl, hop⟩
  · rintro ⟨hv, hop⟩
    obtain ⟨c, hc, hi⟩ := valid_chain hv
    rw [chain_eq_apiArg h hc hi, ScmpArgCmp.op_apiArg] at hop
    exact ⟨c, hc, hi, hop⟩

/-- **What the loop over `arg_array` collects**: the chain of the array, and a mask of
six bits with the bits of the arguments compared otherwise than by
`SCMP_CMP_MASKED_EQ`. -/
theorem collected_eq_some {a : RuleAdd} {chain : Fin 6 → DbApiArg} {argPosition : BitVec 32}
    (h : a.collected = some (chain, argPosition)) :
    a.Accepted ∧ chain = a.chain ∧ argPosition.toNat < 64 ∧
      ∀ i : Fin 6, argPosition.getLsbD i = true ↔ a.Compares i := by
  have hacc : a.Accepted := a.collected_isSome_iff.mp (Option.isSome_iff_exists.mpr ⟨_, h⟩)
  unfold collected at h
  rw [if_neg (by simp [hacc.1])] at h
  have hchain : chain = a.chain := funext fun i => collectArgs_chain h i
  have hmask : MaskOf chain argPosition := collectArgs_maskOf h ⟨by decide, by simp [DbApiArg.zero]⟩
  refine ⟨hacc, hchain, hmask.1, fun i => ?_⟩
  rw [hmask.2 i, hchain, compares_iff hacc]

/-- An add whose arguments are not collected is not accepted. -/
theorem collected_eq_none {a : RuleAdd} (h : a.collected = none) : ¬ a.Accepted := by
  rw [← collected_isSome_iff, h]
  decide

/-- What `arch_filter_rule_add` does with the call in a database of `arch`. -/
def archAdd (tables : SyscallTables) (native : Arch) (a : RuleAdd) (arch : Arch) :
    ℤ × List DbApiRule :=
  archRules tables native arch (a.outcome arch) a.strict a.action a.syscall a.chain

/-- The rules that the call stores in a database of `arch`. -/
def stored (tables : SyscallTables) (native : Arch) (a : RuleAdd) (arch : Arch) :
    List DbApiRule :=
  if a.Accepted then (a.archAdd tables native arch).2 else []

/-- The database after the call. -/
def storeIn (tables : SyscallTables) (native : Arch) (a : RuleAdd) (db : DbFilter) : DbFilter :=
  { db with rules := db.rules ++ a.stored tables native db.arch }

/-- The profile of the calling task after the call. -/
def sendMask (sec : Seccomp) (a : RuleAdd) : Seccomp :=
  match a.collected with
  | none => sec
  | some (_, argPosition) => (sysDracoAdd sec a.syscall argPosition).1

end RuleAdd

/-- The loop over the databases stores the rules in each, and returns zero when all of them do. -/
theorem addToFilters_eq (tables : SyscallTables) (native : Arch) {a : RuleAdd}
    (h : a.Accepted) (dbs : List DbFilter) (rc : ℤ) :
    (addToFilters tables native a a.chain dbs rc).1 = dbs.map (a.storeIn tables native) ∧
      ((addToFilters tables native a a.chain dbs rc).2 = 0 ↔
        rc = 0 ∧ ∀ db ∈ dbs, 0 ≤ (a.archAdd tables native db.arch).1) := by
  induction dbs generalizing rc with
  | nil => simp [addToFilters]
  | cons db dbs ih =>
    obtain ⟨hfilters, hrc⟩ := ih (if rc = 0 ∧ (a.archAdd tables native db.arch).1 < 0 then
      (a.archAdd tables native db.arch).1 else rc)
    refine ⟨?_, ?_⟩
    · rw [List.map_cons, ← hfilters, RuleAdd.storeIn, RuleAdd.stored, if_pos h]
      rfl
    · apply hrc.trans
      rw [List.forall_mem_cons]
      split_ifs with hneg <;> constructor <;> rintro ⟨h0, hall⟩
      · omega
      · omega
      · exact ⟨h0, by omega, hall⟩
      · exact ⟨h0, hall.2⟩

/-- A call whose arguments are not collected fails and changes nothing. -/
theorem dbColRuleAdd_of_none (tables : SyscallTables) (native : Arch)
    (filters : List DbFilter) (sec : Seccomp) {a : RuleAdd} (h : a.collected = none) :
    ∃ rc, rc ≠ 0 ∧ dbColRuleAdd tables native filters sec a = (filters, sec, rc) := by
  unfold RuleAdd.collected at h
  unfold dbColRuleAdd
  split_ifs at h ⊢ with hm
  · exact ⟨-ENOMEM, by decide, rfl⟩
  · rw [h]
    exact ⟨-EINVAL, by decide, rfl⟩

/-- Collected arguments are added to every database, and their mask is sent to the kernel. -/
theorem dbColRuleAdd_of_some (tables : SyscallTables) (native : Arch)
    (filters : List DbFilter) (sec : Seccomp) {a : RuleAdd} {chain : Fin 6 → DbApiArg}
    {argPosition : BitVec 32} (h : a.collected = some (chain, argPosition)) :
    dbColRuleAdd tables native filters sec a =
      ((addToFilters tables native a chain filters 0).1,
        (sysDracoAdd sec a.syscall argPosition).1,
        (addToFilters tables native a chain filters 0).2) := by
  unfold RuleAdd.collected at h
  unfold dbColRuleAdd
  split_ifs at h ⊢ with hm
  rw [h]

/-- **The two halves of a call.** -/
theorem dbColRuleAdd_eq (tables : SyscallTables) (native : Arch) (filters : List DbFilter)
    (sec : Seccomp) (a : RuleAdd) :
    (dbColRuleAdd tables native filters sec a).1 = filters.map (a.storeIn tables native) ∧
      (dbColRuleAdd tables native filters sec a).2.1 = a.sendMask sec ∧
      ((dbColRuleAdd tables native filters sec a).2.2 = 0 ↔
        a.Accepted ∧ ∀ db ∈ filters, 0 ≤ (a.archAdd tables native db.arch).1) := by
  rw [RuleAdd.sendMask]
  cases hcol : a.collected with
  | none =>
    have hacc := RuleAdd.collected_eq_none hcol
    have hstore : a.storeIn tables native = id := by
      funext db
      rw [RuleAdd.storeIn, RuleAdd.stored, if_neg hacc, List.append_nil]
      rfl
    obtain ⟨rc, hrc, heq⟩ := dbColRuleAdd_of_none tables native filters sec hcol
    rw [heq, hstore, List.map_id]
    exact ⟨rfl, rfl, fun h => absurd h hrc, fun h => absurd h.1 hacc⟩
  | some r =>
    obtain ⟨chain, argPosition⟩ := r
    obtain ⟨hacc, rfl, -⟩ := RuleAdd.collected_eq_some hcol
    obtain ⟨hfilters, hrc⟩ := addToFilters_eq tables native hacc filters 0
    rw [dbColRuleAdd_of_some tables native filters sec hcol]
    refine ⟨hfilters, rfl, hrc.trans ?_⟩
    simp only [hacc, true_and]

/-! ## The profile after many calls -/

namespace Seccomp

/-- Argument `i` is listed for syscall `nr` in the tables that the module reads. -/
def Lists (sec : Seccomp) (nr : ℤ) (i : Fin 6) : Prop :=
  0 ≤ nr ∧ nr < 400 ∧ UInt8.ofNat (i.val + 1) ∈ sec.positions nr.toNat

instance (sec : Seccomp) (nr : ℤ) (i : Fin 6) : Decidable (sec.Lists nr i) :=
  inferInstanceAs (Decidable (_ ∧ _ ∧ _))

/-- The bit of argument `i` is set in the mask of syscall `nr` that waits for a load. -/
def Pending (sec : Seccomp) (nr : ℤ) (i : Fin 6) : Prop :=
  0 ≤ nr ∧ nr < 400 ∧ (sec.draco nr.toNat).argPosition.getLsbD i = true

instance (sec : Seccomp) (nr : ℤ) (i : Fin 6) : Decidable (sec.Pending nr i) :=
  inferInstanceAs (Decidable (_ ∧ _ ∧ _))

/-- Nothing is pending in a new profile. -/
theorem not_pending_zero (filter : List Filter) (nr : ℤ) (i : Fin 6) :
    ¬ (zero filter).Pending nr i := by
  rintro ⟨-, -, hbit⟩
  simp [zero] at hbit

/-- `sys_filter_load` publishes exactly the pending bits, whatever comes of the
installation. -/
theorem lists_sysFilterLoad {sec : Seccomp} (h : sec.WellFormed) (F : Filter)
    (o : LoadOutcome) (nr : ℤ) (i : Fin 6) :
    (sysFilterLoad F o sec).1.Lists nr i ↔ sec.Pending nr i := by
  have htables : (sysFilterLoad F o sec).1.Lists nr i ↔
      (prctlDracoLoadSeccomp sec).Lists nr i := by
    unfold sysFilterLoad
    split_ifs <;> exact Iff.rfl
  rw [htables, Lists, Pending]
  refine and_congr_right fun h0 => and_congr_right fun h400 => ?_
  rw [positions_load h (by omega), ofNat_succ_mem_maskPositions i.isLt]

/-- The filter is attached on success only. -/
theorem filter_sysFilterLoad (F : Filter) (o : LoadOutcome) (sec : Seccomp) :
    (sysFilterLoad F o sec).1.filter = if o.Attaches then F :: sec.filter else sec.filter := by
  have hload : (prctlDracoLoadSeccomp sec).filter = sec.filter := by
    rw [prctlDracoLoadSeccomp_eq]
    exact (foldl_loadSyscall_frame sec _).2
  by_cases ho : o.Attaches
  · obtain ⟨hgen, hnnp, hok⟩ := ho
    rw [if_pos ⟨hgen, hnnp, hok⟩, sysFilterLoad, if_neg (by simp [hgen]), if_neg hnnp,
      if_neg (by omega), if_pos hok]
    exact congrArg (F :: ·) hload
  · rw [if_neg ho, sysFilterLoad]
    split_ifs with hgen hnnp hneg hok
    · exact hload
    · exact hload
    · exact hload
    · exact absurd ⟨by simpa using hgen, hnnp, hok⟩ ho
    · exact hload

end Seccomp

/-- The check for a negative number comes twice. -/
theorem sysDracoAdd_fst (sec : Seccomp) (syscall : ℤ) (argPosition : BitVec 32) :
    (sysDracoAdd sec syscall argPosition).1 = (prctlDracoAddSeccomp sec syscall argPosition).1 := by
  unfold sysDracoAdd
  split_ifs with h
  · rw [Seccomp.prctlDracoAddSeccomp_outOfRange (Or.inl h)]
  · rfl

namespace RuleAdd

/-- The call sends the bit of argument `i` for syscall `nr`: it gets past the loop over
its array, names that syscall, and compares that argument otherwise than by
`SCMP_CMP_MASKED_EQ`. -/
def Sends (a : RuleAdd) (nr : ℤ) (i : Fin 6) : Prop :=
  a.Accepted ∧ a.syscall = nr ∧ a.Compares i

instance (a : RuleAdd) (nr : ℤ) (i : Fin 6) : Decidable (a.Sends nr i) :=
  inferInstanceAs (Decidable (_ ∧ _ ∧ _))

/-- A sent mask adds the arguments it names to the pending ones. -/
theorem pending_sendMask (sec : Seccomp) (a : RuleAdd) (nr : ℤ) (i : Fin 6) :
    (a.sendMask sec).Pending nr i ↔
      sec.Pending nr i ∨ (0 ≤ nr ∧ nr < 400 ∧ a.Sends nr i) := by
  unfold sendMask
  cases hcol : a.collected with
  | none =>
    have hacc := collected_eq_none hcol
    simp [Sends, hacc]
  | some r =>
    obtain ⟨chain, argPosition⟩ := r
    obtain ⟨hacc, -, -, hbits⟩ := collected_eq_some hcol
    show (sysDracoAdd sec a.syscall argPosition).1.Pending nr i ↔ _
    rw [sysDracoAdd_fst]
    rcases Seccomp.syscall_cases a.syscall with hr | ⟨s, hlt, hs⟩
    · -- nothing is recorded for a number outside the tables
      rw [Seccomp.prctlDracoAddSeccomp_outOfRange hr]
      constructor
      · exact Or.inl
      · rintro (h | ⟨h0, h400, -, hnr, -⟩)
        · exact h
        · omega
    · rw [hs, Seccomp.Pending, Seccomp.Pending, Sends, hs, Seccomp.argPosition_add hlt]
      by_cases hnr : nr = s
      · subst hnr
        rw [Int.toNat_natCast, if_pos rfl, BitVec.getLsbD_or, Bool.or_eq_true, hbits i]
        constructor
        · rintro ⟨h0, h400, hbit | hcomp⟩
          · exact Or.inl ⟨h0, h400, hbit⟩
          · exact Or.inr ⟨h0, h400, hacc, rfl, hcomp⟩
        · rintro (⟨h0, h400, hbit⟩ | ⟨h0, h400, -, -, hcomp⟩)
          · exact ⟨h0, h400, Or.inl hbit⟩
          · exact ⟨h0, h400, Or.inr hcomp⟩
      · constructor
        · rintro ⟨h0, h400, hbit⟩
          rw [if_neg (by omega)] at hbit
          exact Or.inl ⟨h0, h400, hbit⟩
        · rintro (⟨h0, h400, hbit⟩ | ⟨-, -, -, heq, -⟩)
          · rw [if_neg (by omega)]
            exact ⟨h0, h400, hbit⟩
          · exact absurd heq.symm hnr

/-- The masks the library sends keep the profile well formed. -/
theorem wellFormed_sendMask {sec : Seccomp} (h : sec.WellFormed) (a : RuleAdd) :
    (a.sendMask sec).WellFormed := by
  unfold sendMask
  cases hcol : a.collected with
  | none => exact h
  | some r =>
    obtain ⟨chain, argPosition⟩ := r
    obtain ⟨-, -, hlt, -⟩ := collected_eq_some hcol
    show (sysDracoAdd sec a.syscall argPosition).1.WellFormed
    rw [sysDracoAdd_fst]
    exact Seccomp.wellFormed_add h a.syscall hlt

/-- So does a whole series of them. -/
theorem wellFormed_foldl {sec : Seccomp} (h : sec.WellFormed) (adds : List RuleAdd) :
    (adds.foldl sendMask sec).WellFormed := by
  induction adds generalizing sec with
  | nil => exact h
  | cons a adds ih => exact ih (wellFormed_sendMask h a)

/-- The pending bits after a list of calls are those of before and those sent. -/
theorem pending_foldl (sec : Seccomp) (adds : List RuleAdd) (nr : ℤ) (i : Fin 6) :
    (adds.foldl sendMask sec).Pending nr i ↔
      sec.Pending nr i ∨ (0 ≤ nr ∧ nr < 400 ∧ ∃ a ∈ adds, a.Sends nr i) := by
  induction adds generalizing sec with
  | nil => simp
  | cons a adds ih =>
    rw [List.foldl_cons, ih, pending_sendMask, List.exists_mem_cons_iff]
    tauto

/-- **What is listed after calls and a load**: the bits that were pending before and those
that the calls sent. -/
theorem lists_load_foldl {sec : Seccomp} (h : sec.WellFormed) (adds : List RuleAdd) (F : Filter)
    (o : LoadOutcome) (nr : ℤ) (i : Fin 6) :
    (sysFilterLoad F o (adds.foldl sendMask sec)).1.Lists nr i ↔
      sec.Pending nr i ∨ (0 ≤ nr ∧ nr < 400 ∧ ∃ a ∈ adds, a.Sends nr i) := by
  rw [Seccomp.lists_sysFilterLoad (wellFormed_foldl h adds), pending_foldl]

/-- A call leaves the published tables alone. -/
theorem positionBytes_sendMask (sec : Seccomp) (a : RuleAdd) :
    (a.sendMask sec).positionBytes = sec.positionBytes := by
  unfold sendMask
  cases a.collected with
  | none => rfl
  | some r =>
    show (sysDracoAdd sec a.syscall r.2).1.positionBytes = sec.positionBytes
    rw [sysDracoAdd_fst]
    exact Seccomp.positionBytes_add sec a.syscall r.2

/-- Without a load no number of sent masks lists a position. -/
theorem lists_foldl (sec : Seccomp) (adds : List RuleAdd) (nr : ℤ) (i : Fin 6) :
    (adds.foldl sendMask sec).Lists nr i ↔ sec.Lists nr i := by
  induction adds generalizing sec with
  | nil => exact Iff.rfl
  | cons a adds ih =>
    have hrow : (a.sendMask sec).sys2arguments = sec.sys2arguments := by
      funext s pos
      rw [Seccomp.sys2arguments, Seccomp.sys2arguments, positionBytes_sendMask]
    have hpos : (a.sendMask sec).positions = sec.positions := by
      funext s
      rw [Seccomp.positions, Seccomp.positions, Seccomp.argumentCount, Seccomp.argumentCount,
        positionBytes_sendMask, hrow]
    rw [List.foldl_cons, ih, Seccomp.Lists, Seccomp.Lists, hpos]

/-! ## The databases after many calls -/

/-- A series of adds appends its rules to every database in order. -/
theorem foldl_storeIn (tables : SyscallTables) (native : Arch) (filters : List DbFilter)
    (adds : List RuleAdd) :
    adds.foldl (fun filters a => filters.map (a.storeIn tables native)) filters =
      filters.map fun db =>
        { db with rules := db.rules ++ adds.flatMap fun a => a.stored tables native db.arch } := by
  induction adds generalizing filters with
  | nil => simp
  | cons a adds ih =>
    rw [List.foldl_cons, ih, List.map_map]
    apply List.map_congr_left
    intro db _
    simp [storeIn]

end RuleAdd

/-! ## Calls made by one task -/

/-- The collection and the profile of the task after one call of `db_col_rule_add`. -/
def addRule (tables : SyscallTables) (native : Arch) (s : List DbFilter × Seccomp)
    (a : RuleAdd) : List DbFilter × Seccomp :=
  let r := dbColRuleAdd tables native s.1 s.2 a
  (r.1, r.2.1)

/-- An add stores its rules and sends its mask, each without a look at the other. -/
theorem addRule_eq (tables : SyscallTables) (native : Arch) (s : List DbFilter × Seccomp)
    (a : RuleAdd) :
    addRule tables native s a = (s.1.map (a.storeIn tables native), a.sendMask s.2) := by
  obtain ⟨hfilters, hsec, -⟩ := dbColRuleAdd_eq tables native s.1 s.2 a
  exact Prod.ext hfilters hsec

/-- **What a list of calls leaves behind**: in each database the rules stored by the
calls in their order, in the profile the masks sent. -/
theorem foldl_addRule (tables : SyscallTables) (native : Arch) (s : List DbFilter × Seccomp)
    (adds : List RuleAdd) :
    adds.foldl (addRule tables native) s =
      (s.1.map fun db =>
        { db with rules := db.rules ++ adds.flatMap fun a => a.stored tables native db.arch },
        adds.foldl RuleAdd.sendMask s.2) := by
  rw [← RuleAdd.foldl_storeIn]
  induction adds generalizing s with
  | nil => rfl
  | cons a adds ih => rw [List.foldl_cons, ih, addRule_eq, List.foldl_cons, List.foldl_cons]

end Draco
