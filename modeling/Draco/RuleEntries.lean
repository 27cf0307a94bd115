/-
# The entries of rules

What the databases are for is to accept the calls that their rules describe
(`ruleAction`).  Here rules are compared with their entries: a collection with one rule at
most for each number can be compiled (`OneRuleEach.compilable`), and it decides as its
rules say, on every call on which the tests of an entry compare as the rule does
(`OneRuleEach.verdict`).  What `OneRuleEach` asks of the arguments holds of all rules that
calls of `seccomp_rule_add` leave in the databases (`collected_foldl_addRule`).
-/
import Draco.Architectures
import Draco.Total

namespace Draco

/-! ## Entries -/

/-- `_DB_PRI_MASK_CHAIN` -/
abbrev DB_PRI_MASK_CHAIN : UInt32 := 0x0000ffff

/-- The value of an action: `SCMP_ACT_KILL`, `SCMP_ACT_TRAP`, `SCMP_ACT_ERRNO(x)`,
`SCMP_ACT_TRACE(x)` and `SCMP_ACT_ALLOW`. -/
def Action.scmpAct : Action → UInt32
  | .kill => 0x00000000
  | .trap => 0x00030000
  | .errno code => 0x00050000 ||| code.toUInt32
  | .trace msg => 0x7ff00000 ||| msg.toUInt32
  | .allow => 0x7fff0000

/-- `arch_def.size` is `ARCH_SIZE_64`. -/
def Arch.wide : Arch → Bool
  | .x86_64 => true
  | .aarch64 => true
  | .mips64 => true
  | .mipsel64 => true
  | .ppc64 => true
  | .ppc64le => true
  | .s390x => true
  | _ => false

/-- An `int` as an `unsigned int`. -/
def sysNum (syscall : ℤ) : UInt32 := UInt32.ofNat (syscall % 2 ^ 32).toNat

/-- The entry that `db_rule_add` makes of a rule. -/
def DbApiRule.entry (arch : Arch) (r : DbApiRule) : DbSysList :=
  let s := if arch.wide then dbRuleGen64 arch.endian r.action.scmpAct (sysNum r.syscall) r.args
    else dbRuleGen32 arch.endian r.action.scmpAct (sysNum r.syscall) r.args
  { s with priority := DB_PRI_MASK_CHAIN - UInt32.ofNat s.nodeCnt }

/-- A database with the entries of some rules, in the order of the rules. -/
def DbFilter.trees (db : DbFilter) : DbFilterTree :=
  ⟨db.arch, db.rules.map (DbApiRule.entry db.arch)⟩

/-- The collection of some databases. -/
def colOfRules (actDefault actBadarch : Action) (endian : ArchEndian) (dbs : List DbFilter) :
    DbFilterCol :=
  ⟨actDefault.scmpAct, actBadarch.scmpAct, endian, dbs.map DbFilter.trees⟩

@[simp] theorem DbApiRule.valid_entry (arch : Arch) (r : DbApiRule) :
    (r.entry arch).valid = true := by
  unfold entry
  cases arch.wide <;> rfl

@[simp] theorem DbApiRule.num_entry (arch : Arch) (r : DbApiRule) :
    (r.entry arch).num = sysNum r.syscall := by
  unfold entry
  cases arch.wide <;> rfl

/-! ## Numbers -/

/-- `seccomp_data.nr` is an `int`. -/
def BpfData.number (d : BpfData) : ℤ :=
  if d.nr < 0x80000000 then d.nr.toNat else (d.nr.toNat : ℤ) - 2 ^ 32

/-- The number is an `int`. -/
def IsInt (z : ℤ) : Prop := -2 ^ 31 ≤ z ∧ z < 2 ^ 31

instance (z : ℤ) : Decidable (IsInt z) := inferInstanceAs (Decidable (_ ∧ _))

theorem toNat_sysNum (z : ℤ) : (sysNum z).toNat = (z % 2 ^ 32).toNat := by
  rw [sysNum]
  exact UInt32.toNat_ofNat_of_lt' (by
    have := Int.emod_lt_of_pos z (show (0 : ℤ) < 2 ^ 32 by norm_num)
    have := Int.emod_nonneg z (show (2 : ℤ) ^ 32 ≠ 0 by norm_num)
    show (z % 2 ^ 32).toNat < 2 ^ 32
    omega)

/-- A rule's number is the number of the call when both are the same `int`. -/
theorem sysNum_eq_iff {z : ℤ} (hz : IsInt z) (d : BpfData) :
    sysNum z = d.nr ↔ z = d.number := by
  obtain ⟨hlo, hhi⟩ := hz
  have hnr := d.nr.toNat_lt
  rw [← UInt32.toNat_inj, toNat_sysNum, BpfData.number]
  by_cases h : d.nr < 0x80000000
  · have h' : d.nr.toNat < 2147483648 := UInt32.lt_iff_toNat_lt.mp h
    rw [if_pos h]
    omega
  · have h' : ¬ d.nr.toNat < 2147483648 := fun hlt => h (UInt32.lt_iff_toNat_lt.mpr hlt)
    rw [if_neg h]
    omega

/-- Numbers in the range of `int` stay different as 32-bit words. -/
theorem sysNum_inj {z z' : ℤ} (hz : IsInt z) (hz' : IsInt z') (h : sysNum z = sysNum z') :
    z = z' := by
  have hnum := congrArg UInt32.toNat h
  rw [toNat_sysNum, toNat_sysNum] at hnum
  obtain ⟨hlo, hhi⟩ := hz
  obtain ⟨hlo', hhi'⟩ := hz'
  omega

/-! ## What an entry decides -/

/-- On these arguments the chain of the rule compares as the rule does: no halves point in
different directions on a 64-bit architecture, and nothing is truncated on a 32-bit one. -/
def DbApiRule.ExactOn (arch : Arch) (r : DbApiRule) (args : Fin 6 → UInt64) : Prop :=
  ∀ i, (r.args i).valid = true →
    if arch.wide then (r.args i).misordered (args i) = false
    else d64Hi (args i) = 0 ∧ (r.args i).truncated (args i) = false

/-- All arguments are as `db_col_rule_add` collects them. -/
def DbApiRule.Collected (r : DbApiRule) : Prop :=
  ∀ i, (r.args i).valid = true → (r.args i).Collected

instance (r : DbApiRule) : Decidable r.Collected := inferInstanceAs (Decidable (∀ _, _))

/-- A rule is stored with its own arguments, but for the operation of a multiplexing call. -/
theorem DbApiRule.Collected.rewriteTo {r : DbApiRule} (hr : r.Collected) (call : ℤ × Option ℤ) :
    (r.rewriteTo call).Collected := by
  obtain ⟨nr, _ | operation⟩ := call
  · exact hr
  · intro i hi
    change (if i.val = 0 then (⟨.eq, DATUM_MAX, UInt64.ofNat operation.toNat, true⟩ : DbApiArg)
      else r.args i).valid = true at hi
    change (if i.val = 0 then (⟨.eq, DATUM_MAX, UInt64.ofNat operation.toNat, true⟩ : DbApiArg)
      else r.args i).Collected
    split_ifs at hi ⊢
    · exact ⟨ScmpCompare.noConfusion, fun _ => rfl⟩
    · exact hr i hi

/-- The rules that a call stores are collected. -/
theorem RuleAdd.collected_stored (tables : SyscallTables) (native : Arch) (a : RuleAdd)
    (arch : Arch) : ∀ r ∈ a.stored tables native arch, r.Collected := by
  intro r hr
  rw [RuleAdd.stored] at hr
  split_ifs at hr with hacc
  swap
  · cases hr
  have hrule : a.rule.Collected := by
    obtain ⟨⟨chain, argPosition⟩, hcol⟩ :=
      Option.isSome_iff_exists.mp (a.collected_isSome_iff.mpr hacc)
    obtain ⟨-, rfl, -, -⟩ := RuleAdd.collected_eq_some hcol
    rw [RuleAdd.collected, if_neg (by simp [hacc.1])] at hcol
    exact collected_collectArgs (fun i hi => absurd hi Bool.false_ne_true) hcol
  rw [(a.archAdd_allOrNothing tables native arch).2] at hr
  split_ifs at hr
  · cases htr : archSyscallTranslate tables native arch a.syscall with
    | none =>
      rw [htr] at hr
      cases hr
    | some sys =>
      rw [htr] at hr
      obtain ⟨call, -, rfl⟩ := List.mem_map.mp hr
      exact hrule.rewriteTo call
  · cases hr

/-- **`db_col_rule_add` stores collected rules only**, after every list of calls. -/
theorem collected_foldl_addRule (tables : SyscallTables) (native : Arch)
    {s : List DbFilter × Seccomp} (hs : ∀ db ∈ s.1, ∀ r ∈ db.rules, r.Collected)
    (adds : List RuleAdd) :
    ∀ db ∈ (adds.foldl (addRule tables native) s).1, ∀ r ∈ db.rules, r.Collected := by
  rw [foldl_addRule]
  intro db' hdb' r hr
  obtain ⟨db, hdb, rfl⟩ := List.mem_map.mp hdb'
  rcases List.mem_append.mp hr with hr | hr
  · exact hs db hdb r hr
  · obtain ⟨a, -, hr⟩ := List.mem_flatMap.mp hr
    exact a.collected_stored tables native db.arch r hr

/-- **The entry of a rule leads to its action where the rule holds.** -/
theorem DbApiRule.eval_entry {arch : Arch} {r : DbApiRule} (hr : r.Collected) {d : BpfData}
    (hexact : r.ExactOn arch d.args) (fall : UInt32) :
    (r.entry arch).eval arch.endian d fall =
      if r.holds d.args then r.action.scmpAct else fall := by
  cases hw : arch.wide with
  | true =>
    have heval : (r.entry arch).eval arch.endian d fall =
        (dbRuleGen64 arch.endian r.action.scmpAct (sysNum r.syscall) r.args).eval arch.endian d
          fall := by
      simp only [entry, hw, if_true, DbSysList.eval]
    rw [heval, eval_dbRuleGen64]
    refine if_congr (forall_congr' fun i => imp_congr_right fun hi => ?_) rfl rfl
    have hx := hexact i hi
    rw [hw, if_pos rfl] at hx
    rw [(passes64_eq_holds_iff (hr i hi) (d.args i)).mpr hx]
  | false =>
    have heval : (r.entry arch).eval arch.endian d fall =
        (dbRuleGen32 arch.endian r.action.scmpAct (sysNum r.syscall) r.args).eval arch.endian d
          fall := by
      simp only [entry, hw, Bool.false_eq_true, if_false, DbSysList.eval]
    rw [heval, eval_dbRuleGen32]
    refine if_congr (forall_congr' fun i => imp_congr_right fun hi => ?_) rfl rfl
    have hx := hexact i hi
    rw [hw, if_neg Bool.false_ne_true] at hx
    rw [(passes32_eq_holds_iff (hr i hi) hx.1).mpr hx.2]

/-- Entries of rules for different numbers, each with its architecture, decide as the rules
say. -/
theorem evalSyscalls_entries {target : ArchEndian} {ps : List (Arch × DbApiRule)}
    (hendian : ∀ p ∈ ps, p.1.endian = target) (hcoll : ∀ p ∈ ps, p.2.Collected)
    (hint : ∀ p ∈ ps, IsInt p.2.syscall)
    (hdistinct : ps.Pairwise fun p q => p.2.syscall ≠ q.2.syscall) (actDefault : Action)
    {d : BpfData} (hexact : ∀ p ∈ ps, p.2.syscall = d.number → p.2.ExactOn p.1 d.args) :
    evalSyscalls target d actDefault.scmpAct (ps.map fun p => p.2.entry p.1) =
      (ruleAction (ps.map Prod.snd) actDefault d.number d.args).scmpAct := by
  induction ps with
  | nil => rfl
  | cons p ps ih =>
    have hcons : ∀ q ∈ ps, q ∈ p :: ps := fun q hq => List.mem_cons_of_mem p hq
    obtain ⟨hne, hdistinct'⟩ := List.pairwise_cons.mp hdistinct
    have hrest := ih (fun q hq => hendian q (hcons q hq)) (fun q hq => hcoll q (hcons q hq))
      (fun q hq => hint q (hcons q hq)) hdistinct' fun q hq => hexact q (hcons q hq)
    have hp : p ∈ p :: ps := List.mem_cons_self
    rw [List.map_cons, evalSyscalls_cons_of_valid (DbApiRule.valid_entry _ _), DbApiRule.num_entry,
      List.map_cons]
    by_cases hnr : p.2.syscall = d.number
    · rw [if_pos ((sysNum_eq_iff (hint p hp) d).mpr hnr).symm, ← hendian p hp,
        DbApiRule.eval_entry (hcoll p hp) (hexact p hp hnr)]
      by_cases hholds : p.2.holds d.args
      · rw [if_pos hholds, ruleAction, List.find?_cons_of_pos (by simp [hnr, hholds])]
      · -- no other rule is for this number
        have hnone : (ps.map Prod.snd).find? (fun r => decide (r.syscall = d.number ∧
            r.holds d.args)) = none := by
          rw [List.find?_eq_none]
          intro r hr
          obtain ⟨q, hq, rfl⟩ := List.mem_map.mp hr
          have : q.2.syscall ≠ d.number := fun h => hne q hq (hnr.trans h.symm)
          simp [this]
        rw [if_neg hholds, ruleAction, List.find?_cons_of_neg (by simp [hholds]), hnone]
    · rw [if_neg fun h => hnr ((sysNum_eq_iff (hint p hp) d).mp h.symm), hrest, ruleAction,
        ruleAction, List.find?_cons_of_neg (by simp [hnr])]

/-! ## The tests of an entry -/

/-- The word that a test loads. -/
theorem loadValid_archArgOffsetLo (target : ArchEndian) (i : Fin 6) :
    LoadValid (archArgOffsetLo target i) ∧ 16 ≤ archArgOffsetLo target i := by
  cases target <;> fin_cases i <;> decide

/-- The upper half of an argument lies inside `seccomp_data`, behind the other fields. -/
theorem loadValid_archArgOffsetHi (target : ArchEndian) (i : Fin 6) :
    LoadValid (archArgOffsetHi target i) ∧ 16 ≤ archArgOffsetHi target i := by
  cases target <;> fin_cases i <;> decide

/-- The accumulator has no word of an argument. -/
def AccState.NoArg (a : AccState) : Prop := ∀ offset, a.offset = some offset → ¬ 16 ≤ offset

theorem noArg_accStateUndef : accStateUndef.NoArg := fun offset h => by cases h

/-- A test of an argument, where the accumulator has something else. -/
theorem generated_of_noArg {n : ChainNode} {a : AccState} (ha : a.NoArg)
    (hload : LoadValid n.argOffset ∧ 16 ≤ n.argOffset) (hop : (genBpfOp n.op).isSome = true) :
    n.Generated a ∧ a.before n = accStateUndef := by
  have hreload : a.Reload n := Or.inl fun h => ha _ h hload.2
  exact ⟨⟨⟨hload.1, hreload⟩, hload.2, hop⟩, hreload.before_eq⟩

/-- A node alone on its level. -/
theorem threaded_single {n : ChainNode} {a : AccState} {nxtT nxtF : DbArgChainTree}
    (ha : a.NoArg) (hload : LoadValid n.argOffset ∧ 16 ≤ n.argOffset)
    (hop : (genBpfOp n.op).isSome = true)
    (hT : nxtT.Threaded ChainNode.Generated accStateUndef)
    (hF : nxtF.Threaded ChainNode.Generated accStateUndef) :
    (DbArgChainTree.node n nxtT nxtF .null).Threaded ChainNode.Generated a := by
  obtain ⟨hn, hbefore⟩ := generated_of_noArg ha hload hop
  refine ⟨hn, ?_, ?_, trivial⟩
  · rwa [hbefore]
  · rwa [hbefore]

/-- The operators of the halves are operators of the machine. -/
theorem genBpfOp_splitOp {op : ScmpCompare} (h : op ≠ .invalid) :
    (genBpfOp (splitOp op).1).isSome = true ∧ (genBpfOp (splitOp op).2.1).isSome = true := by
  cases op <;> first | exact (h rfl).elim | exact ⟨rfl, rfl⟩

/-- Every operator but the invalid one has an instruction. -/
theorem genBpfOp_rewriteOp {op : ScmpCompare} (h : op ≠ .invalid) :
    (genBpfOp (rewriteOp op).1).isSome = true := by
  cases op <;> first | exact (h rfl).elim | rfl

/-- Every test of a chain loads its own word. -/
theorem threaded_chain64 (target : ArchEndian) (action : UInt32) {used : List (ℕ × DbApiArg)}
    (hused : ∀ p ∈ used, (∃ i : Fin 6, p.1 = i) ∧ p.2.op ≠ .invalid) {a : AccState}
    (ha : a.NoArg) : (chain64 target action used).Threaded ChainNode.Generated a := by
  induction used generalizing a with
  | nil => trivial
  | cons p rest ih =>
    obtain ⟨k, arg⟩ := p
    obtain ⟨⟨i, rfl⟩, hop⟩ := hused _ List.mem_cons_self
    have hrest := ih (fun p hp => hused p (List.mem_cons_of_mem _ hp)) noArg_accStateUndef
    have hnull : DbArgChainTree.null.Threaded ChainNode.Generated accStateUndef := trivial
    have hlo := loadValid_archArgOffsetLo target i
    have hhi := loadValid_archArgOffsetHi target i
    obtain ⟨hopHi, hopLo⟩ := genBpfOp_splitOp hop
    rw [chain64]
    dsimp only
    split
    · exact threaded_single ha hhi hopHi
        (threaded_single noArg_accStateUndef hlo hopLo hrest hnull) hnull
    · exact threaded_single ha hhi hopHi
        (threaded_single noArg_accStateUndef hlo hopLo hnull hrest) hrest

/-- Every node of a 32-bit chain can be generated. -/
theorem threaded_chain32 (target : ArchEndian) (action : UInt32) {used : List (ℕ × DbApiArg)}
    (hused : ∀ p ∈ used, (∃ i : Fin 6, p.1 = i) ∧ p.2.op ≠ .invalid) {a : AccState}
    (ha : a.NoArg) : (chain32 target action used).Threaded ChainNode.Generated a := by
  induction used generalizing a with
  | nil => trivial
  | cons p rest ih =>
    obtain ⟨k, arg⟩ := p
    obtain ⟨⟨i, rfl⟩, hop⟩ := hused _ List.mem_cons_self
    have hrest := ih (fun p hp => hused p (List.mem_cons_of_mem _ hp)) noArg_accStateUndef
    have hnull : DbArgChainTree.null.Threaded ChainNode.Generated accStateUndef := trivial
    have hlo := loadValid_archArgOffsetLo target i
    rw [chain32]
    dsimp only
    split
    · exact threaded_single ha hlo (genBpfOp_rewriteOp hop) hrest hnull
    · exact threaded_single ha hlo (genBpfOp_rewriteOp hop) hnull hrest

/-- The arguments a chain uses are those of the rule. -/
theorem mem_usedArgs {need : DbApiArg → Bool} {chain : Fin 6 → DbApiArg} {p : ℕ × DbApiArg}
    (hp : p ∈ usedArgs need chain) :
    ∃ i : Fin 6, p = (i.val, chain i) ∧ (chain i).valid = true := by
  obtain ⟨i, hi, rfl⟩ := List.mem_map.mp hp
  have hi' := (List.mem_filter.mp hi).2
  rw [Bool.and_eq_true] at hi'
  exact ⟨i, rfl, hi'.1⟩

/-- The tests of the entry of a rule. -/
theorem DbApiRule.threaded_entry {arch : Arch} {r : DbApiRule} (hr : r.Collected) :
    (r.entry arch).chains.Threaded ChainNode.Generated (accStateOffset BPF_OFFSET_SYSCALL) := by
  have hnoArg : (accStateOffset BPF_OFFSET_SYSCALL).NoArg := by
    intro offset h
    obtain rfl := Option.some.inj h
    decide
  have hused : ∀ {need : DbApiArg → Bool}, ∀ p ∈ usedArgs need r.args,
      (∃ i : Fin 6, p.1 = i) ∧ p.2.op ≠ .invalid := by
    intro need p hp
    obtain ⟨i, rfl, hi⟩ := mem_usedArgs hp
    exact ⟨⟨i, rfl⟩, (hr i hi).1⟩
  unfold entry
  cases arch.wide with
  | true => exact threaded_chain64 arch.endian r.action.scmpAct hused hnoArg
  | false => exact threaded_chain32 arch.endian r.action.scmpAct hused hnoArg

/-! ## Collections of rules -/

/-- The rules of the databases for a token, each with its architecture. -/
def rulesFor (dbs : List DbFilter) (token : UInt32) : List (Arch × DbApiRule) :=
  (dbs.filter fun db => db.arch.tokenBpf = token).flatMap fun db =>
    db.rules.map fun r => (db.arch, r)

/-- Databases of one byte order, one for each architecture, with at most one rule for each
number under a token, and with arguments as `db_col_rule_add` collects them. -/
structure OneRuleEach (endian : ArchEndian) (dbs : List DbFilter) : Prop where
  archs : (dbs.map DbFilter.arch).Nodup
  endian : ∀ db ∈ dbs, db.arch.endian = endian
  rules : ∀ db ∈ dbs, ∀ r ∈ db.rules, r.Collected ∧ IsInt r.syscall
  distinct : ∀ db ∈ dbs, (rulesFor dbs db.arch.tokenBpf).Pairwise fun p q =>
    p.2.syscall ≠ q.2.syscall

/-- What the rules say about a call: the action for bad architectures if no database is for
it, else the action of the rule for its number that holds, and the default without one. -/
def rulesVerdict (actDefault actBadarch : Action) (dbs : List DbFilter) (d : BpfData) : Action :=
  if ∀ db ∈ dbs, db.arch.tokenBpf = d.arch → db.arch.Foreign d.nr then actBadarch
  else ruleAction ((rulesFor dbs d.arch).map Prod.snd) actDefault d.number d.args

variable {endian : ArchEndian} {dbs : List DbFilter} {actDefault actBadarch : Action}

/-- The rules for a token are those of the databases with that token. -/
theorem mem_rulesFor {token : UInt32} {p : Arch × DbApiRule} (hp : p ∈ rulesFor dbs token) :
    ∃ db ∈ dbs, db.arch.tokenBpf = token ∧ p.1 = db.arch ∧ p.2 ∈ db.rules := by
  obtain ⟨db, hdb, hp⟩ := List.mem_flatMap.mp hp
  obtain ⟨r, hr, rfl⟩ := List.mem_map.mp hp
  obtain ⟨hdb, htoken⟩ := List.mem_filter.mp hdb
  exact ⟨db, hdb, of_decide_eq_true htoken, rfl, hr⟩

/-- The filters for a token are built from the databases with that token. -/
theorem filtersFor_colOfRules (actDefault actBadarch : Action) (endian : ArchEndian)
    (dbs : List DbFilter) (token : UInt32) :
    (colOfRules actDefault actBadarch endian dbs).filtersFor token =
      (dbs.filter fun db => db.arch.tokenBpf = token).map DbFilter.trees := by
  rw [DbFilterCol.filtersFor, colOfRules, List.filter_map]
  rfl

/-- The entries under a token are those of its rules. -/
theorem flatMap_filtersFor (actDefault actBadarch : Action) (endian : ArchEndian)
    (dbs : List DbFilter) (token : UInt32) :
    ((colOfRules actDefault actBadarch endian dbs).filtersFor token).flatMap
      DbFilterTree.syscalls = (rulesFor dbs token).map fun p => p.2.entry p.1 := by
  rw [filtersFor_colOfRules, List.flatMap_map, rulesFor, List.map_flatMap]
  simp only [List.map_map]
  rfl

/-- What the assumption says of one rule. -/
theorem OneRuleEach.of_mem (h : OneRuleEach endian dbs) {token : UInt32} {p : Arch × DbApiRule}
    (hp : p ∈ rulesFor dbs token) :
    p.1.endian = endian ∧ p.2.Collected ∧ IsInt p.2.syscall := by
  obtain ⟨db, hdb, -, harch, hr⟩ := mem_rulesFor hp
  rw [harch]
  exact ⟨h.endian db hdb, h.rules db hdb p.2 hr⟩

/-- The entries for a token have distinct numbers. -/
theorem OneRuleEach.distinctNums (h : OneRuleEach endian dbs) {db : DbFilter} (hdb : db ∈ dbs)
    (actDefault actBadarch : Action) :
    DistinctNums (((colOfRules actDefault actBadarch endian dbs).filtersFor
      db.arch.tokenBpf).flatMap DbFilterTree.syscalls) := by
  rw [flatMap_filtersFor]
  refine List.pairwise_map.mpr ((h.distinct db hdb).imp_of_mem fun hp hq hne _ _ hnum => ?_)
  rw [DbApiRule.num_entry, DbApiRule.num_entry] at hnum
  exact hne (sysNum_inj (h.of_mem hp).2.2 (h.of_mem hq).2.2 hnum)

/-- The collection of the rules is well formed. -/
theorem OneRuleEach.wellFormed (h : OneRuleEach endian dbs) (actDefault actBadarch : Action) :
    (colOfRules actDefault actBadarch endian dbs).WellFormed where
  archs := by
    show ((dbs.map DbFilter.trees).map DbFilterTree.arch).Nodup
    rw [List.map_map]
    exact h.archs
  endian := fun f hf => by
    obtain ⟨db, hdb, rfl⟩ := List.mem_map.mp hf
    exact h.endian db hdb
  nums := fun f hf => by
    obtain ⟨db, hdb, rfl⟩ := List.mem_map.mp hf
    exact h.distinctNums hdb actDefault actBadarch

/-- An entry of the collection is that of a rule. -/
theorem exists_entry {f : DbFilterTree}
    (hf : f ∈ (colOfRules actDefault actBadarch endian dbs).filters) {s : DbSysList}
    (hs : s ∈ f.syscalls) : ∃ db ∈ dbs, ∃ r ∈ db.rules, s = r.entry db.arch := by
  obtain ⟨db, hdb, rfl⟩ := List.mem_map.mp hf
  obtain ⟨r, hr, rfl⟩ := List.mem_map.mp hs
  exact ⟨db, hdb, r, hr, rfl⟩

/-- Up to the size limit it can be compiled. -/
theorem OneRuleEach.compilable (h : OneRuleEach endian dbs) (hne : dbs ≠ [])
    (hsize : 7 * (colOfRules actDefault actBadarch endian dbs).additions < 2 ^ 16) :
    (colOfRules actDefault actBadarch endian dbs).Compilable where
  nonempty := fun hnil => hne (List.map_eq_nil_iff.mp hnil)
  tests := fun f hf s hs _ => by
    obtain ⟨db, hdb, r, hr, rfl⟩ := exists_entry hf hs
    exact DbApiRule.threaded_entry (h.rules db hdb r hr).1
  first := fun g hg _ s hs => by
    have hmem := (perm_sortPriority _).mem_iff.mp (List.mem_of_mem_head? hs)
    obtain ⟨f, hf, hsf⟩ := DbFilterCol.exists_of_mem_group
      (h.wellFormed actDefault actBadarch) hg hmem
    obtain ⟨db, -, r, -, rfl⟩ := exists_entry hf hsf
    exact DbApiRule.valid_entry _ _
  size := hsize

/-- The collection decides as the rules say. -/
theorem OneRuleEach.verdict (h : OneRuleEach endian dbs) (actDefault actBadarch : Action)
    {d : BpfData} (hexact : ∀ p ∈ rulesFor dbs d.arch, p.2.syscall = d.number →
      p.2.ExactOn p.1 d.args) :
    (colOfRules actDefault actBadarch endian dbs).verdict d =
      (rulesVerdict actDefault actBadarch dbs d).scmpAct := by
  rw [DbFilterCol.verdict, rulesVerdict]
  have hforeign : (∀ f ∈ (colOfRules actDefault actBadarch endian dbs).filtersFor d.arch,
      f.arch.Foreign d.nr) ↔ ∀ db ∈ dbs, db.arch.tokenBpf = d.arch → db.arch.Foreign d.nr := by
    rw [filtersFor_colOfRules, List.forall_mem_map]
    simp only [List.mem_filter, decide_eq_true_eq, and_imp]
    rfl
  by_cases hall : ∀ db ∈ dbs, db.arch.tokenBpf = d.arch → db.arch.Foreign d.nr
  · rw [if_pos (hforeign.mpr hall), if_pos hall]
    rfl
  · rw [if_neg (mt hforeign.mp hall), if_neg hall]
    push Not at hall
    obtain ⟨db, hdb, htoken, -⟩ := hall
    have hdistinct := h.distinct db hdb
    rw [htoken] at hdistinct
    rw [flatMap_filtersFor]
    exact evalSyscalls_entries (fun p hp => (h.of_mem hp).1) (fun p hp => (h.of_mem hp).2.1)
      (fun p hp => (h.of_mem hp).2.2) hdistinct actDefault hexact

end Draco
