/-
# From a rule to a chain of tests (`_db_rule_gen_64`, `_db_rule_gen_32`)

The database keeps, for each system call, a tree of tests on 32-bit words of the
arguments.  A test has a subtree or an action for either outcome; where it has
neither, the tests go on with the next node of its level, and behind the last node of
a level with the next node of the level above (`DbArgChainTree.eval`).  A new rule is
first made into a chain of such tests: one node for each argument on a 32-bit
architecture, one for its upper and one for its lower half on a 64-bit one.

Comparing the halves one by one decides an order only where the upper halves are
equal or the test on them alone decides it; what exactly a chain accepts is
`eval_dbRuleGen64` and `eval_dbRuleGen32`, and for which arguments this is what the
rule says is `passes64_eq_holds_iff`.
-/
import Draco.Bpf
import Draco.Libseccomp
import Mathlib.Data.Fintype.Basic
import Mathlib.Tactic.FinCases

namespace Draco

/-! ## Trees of tests -/

/-- `struct db_arg_chain_tree` without its links: a test of one word, and the actions
`act_t`, `act_f` that its flags turn on. -/
structure ChainNode where
  arg : ℕ
  argOffset : UInt32
  op : ScmpCompare
  mask : UInt32
  datum : UInt32
  actT : Option UInt32
  actF : Option UInt32
  deriving DecidableEq, Repr

/-- A level of `struct db_arg_chain_tree`s from its first node on: `nxt_t`, `nxt_f` and
`lvl_nxt` of a node, with `null` for `NULL`. -/
inductive DbArgChainTree where
  | null
  | node (n : ChainNode) (nxtT nxtF lvlNxt : DbArgChainTree)
  deriving DecidableEq, Repr

/-- What the generated code of a node tests.  It knows four operators. -/
def ChainNode.test (n : ChainNode) (w : UInt32) : Bool :=
  match n.op with
  | .eq => (w &&& n.mask) == n.datum
  | .maskedEq => (w &&& n.mask) == n.datum
  | .gt => n.datum < (w &&& n.mask)
  | .ge => n.datum ≤ (w &&& n.mask)
  | _ => false

namespace DbArgChainTree

/-- The tree has no nodes. -/
def isNull : DbArgChainTree → Bool
  | null => true
  | node _ _ _ _ => false

/-- The action that a level comes to, where `fall` stands for what follows it. -/
def eval (target : ArchEndian) (d : BpfData) (fall : UInt32) : DbArgChainTree → UInt32
  | null => fall
  | node n nxtT nxtF lvlNxt =>
    let next := eval target d fall lvlNxt
    if n.test (d.word target n.argOffset) then
      if nxtT.isNull then n.actT.getD next else eval target d next nxtT
    else
      if nxtF.isNull then n.actF.getD next else eval target d next nxtF

@[simp] theorem eval_null (target : ArchEndian) (d : BpfData) (fall : UInt32) :
    eval target d fall null = fall := rfl

end DbArgChainTree

/-- `struct db_sys_list` without its links. -/
structure DbSysList where
  num : UInt32
  priority : UInt32
  chains : DbArgChainTree
  nodeCnt : ℕ
  action : UInt32
  valid : Bool
  deriving DecidableEq, Repr

/-- The action on a call of this number; `fall` is the default. -/
def DbSysList.eval (target : ArchEndian) (d : BpfData) (fall : UInt32) (s : DbSysList) : UInt32 :=
  if s.chains.isNull then s.action else s.chains.eval target d fall

/-! ## The chain of a rule -/

/-- `arch_arg_offset_lo` of a valid architecture -/
def archArgOffsetLo (target : ArchEndian) (arg : ℕ) : UInt32 :=
  match target with
  | .little => UInt32.ofNat (16 + 8 * arg)
  | .big => UInt32.ofNat (16 + 8 * arg + 4)

/-- `arch_arg_offset_hi` of a 64-bit architecture -/
def archArgOffsetHi (target : ArchEndian) (arg : ℕ) : UInt32 :=
  match target with
  | .little => UInt32.ofNat (16 + 8 * arg + 4)
  | .big => UInt32.ofNat (16 + 8 * arg)

/-- `_db_arg_cmp_need_lo` -/
def dbArgCmpNeedLo (a : DbApiArg) : Bool := !(a.op == .maskedEq && d64Lo a.mask == 0)

/-- `_db_arg_cmp_need_hi` -/
def dbArgCmpNeedHi (a : DbApiArg) : Bool := !(a.op == .maskedEq && d64Hi a.mask == 0)

/-- The operators of the upper and of the lower half, and `tf_flag`: whether the chain
goes on where they hold. -/
def splitOp : ScmpCompare → ScmpCompare × ScmpCompare × Bool
  | .gt => (.ge, .gt, true)
  | .ne => (.eq, .eq, false)
  | .lt => (.ge, .ge, false)
  | .le => (.ge, .gt, false)
  | op => (op, op, true)

/-- The operator of the one node of a 32-bit argument, and `tf_flag`. -/
def rewriteOp : ScmpCompare → ScmpCompare × Bool
  | .ne => (.eq, false)
  | .lt => (.ge, false)
  | .le => (.gt, false)
  | op => (op, true)

/-- A node with a datum masked by `_db_node_mask_fixup`. -/
def chainNode (arg : ℕ) (argOffset : UInt32) (op : ScmpCompare) (mask datum : UInt32)
    (actT actF : Option UInt32) : ChainNode :=
  ⟨arg, argOffset, op, mask, datum &&& mask, actT, actF⟩

/-- The loop of `_db_rule_gen_64` over the arguments that have a test. -/
def chain64 (target : ArchEndian) (action : UInt32) : List (ℕ × DbApiArg) → DbArgChainTree
  | [] => .null
  | (i, a) :: rest =>
    let next := chain64 target action rest
    -- the last argument has the action in place of a next one
    let act := if next.isNull then some action else none
    let (opHi, opLo, tf) := splitOp a.op
    let nodeHi := chainNode i (archArgOffsetHi target i) opHi (d64Hi a.mask) (d64Hi a.datum)
    let nodeLo := chainNode i (archArgOffsetLo target i) opLo (d64Lo a.mask) (d64Lo a.datum)
    if tf then .node (nodeHi none none) (.node (nodeLo act none) next .null .null) .null .null
    else .node (nodeHi none act) (.node (nodeLo none act) .null next .null) next .null

/-- The loop of `_db_rule_gen_32`. -/
def chain32 (target : ArchEndian) (action : UInt32) : List (ℕ × DbApiArg) → DbArgChainTree
  | [] => .null
  | (i, a) :: rest =>
    let next := chain32 target action rest
    let act := if next.isNull then some action else none
    let (op, tf) := rewriteOp a.op
    let node := chainNode i (archArgOffsetLo target i) op (d64Lo a.mask) (d64Lo a.datum)
    if tf then .node (node act none) next .null .null
    else .node (node none act) .null next .null

/-- The arguments of a rule that are compared, in order. -/
def usedArgs (need : DbApiArg → Bool) (chain : Fin 6 → DbApiArg) : List (ℕ × DbApiArg) :=
  ((List.finRange 6).filter fun i => (chain i).valid && need (chain i)).map
    fun i => (i.val, chain i)

/-- `_db_rule_gen_64` -/
def dbRuleGen64 (target : ArchEndian) (action syscall : UInt32) (chain : Fin 6 → DbApiArg) :
    DbSysList :=
  let used := usedArgs (fun a => dbArgCmpNeedHi a || dbArgCmpNeedLo a) chain
  ⟨syscall, 0, chain64 target action used, 2 * used.length,
    if used.isEmpty then action else 0, true⟩

/-- `_db_rule_gen_32` -/
def dbRuleGen32 (target : ArchEndian) (action syscall : UInt32) (chain : Fin 6 → DbApiArg) :
    DbSysList :=
  let used := usedArgs dbArgCmpNeedLo chain
  ⟨syscall, 0, chain32 target action used, used.length,
    if used.isEmpty then action else 0, true⟩

/-! ## The halves of a 64-bit number -/

theorem toNat_d64Lo (x : UInt64) : (d64Lo x).toNat = x.toNat % 4294967296 := by
  simp [d64Lo]

theorem toNat_d64Hi (x : UInt64) : (d64Hi x).toNat = x.toNat / 4294967296 := by
  have hx := x.toNat_lt
  simp [d64Hi, Nat.shiftRight_eq_div_pow]
  omega

theorem d64Lo_and (x y : UInt64) : d64Lo (x &&& y) = d64Lo x &&& d64Lo y := by
  simp [d64Lo]

theorem d64Hi_and (x y : UInt64) : d64Hi (x &&& y) = d64Hi x &&& d64Hi y := by
  apply UInt32.toNat_inj.mp
  simp only [d64Hi, UInt64.toNat_toUInt32, UInt64.toNat_shiftRight, UInt64.toNat_and,
    UInt32.toNat_and, Nat.shiftRight_and_distrib]
  exact Nat.and_mod_two_pow

/-- Two 64-bit words are equal when both halves are. -/
theorem eq_iff_halves (x y : UInt64) : x = y ↔ d64Hi x = d64Hi y ∧ d64Lo x = d64Lo y := by
  rw [← UInt64.toNat_inj, ← UInt32.toNat_inj, ← UInt32.toNat_inj, toNat_d64Hi, toNat_d64Hi,
    toNat_d64Lo, toNat_d64Lo]
  omega

/-- The order of 64-bit words is lexicographic in their halves. -/
theorem le_iff_halves (x y : UInt64) :
    x ≤ y ↔ d64Hi x < d64Hi y ∨ d64Hi x = d64Hi y ∧ d64Lo x ≤ d64Lo y := by
  rw [UInt64.le_iff_toNat_le, UInt32.lt_iff_toNat_lt, ← UInt32.toNat_inj, UInt32.le_iff_toNat_le,
    toNat_d64Hi, toNat_d64Hi, toNat_d64Lo, toNat_d64Lo]
  omega

theorem lt_iff_halves (x y : UInt64) :
    x < y ↔ d64Hi x < d64Hi y ∨ d64Hi x = d64Hi y ∧ d64Lo x < d64Lo y := by
  rw [UInt64.lt_iff_toNat_lt, UInt32.lt_iff_toNat_lt, ← UInt32.toNat_inj, UInt32.lt_iff_toNat_lt,
    toNat_d64Hi, toNat_d64Hi, toNat_d64Lo, toNat_d64Lo]
  omega

theorem and_ffffffff (x : UInt32) : x &&& 0xffffffff = x := by
  apply UInt32.toNat_inj.mp
  rw [UInt32.toNat_and]
  exact (Nat.and_two_pow_sub_one_eq_mod x.toNat 32).trans (Nat.mod_eq_of_lt x.toNat_lt)

/-! ## What a chain accepts -/

/-- The test of a word against a datum under a mask, as a node makes it. -/
def testWord (op : ScmpCompare) (mask datum w : UInt32) : Bool :=
  (chainNode 0 0 op mask datum none none).test w

/-- What the chain of a 64-bit architecture asks of an argument: whether the tests of
both halves hold, or that they do not. -/
def DbApiArg.passes64 (a : DbApiArg) (x : UInt64) : Bool :=
  (testWord (splitOp a.op).1 (d64Hi a.mask) (d64Hi a.datum) (d64Hi x) &&
    testWord (splitOp a.op).2.1 (d64Lo a.mask) (d64Lo a.datum) (d64Lo x)) == (splitOp a.op).2.2

/-- What the chain of a 32-bit architecture asks of an argument. -/
def DbApiArg.passes32 (a : DbApiArg) (x : UInt64) : Bool :=
  testWord (rewriteOp a.op).1 (d64Lo a.mask) (d64Lo a.datum) (d64Lo x) == (rewriteOp a.op).2

/-- The word at the lower offset of an argument is its lower half. -/
theorem word_archArgOffsetLo (target : ArchEndian) (d : BpfData) (i : Fin 6) :
    d.word target (archArgOffsetLo target i) = d64Lo (d.args i) := by
  cases target <;> fin_cases i <;> rfl

/-- The word at the upper offset is its upper half. -/
theorem word_archArgOffsetHi (target : ArchEndian) (d : BpfData) (i : Fin 6) :
    d.word target (archArgOffsetHi target i) = d64Hi (d.args i) := by
  cases target <;> fin_cases i <;> rfl

/-- A rule without compared arguments has no chain. -/
theorem isNull_chain64 (target : ArchEndian) (action : UInt32) (used : List (ℕ × DbApiArg)) :
    (chain64 target action used).isNull = used.isEmpty := by
  cases used with
  | nil => rfl
  | cons p rest =>
    rw [chain64]
    dsimp only
    split <;> rfl

/-- The only node of its level. -/
theorem eval_chainNode (target : ArchEndian) (d : BpfData) (fall : UInt32) (arg : ℕ)
    (argOffset : UInt32) (op : ScmpCompare) (mask datum : UInt32) (actT actF : Option UInt32)
    (nxtT nxtF : DbArgChainTree) :
    (DbArgChainTree.node (chainNode arg argOffset op mask datum actT actF) nxtT nxtF .null).eval
        target d fall =
      if testWord op mask datum (d.word target argOffset) = true then
        if nxtT.isNull then actT.getD fall else nxtT.eval target d fall
      else if nxtF.isNull then actF.getD fall else nxtF.eval target d fall := rfl

/-- The tree that a chain goes on with, its action where there is none. -/
def evalNext (target : ArchEndian) (d : BpfData) (fall action : UInt32) (next : DbArgChainTree) :
    UInt32 :=
  if next.isNull then action else next.eval target d fall

theorem evalNext_eq (target : ArchEndian) (d : BpfData) (fall action : UInt32)
    (next : DbArgChainTree) :
    (if next.isNull = true then (if next.isNull = true then some action else none).getD fall
      else next.eval target d fall) = evalNext target d fall action next := by
  unfold evalNext
  split <;> rfl

/-- One argument of a 64-bit chain. -/
theorem eval_chain64_cons (target : ArchEndian) (action : UInt32) (d : BpfData) (fall : UInt32)
    (i : Fin 6) (a : DbApiArg) (rest : List (ℕ × DbApiArg)) :
    (chain64 target action ((i.val, a) :: rest)).eval target d fall =
      if a.passes64 (d.args i) = true then
        evalNext target d fall action (chain64 target action rest)
      else fall := by
  rw [chain64]
  generalize chain64 target action rest = next
  unfold DbApiArg.passes64
  obtain ⟨opHi, opLo, tf⟩ := splitOp a.op
  cases tf with
  | true =>
    show (DbArgChainTree.node _ (.node _ next .null .null) .null .null).eval target d fall = _
    rw [eval_chainNode, eval_chainNode, word_archArgOffsetHi, word_archArgOffsetLo, evalNext_eq]
    cases testWord opHi (d64Hi a.mask) (d64Hi a.datum) (d64Hi (d.args i)) <;>
      cases testWord opLo (d64Lo a.mask) (d64Lo a.datum) (d64Lo (d.args i)) <;> rfl
  | false =>
    show (DbArgChainTree.node _ (.node _ .null next .null) next .null).eval target d fall = _
    rw [eval_chainNode, eval_chainNode, word_archArgOffsetHi, word_archArgOffsetLo, evalNext_eq]
    cases testWord opHi (d64Hi a.mask) (d64Hi a.datum) (d64Hi (d.args i)) <;>
      cases testWord opLo (d64Lo a.mask) (d64Lo a.datum) (d64Lo (d.args i)) <;> rfl

/-- One argument of a 32-bit chain. -/
theorem eval_chain32_cons (target : ArchEndian) (action : UInt32) (d : BpfData) (fall : UInt32)
    (i : Fin 6) (a : DbApiArg) (rest : List (ℕ × DbApiArg)) :
    (chain32 target action ((i.val, a) :: rest)).eval target d fall =
      if a.passes32 (d.args i) = true then
        evalNext target d fall action (chain32 target action rest)
      else fall := by
  rw [chain32]
  generalize chain32 target action rest = next
  unfold DbApiArg.passes32
  obtain ⟨op, tf⟩ := rewriteOp a.op
  cases tf with
  | true =>
    show (DbArgChainTree.node _ next .null .null).eval target d fall = _
    rw [eval_chainNode, word_archArgOffsetLo, evalNext_eq]
    cases testWord op (d64Lo a.mask) (d64Lo a.datum) (d64Lo (d.args i)) <;> rfl
  | false =>
    show (DbArgChainTree.node _ .null next .null).eval target d fall = _
    rw [eval_chainNode, word_archArgOffsetLo, evalNext_eq]
    cases testWord op (d64Lo a.mask) (d64Lo a.datum) (d64Lo (d.args i)) <;> rfl

theorem isNull_chain32 (target : ArchEndian) (action : UInt32) (used : List (ℕ × DbApiArg)) :
    (chain32 target action used).isNull = used.isEmpty := by
  cases used with
  | nil => rfl
  | cons p rest =>
    rw [chain32]
    dsimp only
    split <;> rfl

/-- A chain whose nodes pass their arguments on leads to its action if every argument
passes, and else to what follows it. -/
theorem eval_chain_of_cons (target : ArchEndian) (action : UInt32) (d : BpfData) (fall : UInt32)
    (chainOf : List (ℕ × DbApiArg) → DbArgChainTree) (passes : DbApiArg → UInt64 → Bool)
    (hnull : ∀ used, (chainOf used).isNull = used.isEmpty)
    (hcons : ∀ (i : Fin 6) a rest, (chainOf ((i.val, a) :: rest)).eval target d fall =
      if passes a (d.args i) = true then evalNext target d fall action (chainOf rest) else fall)
    (chain : Fin 6 → DbApiArg) (used : List (Fin 6)) :
    evalNext target d fall action (chainOf (used.map fun i => (i.val, chain i))) =
      if ∀ i ∈ used, passes (chain i) (d.args i) = true then action else fall := by
  induction used with
  | nil => simp [evalNext, hnull]
  | cons i rest ih =>
    rw [evalNext, hnull, List.map_cons, List.isEmpty_cons, if_neg (by decide), hcons, ih,
      ← ite_and]
    simp only [List.forall_mem_cons]

/-- The comparisons that a 64-bit chain leaves out hold of every argument. -/
theorem passes64_of_not_need (a : DbApiArg) (x : UInt64)
    (h : (dbArgCmpNeedHi a || dbArgCmpNeedLo a) = false) : a.passes64 x = true := by
  obtain ⟨⟨hop, hhi⟩, -, hlo⟩ :
      (a.op = .maskedEq ∧ d64Hi a.mask = 0) ∧ a.op = .maskedEq ∧ d64Lo a.mask = 0 := by
    simpa [dbArgCmpNeedHi, dbArgCmpNeedLo] using h
  simp [DbApiArg.passes64, hop, splitOp, testWord, chainNode, ChainNode.test, hhi, hlo]

/-- An argument that needs no test on 32 bits always passes. -/
theorem passes32_of_not_need (a : DbApiArg) (x : UInt64) (h : dbArgCmpNeedLo a = false) :
    a.passes32 x = true := by
  obtain ⟨hop, hlo⟩ : a.op = .maskedEq ∧ d64Lo a.mask = 0 := by
    simpa [dbArgCmpNeedLo] using h
  simp [DbApiArg.passes32, hop, rewriteOp, testWord, chainNode, ChainNode.test, hlo]

/-- A property of the arguments that are compared, and of those left out. -/
theorem forall_used_iff (need : DbApiArg → Bool) (passes : DbApiArg → UInt64 → Bool)
    (hneed : ∀ a x, need a = false → passes a x = true) (chain : Fin 6 → DbApiArg)
    (args : Fin 6 → UInt64) :
    (∀ i ∈ (List.finRange 6).filter fun i => (chain i).valid && need (chain i),
        passes (chain i) (args i) = true) ↔
      ∀ i, (chain i).valid = true → passes (chain i) (args i) = true := by
  constructor
  · intro h i hi
    cases hn : need (chain i) with
    | false => exact hneed (chain i) (args i) hn
    | true => exact h i (by simp [hi, hn])
  · intro h i hi
    have hi : (chain i).valid = true ∧ need (chain i) = true := by simpa using hi
    exact h i hi.1

/-- The entry of a rule leads to its action if every argument passes, and else to what
follows it. -/
theorem eval_rule_of_cons (target : ArchEndian) (action syscall : UInt32) (d : BpfData)
    (fall : UInt32) (chainOf : List (ℕ × DbApiArg) → DbArgChainTree)
    (need : DbApiArg → Bool) (passes : DbApiArg → UInt64 → Bool) (nodeCnt : ℕ)
    (hnull : ∀ used, (chainOf used).isNull = used.isEmpty)
    (hneed : ∀ a x, need a = false → passes a x = true)
    (hcons : ∀ (i : Fin 6) a rest, (chainOf ((i.val, a) :: rest)).eval target d fall =
      if passes a (d.args i) = true then evalNext target d fall action (chainOf rest) else fall)
    (chain : Fin 6 → DbApiArg) :
    DbSysList.eval target d fall ⟨syscall, 0, chainOf (usedArgs need chain), nodeCnt,
        if (usedArgs need chain).isEmpty then action else 0, true⟩ =
      if ∀ i, (chain i).valid = true → passes (chain i) (d.args i) = true then action else fall := by
  rw [← if_congr (forall_used_iff need passes hneed chain d.args) rfl rfl,
    ← eval_chain_of_cons target action d fall chainOf passes hnull hcons chain,
    DbSysList.eval, evalNext]
  show (if (chainOf (usedArgs need chain)).isNull = true then _ else _) =
    if (chainOf (usedArgs need chain)).isNull = true then _ else _
  rw [hnull]
  split <;> rfl

/-- **The chain of a rule on a 64-bit architecture.**  It leads to the action of the rule
if the halves of every argument pass their tests, and else to what follows it. -/
theorem eval_dbRuleGen64 (target : ArchEndian) (action syscall : UInt32)
    (chain : Fin 6 → DbApiArg) (d : BpfData) (fall : UInt32) :
    (dbRuleGen64 target action syscall chain).eval target d fall =
      if ∀ i, (chain i).valid = true → (chain i).passes64 (d.args i) = true then action
      else fall :=
  eval_rule_of_cons target action syscall d fall (chain64 target action) _ DbApiArg.passes64 _
    (isNull_chain64 target action) passes64_of_not_need (eval_chain64_cons target action d fall)
    chain

/-- **The chain of a rule on a 32-bit architecture.** -/
theorem eval_dbRuleGen32 (target : ArchEndian) (action syscall : UInt32)
    (chain : Fin 6 → DbApiArg) (d : BpfData) (fall : UInt32) :
    (dbRuleGen32 target action syscall chain).eval target d fall =
      if ∀ i, (chain i).valid = true → (chain i).passes32 (d.args i) = true then action
      else fall :=
  eval_rule_of_cons target action syscall d fall (chain32 target action) _ DbApiArg.passes32 _
    (isNull_chain32 target action) passes32_of_not_need (eval_chain32_cons target action d fall)
    chain

/-! ## What the rule says -/

/-- An argument as `db_col_rule_add` collects it. -/
def DbApiArg.Collected (a : DbApiArg) : Prop :=
  a.op ≠ .invalid ∧ (a.op ≠ .maskedEq → a.mask = DATUM_MAX)

instance (a : DbApiArg) : Decidable a.Collected := inferInstanceAs (Decidable (_ ∧ _))

/-- The loop of `db_col_rule_add` fills a chain with arguments that meet its checks. -/
theorem collected_collectArgs {argArray : List ScmpArgCmp} {chain chain' : Fin 6 → DbApiArg}
    {argPosition argPosition' : BitVec 32}
    (hchain : ∀ i, (chain i).valid = true → (chain i).Collected)
    (h : collectArgs argArray chain argPosition = some (chain', argPosition')) (i : Fin 6)
    (hi : (chain' i).valid = true) : (chain' i).Collected := by
  induction argArray generalizing chain argPosition with
  | nil =>
    obtain ⟨rfl, -⟩ := Prod.mk.inj (Option.some.inj h)
    exact hchain i hi
  | cons a rest ih =>
    -- the new element of the chain is collected, the others are as before
    have hupd : ∀ (hlt : a.arg < 6) (b : DbApiArg), b.Collected → ∀ j,
        (Function.update chain ⟨a.arg, hlt⟩ b j).valid = true →
          (Function.update chain ⟨a.arg, hlt⟩ b j).Collected := by
      intro hlt b hb j hj
      by_cases hji : j = ⟨a.arg, hlt⟩
      · subst hji
        rwa [Function.update_self]
      · rw [Function.update_of_ne hji] at hj ⊢
        exact hchain j hj
    rw [collectArgs] at h
    split at h
    next hlt =>
      split at h
      · cases h
      · split at h
        · cases h
        next hop => exact ih (hupd hlt _ (by simp [DbApiArg.Collected, hop])) h
        next hinv hmask => exact ih (hupd hlt _ ⟨hinv, fun _ => rfl⟩) h
    · cases h

/-- The comparison asks for more than the datum: `ge` and `gt`, and not their opposites. -/
def ScmpCompare.isUp : ScmpCompare → Bool
  | .ge => true
  | .gt => true
  | _ => false

/-- The upper half decides an ordered comparison, and the lower half the other way. -/
def DbApiArg.misordered (a : DbApiArg) (x : UInt64) : Bool :=
  d64Hi a.datum < d64Hi x &&
    match a.op with
    | .ge => d64Lo x < d64Lo a.datum
    | .lt => d64Lo x < d64Lo a.datum
    | .gt => d64Lo x ≤ d64Lo a.datum
    | .le => d64Lo x ≤ d64Lo a.datum
    | _ => false

/-- The tests of the halves decide a comparison wrongly exactly where the halves point in
different directions. -/
theorem passes64_eq_holds_iff {a : DbApiArg} (h : a.Collected) (x : UInt64) :
    a.passes64 x = a.holds x ↔ a.misordered x = false := by
  obtain ⟨op, mask, datum, valid⟩ := a
  obtain ⟨hop, hmask⟩ := h
  have hHi : ∀ w : UInt32, w &&& d64Hi DATUM_MAX = w := and_ffffffff
  have hLo : ∀ w : UInt32, w &&& d64Lo DATUM_MAX = w := and_ffffffff
  rw [Bool.eq_iff_iff]
  cases op with
  | ne =>
    obtain rfl : mask = DATUM_MAX := hmask (by simp)
    simp only [DbApiArg.passes64, DbApiArg.holds, DbApiArg.misordered, splitOp, testWord,
      chainNode, ChainNode.test, hHi, hLo]
    simp [eq_iff_halves x datum]
    exact not_and_or.symm.trans not_and
  | eq =>
    obtain rfl : mask = DATUM_MAX := hmask (by simp)
    simp only [DbApiArg.passes64, DbApiArg.holds, DbApiArg.misordered, splitOp, testWord,
      chainNode, ChainNode.test, hHi, hLo]
    simp [eq_iff_halves x datum]
  | lt =>
    obtain rfl : mask = DATUM_MAX := hmask (by simp)
    simp only [DbApiArg.passes64, DbApiArg.holds, DbApiArg.misordered, splitOp, testWord,
      chainNode, ChainNode.test, hHi, hLo]
    simp [lt_iff_halves x datum, UInt32.le_iff_toNat_le, UInt32.lt_iff_toNat_lt,
      ← UInt32.toNat_inj]
    omega
  | le =>
    obtain rfl : mask = DATUM_MAX := hmask (by simp)
    simp only [DbApiArg.passes64, DbApiArg.holds, DbApiArg.misordered, splitOp, testWord,
      chainNode, ChainNode.test, hHi, hLo]
    simp [le_iff_halves x datum, UInt32.le_iff_toNat_le, UInt32.lt_iff_toNat_lt,
      ← UInt32.toNat_inj]
    omega
  | ge =>
    obtain rfl : mask = DATUM_MAX := hmask (by simp)
    simp only [DbApiArg.passes64, DbApiArg.holds, DbApiArg.misordered, splitOp, testWord,
      chainNode, ChainNode.test, hHi, hLo]
    simp [le_iff_halves datum x, UInt32.le_iff_toNat_le, UInt32.lt_iff_toNat_lt,
      ← UInt32.toNat_inj]
    omega
  | gt =>
    obtain rfl : mask = DATUM_MAX := hmask (by simp)
    simp only [DbApiArg.passes64, DbApiArg.holds, DbApiArg.misordered, splitOp, testWord,
      chainNode, ChainNode.test, hHi, hLo]
    simp [lt_iff_halves datum x, UInt32.le_iff_toNat_le, UInt32.lt_iff_toNat_lt,
      ← UInt32.toNat_inj]
    omega
  | maskedEq =>
    simp only [DbApiArg.passes64, DbApiArg.holds, DbApiArg.misordered, splitOp, testWord,
      chainNode, ChainNode.test]
    simp [eq_iff_halves (x &&& mask), d64Hi_and, d64Lo_and]
  | invalid => exact absurd rfl hop

/-- Where the halves point in different directions, the rule asks what the chain denies:
it accepts the argument if it asks for more than the datum, and else rejects it. -/
theorem holds_of_misordered {a : DbApiArg} (h : a.Collected) {x : UInt64}
    (hx : a.misordered x = true) : a.holds x = a.op.isUp ∧ a.passes64 x = !a.op.isUp := by
  have hne : a.passes64 x ≠ a.holds x := fun heq => by
    rw [(passes64_eq_holds_iff h x).mp heq] at hx
    cases hx
  have hholds : a.holds x = a.op.isUp := by
    obtain ⟨op, mask, datum, valid⟩ := a
    have hhi : d64Hi datum < d64Hi x := by
      rw [DbApiArg.misordered, Bool.and_eq_true, decide_eq_true_eq] at hx
      exact hx.1
    have hlt : datum < x := (lt_iff_halves datum x).mpr (Or.inl hhi)
    have hle : datum ≤ x := (le_iff_halves datum x).mpr (Or.inl hhi)
    cases op <;> simp_all [DbApiArg.holds, ScmpCompare.isUp, DbApiArg.misordered]
  refine ⟨hholds, ?_⟩
  rw [hholds] at hne
  cases hp : a.passes64 x <;> cases hu : a.op.isUp <;> simp_all

/-- **What the 64-bit chain of a rule gets wrong.**  On a call the chain decides as the
rule says exactly if the halves of no argument point in different directions, or some
other argument fails, or two such arguments are compared in opposite ways. -/
theorem dbRuleGen64_decides_iff (target : ArchEndian) {action fall : UInt32}
    (hne : action ≠ fall) (syscall : UInt32) {chain : Fin 6 → DbApiArg}
    (hcoll : ∀ i, (chain i).valid = true → (chain i).Collected) (d : BpfData) :
    (dbRuleGen64 target action syscall chain).eval target d fall =
        (if ∀ i, (chain i).valid = true → (chain i).holds (d.args i) = true then action
          else fall) ↔
      (∀ i, (chain i).valid = true → (chain i).misordered (d.args i) = false) ∨
      (∃ i, (chain i).valid = true ∧ (chain i).misordered (d.args i) = false ∧
        (chain i).holds (d.args i) = false) ∨
      (∃ i j, ((chain i).valid = true ∧ (chain i).misordered (d.args i) = true ∧
          (chain i).op.isUp = true) ∧
        (chain j).valid = true ∧ (chain j).misordered (d.args j) = true ∧
          (chain j).op.isUp = false) := by
  rw [eval_dbRuleGen64]
  have hite : ∀ (P Q : Prop) [Decidable P] [Decidable Q],
      ((if P then action else fall) = if Q then action else fall) ↔ (P ↔ Q) := by
    intro P Q _ _
    by_cases hP : P <;> by_cases hQ : Q <;> simp [hP, hQ, hne, hne.symm]
  rw [hite]
  have hsame : ∀ i, (chain i).valid = true → (chain i).misordered (d.args i) = false →
      (chain i).passes64 (d.args i) = (chain i).holds (d.args i) :=
    fun i hi hx => (passes64_eq_holds_iff (hcoll i hi) (d.args i)).mpr hx
  have hmis := fun i hi hx => holds_of_misordered (hcoll i hi) (x := d.args i) hx
  constructor
  · intro hiff
    by_contra hno
    rw [not_or, not_or] at hno
    obtain ⟨hsome, hfail, hboth⟩ := hno
    rw [not_forall] at hsome
    obtain ⟨j, hj⟩ := hsome
    rw [Classical.not_imp, Bool.not_eq_false] at hj
    -- every argument that is not misordered holds
    have hothers : ∀ i, (chain i).valid = true → (chain i).misordered (d.args i) = false →
        (chain i).holds (d.args i) = true := by
      intro i hi hx
      by_contra hf
      exact hfail ⟨i, hi, hx, by simpa using hf⟩
    cases hup : (chain j).op.isUp with
    | true =>
      -- no argument is misordered downwards, so the rule holds
      have hall : ∀ i, (chain i).valid = true → (chain i).holds (d.args i) = true := by
        intro i hi
        cases hx : (chain i).misordered (d.args i) with
        | true =>
          rw [(hmis i hi hx).1]
          by_contra hd
          exact hboth ⟨j, i, ⟨hj.1, hj.2, hup⟩, hi, hx, by simpa using hd⟩
        | false => exact hothers i hi hx
      have hpass := hiff.mpr hall j hj.1
      rw [(hmis j hj.1 hj.2).2, hup] at hpass
      cases hpass
    | false =>
      -- no argument is misordered upwards, so the chain passes
      have hall : ∀ i, (chain i).valid = true → (chain i).passes64 (d.args i) = true := by
        intro i hi
        cases hx : (chain i).misordered (d.args i) with
        | true =>
          rw [(hmis i hi hx).2]
          by_contra hu
          exact hboth ⟨i, j, ⟨hi, hx, by simpa using hu⟩, hj.1, hj.2, hup⟩
        | false =>
          rw [hsame i hi hx]
          exact hothers i hi hx
      have hholds := hiff.mp hall j hj.1
      rw [(hmis j hj.1 hj.2).1, hup] at hholds
      cases hholds
  · rintro (hnone | ⟨i, hi, hx, hf⟩ | ⟨i, j, ⟨hi, hxi, hui⟩, hj, hxj, huj⟩)
    · refine forall_congr' fun i => imp_congr_right fun hi => ?_
      rw [hsame i hi (hnone i hi)]
    · refine iff_of_false (fun hall => ?_) (fun hall => ?_)
      · have hp := hall i hi
        rw [hsame i hi hx, hf] at hp
        cases hp
      · have hh := hall i hi
        rw [hf] at hh
        cases hh
    · refine iff_of_false (fun hall => ?_) (fun hall => ?_)
      · have hp := hall i hi
        rw [(hmis i hi hxi).2, hui] at hp
        cases hp
      · have hh := hall j hj
        rw [(hmis j hj hxj).1, huj] at hh
        cases hh

/-- `a0 > 0x1_0000_0000` is refused for `a0 = 0x2_0000_0000`. -/
theorem dbRuleGen64_decides_gt :
    ¬ (dbRuleGen64 .little 1 5 fun i =>
          if i = 0 then ⟨.gt, DATUM_MAX, 0x100000000, true⟩ else DbApiArg.zero).eval .little
        ⟨5, 0, 0, fun _ => 0x200000000⟩ 0 =
      if ∀ i : Fin 6, (if i = 0 then ⟨.gt, DATUM_MAX, 0x100000000, true⟩
          else DbApiArg.zero : DbApiArg).valid = true →
        (if i = 0 then ⟨.gt, DATUM_MAX, 0x100000000, true⟩
          else DbApiArg.zero : DbApiArg).holds 0x200000000 = true then 1 else 0 := by
  rw [dbRuleGen64_decides_iff .little (by decide) 5 (by decide)
    ⟨5, 0, 0, fun _ => 0x200000000⟩]
  decide

/-! ## 32-bit architectures -/

/-- The datum does not fit the architecture, and its lower half compares as the datum
does not. -/
def DbApiArg.truncated (a : DbApiArg) (x : UInt64) : Bool :=
  match a.op with
  | .eq => d64Hi a.datum != 0 && d64Lo x == d64Lo a.datum
  | .ne => d64Hi a.datum != 0 && d64Lo x == d64Lo a.datum
  | .lt => d64Hi a.datum != 0 && d64Lo a.datum ≤ d64Lo x
  | .ge => d64Hi a.datum != 0 && d64Lo a.datum ≤ d64Lo x
  | .le => d64Hi a.datum != 0 && d64Lo a.datum < d64Lo x
  | .gt => d64Hi a.datum != 0 && d64Lo a.datum < d64Lo x
  | .maskedEq =>
    d64Hi (a.datum &&& a.mask) != 0 && d64Lo (x &&& a.mask) == d64Lo (a.datum &&& a.mask)
  | .invalid => false

/-- A 32-bit argument is compared as the rule says unless the datum is truncated. -/
theorem passes32_eq_holds_iff {a : DbApiArg} (h : a.Collected) {x : UInt64}
    (hx : d64Hi x = 0) : a.passes32 x = a.holds x ↔ a.truncated x = false := by
  obtain ⟨op, mask, datum, valid⟩ := a
  obtain ⟨hop, hmask⟩ := h
  have hLo : ∀ w : UInt32, w &&& d64Lo DATUM_MAX = w := and_ffffffff
  rw [Bool.eq_iff_iff]
  cases op with
  | ne =>
    obtain rfl : mask = DATUM_MAX := hmask (by simp)
    simp only [DbApiArg.passes32, DbApiArg.holds, DbApiArg.truncated, rewriteOp, testWord,
      chainNode, ChainNode.test, hLo]
    simp [eq_iff_halves x datum, hx, ← UInt32.toNat_inj]
    omega
  | eq =>
    obtain rfl : mask = DATUM_MAX := hmask (by simp)
    simp only [DbApiArg.passes32, DbApiArg.holds, DbApiArg.truncated, rewriteOp, testWord,
      chainNode, ChainNode.test, hLo]
    simp [eq_iff_halves x datum, hx, ← UInt32.toNat_inj]
    omega
  | lt =>
    obtain rfl : mask = DATUM_MAX := hmask (by simp)
    simp only [DbApiArg.passes32, DbApiArg.holds, DbApiArg.truncated, rewriteOp, testWord,
      chainNode, ChainNode.test, hLo]
    simp [lt_iff_halves x datum, hx, UInt32.le_iff_toNat_le, UInt32.lt_iff_toNat_lt,
      ← UInt32.toNat_inj]
    omega
  | le =>
    obtain rfl : mask = DATUM_MAX := hmask (by simp)
    simp only [DbApiArg.passes32, DbApiArg.holds, DbApiArg.truncated, rewriteOp, testWord,
      chainNode, ChainNode.test, hLo]
    simp [le_iff_halves x datum, hx, UInt32.le_iff_toNat_le, UInt32.lt_iff_toNat_lt,
      ← UInt32.toNat_inj]
    omega
  | ge =>
    obtain rfl : mask = DATUM_MAX := hmask (by simp)
    simp only [DbApiArg.passes32, DbApiArg.holds, DbApiArg.truncated, rewriteOp, testWord,
      chainNode, ChainNode.test, hLo]
    simp [le_iff_halves datum x, hx, UInt32.le_iff_toNat_le, UInt32.lt_iff_toNat_lt,
      ← UInt32.toNat_inj]
    omega
  | gt =>
    obtain rfl : mask = DATUM_MAX := hmask (by simp)
    simp only [DbApiArg.passes32, DbApiArg.holds, DbApiArg.truncated, rewriteOp, testWord,
      chainNode, ChainNode.test, hLo]
    simp [lt_iff_halves datum x, hx, UInt32.lt_iff_toNat_lt, ← UInt32.toNat_inj]
    omega
  | maskedEq =>
    have hx' : d64Hi (x &&& mask) = 0 := by
      rw [d64Hi_and, hx, UInt32.zero_and]
    simp only [DbApiArg.passes32, DbApiArg.holds, DbApiArg.truncated, rewriteOp, testWord,
      chainNode, ChainNode.test, ← d64Lo_and]
    simp [eq_iff_halves (x &&& mask), hx', ← UInt32.toNat_inj]
    omega
  | invalid => exact absurd rfl hop

end Draco
