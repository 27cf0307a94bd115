/-
# Adding rules and loading a filter (`libseccomp`)

The modified library collects, in `db_col_rule_add`, a bit mask of the arguments
that a rule compares and sends it to the kernel with `sys_draco_add` after it has
added the rule to the database of every architecture of the collection;
`sys_filter_load` asks the kernel to publish the masks and then installs the
compiled filter.

Both requests are `prctl`s of the calling task, 1001 for a mask and 1000 for the masks to
be published.  They are taken to reach their handlers in the kernel: a filter that is
installed already and denies `prctl` would keep the profile from changing.

The databases are modelled by their rule lists.  What the filter compiler
(`db_rule_add`), the allocator and the kernel return is part of the input of a
call (`AddOutcome`, `LoadOutcome`), and the generated syscall tables are a
parameter (`SyscallTables`).
-/
import Draco.Seccomp

namespace Draco

/-! ## Constants -/

abbrev EINVAL : ℤ := 22
abbrev ENOMEM : ℤ := 12
abbrev EFAULT : ℤ := 14
abbrev EDOM : ℤ := 33

/-- `__NR_SCMP_ERROR` -/
abbrev NR_SCMP_ERROR : ℤ := -1

/-- `__NR_SCMP_UNDEF` -/
abbrev NR_SCMP_UNDEF : ℤ := -2

/-- `DATUM_MAX` -/
abbrev DATUM_MAX : UInt64 := 0xffffffffffffffff

/-- What a function returns that "returns zero on success, negative values on
failure". -/
abbrev ReturnCode := { rc : ℤ // rc ≤ 0 }

/-- Success. -/
def ReturnCode.ok : ReturnCode := ⟨0, Int.le_refl 0⟩

/-! ## Rules -/

/-- `enum scmp_compare`; `invalid` stands for every other value. -/
inductive ScmpCompare where
  | ne
  | lt
  | le
  | eq
  | ge
  | gt
  | maskedEq
  | invalid
  deriving DecidableEq, Repr

/-- `struct scmp_arg_cmp` -/
structure ScmpArgCmp where
  arg : ℕ
  op : ScmpCompare
  datumA : UInt64
  datumB : UInt64
  deriving DecidableEq, Repr

/-- `struct db_api_arg` -/
structure DbApiArg where
  op : ScmpCompare
  mask : UInt64
  datum : UInt64
  valid : Bool
  deriving DecidableEq, Repr

/-- An element of a chain after its `memset`. -/
def DbApiArg.zero : DbApiArg := ⟨.invalid, 0, 0, false⟩

/-- `struct db_api_rule_list`; the chain has `ARG_COUNT_MAX` elements, one for each
argument. -/
structure DbApiRule where
  action : Action
  syscall : ℤ
  args : Fin 6 → DbApiArg

/-- The comparison of one argument, on 64 bits without sign. -/
def DbApiArg.holds (a : DbApiArg) (x : UInt64) : Bool :=
  match a.op with
  | .ne => x != a.datum
  | .lt => x < a.datum
  | .le => x ≤ a.datum
  | .eq => x == a.datum
  | .ge => a.datum ≤ x
  | .gt => a.datum < x
  | .maskedEq => (x &&& a.mask) == (a.datum &&& a.mask)
  | .invalid => true

/-- All comparisons of the rule hold. -/
def DbApiRule.holds (r : DbApiRule) (args : Fin 6 → UInt64) : Prop :=
  ∀ i, (r.args i).valid = true → (r.args i).holds (args i) = true

instance (r : DbApiRule) (args : Fin 6 → UInt64) : Decidable (r.holds args) :=
  inferInstanceAs (Decidable (∀ _, _))

/-- What the compiled filter does on a call: the action of the first rule added for
its number all of whose comparisons hold, otherwise the default action. -/
def ruleAction (rules : List DbApiRule) (actDefault : Action) (nr : ℤ)
    (args : Fin 6 → UInt64) : Action :=
  match rules.find? fun r => decide (r.syscall = nr ∧ r.holds args) with
  | some r => r.action
  | none => actDefault

/-! ## Architectures -/

/-- The architectures of `arch.c`. -/
inductive Arch where
  | x86
  | x86_64
  | x32
  | arm
  | aarch64
  | mips
  | mipsel
  | mips64
  | mipsel64
  | mips64n32
  | mipsel64n32
  | ppc
  | ppc64
  | ppc64le
  | s390
  | s390x
  deriving DecidableEq, Repr

/-- The architecture has a `rule_add` function.  The three functions are copies of
one another, with 102 for `socketcall` and 117 for `ipc` in each. -/
def Arch.hasRuleAdd : Arch → Bool
  | .x86 => true
  | .s390 => true
  | .s390x => true
  | _ => false

/-- The generated tables behind `arch_syscall_resolve_num` and
`arch_syscall_resolve_name`. -/
structure SyscallTables where
  resolveNum : Arch → ℤ → Option String
  resolveName : Arch → String → ℤ

/-- `arch_syscall_translate` on a host of architecture `native`; `none` is
`-EFAULT`. -/
def archSyscallTranslate (tables : SyscallTables) (native arch : Arch) (syscall : ℤ) :
    Option ℤ :=
  if arch ≠ native then
    match tables.resolveNum native syscall with
    | none => none
    | some scName =>
      let scNum := tables.resolveName arch scName
      if scNum = NR_SCMP_ERROR then none else some scNum
  else some syscall

/-- `_x86_sock_demux` -/
def sockDemux (socketcall : ℤ) : ℤ :=
  match socketcall with
  | -101 => 359
  | -102 => 361
  | -103 => 362
  | -104 => 363
  | -105 => NR_SCMP_UNDEF
  | -106 => 367
  | -107 => 368
  | -108 => 360
  | -109 => NR_SCMP_UNDEF
  | -110 => NR_SCMP_UNDEF
  | -111 => 369
  | -112 => 371
  | -113 => 373
  | -114 => 366
  | -115 => 365
  | -116 => 370
  | -117 => 372
  | -118 => 364
  | -119 => 337
  | -120 => 345
  | _ => NR_SCMP_ERROR

/-- `_x86_sock_mux` -/
def sockMux (syscall : ℤ) : ℤ :=
  match syscall with
  | 337 => -119
  | 345 => -120
  | 359 => -101
  | 360 => -108
  | 361 => -102
  | 362 => -103
  | 363 => -104
  | 364 => -118
  | 365 => -115
  | 366 => -114
  | 367 => -106
  | 368 => -107
  | 369 => -111
  | 370 => -116
  | 371 => -112
  | 372 => -117
  | 373 => -113
  | _ => NR_SCMP_ERROR

/-- What the environment answers while a rule is added to one database. -/
structure AddOutcome where
  mallocRule : Bool
  mallocArgs : Bool
  mallocRuleB : Bool
  transactionStart : ReturnCode
  dbRuleAdd : DbApiRule → ReturnCode

/-- Everything succeeds. -/
def AddOutcome.ok : AddOutcome := ⟨true, true, true, .ok, fun _ => .ok⟩

/-- `rule->args[0]` of a multiplexed call: argument 0 equals the number of the
operation. -/
def DbApiRule.muxed (rule : DbApiRule) (syscall : ℤ) (operation : ℤ) : DbApiRule :=
  { rule with
    syscall := syscall
    args := fun i =>
      if i.val = 0 then ⟨.eq, DATUM_MAX, UInt64.ofNat operation.toNat, true⟩ else rule.args i }

/-- `db_rule_add` on rules that are added as one transaction: the first failure ends
it and takes the rules back. -/
def addAll (dbRuleAdd : DbApiRule → ReturnCode) : List DbApiRule → ℤ
  | [] => 0
  | r :: rs => if (dbRuleAdd r).val < 0 then (dbRuleAdd r).val else addAll dbRuleAdd rs

/-- `x86_rule_add`: the return code and the rules that replace the given one. -/
def x86RuleAdd (o : AddOutcome) (strict : Bool) (rule : DbApiRule) : ℤ × List DbApiRule :=
  let sys := rule.syscall
  if (sys ≤ -100 ∧ -120 ≤ sys) ∨ (359 ≤ sys ∧ sys ≤ 373) then
    -- multiplexed and direct socket syscalls
    if strict = true ∧ ∃ i, (rule.args i).valid = true then (-EINVAL, [])
    else
      let sysA := if 0 < sys then sockMux sys else sys
      let sysB := if 0 < sys then sys else sockDemux sys
      if (0 < sys ∧ sysA = NR_SCMP_ERROR) ∨ (¬ 0 < sys ∧ sysB = NR_SCMP_ERROR) then
        (NR_SCMP_ERROR, [])
      else
        let ruleA := rule.muxed 102 ((-sysA) % 100)
        let ruleB := { rule with syscall := sysB }
        let rules :=
          if sysA = NR_SCMP_UNDEF then [ruleB]
          else if sysB = NR_SCMP_UNDEF then [ruleA]
          else [ruleA, ruleB]
        if rules.length = 2 ∧ o.mallocRuleB = false then (-ENOMEM, [])
        else if o.transactionStart.val < 0 then (o.transactionStart.val, [])
        else
          let rc := addAll o.dbRuleAdd rules
          if rc < 0 then (rc, []) else (0, rules)
  else if sys ≤ -200 ∧ -224 ≤ sys then
    -- multiplexed ipc syscalls
    if strict = true ∧ ∃ i, (rule.args i).valid = true then (-EINVAL, [])
    else
      let rule := rule.muxed 117 ((-sys) % 200)
      if (o.dbRuleAdd rule).val < 0 then ((o.dbRuleAdd rule).val, []) else (0, [rule])
  else if 0 ≤ sys then
    if (o.dbRuleAdd rule).val < 0 then ((o.dbRuleAdd rule).val, []) else (0, [rule])
  else if strict = true then (-EDOM, [])
  else (0, [rule])

/-- The rules that `arch_filter_rule_add` appends to the database of `arch`, and what
it returns. -/
def archRules (tables : SyscallTables) (native arch : Arch) (o : AddOutcome) (strict : Bool)
    (action : Action) (syscall : ℤ) (chain : Fin 6 → DbApiArg) : ℤ × List DbApiRule :=
  if syscall < 0 ∧ -100 < syscall then (-EINVAL, [])
  else
    match archSyscallTranslate tables native arch syscall with
    | none => (-EFAULT, [])
    | some syscall =>
      if o.mallocRule = false ∨ o.mallocArgs = false then (-ENOMEM, [])
      else
        let rule : DbApiRule := ⟨action, syscall, chain⟩
        if arch.hasRuleAdd then x86RuleAdd o strict rule
        else if syscall < 0 ∧ strict = true then (-EDOM, [])
        else if (o.dbRuleAdd rule).val = 0 then (0, [rule])
        else ((o.dbRuleAdd rule).val, [])

/-! ## The collection -/

/-- `struct db_filter`, by its rule list. -/
structure DbFilter where
  arch : Arch
  rules : List DbApiRule

/-- A call of `db_col_rule_add`, with the answers of its environment: whether the
chain can be allocated, and what happens in each database. -/
structure RuleAdd where
  strict : Bool
  action : Action
  syscall : ℤ
  argArray : List ScmpArgCmp
  mallocChain : Bool
  outcome : Arch → AddOutcome

/-- The loop over `arg_array`: the chain and the mask of positions; `none` is
`-EINVAL`. -/
def collectArgs : List ScmpArgCmp → (Fin 6 → DbApiArg) → BitVec 32 →
    Option ((Fin 6 → DbApiArg) × BitVec 32)
  | [], chain, argPosition => some (chain, argPosition)
  | a :: rest, chain, argPosition =>
    if h : a.arg < 6 then
      if (chain ⟨a.arg, h⟩).valid = true then none
      else
        match a.op with
        | .invalid => none
        | .maskedEq =>
          collectArgs rest
            (Function.update chain ⟨a.arg, h⟩ ⟨a.op, a.datumA, a.datumB, true⟩) argPosition
        | _ =>
          collectArgs rest
            (Function.update chain ⟨a.arg, h⟩ ⟨a.op, DATUM_MAX, a.datumA, true⟩)
            (argPosition + (1#32 <<< a.arg))
    else none

/-- `sys_draco_add` -/
def sysDracoAdd (sec : Seccomp) (syscall : ℤ) (argPosition : BitVec 32) : Seccomp × ℤ :=
  if syscall < 0 then (sec, -1) else prctlDracoAddSeccomp sec syscall argPosition

/-- The loop over the databases; `rc` keeps the first failure. -/
def addToFilters (tables : SyscallTables) (native : Arch) (a : RuleAdd)
    (chain : Fin 6 → DbApiArg) : List DbFilter → ℤ → List DbFilter × ℤ
  | [], rc => ([], rc)
  | db :: dbs, rc =>
    let (rcTmp, rules) :=
      archRules tables native db.arch (a.outcome db.arch) a.strict a.action a.syscall chain
    let (dbs', rc') :=
      addToFilters tables native a chain dbs (if rc = 0 ∧ rcTmp < 0 then rcTmp else rc)
    ({ db with rules := db.rules ++ rules } :: dbs', rc')

/-- `db_col_rule_add`, called by the task whose seccomp state is `sec`. -/
def dbColRuleAdd (tables : SyscallTables) (native : Arch) (filters : List DbFilter)
    (sec : Seccomp) (a : RuleAdd) : List DbFilter × Seccomp × ℤ :=
  if a.mallocChain = false then (filters, sec, -ENOMEM)
  else
    match collectArgs a.argArray (fun _ => DbApiArg.zero) 0 with
    | none => (filters, sec, -EINVAL)
    | some (chain, argPosition) =>
      let (filters', rc) := addToFilters tables native a chain filters 0
      (filters', (sysDracoAdd sec a.syscall argPosition).1, rc)

/-- What the environment answers to `sys_filter_load`: whether the program is
generated, and what the system calls return.  The installation may return the
number of a thread that could not be synchronised, and installs nothing then. -/
structure LoadOutcome where
  genBpf : Bool
  nnpEnable : Bool
  setNoNewPrivs : ReturnCode
  install : ℤ

/-- Everything succeeds. -/
def LoadOutcome.ok : LoadOutcome := ⟨true, true, .ok, 0⟩

/-- The kernel attaches the filter. -/
def LoadOutcome.Attaches (o : LoadOutcome) : Prop :=
  o.genBpf = true ∧ ¬ (o.nnpEnable = true ∧ o.setNoNewPrivs.val < 0) ∧ o.install = 0

instance (o : LoadOutcome) : Decidable o.Attaches :=
  inferInstanceAs (Decidable (_ ∧ _))

/-- `sys_filter_load` for the calling task, with `F` as the program that
`gen_bpf_generate` makes of the collection. -/
def sysFilterLoad (F : Filter) (o : LoadOutcome) (sec : Seccomp) : Seccomp × ℤ :=
  let sec := prctlDracoLoadSeccomp sec
  if o.genBpf = false then (sec, -ENOMEM)
  else if o.nnpEnable = true ∧ o.setNoNewPrivs.val < 0 then (sec, o.setNoNewPrivs.val)
  else if o.install < 0 then (sec, o.install)
  else if o.install = 0 then ({ sec with filter := F :: sec.filter }, 0)
  else (sec, 0)

end Draco
