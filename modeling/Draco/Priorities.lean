/-
# Rules and priorities

`_db_syscall_priority` moves a system call towards the front of the program.  It may be
called before, between and after the rules: a number without rules gets a phantom entry,
which a later rule fills (`dbSyscallPriority`, `dbRuleAddFirst`).

Whatever the order of the calls is, the database has the entries of its rules
(`DbOp.run_spec`), and priorities do not change what the program decides, as long as they
are given to numbers that have a rule in the end (`bpfExecute_run`).  A phantom that stays
can be fatal: if it is the first entry, nothing loads the number
(`bpfExecute_run_phantom`).
-/
import Draco.RuleEntries

namespace Draco

/-! ## The calls -/

/-- `_DB_PRI_MASK_USER` -/
abbrev DB_PRI_MASK_USER : UInt32 := 0x00ff0000

/-- `_DB_PRI_USER` -/
def dbPriUser (priority : UInt8) : UInt32 := (priority.toUInt32 <<< 16) &&& DB_PRI_MASK_USER

/-- The walk to the first entry that is not below a number. -/
def sysIter (num : UInt32) (l : List DbSysList) : Option DbSysList :=
  l.find? fun t => !decide (t.num < num)

/-- The list where this entry is changed, if it is for the number, or has a new entry in front
of it. -/
def atNum (num : UInt32) (new : DbSysList) (change : DbSysList → DbSysList) :
    List DbSysList → List DbSysList
  | [] => [new]
  | t :: rest =>
    if t.num < num then t :: atNum num new change rest
    else if t.num = num then change t :: rest
    else new :: t :: rest

/-- `_db_syscall_priority` for an entry of the number: the higher priority stays. -/
def DbSysList.raise (sysPri : UInt32) (s : DbSysList) : DbSysList :=
  if s.priority &&& DB_PRI_MASK_USER < sysPri then
    { s with priority := s.priority &&& ~~~DB_PRI_MASK_USER ||| sysPri }
  else s

/-- A phantom entry. -/
def phantomEntry (num sysPri : UInt32) : DbSysList := ⟨num, sysPri, .null, 0, 0, false⟩

/-- `_db_syscall_priority` -/
def dbSyscallPriority (num : UInt32) (priority : UInt8) (l : List DbSysList) : List DbSysList :=
  atNum num (phantomEntry num (dbPriUser priority)) (DbSysList.raise (dbPriUser priority)) l

/-- `db_rule_add` for a phantom entry. -/
def DbSysList.fill (s t : DbSysList) : DbSysList :=
  { t with
    chains := s.chains
    action := s.action
    nodeCnt := s.nodeCnt
    valid := true
    priority :=
      t.priority &&& ~~~DB_PRI_MASK_CHAIN ||| (DB_PRI_MASK_CHAIN - UInt32.ofNat s.nodeCnt) }

/-- `db_rule_add` for a number without rules; `none` for a number that has some, which are
merged with the new one. -/
def dbRuleAddFirst (s : DbSysList) (l : List DbSysList) : Option (List DbSysList) :=
  if (sysIter s.num l).any (fun t => t.num == s.num && t.valid) then none
  else some (atNum s.num s s.fill l)

/-- A call for a database. -/
inductive DbOp where
  | rule (r : DbApiRule)
  | priority (syscall : ℤ) (priority : UInt8)

namespace DbOp

def step (arch : Arch) (l : List DbSysList) : DbOp → Option (List DbSysList)
  | rule r => dbRuleAddFirst (r.entry arch) l
  | priority syscall p => some (dbSyscallPriority (sysNum syscall) p l)

/-- Some calls, one after the other. -/
def run (arch : Arch) (l : List DbSysList) : List DbOp → Option (List DbSysList)
  | [] => some l
  | op :: ops => (op.step arch l).bind fun l' => run arch l' ops

/-- The rules that are added. -/
def rules : List DbOp → List DbApiRule
  | [] => []
  | rule r :: ops => r :: rules ops
  | priority _ _ :: ops => rules ops

/-- The numbers that are given priorities. -/
def prioritised : List DbOp → List UInt32
  | [] => []
  | rule _ :: ops => prioritised ops
  | priority syscall _ :: ops => sysNum syscall :: prioritised ops

end DbOp

/-! ## Lists in the order of the numbers -/

/-- The numbers go up. -/
def Ascending (l : List DbSysList) : Prop := l.Pairwise fun s t => s.num < t.num

section

variable {num : UInt32} {new : DbSysList} {change : DbSysList → DbSysList} {l : List DbSysList}

/-- An entry of the updated list is the new one, an old one, or an old one changed. -/
theorem mem_atNum {s : DbSysList} (hs : s ∈ atNum num new change l) :
    s = new ∨ s ∈ l ∨ ∃ t ∈ l, s = change t := by
  induction l with
  | nil => exact Or.inl (List.mem_singleton.mp hs)
  | cons t rest ih =>
    rw [atNum] at hs
    split at hs
    · rcases List.mem_cons.mp hs with rfl | hs
      · exact Or.inr (Or.inl List.mem_cons_self)
      · rcases ih hs with h | h | ⟨u, hu, h⟩
        · exact Or.inl h
        · exact Or.inr (Or.inl (List.mem_cons_of_mem _ h))
        · exact Or.inr (Or.inr ⟨u, List.mem_cons_of_mem _ hu, h⟩)
    · split at hs
      · rcases List.mem_cons.mp hs with h | h
        · exact Or.inr (Or.inr ⟨t, List.mem_cons_self, h⟩)
        · exact Or.inr (Or.inl (List.mem_cons_of_mem _ h))
      · rcases List.mem_cons.mp hs with h | h
        · exact Or.inl h
        · exact Or.inr (Or.inl h)

/-- Inserting or changing an entry by its number keeps the list ascending. -/
theorem Ascending.atNum (hnew : new.num = num) (hchange : ∀ t, (change t).num = t.num)
    (hl : Ascending l) : Ascending (atNum num new change l) := by
  induction l with
  | nil => exact List.pairwise_singleton _ _
  | cons t rest ih =>
    obtain ⟨ht, hrest⟩ := List.pairwise_cons.mp hl
    rw [Draco.atNum]
    split
    case isTrue hlt =>
      refine List.pairwise_cons.mpr ⟨fun s hs => ?_, ih hrest⟩
      rcases mem_atNum hs with rfl | hs | ⟨u, hu, rfl⟩
      · rwa [hnew]
      · exact ht s hs
      · rw [hchange]
        exact ht u hu
    case isFalse hlt =>
      split
      case isTrue heq =>
        refine List.pairwise_cons.mpr ⟨fun s hs => ?_, hrest⟩
        rw [hchange]
        exact ht s hs
      case isFalse heq =>
        have hnt : new.num < t.num := by
          rw [hnew]
          exact UInt32.lt_of_le_of_ne (UInt32.not_lt.mp hlt) fun h => heq h.symm
        refine List.pairwise_cons.mpr ⟨fun s hs => ?_, hl⟩
        rcases List.mem_cons.mp hs with rfl | hs
        · exact hnt
        · exact UInt32.lt_trans hnt (ht s hs)

/-- An entry for the number is changed, or a new one is put into the list. -/
theorem atNum_cases (num : UInt32) (new : DbSysList) (change : DbSysList → DbSysList)
    (l : List DbSysList) :
    (∃ t rest, t.num = num ∧ l.Perm (t :: rest) ∧
        (atNum num new change l).Perm (change t :: rest)) ∨
      (atNum num new change l).Perm (new :: l) := by
  induction l with
  | nil => exact Or.inr (List.Perm.refl _)
  | cons t rest ih =>
    rw [atNum]
    split
    · rcases ih with ⟨u, rest', hu, hperm, hat⟩ | hat
      · exact Or.inl ⟨u, t :: rest', hu, (hperm.cons t).trans (List.Perm.swap u t rest'),
          (hat.cons t).trans (List.Perm.swap (change u) t rest')⟩
      · exact Or.inr ((hat.cons t).trans (List.Perm.swap new t rest))
    · split
      case isTrue heq => exact Or.inl ⟨t, rest, heq, List.Perm.refl _, List.Perm.refl _⟩
      case isFalse => exact Or.inr (List.Perm.refl _)

end

/-! ## Entries without their priorities -/

/-- An entry without its priority. -/
def DbSysList.bare (s : DbSysList) : DbSysList := { s with priority := 0 }

@[simp] theorem DbSysList.num_bare (s : DbSysList) : s.bare.num = s.num := rfl

@[simp] theorem DbSysList.valid_bare (s : DbSysList) : s.bare.valid = s.valid := rfl

@[simp] theorem DbSysList.chains_bare (s : DbSysList) : s.bare.chains = s.chains := rfl

/-- Raising a priority changes nothing but the priority. -/
theorem DbSysList.bare_raise (sysPri : UInt32) (s : DbSysList) :
    (s.raise sysPri).bare = s.bare := by
  unfold raise
  split <;> rfl

theorem DbSysList.num_raise (sysPri : UInt32) (s : DbSysList) :
    (s.raise sysPri).num = s.num := by
  unfold raise
  split <;> rfl

/-- Raising a priority does not turn a phantom into an entry with rules. -/
theorem DbSysList.valid_raise (sysPri : UInt32) (s : DbSysList) :
    (s.raise sysPri).valid = s.valid := by
  unfold raise
  split <;> rfl

/-- A phantom that is filled is the new entry. -/
theorem DbSysList.bare_fill {s t : DbSysList} (hs : s.valid = true) (hnum : t.num = s.num) :
    (s.fill t).bare = s.bare := by
  simp only [bare, fill, hnum, hs]

/-- The entries with rules, without their priorities. -/
def bareEntries (l : List DbSysList) : List DbSysList :=
  (l.filter DbSysList.valid).map DbSysList.bare

/-- An entry with rules is kept. -/
theorem bareEntries_cons_of_valid {s : DbSysList} (hs : s.valid = true) (l : List DbSysList) :
    bareEntries (s :: l) = s.bare :: bareEntries l := by
  rw [bareEntries, List.filter_cons_of_pos hs, List.map_cons, bareEntries]

/-- A phantom entry is left out. -/
theorem bareEntries_cons_of_not_valid {s : DbSysList} (hs : s.valid = false)
    (l : List DbSysList) : bareEntries (s :: l) = bareEntries l := by
  rw [bareEntries, List.filter_cons_of_neg (by rw [hs]; exact Bool.false_ne_true), bareEntries]

/-- The entries of a permuted list are a permutation of the entries. -/
theorem bareEntries_perm {l l' : List DbSysList} (h : l.Perm l') :
    (bareEntries l).Perm (bareEntries l') :=
  (h.filter _).map _

/-! ## Runs -/

/-- What a database is after some calls: its numbers go up, its entries are those of its
rules, and phantoms are for numbers that were given priorities. -/
structure Built (arch : Arch) (rules : List DbApiRule) (nums : List UInt32)
    (l : List DbSysList) : Prop where
  ascending : Ascending l
  entries : (bareEntries l).Perm (rules.map fun r => (r.entry arch).bare)
  phantoms : ∀ s ∈ l, s.valid = false → s.num ∈ nums

variable {arch : Arch} {rules : List DbApiRule} {nums : List UInt32} {l : List DbSysList}

/-- A new database holds no rule and no priority. -/
theorem built_nil (arch : Arch) (nums : List UInt32) : Built arch [] nums [] :=
  ⟨List.Pairwise.nil, List.Perm.refl _, fun _ hs => by cases hs⟩

/-- An entry with rules is that of a rule. -/
theorem Built.exists_rule (h : Built arch rules nums l) {s : DbSysList} (hs : s ∈ l)
    (hv : s.valid = true) : ∃ r ∈ rules, sysNum r.syscall = s.num := by
  have hmem : s.bare ∈ bareEntries l := List.mem_map_of_mem (List.mem_filter.mpr ⟨hs, hv⟩)
  obtain ⟨r, hr, heq⟩ := List.mem_map.mp (h.entries.mem_iff.mp hmem)
  refine ⟨r, hr, ?_⟩
  have hnum := congrArg DbSysList.num heq
  rwa [DbSysList.num_bare, DbSysList.num_bare, DbApiRule.num_entry] at hnum

/-- A priority changes no entry but for its priority. -/
theorem bareEntries_dbSyscallPriority (num : UInt32) (p : UInt8) (l : List DbSysList) :
    (bareEntries (dbSyscallPriority num p l)).Perm (bareEntries l) := by
  rcases atNum_cases num (phantomEntry num (dbPriUser p)) (DbSysList.raise (dbPriUser p)) l with
    ⟨t, rest, -, hperm, hat⟩ | hat
  · refine (bareEntries_perm hat).trans (List.Perm.trans ?_ (bareEntries_perm hperm).symm)
    cases hv : t.valid with
    | true =>
      rw [bareEntries_cons_of_valid ((t.valid_raise _).trans hv), bareEntries_cons_of_valid hv,
        DbSysList.bare_raise]
    | false =>
      rw [bareEntries_cons_of_not_valid ((t.valid_raise _).trans hv),
        bareEntries_cons_of_not_valid hv]
  · refine (bareEntries_perm hat).trans ?_
    rw [bareEntries_cons_of_not_valid rfl]

/-- A priority raises an entry or adds a phantom, and the rules stay as built. -/
theorem Built.priority (h : Built arch rules nums l) {num : UInt32} (hnum : num ∈ nums)
    (p : UInt8) : Built arch rules nums (dbSyscallPriority num p l) := by
  refine ⟨h.ascending.atNum rfl (DbSysList.num_raise _),
    (bareEntries_dbSyscallPriority num p l).trans h.entries, fun s hs hv => ?_⟩
  rcases mem_atNum hs with rfl | hs | ⟨t, ht, rfl⟩
  · exact hnum
  · exact h.phantoms s hs hv
  · rw [DbSysList.num_raise]
    rw [DbSysList.valid_raise] at hv
    exact h.phantoms t ht hv

/-- The first rule for a number adds its entry, whether there is a phantom or not. -/
theorem bareEntries_atNum_fill {s : DbSysList} (hs : s.valid = true)
    (hl : ∀ t ∈ l, t.num = s.num → t.valid = false) :
    (bareEntries (atNum s.num s s.fill l)).Perm (s.bare :: bareEntries l) := by
  rcases atNum_cases s.num s s.fill l with ⟨t, rest, htnum, hperm, hat⟩ | hat
  · -- a phantom is filled
    have hphantom := hl t (hperm.mem_iff.mpr List.mem_cons_self) htnum
    have hrest := bareEntries_perm hperm
    rw [bareEntries_cons_of_not_valid hphantom] at hrest
    refine (bareEntries_perm hat).trans ?_
    rw [bareEntries_cons_of_valid rfl, DbSysList.bare_fill hs htnum]
    exact hrest.symm.cons _
  · refine (bareEntries_perm hat).trans ?_
    rw [bareEntries_cons_of_valid hs]

/-- The first rule of a number fills the phantom a priority may have left, or adds an entry. -/
theorem dbRuleAddFirst_eq {s : DbSysList} (hl : ∀ t ∈ l, t.num = s.num → t.valid = false) :
    dbRuleAddFirst s l = some (atNum s.num s s.fill l) := by
  rw [dbRuleAddFirst, if_neg]
  intro hany
  obtain ⟨t, ht, htv⟩ := (Option.any_eq_true _ _).mp hany
  rw [Bool.and_eq_true, beq_iff_eq] at htv
  have hphantom := hl t (List.mem_of_find?_eq_some ht) htv.1
  rw [htv.2] at hphantom
  cases hphantom

/-- A rule of a new number goes into a built list and leaves one that holds it as well. -/
theorem Built.rule (h : Built arch rules nums l) {r : DbApiRule}
    (hr : ∀ r' ∈ rules, sysNum r'.syscall ≠ sysNum r.syscall) :
    ∃ l', dbRuleAddFirst (r.entry arch) l = some l' ∧ Built arch (r :: rules) nums l' := by
  have hvalid := DbApiRule.valid_entry arch r
  -- the entries with rules are for other numbers
  have hother : ∀ t ∈ l, t.num = (r.entry arch).num → t.valid = false := by
    intro t ht heq
    by_contra hv
    obtain ⟨r', hr', heq'⟩ := h.exists_rule ht (Bool.of_not_eq_false hv)
    exact hr r' hr' (heq'.trans (heq.trans (DbApiRule.num_entry arch r)))
  refine ⟨_, dbRuleAddFirst_eq hother, h.ascending.atNum rfl fun t => rfl,
    (bareEntries_atNum_fill hvalid hother).trans (h.entries.cons _), fun s hs hv => ?_⟩
  rcases mem_atNum hs with rfl | hs | ⟨t, -, rfl⟩
  · rw [hvalid] at hv
    cases hv
  · exact h.phantoms s hs hv
  · cases hv

/-- **Calls in any order build the database of their rules.** -/
theorem DbOp.run_spec (h : Built arch rules nums l) (ops : List DbOp)
    (hprio : ∀ num ∈ DbOp.prioritised ops, num ∈ nums)
    (hdistinct : ((DbOp.rules ops).reverse ++ rules).Pairwise
      fun r r' => sysNum r.syscall ≠ sysNum r'.syscall) :
    ∃ l', DbOp.run arch l ops = some l' ∧
      Built arch ((DbOp.rules ops).reverse ++ rules) nums l' := by
  induction ops generalizing rules l with
  | nil => exact ⟨l, rfl, h⟩
  | cons op ops ih =>
    cases op with
    | rule r =>
      rw [DbOp.rules, List.reverse_cons, List.append_assoc, List.singleton_append] at hdistinct ⊢
      have hr := (List.pairwise_cons.mp (List.pairwise_append.mp hdistinct).2.1).1
      obtain ⟨l', hadd, hbuilt⟩ := h.rule fun r' hr' => (hr r' hr').symm
      obtain ⟨l'', hrun, hbuilt'⟩ := ih hbuilt hprio hdistinct
      refine ⟨l'', ?_, hbuilt'⟩
      rw [DbOp.run, DbOp.step, hadd, Option.bind_some, hrun]
    | priority syscall p =>
      have hnum := hprio (sysNum syscall) List.mem_cons_self
      obtain ⟨l', hrun, hbuilt⟩ := ih (h.priority hnum p)
        (fun num hn => hprio num (List.mem_cons_of_mem _ hn)) hdistinct
      exact ⟨l', hrun, hbuilt⟩

/-! ## Rearranged databases -/

/-- The same entries, in another order and with other priorities. -/
structure SameEntries (f f' : DbFilterTree) : Prop where
  arch : f.arch = f'.arch
  entries : (f.syscalls.map DbSysList.bare).Perm (f'.syscalls.map DbSysList.bare)

section

variable {fs fs' : List DbFilterTree}

/-- Databases with the same entries are of the same architectures. -/
theorem map_arch_of_same (h : List.Forall₂ SameEntries fs fs') :
    fs.map DbFilterTree.arch = fs'.map DbFilterTree.arch := by
  induction h with
  | nil => rfl
  | cons hf _ ih => rw [List.map_cons, List.map_cons, hf.arch, ih]

/-- The entries of the filters for a token. -/
theorem perm_flatMap_of_same (h : List.Forall₂ SameEntries fs fs') (token : UInt32) :
    (((fs.filter fun f => f.arch.tokenBpf = token).flatMap DbFilterTree.syscalls).map
      DbSysList.bare).Perm
      (((fs'.filter fun f => f.arch.tokenBpf = token).flatMap DbFilterTree.syscalls).map
        DbSysList.bare) := by
  induction h with
  | nil => exact List.Perm.refl _
  | @cons f f' fs fs' hf _ ih =>
    rw [List.filter_cons, List.filter_cons, hf.arch]
    split
    · rw [List.flatMap_cons, List.flatMap_cons, List.map_append, List.map_append]
      exact hf.entries.append ih
    · exact ih

/-- How long the program of a list gets does not depend on priorities. -/
theorem sysAdditions_map_bare (l : List DbSysList) :
    sysAdditions (l.map DbSysList.bare) = sysAdditions l := by
  induction l with
  | nil => rfl
  | cons s l ih => rw [List.map_cons, sysAdditions, sysAdditions, ih, DbSysList.chains_bare]

theorem filterAdditions_of_same (h : List.Forall₂ SameEntries fs fs') :
    filterAdditions fs = filterAdditions fs' := by
  induction h with
  | nil => rfl
  | cons hf _ ih =>
    rw [filterAdditions, filterAdditions, ih, ← sysAdditions_map_bare,
      sysAdditions_perm hf.entries, sysAdditions_map_bare]

/-- Every database on the left has its partner with the same entries. -/
theorem exists_same (h : List.Forall₂ SameEntries fs fs') {f : DbFilterTree} (hf : f ∈ fs) :
    ∃ f' ∈ fs', SameEntries f f' := by
  induction h with
  | nil => cases hf
  | cons hff' _ ih =>
    rcases List.mem_cons.mp hf with rfl | hf
    · exact ⟨_, List.mem_cons_self, hff'⟩
    · obtain ⟨f', hf', hsame⟩ := ih hf
      exact ⟨f', List.mem_cons_of_mem _ hf', hsame⟩

/-- Every entry of a database has one in its partner that differs in the priority at most. -/
theorem SameEntries.exists_entry {f f' : DbFilterTree} (h : SameEntries f f') {s : DbSysList}
    (hs : s ∈ f.syscalls) : ∃ s' ∈ f'.syscalls, s'.bare = s.bare :=
  List.mem_map.mp (h.entries.mem_iff.mp (List.mem_map_of_mem hs))

end

/-- Whether numbers repeat does not depend on priorities. -/
theorem distinctNums_map_bare {l : List DbSysList} :
    DistinctNums (l.map DbSysList.bare) ↔ DistinctNums l := by
  rw [DistinctNums, DistinctNums, List.pairwise_map]
  rfl

/-- The verdict of a list does not depend on priorities. -/
theorem evalSyscalls_map_bare (target : ArchEndian) (d : BpfData) (fall : UInt32)
    (l : List DbSysList) :
    evalSyscalls target d fall (l.map DbSysList.bare) = evalSyscalls target d fall l := by
  induction l with
  | nil => rfl
  | cons s l ih =>
    rw [List.map_cons, evalSyscalls, evalSyscalls, ih]
    rfl

/-- The collections have the same entries. -/
structure SameCol (col col' : DbFilterCol) : Prop where
  actDefault : col.actDefault = col'.actDefault
  actBadarch : col.actBadarch = col'.actBadarch
  endian : col.endian = col'.endian
  filters : List.Forall₂ SameEntries col.filters col'.filters

section

variable {col col' : DbFilterCol}

/-- Distinct numbers carry over to a collection with the same entries. -/
theorem SameCol.distinctNums (h : SameCol col col') {token : UInt32}
    (hnums : DistinctNums ((col'.filtersFor token).flatMap DbFilterTree.syscalls)) :
    DistinctNums ((col.filtersFor token).flatMap DbFilterTree.syscalls) :=
  distinctNums_map_bare.mp
    ((distinctNums_map_bare.mpr hnums).perm (perm_flatMap_of_same h.filters token).symm)

theorem SameCol.wellFormed (h : SameCol col col') (hcol : col'.WellFormed) :
    col.WellFormed where
  archs := by
    rw [map_arch_of_same h.filters]
    exact hcol.archs
  endian := fun f hf => by
    obtain ⟨f', hf', hsame⟩ := exists_same h.filters hf
    rw [hsame.arch, h.endian]
    exact hcol.endian f' hf'
  nums := fun f hf => by
    obtain ⟨f', hf', hsame⟩ := exists_same h.filters hf
    rw [hsame.arch]
    exact h.distinctNums (hcol.nums f' hf')

/-- Where all entries have rules, their order and priorities do not matter for the
compiler. -/
theorem SameCol.compilable (h : SameCol col col') (hcol : col'.WellFormed)
    (hcomp : col'.Compilable)
    (hvalid : ∀ f ∈ col'.filters, ∀ s ∈ f.syscalls, s.valid = true) : col.Compilable where
  nonempty := fun hnil => hcomp.nonempty (List.forall₂_nil_left_iff.mp (hnil ▸ h.filters))
  tests := fun f hf s hs hv => by
    obtain ⟨f', hf', hsame⟩ := exists_same h.filters hf
    obtain ⟨s', hs', hbare⟩ := hsame.exists_entry hs
    rw [← s.chains_bare, ← hbare]
    exact hcomp.tests f' hf' s' hs' (hvalid f' hf' s' hs')
  first := fun g hg _ s hs => by
    have hmem := (perm_sortPriority _).mem_iff.mp (List.mem_of_mem_head? hs)
    obtain ⟨f, hf, hsf⟩ := DbFilterCol.exists_of_mem_group (h.wellFormed hcol) hg hmem
    obtain ⟨f', hf', hsame⟩ := exists_same h.filters hf
    obtain ⟨s', hs', hbare⟩ := hsame.exists_entry hsf
    rw [← s.valid_bare, ← hbare]
    exact hvalid f' hf' s' hs'
  size := by
    rw [DbFilterCol.additions, filterAdditions_of_same h.filters]
    exact hcomp.size

/-- Collections with the same entries give the same verdict, since entries with distinct numbers
may stand in any order. -/
theorem SameCol.verdict (h : SameCol col col') (hcol : col'.WellFormed) (d : BpfData) :
    col.verdict d = col'.verdict d := by
  have hforeign : (∀ f ∈ col.filtersFor d.arch, f.arch.Foreign d.nr) ↔
      ∀ f ∈ col'.filtersFor d.arch, f.arch.Foreign d.nr := by
    have harchs : ∀ fs : List DbFilterTree,
        (∀ f ∈ fs.filter (fun f => f.arch.tokenBpf = d.arch), f.arch.Foreign d.nr) ↔
          ∀ a ∈ fs.map DbFilterTree.arch, a.tokenBpf = d.arch → a.Foreign d.nr := by
      intro fs
      simp only [List.mem_filter, decide_eq_true_eq, and_imp, List.forall_mem_map]
    rw [DbFilterCol.filtersFor, DbFilterCol.filtersFor, harchs, harchs,
      map_arch_of_same h.filters]
  rw [DbFilterCol.verdict, DbFilterCol.verdict, h.actDefault, h.actBadarch, h.endian]
  by_cases hall : ∀ f ∈ col'.filtersFor d.arch, f.arch.Foreign d.nr
  · rw [if_pos hall, if_pos (hforeign.mpr hall)]
  · rw [if_neg hall, if_neg (mt hforeign.mp hall)]
    push Not at hall
    obtain ⟨f, hf, -⟩ := hall
    have hnums : DistinctNums ((col'.filtersFor d.arch).flatMap DbFilterTree.syscalls) := by
      obtain ⟨hf, htoken⟩ := List.mem_filter.mp hf
      rw [← of_decide_eq_true htoken]
      exact hcol.nums f hf
    rw [← evalSyscalls_map_bare, ← evalSyscalls_map_bare _ _ _ ((col'.filtersFor d.arch).flatMap _)]
    exact evalSyscalls_perm _ d _ (perm_flatMap_of_same h.filters d.arch)
      (distinctNums_map_bare.mpr (h.distinctNums hnums))

end

/-! ## From calls to the program -/

/-- The calls for one database. -/
structure DbCalls where
  arch : Arch
  ops : List DbOp

/-- The database as its rules describe it. -/
def DbCalls.filter (c : DbCalls) : DbFilter := ⟨c.arch, DbOp.rules c.ops⟩

/-- The database that the calls build. -/
def DbCalls.run (c : DbCalls) : Option DbFilterTree :=
  (DbOp.run c.arch [] c.ops).map (DbFilterTree.mk c.arch)

/-- Priorities are only given to numbers that have a rule, before or after. -/
def DbCalls.Prioritised (c : DbCalls) : Prop :=
  DbOp.prioritised c.ops ⊆ (DbOp.rules c.ops).map fun r => sysNum r.syscall

instance (c : DbCalls) : Decidable c.Prioritised :=
  inferInstanceAs (Decidable (DbOp.prioritised c.ops ⊆ _))

/-- The collection that the calls build. -/
def colOfCalls (actDefault actBadarch : Action) (endian : ArchEndian) (calls : List DbCalls) :
    Option DbFilterCol :=
  (calls.mapM DbCalls.run).map fun fs => ⟨actDefault.scmpAct, actBadarch.scmpAct, endian, fs⟩

/-- Under one rule for each number the numbers of a database are pairwise different. -/
theorem OneRuleEach.pairwise_rules {endian : ArchEndian} {dbs : List DbFilter}
    (h : OneRuleEach endian dbs) {db : DbFilter} (hdb : db ∈ dbs) :
    db.rules.Pairwise fun r r' => sysNum r.syscall ≠ sysNum r'.syscall := by
  have hmem : db ∈ dbs.filter fun db' => db'.arch.tokenBpf = db.arch.tokenBpf :=
    List.mem_filter.mpr ⟨hdb, decide_eq_true rfl⟩
  have hpair := (List.pairwise_flatMap.mp (h.distinct db hdb)).1 db hmem
  refine (List.pairwise_map.mp hpair).imp_of_mem fun {r r'} hr hr' hne heq => hne ?_
  exact sysNum_inj (h.rules db hdb r hr).2 (h.rules db hdb r' hr').2 heq

/-- After calls whose priorities are for numbers with rules, no phantom is left. -/
theorem Built.valid (h : Built arch rules nums l)
    (hnums : nums ⊆ rules.map fun r => sysNum r.syscall) {s : DbSysList} (hs : s ∈ l) :
    s.valid = true := by
  by_contra hv
  obtain ⟨r, hr, heq⟩ :=
    List.mem_map.mp (hnums (h.phantoms s hs (Bool.eq_false_of_not_eq_true hv)))
  -- the entry of the rule has the same number
  have hmem := h.entries.mem_iff.mpr (List.mem_map_of_mem (f := fun r => (r.entry arch).bare) hr)
  obtain ⟨t, ht, hbare⟩ := List.mem_map.mp hmem
  obtain ⟨ht, htv⟩ := List.mem_filter.mp ht
  have hnum : t.num = s.num := by
    rw [← t.num_bare, hbare, DbSysList.num_bare, DbApiRule.num_entry, heq]
  have hnodup : (l.map DbSysList.num).Nodup :=
    List.pairwise_map.mpr (h.ascending.imp UInt32.ne_of_lt)
  rw [List.inj_on_of_nodup_map hnodup ht hs hnum] at htv
  exact hv htv

section

variable {endian : ArchEndian} {calls : List DbCalls} {actDefault actBadarch : Action}

/-- **The calls for a database build its entries.** -/
theorem DbCalls.run_spec {c : DbCalls} (hprio : c.Prioritised)
    (hdistinct : c.filter.rules.Pairwise
      fun r r' : DbApiRule => sysNum r.syscall ≠ sysNum r'.syscall) :
    ∃ f, c.run = some f ∧ SameEntries f c.filter.trees := by
  have hdistinct' : ((DbOp.rules c.ops).reverse ++ []).Pairwise
      fun r r' : DbApiRule => sysNum r.syscall ≠ sysNum r'.syscall := by
    rw [List.append_nil]
    exact List.pairwise_reverse.mpr (hdistinct.imp Ne.symm)
  obtain ⟨l, hrun, hbuilt⟩ := DbOp.run_spec (built_nil c.arch (DbOp.prioritised c.ops)) c.ops
    (fun _ h => h) hdistinct'
  refine ⟨⟨c.arch, l⟩, by rw [DbCalls.run, hrun, Option.map_some], rfl, ?_⟩
  have hnums : DbOp.prioritised c.ops ⊆
      ((DbOp.rules c.ops).reverse ++ []).map fun r : DbApiRule => sysNum r.syscall := by
    rw [List.append_nil, List.map_reverse]
    exact fun num hnum => List.mem_reverse.mpr (hprio hnum)
  have hvalid : ∀ s ∈ l, s.valid = true := fun s hs => hbuilt.valid hnums hs
  have hentries := hbuilt.entries
  rw [bareEntries, List.filter_eq_self.mpr hvalid, List.append_nil] at hentries
  refine hentries.trans (((List.reverse_perm _).map _).trans ?_)
  rw [DbFilter.trees, List.map_map]
  exact List.Perm.refl _

/-- The calls build the collection of their rules. -/
theorem colOfCalls_spec (h : OneRuleEach endian (calls.map DbCalls.filter))
    (hprio : ∀ c ∈ calls, c.Prioritised) (actDefault actBadarch : Action) :
    ∃ col, colOfCalls actDefault actBadarch endian calls = some col ∧
      SameCol col (colOfRules actDefault actBadarch endian (calls.map DbCalls.filter)) := by
  have hruns : ∀ cs : List DbCalls, (∀ c ∈ cs, c ∈ calls) →
      ∃ fs, cs.mapM DbCalls.run = some fs ∧
        List.Forall₂ SameEntries fs ((cs.map DbCalls.filter).map DbFilter.trees) := by
    intro cs hcs
    induction cs with
    | nil => exact ⟨[], rfl, List.Forall₂.nil⟩
    | cons c cs ih =>
      have hc := hcs c List.mem_cons_self
      obtain ⟨f, hf, hsame⟩ := DbCalls.run_spec (hprio c hc)
        (h.pairwise_rules (List.mem_map_of_mem hc))
      obtain ⟨fs, hfs, hsames⟩ := ih fun c hc => hcs c (List.mem_cons_of_mem _ hc)
      refine ⟨f :: fs, ?_, List.Forall₂.cons hsame hsames⟩
      rw [List.mapM_cons, hf, hfs]
      rfl
  obtain ⟨fs, hfs, hsame⟩ := hruns calls fun _ hc => hc
  refine ⟨⟨actDefault.scmpAct, actBadarch.scmpAct, endian, fs⟩, ?_, rfl, rfl, rfl, hsame⟩
  rw [colOfCalls, hfs, Option.map_some]

/-- **Priorities do not matter.**  Rules and priorities in any order, with one rule at most
for each number and priorities for numbers with rules only, are compiled to a program that
decides as the rules say. -/
theorem bpfExecute_run (jhash : List BpfInstr → UInt32)
    (h : OneRuleEach endian (calls.map DbCalls.filter)) (hprio : ∀ c ∈ calls, c.Prioritised)
    (hne : calls ≠ [])
    (hsize : 7 * (colOfRules actDefault actBadarch endian
      (calls.map DbCalls.filter)).additions < 2 ^ 16) :
    ∃ col prg, colOfCalls actDefault actBadarch endian calls = some col ∧
      genBpfGenerate jhash endian col = some prg ∧
      ∀ d, (∀ p ∈ rulesFor (calls.map DbCalls.filter) d.arch,
          p.2.syscall = d.number → p.2.ExactOn p.1 d.args) →
        bpfExecute endian endian prg d =
          some (rulesVerdict actDefault actBadarch (calls.map DbCalls.filter) d).scmpAct := by
  obtain ⟨col, hcalls, hsame⟩ := colOfCalls_spec h hprio actDefault actBadarch
  have hwell := h.wellFormed actDefault actBadarch
  have hcomp := h.compilable (fun hnil => hne (List.map_eq_nil_iff.mp hnil)) hsize
  have hcol := hsame.wellFormed hwell
  have hcolcomp := hsame.compilable hwell hcomp fun f hf s hs => by
    obtain ⟨db, -, r, -, rfl⟩ := exists_entry hf hs
    exact DbApiRule.valid_entry _ _
  obtain ⟨prg, hprg, hle⟩ := exists_genBpfGenerate jhash endian hcol hcolcomp
  have hlt : prg.length < 2 ^ 32 := by
    have := hcolcomp.size
    omega
  have hendian : endian = col.endian := hsame.endian.symm
  refine ⟨col, prg, hcalls, hprg, fun d hexact => ?_⟩
  rw [← h.verdict actDefault actBadarch hexact, ← hsame.verdict hwell d]
  have hrun := bpfExecute_of_reloading hcol hcolcomp.reloading hendian hprg hlt d
  rwa [← hendian] at hrun

end

/-- `read` and `write` on x86-64, and `socketcall` on x86; the priority of `write` is given
before its rule. -/
def prioritisedCalls : List DbCalls :=
  let any : Fin 6 → DbApiArg := fun _ => DbApiArg.zero
  let arg (a : DbApiArg) : Fin 6 → DbApiArg := fun i => if i.val = 0 then a else DbApiArg.zero
  [⟨.x86_64, [.priority 1 200, .rule ⟨.allow, 0, arg ⟨.eq, DATUM_MAX, 3, true⟩⟩,
      .rule ⟨.allow, 1, any⟩, .priority 0 50]⟩,
    ⟨.x86, [.rule ⟨.errno 13, 102, any⟩]⟩]

theorem bpfExecute_run_prioritised :
    ∃ col prg, colOfCalls .kill .trap .little prioritisedCalls = some col ∧
      genBpfGenerate (fun blks => UInt32.ofNat blks.length) .little col = some prg ∧
      ∀ d, (∀ p ∈ rulesFor (prioritisedCalls.map DbCalls.filter) d.arch,
          p.2.syscall = d.number → p.2.ExactOn p.1 d.args) →
        bpfExecute .little .little prg d =
          some (rulesVerdict .kill .trap (prioritisedCalls.map DbCalls.filter) d).scmpAct :=
  bpfExecute_run (fun blks => UInt32.ofNat blks.length)
    ⟨by decide, by decide, by decide, by decide⟩ (by decide) (by decide) (by decide)

/-- **A phantom in front is fatal.**  `socketcall` is allowed on x86, and `read`, for which
there is no rule, has a priority: `socketcall` is killed. -/
theorem bpfExecute_run_phantom :
    let calls : List DbCalls :=
      [⟨.x86, [.priority 3 200, .rule ⟨.allow, 102, fun _ => DbApiArg.zero⟩]⟩]
    let d : BpfData := ⟨102, Arch.x86.token, 0, fun _ => 0⟩
    OneRuleEach .little (calls.map DbCalls.filter) ∧
      rulesVerdict .kill .trap (calls.map DbCalls.filter) d = .allow ∧
      ((colOfCalls .kill .trap .little calls).bind fun col =>
        (genBpfGenerate (fun blks => UInt32.ofNat blks.length) .little col).bind
          (bpfExecute .little .little · d)) = some Action.kill.scmpAct := by
  exact ⟨⟨by decide, by decide, by decide, by decide⟩, by decide, by decide +kernel⟩

end Draco
