/-
# The blocks of an architecture

`_gen_bpf_arch` puts the system calls of a filter into a list, by priority, in which
every block checks one number and goes on with the next block of the list; in front of
them stands the check of the architecture token and, on x86-64 and x32, the check of the
bit by which the two are told apart.

The order of the list is chosen for speed only: where no number is there twice, the
action on a call does not depend on it (`evalSyscalls_perm`).  What the table says of the
first block of the list is the action of the first entry for the number of the call, or
the default (`SyscallRule.genBpfSyscalls`), and a whole architecture comes to the action
of its filter (`genBpfArch_means`).
-/
import Draco.GenChain

namespace Draco

open LabelledCode

/-! ## What a filter says -/

/-- The action on a call under a list of system calls: that of the first valid entry for
its number. -/
def evalSyscalls (target : ArchEndian) (d : BpfData) (fall : UInt32) : List DbSysList → UInt32
  | [] => fall
  | s :: rest =>
    if s.valid = true ∧ s.num = d.nr then s.eval target d fall
    else evalSyscalls target d fall rest

/-- A phantom entry decides nothing. -/
theorem evalSyscalls_cons_of_not_valid {target : ArchEndian} {d : BpfData} {fall : UInt32}
    {s : DbSysList} (hs : ¬ s.valid = true) (rest : List DbSysList) :
    evalSyscalls target d fall (s :: rest) = evalSyscalls target d fall rest := by
  rw [evalSyscalls, if_neg fun h => hs h.1]

/-- An entry with rules decides the calls of its number. -/
theorem evalSyscalls_cons_of_valid {target : ArchEndian} {d : BpfData} {fall : UInt32}
    {s : DbSysList} (hs : s.valid = true) (rest : List DbSysList) :
    evalSyscalls target d fall (s :: rest) =
      if d.nr = s.num then s.eval target d fall else evalSyscalls target d fall rest := by
  rw [evalSyscalls]
  by_cases h : d.nr = s.num
  · rw [if_pos ⟨hs, h.symm⟩, if_pos h]
  · rw [if_neg fun h' => h h'.2.symm, if_neg h]

/-- No number has two valid entries. -/
def DistinctNums (syscalls : List DbSysList) : Prop :=
  syscalls.Pairwise fun s t => s.valid = true → t.valid = true → s.num ≠ t.num

instance (syscalls : List DbSysList) : Decidable (DistinctNums syscalls) :=
  inferInstanceAs (Decidable (List.Pairwise _ _))

/-- The order of the entries does not matter for their numbers. -/
theorem DistinctNums.perm {l l' : List DbSysList} (h : DistinctNums l) (hperm : l.Perm l') :
    DistinctNums l' :=
  (hperm.pairwise_iff fun hst hs ht => (hst ht hs).symm).mp h

/-- **The order of the system calls does not matter.** -/
theorem evalSyscalls_perm (target : ArchEndian) (d : BpfData) (fall : UInt32)
    {l l' : List DbSysList} (hperm : l.Perm l') (h : DistinctNums l) :
    evalSyscalls target d fall l = evalSyscalls target d fall l' := by
  induction hperm with
  | nil => rfl
  | cons s _ ih =>
    rw [evalSyscalls, evalSyscalls, ih (List.Pairwise.of_cons h)]
  | swap s t l =>
    have hts : t.valid = true → s.valid = true → t.num ≠ s.num :=
      List.rel_of_pairwise_cons h List.mem_cons_self
    rw [evalSyscalls, evalSyscalls, evalSyscalls, evalSyscalls]
    by_cases ht : t.valid = true ∧ t.num = d.nr
    · have hs : ¬ (s.valid = true ∧ s.num = d.nr) :=
        fun hs => hts ht.1 hs.1 (ht.2.trans hs.2.symm)
      rw [if_pos ht, if_neg hs, if_pos ht]
    · rw [if_neg ht, if_neg ht]
  | trans hperm _ ih ih' => exact (ih h).trans (ih' (h.perm hperm))

/-- The insertion by priority adds an entry. -/
theorem perm_insertPriority (s : DbSysList) (l : List DbSysList) :
    (insertPriority s l).Perm (s :: l) := by
  induction l with
  | nil => rfl
  | cons t ts ih =>
    rw [insertPriority]
    split
    · rfl
    · exact (ih.cons t).trans (List.Perm.swap s t ts)

theorem perm_foldl_insertPriority (l acc : List DbSysList) :
    (l.foldl (fun sorted s => insertPriority s sorted) acc).Perm (l ++ acc) := by
  induction l generalizing acc with
  | nil => rfl
  | cons s l ih =>
    refine (ih (insertPriority s acc)).trans ?_
    exact ((perm_insertPriority s acc).append_left l).trans List.perm_middle

/-- **Sorting by priority keeps the entries.** -/
theorem perm_sortPriority (l : List DbSysList) : (sortPriority l).Perm l := by
  have h := perm_foldl_insertPriority l []
  rwa [List.append_nil] at h

/-- The tests of the tree load words of `struct seccomp_data`. -/
def DbSysList.Loads (s : DbSysList) : Prop := s.chains.Threaded ChainNode.Loads accStateUndef

instance (s : DbSysList) : Decidable s.Loads := DbArgChainTree.decidableThreaded _ _ _

/-- Which words are loaded does not depend on the accumulator. -/
theorem DbArgChainTree.Threaded.loads {a : AccState} {tree : DbArgChainTree}
    (h : tree.Threaded ChainNode.Loads a) (a' : AccState) : tree.Threaded ChainNode.Loads a' :=
  h.state a'

/-! ## The blocks of the top level -/

section Blocks

variable (host target : ArchEndian) (d : BpfData)

/-- The first word is the number of the call. -/
theorem word_syscall : d.word target BPF_OFFSET_SYSCALL = d.nr := rfl

/-- The second word is the architecture. -/
theorem word_arch : d.word target BPF_OFFSET_ARCH = d.arch := rfl

/-- The block of a system call checks its number. -/
theorem blkEffect_syscallBlk (accReset : Bool) (num : UInt32) (chain nxtHash : UInt64)
    {acc : UInt32}
    (hacc : (syscallBlk host target accReset num chain nxtHash).accStart.Holds target d acc) :
    blkEffect host target d (syscallBlk host target accReset num chain nxtHash).blks acc =
      .goto (if d.nr = num then chain else nxtHash) d.nr := by
  have hjump : blkEffect host target d
      [bpfJump host target BPF_JMP_JEQ (.hsh chain) (.hsh nxtHash) num] d.nr =
        .goto (if d.nr = num then chain else nxtHash) d.nr := by
    rw [blkEffect_jump host target d (Or.inl rfl)]
    by_cases h : d.nr = num <;> simp [jumpTest, h, jumpEffect]
  cases accReset with
  | true =>
    show blkEffect host target d (bpfInstr host target BPF_LD_ABS BPF_OFFSET_SYSCALL :: _) acc = _
    rw [blkEffect_load host target d (by decide), word_syscall]
    exact hjump
  | false =>
    have hnr : acc = d.nr := (holds_accStateOffset target d).mp hacc
    rw [hnr]
    exact hjump

/-- The numbers of calls that belong to the other architecture with the same token. -/
def Arch.Foreign (arch : Arch) (nr : UInt32) : Prop :=
  match arch with
  | .x86_64 => X32_SYSCALL_BIT ≤ nr
  | .x32 => nr < X32_SYSCALL_BIT
  | _ => False

instance (arch : Arch) (nr : UInt32) : Decidable (arch.Foreign nr) := by
  cases arch <;> unfold Arch.Foreign <;> infer_instance

/-- The block that tells x86-64 from x32 rejects the other one. -/
theorem blkEffect_abiBlk {arch : Arch} (harch : arch = .x86_64 ∨ arch = .x32)
    (badArchHsh next : UInt64) (acc : UInt32) :
    blkEffect host arch.endian d (abiBlk host arch badArchHsh next).blks acc =
      .goto (if arch.Foreign d.nr then badArchHsh else next) d.nr := by
  have hnot : ¬ X32_SYSCALL_BIT ≤ d.nr ↔ d.nr < X32_SYSCALL_BIT := UInt32.not_le
  rw [abiBlk]
  rcases harch with rfl | rfl
  · show blkEffect host _ d (bpfInstr host _ BPF_LD_ABS BPF_OFFSET_SYSCALL :: _) acc = _
    rw [blkEffect_load host _ d (by decide), word_syscall, if_pos rfl,
      blkEffect_jump host _ d (Or.inr (Or.inr rfl))]
    by_cases h : X32_SYSCALL_BIT ≤ d.nr <;> simp +decide [jumpTest, h, jumpEffect, Arch.Foreign]
  · show blkEffect host _ d (bpfInstr host _ BPF_LD_ABS BPF_OFFSET_SYSCALL :: _) acc = _
    rw [blkEffect_load host _ d (by decide), word_syscall, if_neg (by decide),
      blkEffect_jump host _ d (Or.inr (Or.inr rfl))]
    by_cases h : X32_SYSCALL_BIT ≤ d.nr <;>
      simp +decide [jumpTest, h, jumpEffect, Arch.Foreign, ← hnot]

end Blocks

section

variable {jhash : List BpfInstr → UInt32} {host target : ArchEndian} {d : BpfData}

/-! ## The rule for the list of system calls -/

/-- The rule for trees, and the same for the blocks of the system calls: `Z` says what the
hash of such a block stands for, and `Top` holds of the block as it stands in the list. -/
structure SyscallRule (jhash : List BpfInstr → UInt32) (host target : ArchEndian) (d : BpfData)
    (Q : ChainNode → AccState → Prop) (P : BpfHtbl → BpfBlk → Bool → Prop)
    (Y Z : BpfHtbl → UInt64 → UInt32 → Prop) (Top : BpfHtbl → BpfBlk → Prop) : Prop
    extends ChainRule jhash host target d Q P Y where
  monoZ : ∀ {tbl tbl' l r}, TableExt tbl tbl' → Z tbl l r → Z tbl' l r
  monoTop : ∀ {tbl tbl' b}, TableExt tbl tbl' → Top tbl b → Top tbl' b
  syscall : ∀ {tbl tbl' accReset num chain nxtHash rC rN b}, Y tbl chain rC → Z tbl nxtHash rN →
    hshAdd jhash tbl (syscallBlk host target accReset num chain nxtHash) true = some (b, tbl') →
    P tbl (syscallBlk host target accReset num chain nxtHash) true ∧
      Z tbl' b.hash (if d.nr = num then rC else rN) ∧ Top tbl' b

/-- The compilation of an entry: its chain, and the block that tests the number. -/
theorem genBpfSyscall_cases {tbl tbl' : BpfHtbl} {defHsh nxtHash : UInt64} {s : DbSysList}
    {accReset : Bool} {b : BpfBlk}
    (h : genBpfSyscall jhash host target tbl defHsh s nxtHash accReset = some (b, tbl')) :
    ∃ chain tbl₁, genBpfChain jhash host target tbl s defHsh
        (if accReset then accStateOffset BPF_OFFSET_SYSCALL else accStateUndef) =
          some (chain, tbl₁) ∧
      hshAdd jhash tbl₁ (syscallBlk host target accReset s.num chain nxtHash) true =
        some (b, tbl') := by
  simp only [genBpfSyscall, Option.bind_eq_bind, Option.bind_eq_some_iff] at h
  obtain ⟨⟨chain, tbl₁⟩, hchain, h⟩ := h
  exact ⟨chain, tbl₁, hchain, h⟩

/-- **What is done with the first entry of the list**, after the others. -/
theorem genBpfSyscalls_cases {tbl tbl' : BpfHtbl} {defHsh : UInt64} {accReset : Bool}
    {s : DbSysList} {rest : List DbSysList} {blks : List BpfBlk}
    (h : genBpfSyscalls jhash host target tbl defHsh accReset (s :: rest) = some (blks, tbl')) :
    ∃ blks₁ tbl₁, genBpfSyscalls jhash host target tbl defHsh false rest = some (blks₁, tbl₁) ∧
      (¬ s.valid = true ∧ blks = blks₁ ∧ tbl' = tbl₁ ∨
        s.valid = true ∧ ∃ b, blks = b :: blks₁ ∧
          genBpfSyscall jhash host target tbl₁ defHsh s (headHash defHsh blks₁) accReset =
            some (b, tbl')) := by
  simp only [genBpfSyscalls, Option.bind_eq_bind, Option.bind_eq_some_iff] at h
  obtain ⟨⟨blks₁, tbl₁⟩, hrest, h⟩ := h
  refine ⟨blks₁, tbl₁, hrest, ?_⟩
  split at h
  next hs =>
    obtain ⟨⟨b, tbl₂⟩, hb, h⟩ := Option.bind_eq_some_iff.mp h
    obtain ⟨rfl, rfl⟩ := Prod.mk.inj (Option.some.inj h)
    exact Or.inr ⟨hs, b, rfl, hb⟩
  next hs =>
    obtain ⟨rfl, rfl⟩ := Prod.mk.inj (Option.some.inj h)
    exact Or.inl ⟨hs, rfl, rfl⟩

/-- **The rule for the list of system calls.** -/
theorem SyscallRule.genBpfSyscalls {Q : ChainNode → AccState → Prop}
    {P : BpfHtbl → BpfBlk → Bool → Prop} {Y Z : BpfHtbl → UInt64 → UInt32 → Prop}
    {Top : BpfHtbl → BpfBlk → Prop} (R : SyscallRule jhash host target d Q P Y Z Top)
    {tbl tbl' : BpfHtbl} {defHsh : UInt64} {accReset : Bool} {syscalls : List DbSysList}
    {blks : List BpfBlk} {r : UInt32}
    (hQ : ∀ s ∈ syscalls, s.valid = true → ∀ accReset : Bool, s.chains.Threaded Q
      (if accReset then accStateOffset BPF_OFFSET_SYSCALL else accStateUndef))
    (h : Draco.genBpfSyscalls jhash host target tbl defHsh accReset syscalls = some (blks, tbl'))
    (hY : Y tbl defHsh r) (hZ : Z tbl defHsh r) :
    Adds jhash P tbl tbl' ∧ Z tbl' (headHash defHsh blks) (evalSyscalls target d r syscalls) ∧
      ∀ b ∈ blks, Top tbl' b := by
  induction syscalls generalizing tbl tbl' accReset blks with
  | nil =>
    obtain ⟨rfl, rfl⟩ := Prod.mk.inj (Option.some.inj h)
    exact ⟨Adds.refl, hZ, fun _ hb => by cases hb⟩
  | cons s rest ih =>
    obtain ⟨blks₁, tbl₁, hrest, hs⟩ := genBpfSyscalls_cases h
    obtain ⟨hadds, hZ₁, htop⟩ := ih (fun t ht => hQ t (List.mem_cons_of_mem s ht)) hrest hY hZ
    rcases hs with ⟨hs, rfl, rfl⟩ | ⟨hs, b, rfl, hb⟩
    · rw [evalSyscalls_cons_of_not_valid hs]
      exact ⟨hadds, hZ₁, htop⟩
    · obtain ⟨chain, tbl₂, hchain, hadd⟩ := genBpfSyscall_cases hb
      obtain ⟨hadds₂, hchain⟩ := R.genBpfChain (hQ s List.mem_cons_self hs accReset) hchain
        (R.mono hadds.tableExt hY)
      obtain ⟨hP, hZ₂, htop₂⟩ := R.syscall hchain (R.monoZ hadds₂.tableExt hZ₁) hadd
      rw [evalSyscalls_cons_of_valid hs]
      refine ⟨(hadds.trans hadds₂).trans (Adds.single hP hadd), hZ₂, fun c hc => ?_⟩
      rcases List.mem_cons.mp hc with rfl | hc
      · exact htop₂
      · exact R.monoTop (hadds₂.trans (Adds.single hP hadd)).tableExt (htop c hc)

/-- **What `_gen_bpf_arch` does.**  Behind the list of system calls comes the check that
tells x86-64 from x32, if it is needed, and then the check of the token. -/
theorem genBpfArch_cases {tbl tbl' : BpfHtbl} {badArchHsh defHsh : UInt64} {db : DbFilterTree}
    {secondary : Option DbFilterTree} {blks : List BpfBlk}
    (h : genBpfArch jhash host tbl badArchHsh defHsh db secondary = some (blks, tbl')) :
    ∃ blks₁ tbl₁ blks₂ tbl₂ b,
      genBpfSyscalls jhash host db.arch.endian tbl defHsh
        (!decide (db.arch.NeedsAbiCheck secondary))
        (sortPriority (db.syscalls ++ secondary.elim [] DbFilterTree.syscalls)) =
          some (blks₁, tbl₁) ∧
      (db.arch.NeedsAbiCheck secondary ∧ (∃ c, blks₂ = c :: blks₁ ∧
          hshAdd jhash tbl₁ (abiBlk host db.arch badArchHsh (headHash defHsh blks₁)) true =
            some (c, tbl₂)) ∨
        ¬ db.arch.NeedsAbiCheck secondary ∧ blks₂ = blks₁ ∧ tbl₂ = tbl₁) ∧
      hshAdd jhash tbl₂ (archBlk host db.arch (headHash defHsh blks₂) blks₂.length) true =
        some (b, tbl') ∧ blks = b :: blks₂ := by
  simp only [genBpfArch, Option.bind_eq_bind, Option.bind_eq_some_iff, decide_eq_true_eq] at h
  obtain ⟨⟨blks₁, tbl₁⟩, hsys, ⟨blks₂, tbl₂⟩, habi, ⟨b, tbl₃⟩, hadd, h⟩ := h
  obtain ⟨rfl, rfl⟩ := Prod.mk.inj (Option.some.inj h)
  refine ⟨blks₁, tbl₁, blks₂, tbl₂, b, hsys, ?_, hadd, rfl⟩
  split at habi
  next hneed =>
    obtain ⟨⟨c, tbl₄⟩, hc, hp⟩ := Option.map_eq_some_iff.mp habi
    obtain ⟨rfl, rfl⟩ := Prod.mk.inj hp
    exact Or.inl ⟨hneed, c, rfl, hc⟩
  next hneed =>
    obtain ⟨rfl, rfl⟩ := Prod.mk.inj (Option.some.inj habi)
    exact Or.inr ⟨hneed, rfl, rfl⟩

/-! ## The meaning of an architecture -/

/-- The table has a block with the hash, the contents and the start state of this one. -/
def Stored (tbl : BpfHtbl) (b : BpfBlk) : Prop :=
  ∃ e ∈ tbl, e.blk.hash = b.hash ∧ e.blk.blks = b.blks ∧ e.blk.accStart = b.accStart

/-- A stored block stays stored. -/
theorem Stored.mono {tbl tbl' : BpfHtbl} (hext : TableExt tbl tbl') {b : BpfBlk}
    (h : Stored tbl b) : Stored tbl' b := by
  obtain ⟨e, he, hhash, hblks, hstart⟩ := h
  obtain ⟨e', he', hblk, -, -⟩ := hext e he
  rw [← hblk] at hhash hblks hstart
  exact ⟨e', he', hhash, hblks, hstart⟩

/-- An added block is stored, if duplicates agree on the accumulator. -/
theorem stored_hshAdd {tbl tbl' : BpfHtbl} {blk b : BpfBlk} {found : Bool}
    (h : hshAdd jhash tbl blk found = some (b, tbl')) (hsame : SameStart tbl') :
    Stored tbl' b := by
  obtain ⟨hblks, hstart, e, he, hhash, hblks', hstart'⟩ := hshAdd_stored h hsame
  exact ⟨e, he, hhash, hblks'.trans hblks.symm, hstart'.trans hstart.symm⟩

/-- The block falls through to another one of the top level. -/
def BpfBlk.HasNxt (b : BpfBlk) : Prop := ∃ i ∈ b.blks, ∃ n, i.jt = .nxt n ∨ i.jf = .nxt n

/-- What all blocks have: they leave the accumulator in their end state, they expect a
word that can be loaded, and only blocks of the top level fall through. -/
structure BlkOk (host target : ArchEndian) (d : BpfData) (_ : BpfHtbl) (blk : BpfBlk)
    (found : Bool) : Prop where
  endOk : EndOk host target d blk
  loads : ∀ offset, blk.accStart.offset = some offset → LoadValid offset
  nxt : blk.HasNxt → found = true

/-- The block of an action has no jump to the next block. -/
theorem not_hasNxt_genBpfAction (action : UInt32) : ¬ (genBpfAction host target action).HasNxt := by
  rintro ⟨i, hi, n, hn⟩
  rw [List.mem_singleton.mp hi] at hn
  rcases hn with hn | hn <;> cases hn

/-- The load of a word does not jump. -/
theorem jump_genBpfLoad {n : ChainNode} {a : AccState} {i : BpfInstr}
    (hi : i ∈ genBpfLoad host target n a) : i.jt = .no ∧ i.jf = .no := by
  unfold genBpfLoad at hi
  rcases List.mem_append.mp hi with hi | hi
  all_goals
    split_ifs at hi
    all_goals simp at hi
    all_goals rw [hi]; exact ⟨rfl, rfl⟩

/-- The block of a node has no jump to the next block. -/
theorem not_hasNxt_nodeBlk (n : ChainNode) (a : AccState) (op : UInt16) (jt jf : UInt64) :
    ¬ (nodeBlk host target n a op jt jf).HasNxt := by
  rintro ⟨i, hi, m, hm⟩
  rcases List.mem_append.mp hi with hi | hi
  · rw [(jump_genBpfLoad hi).1, (jump_genBpfLoad hi).2] at hm
    rcases hm with hm | hm <;> cases hm
  · rw [List.mem_singleton.mp hi] at hm
    rcases hm with hm | hm <;> cases hm

/-- The block of a system call has no jump to the next block. -/
theorem not_hasNxt_syscallBlk (accReset : Bool) (num : UInt32) (chain nxtHash : UInt64) :
    ¬ (syscallBlk host target accReset num chain nxtHash).HasNxt := by
  rintro ⟨i, hi, m, hm⟩
  cases accReset <;> simp [syscallBlk] at hi
  · rw [hi] at hm
    rcases hm with hm | hm <;> cases hm
  · rcases hi with rfl | rfl <;> rcases hm with hm | hm <;> cases hm

/-- The block that tells x86-64 from x32 has no jump to the next block. -/
theorem not_hasNxt_abiBlk (arch : Arch) (badArchHsh next : UInt64) :
    ¬ (abiBlk host arch badArchHsh next).HasNxt := by
  rintro ⟨i, hi, m, hm⟩
  rw [abiBlk] at hi
  rcases List.mem_cons.mp hi with rfl | hi
  · rcases hm with hm | hm <;> cases hm
  · rw [List.mem_singleton.mp hi] at hm
    split at hm <;> rcases hm with hm | hm <;> cases hm

/-- The block of an action is such a block. -/
theorem blkOk_genBpfAction (tbl : BpfHtbl) (action : UInt32) (found : Bool) :
    BlkOk host target d tbl (genBpfAction host target action) found where
  endOk := by
    intro acc _ l acc' heff
    rw [genBpfAction, blkEffect_ret] at heff
    cases heff
  loads := fun offset h => by cases h
  nxt := fun h => (not_hasNxt_genBpfAction action h).elim

/-- The block of a node is such a block, if it loads a word of the call. -/
theorem blkOk_nodeBlk (tbl : BpfHtbl) {n : ChainNode} {a : AccState} {op : UInt16}
    (hop : genBpfOp n.op = some op) (hn : LoadValid n.argOffset) (jt jf : UInt64) (found : Bool) :
    BlkOk host target d tbl (nodeBlk host target n a op jt jf) found where
  endOk := endOk_nodeBlk hop hn jt jf
  loads := by
    intro offset hoffset
    rw [nodeBlk, AccState.before] at hoffset
    split at hoffset
    · cases hoffset
    next hr =>
      have hoff : a.offset = some n.argOffset := by
        by_contra h
        exact hr (Or.inl h)
      rw [hoff] at hoffset
      cases hoffset
      exact hn
  nxt := fun h => (not_hasNxt_nodeBlk n a op jt jf h).elim

/-- The block of a system call leaves the accumulator in its end state. -/
theorem endOk_syscallBlk (accReset : Bool) (num : UInt32) (chain nxtHash : UInt64) :
    EndOk host target d (syscallBlk host target accReset num chain nxtHash) := by
  intro acc hacc l acc' heff
  rw [blkEffect_syscallBlk host target d accReset num chain nxtHash hacc] at heff
  cases heff
  exact (holds_accStateOffset target d).mpr rfl

/-- The block of a system call is such a block. -/
theorem blkOk_syscallBlk (tbl : BpfHtbl) (accReset : Bool) (num : UInt32)
    (chain nxtHash : UInt64) :
    BlkOk host target d tbl (syscallBlk host target accReset num chain nxtHash) true where
  endOk := endOk_syscallBlk accReset num chain nxtHash
  loads := by
    intro offset hoffset
    cases accReset <;> cases hoffset
    decide
  nxt := fun _ => rfl

/-- The block that tells x86-64 from x32 leaves the accumulator in its end state. -/
theorem endOk_abiBlk {arch : Arch} (harch : arch = .x86_64 ∨ arch = .x32)
    (badArchHsh next : UInt64) :
    EndOk host arch.endian d (abiBlk host arch badArchHsh next) := by
  intro acc _ l acc' heff
  rw [blkEffect_abiBlk host d harch badArchHsh next acc] at heff
  cases heff
  exact (holds_accStateOffset arch.endian d).mpr rfl

/-- The block of an architecture is such a block. -/
theorem blkOk_archBlk (tbl : BpfHtbl) (arch : Arch) (first : UInt64) (skip : ℕ) :
    BlkOk host target d tbl (archBlk host arch first skip) true where
  endOk := fun _ _ _ _ _ => holds_accStateUndef target d _
  loads := fun offset h => by cases h
  nxt := fun _ => rfl

/-- The meaning of a hash in a table whose duplicates agree on the accumulator. -/
def Means (host target : ArchEndian) (d : BpfData) (tbl : BpfHtbl) (l : UInt64) (r : UInt32) :
    Prop :=
  SameStart tbl → Yields host target d tbl l r

/-- What a hash means stays when the table grows. -/
theorem Means.mono {tbl tbl' : BpfHtbl} (hext : TableExt tbl tbl') {l : UInt64} {r : UInt32}
    (h : Means host target d tbl l r) : Means host target d tbl' l r :=
  fun hsame => (h (hsame.of_ext hext)).mono hext

/-- A block of the top level that does not fall through: it checks the number of the call,
which it leaves in the accumulator, or returns. -/
structure TopBlk (host target : ArchEndian) (d : BpfData) (tbl : BpfHtbl) (b : BpfBlk) :
    Prop where
  stored : SameStart tbl → Stored tbl b
  endOk : EndOk host target d b
  nxt : ¬ b.HasNxt
  leaves : b.accEnd = accStateOffset BPF_OFFSET_SYSCALL ∨ b.targets = []

/-- A block of the top level stays one when the table grows. -/
theorem TopBlk.mono {tbl tbl' : BpfHtbl} (hext : TableExt tbl tbl') {b : BpfBlk}
    (h : TopBlk host target d tbl b) : TopBlk host target d tbl' b :=
  ⟨fun hsame => (h.stored (hsame.of_ext hext)).mono hext, h.endOk, h.nxt, h.leaves⟩

/-- A block that is added as one of the list. -/
theorem topBlk_hshAdd {tbl tbl' : BpfHtbl} {blk b : BpfBlk}
    (h : hshAdd jhash tbl blk true = some (b, tbl')) (hend : EndOk host target d blk)
    (hnxt : ¬ blk.HasNxt)
    (hleaves : blk.accEnd = accStateOffset BPF_OFFSET_SYSCALL ∨ blk.targets = []) :
    TopBlk host target d tbl' b := by
  have hb := hshAdd_found h
  refine ⟨stored_hshAdd h, ?_, ?_, ?_⟩
  · rw [hb]
    exact hend
  · rw [hb]
    exact hnxt
  · rw [hb]
    exact hleaves

/-- The list of system calls means what the filter says. -/
theorem syscallRule_means (jhash : List BpfInstr → UInt32) (host target : ArchEndian)
    (d : BpfData) :
    SyscallRule jhash host target d ChainNode.Loads (BlkOk host target d) (Means host target d)
      (Means host target d) (TopBlk host target d) where
  toChainRule := chainRule_yields jhash host target d (BlkOk host target d)
    (fun tbl action => blkOk_genBpfAction tbl action false)
    (fun tbl _ _ _ jt jf hn hop => blkOk_nodeBlk tbl hop hn jt jf false)
  monoZ := fun hext h => h.mono hext
  monoTop := fun hext h => h.mono hext
  syscall := by
    intro tbl tbl' accReset num chain nxtHash rC rN b hC hN hadd
    refine ⟨blkOk_syscallBlk tbl accReset num chain nxtHash, fun hsame => ?_,
      topBlk_hshAdd hadd (endOk_syscallBlk accReset num chain nxtHash)
        (not_hasNxt_syscallBlk accReset num chain nxtHash) (Or.inl rfl)⟩
    have hsame₁ := hsame.of_ext (tableExt_hshAdd hadd)
    refine yields_of_steps hadd hsame
      (fun acc hacc => ⟨_, blkEffect_syscallBlk host target d accReset num chain nxtHash hacc⟩) ?_
    by_cases h : d.nr = num
    · rw [if_pos h, if_pos h]
      exact hC hsame₁
    · rw [if_neg h, if_neg h]
      exact hN hsame₁

/-- The action on a call under a filter, or under two with one token. -/
def groupVerdict (target : ArchEndian) (d : BpfData) (actDefault actBadarch : UInt32)
    (db : DbFilterTree) (secondary : Option DbFilterTree) : UInt32 :=
  if db.arch.NeedsAbiCheck secondary ∧ db.arch.Foreign d.nr then actBadarch
  else evalSyscalls target d actDefault (db.syscalls ++ secondary.elim [] DbFilterTree.syscalls)

/-- The blocks of an architecture: the check of the token, and behind it the blocks that
come to the action `r` where the token is that of the call. -/
structure GroupMeans (host target : ArchEndian) (d : BpfData) (tbl : BpfHtbl) (arch : Arch)
    (r : UInt32) (b : BpfBlk) (first : UInt64) (inner : List BpfBlk) : Prop where
  blk : b = { archBlk host arch first inner.length with hash := b.hash }
  stored : Stored tbl b
  first : Yields host target d tbl first r
  inner : ∀ c ∈ inner, TopBlk host target d tbl c

/-- **The blocks of an architecture mean its filter.** -/
theorem genBpfArch_means {tbl tbl' : BpfHtbl} {badArchHsh defHsh : UInt64} {db : DbFilterTree}
    {secondary : Option DbFilterTree} {blks : List BpfBlk} {r rBad : UInt32}
    (hendian : db.arch.endian = target)
    (hloads : ∀ s ∈ db.syscalls ++ secondary.elim [] DbFilterTree.syscalls,
      s.valid = true → s.Loads)
    (hnums : DistinctNums (db.syscalls ++ secondary.elim [] DbFilterTree.syscalls))
    (h : genBpfArch jhash host tbl badArchHsh defHsh db secondary = some (blks, tbl'))
    (hdef : Means host target d tbl defHsh r) (hbad : Means host target d tbl badArchHsh rBad) :
    Adds jhash (BlkOk host target d) tbl tbl' ∧
      (SameStart tbl' → ∃ b first inner, blks = b :: inner ∧
        GroupMeans host target d tbl' db.arch (groupVerdict target d r rBad db secondary) b first
          inner) := by
  subst hendian
  obtain ⟨blks₁, tbl₁, blks₂, tbl₂, b, hsys, habi, hadd, rfl⟩ := genBpfArch_cases h
  have hperm := perm_sortPriority (db.syscalls ++ secondary.elim [] DbFilterTree.syscalls)
  obtain ⟨hadds₁, hmeans₁, htop₁⟩ :=
    (syscallRule_means jhash host db.arch.endian d).genBpfSyscalls
      (fun s hs hv _ => (hloads s (hperm.mem_iff.mp hs) hv).loads _) hsys hdef hdef
  rw [evalSyscalls_perm db.arch.endian d r hperm (hnums.perm hperm.symm)] at hmeans₁
  have hP : BlkOk host db.arch.endian d tbl₂
      (archBlk host db.arch (headHash defHsh blks₂) blks₂.length) true :=
    blkOk_archBlk tbl₂ db.arch (headHash defHsh blks₂) blks₂.length
  suffices h₂ : Adds jhash (BlkOk host db.arch.endian d) tbl₁ tbl₂ ∧
      Means host db.arch.endian d tbl₂ (headHash defHsh blks₂)
        (groupVerdict db.arch.endian d r rBad db secondary) ∧
      ∀ c ∈ blks₂, TopBlk host db.arch.endian d tbl₂ c by
    obtain ⟨hadds₂, hmeans₂, htop₂⟩ := h₂
    have hext := tableExt_hshAdd hadd
    refine ⟨(hadds₁.trans hadds₂).trans (Adds.single hP hadd), fun hsame =>
      ⟨b, headHash defHsh blks₂, blks₂, rfl, hshAdd_found hadd, stored_hshAdd hadd hsame, ?_, ?_⟩⟩
    · exact (hmeans₂ (hsame.of_ext hext)).mono hext
    · exact fun c hc => (htop₂ c hc).mono hext
  rcases habi with ⟨hneed, c, rfl, hc⟩ | ⟨hneed, rfl, rfl⟩
  · have harch := hneed.1
    have hend : EndOk host db.arch.endian d
        (abiBlk host db.arch badArchHsh (headHash defHsh blks₁)) :=
      endOk_abiBlk harch badArchHsh (headHash defHsh blks₁)
    refine ⟨Adds.single ⟨hend, (fun _ h => by cases h), fun _ => rfl⟩ hc, fun hsame => ?_, ?_⟩
    · have hsame₁ := hsame.of_ext (tableExt_hshAdd hc)
      refine yields_of_steps hc hsame (fun acc _ =>
        ⟨_, blkEffect_abiBlk host d harch badArchHsh (headHash defHsh blks₁) acc⟩) ?_
      rw [groupVerdict]
      by_cases hf : db.arch.Foreign d.nr
      · rw [if_pos hf, if_pos ⟨hneed, hf⟩]
        exact (hbad.mono hadds₁.tableExt) hsame₁
      · rw [if_neg hf, if_neg fun h => hf h.2]
        exact hmeans₁ hsame₁
    · intro b hb
      rcases List.mem_cons.mp hb with rfl | hb
      · exact topBlk_hshAdd hc hend (not_hasNxt_abiBlk db.arch badArchHsh (headHash defHsh blks₁))
          (Or.inl rfl)
      · exact (htop₁ b hb).mono (tableExt_hshAdd hc)
  · rw [groupVerdict, if_neg fun h => hneed h.1]
    exact ⟨Adds.refl, hmeans₁, htop₁⟩

end

end Draco
