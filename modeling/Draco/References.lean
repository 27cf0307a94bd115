/-
# What the blocks refer to

A block refers to blocks by their hashes, and whatever it refers to was added to the table
before (`pos_lt_of_adds`), so the references do not go in circles.  The blocks of the tests
and of the actions refer to such blocks only (`InnerHash`); the blocks of the top level also
refer to blocks further down the top level (`TopRefs`).  What the two kinds contain is
different, since a test loads the word of an argument first: the table never takes a block
of one kind for one of the other kind.
-/
import Draco.JumpRange
import Draco.Reloading

namespace Draco

open LabelledCode

/-! ## The order of the table -/

/-- There is an entry with the hash. -/
def KnownHash (tbl : BpfHtbl) (l : UInt64) : Prop := ∃ e ∈ tbl, e.blk.hash = l

/-- A hash of the table stays one. -/
theorem KnownHash.mono {tbl tbl' : BpfHtbl} (hext : TableExt tbl tbl') {l : UInt64}
    (h : KnownHash tbl l) : KnownHash tbl' l := by
  obtain ⟨e, he, hhash⟩ := h
  obtain ⟨e', he', hblk, -, -⟩ := hext e he
  exact ⟨e', he', by rw [hblk, hhash]⟩

/-- The place of a hash in the table. -/
def pos (tbl : BpfHtbl) (l : UInt64) : ℕ := (tbl.map fun e => e.blk.hash).idxOf l

/-- A known hash is that of an entry. -/
theorem KnownHash.mem {tbl : BpfHtbl} {l : UInt64} (h : KnownHash tbl l) :
    l ∈ tbl.map fun e => e.blk.hash := by
  obtain ⟨e, he, rfl⟩ := h
  exact List.mem_map.mpr ⟨e, he, rfl⟩

/-- What is in the table stays where it is. -/
theorem KnownHash.pos_append {tbl : BpfHtbl} {l : UInt64} (h : KnownHash tbl l)
    (e : BpfHashBkt) : pos (tbl ++ [e]) l = pos tbl l := by
  rw [pos, List.map_append]
  exact List.idxOf_append_of_mem h.mem

/-- Its place is inside the table. -/
theorem KnownHash.pos_lt {tbl : BpfHtbl} {l : UInt64} (h : KnownHash tbl l) :
    pos tbl l < tbl.length := by
  have hlt := List.idxOf_lt_length_of_mem h.mem
  rwa [List.length_map] at hlt

/-- A new entry stands at the end. -/
theorem pos_append_self {tbl : BpfHtbl} {e : BpfHashBkt}
    (hfresh : ∀ e' ∈ tbl, e'.blk.hash ≠ e.blk.hash) :
    pos (tbl ++ [e]) e.blk.hash = tbl.length := by
  have hnot : e.blk.hash ∉ tbl.map fun e => e.blk.hash := by
    intro hmem
    obtain ⟨e', he', hhash⟩ := List.mem_map.mp hmem
    exact hfresh e' he' hhash
  rw [pos, List.map_append, List.idxOf_append_of_notMem hnot, List.length_map]
  simp

/-- **The references of a block go to entries before its own.** -/
theorem pos_lt_of_adds {jhash : List BpfInstr → UInt32} {P : BpfHtbl → BpfBlk → Bool → Prop}
    (hP : ∀ {tbl blk found}, P tbl blk found → ∀ l ∈ blk.targets, KnownHash tbl l)
    {tbl : BpfHtbl} (hadds : Adds jhash P [] tbl) :
    ∀ e ∈ tbl, ∀ l ∈ e.blk.targets, KnownHash tbl l ∧ pos tbl l < pos tbl e.blk.hash := by
  induction hadds with
  | refl =>
    intro e he
    cases he
  | @add tbl₁ tbl₂ blk b found hadds hPb hadd ih =>
    rcases hshAdd_cases hadd with ⟨hVal, hfresh, rfl, rfl⟩ | ⟨e, -, -, -, rfl⟩
    · intro e he l hl
      rcases List.mem_append.mp he with he | he
      · obtain ⟨hknown, hlt⟩ := ih e he l hl
        rw [hknown.pos_append, KnownHash.pos_append ⟨e, he, rfl⟩]
        exact ⟨hknown.mono (tableExt_hshAdd hadd), hlt⟩
      · -- the new entry is behind all others
        rw [List.mem_singleton.mp he] at hl ⊢
        have hknown : KnownHash tbl₁ l := hP hPb l hl
        rw [hknown.pos_append, pos_append_self hfresh]
        exact ⟨hknown.mono (tableExt_hshAdd hadd), hknown.pos_lt⟩
    · intro e' he' l hl
      obtain ⟨f, hf, hblk, -, -⟩ := mem_hshDup he'
      rw [hblk] at hl ⊢
      obtain ⟨hknown, hlt⟩ := ih f hf l hl
      rw [pos, pos, map_hash_hshDup]
      exact ⟨hknown.mono (tableExt_hshAdd hadd), hlt⟩

/-! ## Contents -/

section Contents

variable (host target : ArchEndian)

/-- The contents of the block of an action, or of a test that loads the word of an argument. -/
def InnerBlk (blks : List BpfInstr) : Prop :=
  (∃ action, blks = (genBpfAction host target action).blks) ∨
    ∃ offset rest, 16 ≤ offset ∧ blks = bpfInstr host target BPF_LD_ABS offset :: rest

variable {host target}

/-- A block that starts with a jump is not an inner one. -/
theorem not_innerBlk_jump {i : BpfInstr} {rest : List BpfInstr} {l : UInt64} (hi : i.jt = .hsh l) :
    ¬ InnerBlk host target (i :: rest) := by
  rintro (⟨action, h⟩ | ⟨offset, rest', -, h⟩)
  · have := congrArg BpfInstr.jt (List.cons.inj h).1
    rw [hi] at this
    cases this
  · have := congrArg BpfInstr.jt (List.cons.inj h).1
    rw [hi] at this
    cases this

/-- The words in front of the arguments are loaded by blocks of the top level only. -/
theorem not_innerBlk_load {offset : UInt32} (hoffset : ¬ 16 ≤ offset) (rest : List BpfInstr) :
    ¬ InnerBlk host target (bpfInstr host target BPF_LD_ABS offset :: rest) := by
  rintro (⟨action, h⟩ | ⟨offset', rest', hle, h⟩)
  · have hop := congrArg BpfInstr.op (List.cons.inj h).1
    have := congrArg (ttoh16 host target) hop
    simp +decide [bpfInstr] at this
  · have hk := congrArg BpfInstr.k (List.cons.inj h).1
    simp only [bpfInstr, bpfK, BpfJump.k.injEq] at hk
    have := congrArg (ttoh32 host target) hk
    rw [ttoh32_htot32, ttoh32_htot32] at this
    rw [this] at hoffset
    exact hoffset hle

/-- The block of a system call is not an inner one. -/
theorem not_innerBlk_syscallBlk (accReset : Bool) (num : UInt32) (chain nxtHash : UInt64) :
    ¬ InnerBlk host target (syscallBlk host target accReset num chain nxtHash).blks := by
  cases accReset with
  | true => exact not_innerBlk_load (by decide) _
  | false => exact not_innerBlk_jump rfl

/-- The block that tells x86-64 from x32 is not an inner one. -/
theorem not_innerBlk_abiBlk (arch : Arch) (badArchHsh next : UInt64) :
    ¬ InnerBlk host arch.endian (abiBlk host arch badArchHsh next).blks :=
  not_innerBlk_load (by decide) _

/-- The block of an architecture is not an inner one. -/
theorem not_innerBlk_archBlk (arch : Arch) (first : UInt64) (skip : ℕ) :
    ¬ InnerBlk host target (archBlk host arch first skip).blks :=
  not_innerBlk_jump rfl

/-- The first block of a program is not an inner one. -/
theorem not_innerBlk_loadArchBlk : ¬ InnerBlk host target (loadArchBlk host target).blks :=
  not_innerBlk_load (by decide) _

end Contents

/-! ## The references of inner blocks -/

/-- The hash of an inner block. -/
def InnerHash (host target : ArchEndian) (tbl : BpfHtbl) (l : UInt64) : Prop :=
  ∃ e ∈ tbl, e.blk.hash = l ∧ InnerBlk host target e.blk.blks

/-- What holds of every block that is added: it refers to blocks of the table, an inner
block to inner blocks only, and of the inner blocks only the action for bad architectures
is one of the list. -/
structure OrderOk (host target : ArchEndian) (actBad : UInt32) (tbl : BpfHtbl) (blk : BpfBlk)
    (found : Bool) : Prop where
  known : ∀ l ∈ blk.targets, KnownHash tbl l
  inner : InnerBlk host target blk.blks → ∀ l ∈ blk.targets, InnerHash host target tbl l
  pulled : found = false →
    InnerBlk host target blk.blks ∧ blk.Straight ∧ blk.blks.length ≤ 3
  listed : found = true → InnerBlk host target blk.blks →
    blk.blks = (genBpfAction host target actBad).blks

section

variable {jhash : List BpfInstr → UInt32} {host target : ArchEndian} {actBad : UInt32}

/-- The hash of an inner block is in the table. -/
theorem InnerHash.known {tbl : BpfHtbl} {l : UInt64} (h : InnerHash host target tbl l) :
    KnownHash tbl l := by
  obtain ⟨e, he, hhash, -⟩ := h
  exact ⟨e, he, hhash⟩

/-- The hash of an inner block stays one when the table grows. -/
theorem InnerHash.mono {tbl tbl' : BpfHtbl} (hext : TableExt tbl tbl') {l : UInt64}
    (h : InnerHash host target tbl l) : InnerHash host target tbl' l := by
  obtain ⟨e, he, hhash, hinner⟩ := h
  obtain ⟨e', he', hblk, -, -⟩ := hext e he
  rw [← hblk] at hhash hinner
  exact ⟨e', he', hhash, hinner⟩

/-- What a block refers to stays in the table. -/
theorem OrderOk.mono {tbl tbl' : BpfHtbl} (hext : TableExt tbl tbl') {blk : BpfBlk}
    {found : Bool} (h : OrderOk host target actBad tbl blk found) :
    OrderOk host target actBad tbl' blk found :=
  ⟨fun l hl => (h.known l hl).mono hext, fun hi l hl => (h.inner hi l hl).mono hext, h.pulled,
    h.listed⟩

/-- The hash of inner contents that were added. -/
theorem innerHash_hshAdd {tbl tbl' : BpfHtbl} {blk b : BpfBlk} {found : Bool}
    (h : hshAdd jhash tbl blk found = some (b, tbl')) (hinner : InnerBlk host target blk.blks) :
    InnerHash host target tbl' b.hash := by
  obtain ⟨e, he, hhash, hblks⟩ := hshAdd_entry h
  exact ⟨e, he, hhash, by rwa [hblks]⟩

/-- The hash of an added block is in the table. -/
theorem knownHash_hshAdd {tbl tbl' : BpfHtbl} {blk b : BpfBlk} {found : Bool}
    (h : hshAdd jhash tbl blk found = some (b, tbl')) : KnownHash tbl' b.hash := by
  obtain ⟨e, he, hhash, -⟩ := hshAdd_entry h
  exact ⟨e, he, hhash⟩

/-- The block of an action is an inner one. -/
theorem innerBlk_genBpfAction (host target : ArchEndian) (action : UInt32) :
    InnerBlk host target (genBpfAction host target action).blks :=
  Or.inl ⟨action, rfl⟩

/-- The block of an action refers to nothing. -/
theorem orderOk_genBpfAction (tbl : BpfHtbl) (action : UInt32) :
    OrderOk host target actBad tbl (genBpfAction host target action) false where
  known := fun l hl => by cases hl
  inner := fun _ l hl => by cases hl
  pulled := fun _ => ⟨innerBlk_genBpfAction host target action, straight_single rfl,
    Nat.le_add_left 1 2⟩
  listed := fun h => by cases h

/-- The load of a word does not jump. -/
theorem plain_genBpfLoad {n : ChainNode} {a : AccState} {i : BpfInstr}
    (hi : i ∈ genBpfLoad host target n a) : i.Plain := by
  obtain ⟨hjt, hjf⟩ := jump_genBpfLoad hi
  refine ⟨hjt, hjf, ?_⟩
  rcases List.mem_append.mp hi with hi | hi
  all_goals
    split_ifs at hi
    all_goals simp at hi
    all_goals rw [hi]; exact ⟨_, rfl⟩

/-- The block of a node jumps at its end only. -/
theorem straight_nodeBlk (n : ChainNode) (a : AccState) (op : UInt16) (jt jf : UInt64) :
    (nodeBlk host target n a op jt jf).Straight :=
  ⟨genBpfLoad host target n a, _, rfl, fun _ hi => plain_genBpfLoad hi, last_bpfJump op jt jf _⟩

/-- A node has a load, a mask and a jump at most. -/
theorem length_nodeBlk (n : ChainNode) (a : AccState) (op : UInt16) (jt jf : UInt64) :
    (nodeBlk host target n a op jt jf).blks.length ≤ 3 := by
  unfold nodeBlk genBpfLoad
  split_ifs <;> simp

/-- The block of a node that loads its own word is an inner one. -/
theorem innerBlk_nodeBlk {n : ChainNode} {a : AccState} (hn : 16 ≤ n.argOffset)
    (ha : a.Reload n) (op : UInt16) (jt jf : UInt64) :
    InnerBlk host target (nodeBlk host target n a op jt jf).blks := by
  rw [nodeBlk, genBpfLoad, if_pos ha, if_pos ha]
  exact Or.inr ⟨n.argOffset, _, hn, rfl⟩

/-- The blocks of a tree whose tests load the words of arguments refer to inner blocks. -/
theorem chainRule_order (jhash : List BpfInstr → UInt32) (host target : ArchEndian)
    (actBad : UInt32) (d : BpfData) :
    ChainRule jhash host target d (fun n a => 16 ≤ n.argOffset ∧ a.Reload n)
      (OrderOk host target actBad) (fun tbl l _ => InnerHash host target tbl l) where
  mono := fun hext h => h.mono hext
  action := fun hadd => ⟨orderOk_genBpfAction _ _,
    innerHash_hshAdd hadd (innerBlk_genBpfAction host target _)⟩
  node := by
    intro tbl tbl' n a op jt jf rT rF b hn _ hT hF hadd
    have hinner : InnerBlk host target (nodeBlk host target n a op jt jf).blks :=
      innerBlk_nodeBlk hn.1 hn.2 op jt jf
    have htargets : ∀ l ∈ (nodeBlk host target n a op jt jf).targets,
        InnerHash host target tbl l := by
      intro l hl
      rw [targets_nodeBlk, List.mem_cons, List.mem_singleton] at hl
      rcases hl with rfl | rfl
      · exact hT
      · exact hF
    exact ⟨⟨fun l hl => (htargets l hl).known, fun _ => htargets,
      fun _ => ⟨hinner, straight_nodeBlk n a op jt jf, length_nodeBlk n a op jt jf⟩,
      (fun h => by cases h)⟩, innerHash_hshAdd hadd hinner⟩

/-! ## The references of the top level -/

/-- What holds of a block of the top level and the blocks behind it: it refers to inner
blocks and to blocks behind it. -/
structure TopRef (host target : ArchEndian) (tbl : BpfHtbl) (b : BpfBlk) (rest : List BpfBlk) :
    Prop where
  known : KnownHash tbl b.hash
  refs : ∀ l ∈ b.targets, InnerHash host target tbl l ∨ l ∈ rest.map BpfBlk.hash
  form : b.Straight ∨ ∃ arch first skip, b.blks = (archBlk host arch first skip).blks
  length : b.blks.length ≤ 3

/-- References to the table stay when it grows. -/
theorem TopRef.mono {tbl tbl' : BpfHtbl} (hext : TableExt tbl tbl') {b : BpfBlk}
    {rest : List BpfBlk} (h : TopRef host target tbl b rest) : TopRef host target tbl' b rest :=
  ⟨h.known.mono hext, fun l hl => (h.refs l hl).imp_left fun hi => hi.mono hext, h.form, h.length⟩

/-- References down the list stay when it gets longer at its end. -/
theorem TopRef.append {tbl : BpfHtbl} {b : BpfBlk} {rest : List BpfBlk}
    (h : TopRef host target tbl b rest) (rest' : List BpfBlk) :
    TopRef host target tbl b (rest ++ rest') := by
  refine ⟨h.known, fun l hl => ?_, h.form, h.length⟩
  rw [List.map_append, List.mem_append]
  exact (h.refs l hl).imp_right Or.inl

/-- The blocks of the top level, each with what holds of it. -/
abbrev TopRefs (host target : ArchEndian) (tbl : BpfHtbl) (bs : List BpfBlk) : Prop :=
  Tailwise (TopRef host target tbl) bs

/-- The same for a whole list. -/
theorem TopRefs.mono {tbl tbl' : BpfHtbl} (hext : TableExt tbl tbl') {bs : List BpfBlk}
    (h : TopRefs host target tbl bs) : TopRefs host target tbl' bs :=
  tailwise_of_splits fun _ _ _ hsplit => (hsplit ▸ h).of_split.mono hext

/-- The blocks of such a list are in the table. -/
theorem TopRefs.known {tbl : BpfHtbl} {bs : List BpfBlk} (h : TopRefs host target tbl bs)
    {l : UInt64} (hl : l ∈ bs.map BpfBlk.hash) : KnownHash tbl l := by
  obtain ⟨b, hb, rfl⟩ := List.mem_map.mp hl
  obtain ⟨xs, ys, rfl⟩ := List.append_of_mem hb
  exact h.of_split.known

/-- Where the first block is, or the default action. -/
theorem headHash_cases {tbl : BpfHtbl} {defHsh : UInt64} (blks : List BpfBlk)
    (hdef : InnerHash host target tbl defHsh) :
    InnerHash host target tbl (headHash defHsh blks) ∨
      headHash defHsh blks ∈ blks.map BpfBlk.hash := by
  cases blks with
  | nil => exact Or.inl hdef
  | cons b rest => exact Or.inr List.mem_cons_self

/-- And so is the hash that the list is entered by. -/
theorem TopRefs.known_headHash {tbl : BpfHtbl} {defHsh : UInt64} {blks : List BpfBlk}
    (h : TopRefs host target tbl blks) (hdef : InnerHash host target tbl defHsh) :
    KnownHash tbl (headHash defHsh blks) := by
  rcases headHash_cases blks hdef with hi | hmem
  · exact hi.known
  · exact h.known hmem

/-- A block is put in front of the list. -/
theorem TopRefs.cons {tbl tbl' : BpfHtbl} {blk b : BpfBlk} {rest : List BpfBlk}
    (h : TopRefs host target tbl rest) (hadd : hshAdd jhash tbl blk true = some (b, tbl'))
    (hrefs : ∀ l ∈ blk.targets, InnerHash host target tbl l ∨ l ∈ rest.map BpfBlk.hash)
    (hform : blk.Straight ∨ ∃ arch first skip, blk.blks = (archBlk host arch first skip).blks)
    (hlen : blk.blks.length ≤ 3) : TopRefs host target tbl' (b :: rest) := by
  have hext := tableExt_hshAdd hadd
  refine ⟨⟨knownHash_hshAdd hadd, ?_, ?_, ?_⟩, h.mono hext⟩
  · rw [hshAdd_found hadd]
    exact fun l hl => (hrefs l hl).imp_left fun hi => hi.mono hext
  · rw [hshAdd_found hadd]
    exact hform
  · rw [hshAdd_found hadd]
    exact hlen

/-- What is to be shown of an addition for the top level. -/
theorem orderOk_of_not_inner {tbl : BpfHtbl} {blk : BpfBlk}
    (hnot : ¬ InnerBlk host target blk.blks) (hknown : ∀ l ∈ blk.targets, KnownHash tbl l) :
    OrderOk host target actBad tbl blk true :=
  ⟨hknown, fun h => (hnot h).elim, (fun h => by cases h), fun _ h => (hnot h).elim⟩

/-- The block of a system call refers to its chain and to the next entry. -/
theorem targets_syscallBlk (accReset : Bool) (num : UInt32) (chain nxtHash : UInt64) :
    (syscallBlk host target accReset num chain nxtHash).targets = [chain, nxtHash] := by
  cases accReset <;> rfl

/-- The block of a system call jumps at its end only. -/
theorem straight_syscallBlk (accReset : Bool) (num : UInt32) (chain nxtHash : UInt64) :
    (syscallBlk host target accReset num chain nxtHash).Straight := by
  refine ⟨_, _, rfl, fun i hi => ?_, last_bpfJump BPF_JMP_JEQ chain nxtHash num⟩
  cases accReset with
  | true =>
    rw [if_pos rfl, List.mem_singleton] at hi
    rw [hi]
    exact ⟨rfl, rfl, _, rfl⟩
  | false => cases hi

/-- The words of arguments are loaded by all tests of the entry. -/
def DbSysList.LoadsArgs (s : DbSysList) : Prop :=
  ∀ accReset : Bool, s.chains.Threaded (fun n a => 16 ≤ n.argOffset ∧ a.Reload n)
    (if accReset then accStateOffset BPF_OFFSET_SYSCALL else accStateUndef)

/-- **The entries of a filter refer forwards**: to inner blocks, which stand in the table before
them, or down the list. -/
theorem genBpfSyscalls_order (actBad : UInt32) {syscalls : List DbSysList} {tbl tbl' : BpfHtbl}
    {defHsh : UInt64} {accReset : Bool} {blks : List BpfBlk}
    (hloads : ∀ s ∈ syscalls, s.valid = true → s.LoadsArgs)
    (hdef : InnerHash host target tbl defHsh)
    (h : genBpfSyscalls jhash host target tbl defHsh accReset syscalls = some (blks, tbl')) :
    Adds jhash (OrderOk host target actBad) tbl tbl' ∧ TopRefs host target tbl' blks := by
  induction syscalls generalizing tbl' accReset blks with
  | nil =>
    obtain ⟨rfl, rfl⟩ := Prod.mk.inj (Option.some.inj h)
    exact ⟨Adds.refl, trivial⟩
  | cons s rest ih =>
    obtain ⟨blks₁, tbl₁, hrest, hs⟩ := genBpfSyscalls_cases h
    obtain ⟨hadds, htop⟩ := ih (fun t ht => hloads t (List.mem_cons_of_mem s ht)) hrest
    rcases hs with ⟨-, rfl, rfl⟩ | ⟨hv, b, rfl, hb⟩
    · exact ⟨hadds, htop⟩
    · obtain ⟨chain, tbl₂, hchain, hadd⟩ := genBpfSyscall_cases hb
      have hdef₁ := hdef.mono hadds.tableExt
      obtain ⟨hadds₂, hinner⟩ := (chainRule_order jhash host target actBad ⟨0, 0, 0, fun _ => 0⟩
        ).genBpfChain (r := 0) (hloads s List.mem_cons_self hv accReset) hchain hdef₁
      have htop₂ := htop.mono hadds₂.tableExt
      have hdef₂ := hdef₁.mono hadds₂.tableExt
      refine ⟨(hadds.trans hadds₂).trans (Adds.single (orderOk_of_not_inner
        (not_innerBlk_syscallBlk accReset s.num chain _) fun l hl => ?_) hadd),
        htop₂.cons hadd (fun l hl => ?_)
          (Or.inl (straight_syscallBlk accReset s.num chain _)) ?_⟩
      · rw [targets_syscallBlk, List.mem_cons, List.mem_singleton] at hl
        rcases hl with rfl | rfl
        · exact hinner.known
        · exact htop₂.known_headHash hdef₂
      · rw [targets_syscallBlk, List.mem_cons, List.mem_singleton] at hl
        rcases hl with rfl | rfl
        · exact Or.inl hinner
        · exact headHash_cases blks₁ hdef₂
      · cases accReset <;> simp [syscallBlk]

/-- The block of an architecture refers to its first entry. -/
theorem targets_archBlk (arch : Arch) (first : UInt64) (skip : ℕ) :
    (archBlk host arch first skip).targets = [first] := rfl

/-- The block that tells x86-64 from x32 refers to the action for bad architectures and to the
first entry. -/
theorem targets_abiBlk {arch : Arch} {badArchHsh next l : UInt64}
    (hl : l ∈ (abiBlk host arch badArchHsh next).targets) : l = badArchHsh ∨ l = next := by
  unfold abiBlk at hl
  split at hl
  · exact (List.mem_cons.mp hl).imp_right List.mem_singleton.mp
  · exact ((List.mem_cons.mp hl).imp_right List.mem_singleton.mp).symm

/-- The block that tells x86-64 from x32 jumps at its end only. -/
theorem straight_abiBlk (arch : Arch) (badArchHsh next : UInt64) :
    (abiBlk host arch badArchHsh next).Straight := by
  refine ⟨[bpfInstr host arch.endian BPF_LD_ABS BPF_OFFSET_SYSCALL], _, rfl, fun i hi => ?_, ?_⟩
  · rw [List.mem_singleton.mp hi]
    exact ⟨rfl, rfl, _, rfl⟩
  · split
    · exact last_bpfJump BPF_JMP_JGE badArchHsh next X32_SYSCALL_BIT
    · exact last_bpfJump BPF_JMP_JGE next badArchHsh X32_SYSCALL_BIT

/-- The blocks of a filter with its partner refer forwards. -/
theorem genBpfArch_order (actBad : UInt32) {tbl tbl' : BpfHtbl} {badArchHsh defHsh : UInt64}
    {db : DbFilterTree} {secondary : Option DbFilterTree} {blks : List BpfBlk}
    (hendian : db.arch.endian = target)
    (hloads : ∀ s ∈ db.syscalls ++ secondary.elim [] DbFilterTree.syscalls,
      s.valid = true → s.LoadsArgs)
    (hbad : InnerHash host target tbl badArchHsh) (hdef : InnerHash host target tbl defHsh)
    (h : genBpfArch jhash host tbl badArchHsh defHsh db secondary = some (blks, tbl')) :
    Adds jhash (OrderOk host target actBad) tbl tbl' ∧ TopRefs host target tbl' blks := by
  subst hendian
  obtain ⟨blks₁, tbl₁, blks₂, tbl₂, b, hsys, habi, hadd, rfl⟩ := genBpfArch_cases h
  have hperm := perm_sortPriority (db.syscalls ++ secondary.elim [] DbFilterTree.syscalls)
  obtain ⟨hadds₁, htop₁⟩ := genBpfSyscalls_order actBad
    (fun s hs => hloads s (hperm.mem_iff.mp hs)) hdef hsys
  have hdef₁ := hdef.mono hadds₁.tableExt
  have hbad₁ := hbad.mono hadds₁.tableExt
  suffices h₂ : Adds jhash (OrderOk host db.arch.endian actBad) tbl₁ tbl₂ ∧
      TopRefs host db.arch.endian tbl₂ blks₂ by
    obtain ⟨hadds₂, htop₂⟩ := h₂
    have hdef₂ := hdef₁.mono hadds₂.tableExt
    have htargets : ∀ l ∈ (archBlk host db.arch (headHash defHsh blks₂) blks₂.length).targets,
        l = headHash defHsh blks₂ := by
      intro l hl
      rw [targets_archBlk, List.mem_singleton] at hl
      exact hl
    refine ⟨(hadds₁.trans hadds₂).trans (Adds.single (orderOk_of_not_inner
      (not_innerBlk_archBlk _ _ _) fun l hl => ?_) hadd), htop₂.cons hadd (fun l hl => ?_)
        (Or.inr ⟨db.arch, _, _, rfl⟩) (Nat.le_add_left 1 2)⟩
    · rw [htargets l hl]
      exact htop₂.known_headHash hdef₂
    · rw [htargets l hl]
      exact headHash_cases blks₂ hdef₂
  rcases habi with ⟨-, c, rfl, hc⟩ | ⟨-, rfl, rfl⟩
  · refine ⟨Adds.single (orderOk_of_not_inner (not_innerBlk_abiBlk _ _ _) fun l hl => ?_) hc,
      htop₁.cons hc (fun l hl => ?_) (Or.inl (straight_abiBlk _ _ _)) (Nat.le_add_left 2 1)⟩
    · rcases targets_abiBlk hl with rfl | rfl
      · exact hbad₁.known
      · exact htop₁.known_headHash hdef₁
    · rcases targets_abiBlk hl with rfl | rfl
      · exact Or.inl hbad₁
      · exact headHash_cases blks₁ hdef₁
  · exact ⟨Adds.refl, htop₁⟩

/-- The blocks of all groups refer forwards. -/
theorem genBpfGroups_order (actBad : UInt32) {groups : List (DbFilterTree × Option DbFilterTree)}
    (hendian : ∀ g ∈ groups, g.1.arch.endian = target)
    (hloads : ∀ g ∈ groups, ∀ s ∈ g.1.syscalls ++ g.2.elim [] DbFilterTree.syscalls,
      s.valid = true → s.LoadsArgs)
    {badArchHsh defHsh : UInt64} {tbl tbl' : BpfHtbl} {blks : List BpfBlk}
    (hbad : InnerHash host target tbl badArchHsh) (hdef : InnerHash host target tbl defHsh)
    (h : genBpfGroups jhash host badArchHsh defHsh groups tbl = some (blks, tbl')) :
    Adds jhash (OrderOk host target actBad) tbl tbl' ∧ TopRefs host target tbl' blks := by
  induction groups generalizing tbl blks with
  | nil =>
    obtain ⟨rfl, rfl⟩ := Prod.mk.inj (Option.some.inj h)
    exact ⟨Adds.refl, trivial⟩
  | cons g rest ih =>
    obtain ⟨db, secondary⟩ := g
    simp only [genBpfGroups, Option.bind_eq_bind, Option.bind_eq_some_iff] at h
    obtain ⟨⟨blks₁, tbl₁⟩, harch, ⟨blks₂, tbl₂⟩, hrest, h⟩ := h
    obtain ⟨rfl, rfl⟩ := Prod.mk.inj (Option.some.inj h)
    have hcons : ∀ g ∈ rest, g ∈ (db, secondary) :: rest :=
      fun g hg => List.mem_cons_of_mem (db, secondary) hg
    obtain ⟨hadds₁, htop₁⟩ := genBpfArch_order actBad (hendian _ List.mem_cons_self)
      (hloads _ List.mem_cons_self) hbad hdef harch
    obtain ⟨hadds₂, htop₂⟩ := ih (fun g hg => hendian g (hcons g hg))
      (fun g hg => hloads g (hcons g hg)) (hbad.mono hadds₁.tableExt)
      (hdef.mono hadds₁.tableExt) hrest
    exact ⟨hadds₁.trans hadds₂, (htop₁.mono hadds₂.tableExt).append htop₂
      fun b _ rest h => h.append blks₂⟩

/-- The entries with rules load the words of arguments. -/
def DbFilterCol.LoadsArgs (col : DbFilterCol) : Prop :=
  ∀ f ∈ col.filters, ∀ s ∈ f.syscalls, s.valid = true → s.LoadsArgs

/-- **What the blocks of a collection refer to.** -/
theorem genBpfBlocks_order {col : DbFilterCol} (hcol : col.WellFormed) (hloads : col.LoadsArgs)
    {top : List BpfBlk} {tbl : BpfHtbl} (h : genBpfBlocks jhash host col = some (top, tbl)) :
    Adds jhash (OrderOk host col.endian col.actBadarch) [] tbl ∧
      ∃ head blks bad, top = head :: (blks ++ [bad]) ∧ TopRefs host col.endian tbl blks ∧
        bad.blks = (genBpfAction host col.endian col.actBadarch).blks ∧
        ∃ e ∈ tbl, e.blk.hash = bad.hash ∧ e.blk.blks = bad.blks := by
  obtain ⟨badarch, tbl₁, default, tbl₂, head, tbl₃, blks, hbad, hdef, hhead, hblks, rfl⟩ :=
    genBpfBlocks_cases h
  have hinner := innerBlk_genBpfAction host col.endian
  have hbadOk : OrderOk host col.endian col.actBadarch []
      (genBpfAction host col.endian col.actBadarch) true :=
    ⟨(fun l hl => by cases hl), (fun _ l hl => by cases hl), (fun h => by cases h), fun _ _ => rfl⟩
  have hext₂ := tableExt_hshAdd hdef
  have hext₃ := tableExt_hshAdd hhead
  obtain ⟨hadds, htop⟩ := genBpfGroups_order col.actBadarch
    (fun g hg => by
      obtain ⟨iter, hget, -⟩ := DbFilterCol.groupAt_of_mem hcol hg
      exact hcol.endian g.1 (List.mem_of_getElem? hget))
    (fun g hg s hs => by
      obtain ⟨f, hf, hsf⟩ := DbFilterCol.exists_of_mem_group hcol hg hs
      exact hloads f hf s hsf)
    ((innerHash_hshAdd hbad (hinner _)).mono (hext₂.trans hext₃))
    ((innerHash_hshAdd hdef (hinner _)).mono hext₃) hblks
  refine ⟨(((Adds.single hbadOk hbad).trans (Adds.single (orderOk_genBpfAction _ _) hdef)).trans
    (Adds.single (orderOk_of_not_inner not_innerBlk_loadArchBlk fun l hl => by cases hl)
      hhead)).trans hadds, head, blks, badarch, rfl, htop, ?_, ?_⟩
  · rw [hshAdd_found hbad]
  · obtain ⟨e, he, hhash, hblks⟩ := hshAdd_entry hbad
    obtain ⟨e', he', hblk, -, -⟩ := ((hext₂.trans hext₃).trans hadds.tableExt) e he
    exact ⟨e', he', by rw [hblk, hhash], by rw [hblk, hblks, hshAdd_found hbad]⟩

/-! ## After the jumps are resolved -/

/-- What holds of a block of the top level after its jumps are resolved. -/
structure TopPlaced (host target : ArchEndian) (tbl : BpfHtbl) (b : BpfBlk)
    (rest : List BpfBlk) : Prop where
  refs : ∀ l ∈ b.targets, KnownHash tbl l ∧
    (InnerHash host target tbl l ∨ l ∈ rest.map BpfBlk.hash)
  straight : b.Straight
  length : b.blks.length ≤ 3

/-- A block that jumps at its end only has no jump to the next block left. -/
theorem BpfBlk.Straight.not_hasNxt {b : BpfBlk} (h : b.Straight) : ¬ b.HasNxt := by
  obtain ⟨init, last, hblks, hinit, hlast, -⟩ := h
  rintro ⟨i, hi, n, hn⟩
  rw [hblks, List.mem_append, List.mem_singleton] at hi
  rcases hi with hi | rfl
  · obtain ⟨hjt, hjf, -⟩ := hinit i hi
    rw [hjt, hjf] at hn
    rcases hn with hn | hn <;> cases hn
  · have hno : ∀ j ∈ [i.jt, i.jf], j ≠ .nxt n := by
      rintro j hj rfl
      rcases hlast _ hj with h | ⟨l, h⟩ <;> cases h
    rcases hn with hn | hn
    · exact hno i.jt (by simp) hn
    · exact hno i.jf (by simp) hn

/-- The check of a token, resolved. -/
theorem mapM_archBlk {arch : Arch} {first : UInt64} {skip : ℕ} {following : List BpfBlk}
    {blks : List BpfInstr}
    (h : (archBlk host arch first skip).blks.mapM (BpfInstr.resolveNxt following) = some blks) :
    ∃ c ∈ following, blks =
      [bpfJump host arch.endian BPF_JMP_JEQ (.hsh first) (.hsh c.hash) arch.tokenBpf] := by
  cases hc : following[skip]? with
  | none => simp [archBlk, bpfJump, BpfInstr.resolveNxt, resolveNxt, hc] at h
  | some c =>
    refine ⟨c, List.mem_of_getElem? hc, ?_⟩
    simp [archBlk, bpfJump, BpfInstr.resolveNxt, resolveNxt, hc] at h
    exact h.symm

/-- **Resolving the jumps keeps the references of the top level in order.** -/
theorem topPlaced_genBpfResolveNxt {tbl : BpfHtbl} {bad : BpfBlk} {action : UInt32}
    (hbad : bad.blks = (genBpfAction host target action).blks) (hknown : KnownHash tbl bad.hash)
    {blks bs : List BpfBlk} (h : TopRefs host target tbl blks)
    (hres : genBpfResolveNxt (blks ++ [bad]) = some bs) :
    bs.map BpfBlk.hash = (blks ++ [bad]).map BpfBlk.hash ∧
      Tailwise (TopPlaced host target tbl) bs ∧ bs.getLast? = some bad := by
  induction blks generalizing bs with
  | nil =>
    obtain rfl := Option.some.inj hres
    refine ⟨rfl, ⟨⟨fun l hl => ?_, ?_, ?_⟩, trivial⟩, rfl⟩
    · rw [BpfBlk.targets, hbad] at hl
      cases hl
    · exact straight_single hbad
    · rw [hbad]
      exact Nat.le_add_left 1 2
  | cons b rest ih =>
    rw [List.cons_append, genBpfResolveNxt_cons b (by simp)] at hres
    obtain ⟨blks', hblks', hres⟩ := Option.bind_eq_some_iff.mp hres
    obtain ⟨bs', hbs', rfl⟩ := Option.map_eq_some_iff.mp hres
    obtain ⟨hhash, hplaced, hlast⟩ := ih h.2 hbs'
    have hmem : ∀ l ∈ rest.map BpfBlk.hash, l ∈ bs'.map BpfBlk.hash := by
      intro l hl
      rw [hhash, List.map_append]
      exact List.mem_append_left _ hl
    have hrefs : ∀ l ∈ b.targets, KnownHash tbl l ∧
        (InnerHash host target tbl l ∨ l ∈ bs'.map BpfBlk.hash) := by
      intro l hl
      rcases h.1.refs l hl with hi | hl
      · exact ⟨hi.known, Or.inl hi⟩
      · exact ⟨TopRefs.known h.2 hl, Or.inr (hmem l hl)⟩
    refine ⟨by rw [List.cons_append, List.map_cons, List.map_cons, hhash], ⟨?_, hplaced⟩,
      by rw [List.getLast?_cons, hlast]; rfl⟩
    rcases h.1.form with hb | ⟨arch, first, skip, hb⟩
    · rw [mapM_resolveNxt hb.not_hasNxt] at hblks'
      obtain rfl := Option.some.inj hblks'
      exact ⟨hrefs, hb, h.1.length⟩
    · rw [hb] at hblks'
      obtain ⟨c, hc, rfl⟩ := mapM_archBlk hblks'
      refine ⟨fun l hl => ?_, ⟨[], _, rfl, (fun i hi => by cases hi), last_bpfJump _ _ _ _⟩,
        Nat.le_add_left 1 2⟩
      have hl' : l ∈ [first, c.hash] := hl
      rw [List.mem_cons, List.mem_singleton] at hl'
      rcases hl' with rfl | rfl
      · refine hrefs l ?_
        rw [BpfBlk.targets, hb]
        exact List.mem_cons_self
      · refine ⟨?_, Or.inr ?_⟩
        · rcases List.mem_append.mp hc with hc | hc
          · exact TopRefs.known h.2 (List.mem_map_of_mem hc)
          · rw [List.mem_singleton.mp hc]
            exact hknown
        · rw [hhash]
          exact List.mem_map_of_mem hc

end

end Draco
