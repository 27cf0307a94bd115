/-
# Collections whose tests load their own words

The check of the blocks (`genSafe`) speaks about what the compiler makes of a collection.
It holds for every collection in which no test relies on the word that another one has
loaded, and in which the first system call of a list has rules
(`DbFilterCol.Reloading`).  This is so wherever neighbouring tests of a level compare
different words, in particular for all collections with one rule for a system call.

The reason is that the state a block expects can then be read off its contents
(`startOf`): only the check of a number, after the first one, expects anything.
-/
import Draco.Compile

namespace Draco

open LabelledCode

/-! ## Collections -/

/-- The node loads a word of `struct seccomp_data`, whatever the node before it left. -/
def ChainNode.Reloads (n : ChainNode) (a : AccState) : Prop :=
  LoadValid n.argOffset ∧ a.Reload n

instance (n : ChainNode) (a : AccState) : Decidable (n.Reloads a) :=
  inferInstanceAs (Decidable (_ ∧ _))

/-- Every test of the tree loads its own word. -/
def DbSysList.Reloads (s : DbSysList) : Prop :=
  s.chains.Threaded ChainNode.Reloads (accStateOffset BPF_OFFSET_SYSCALL)

instance (s : DbSysList) : Decidable s.Reloads :=
  DbArgChainTree.decidableThreaded _ _ _

/-- The first entry by priority has rules. -/
def FirstValid (syscalls : List DbSysList) : Prop :=
  ∀ s ∈ (sortPriority syscalls).head?, s.valid = true

instance (syscalls : List DbSysList) : Decidable (FirstValid syscalls) :=
  inferInstanceAs (Decidable (∀ s ∈ (sortPriority syscalls).head?, s.valid = true))

/-- All tests load their own words, and a list of system calls without the check that tells
x86-64 from x32 starts with an entry that has rules. -/
structure DbFilterCol.Reloading (col : DbFilterCol) : Prop where
  reloads : ∀ f ∈ col.filters, ∀ s ∈ f.syscalls, s.valid = true → s.Reloads
  first : ∀ g ∈ col.groups, ¬ g.1.arch.NeedsAbiCheck g.2 →
    FirstValid (g.1.syscalls ++ g.2.elim [] DbFilterTree.syscalls)

instance (col : DbFilterCol) : Decidable col.Reloading :=
  decidable_of_iff (_ ∧ _) ⟨fun h => ⟨h.1, h.2⟩, fun h => ⟨h.1, h.2⟩⟩

theorem reload_accStateUndef (n : ChainNode) : accStateUndef.Reload n := Or.inl fun h => by cases h

theorem AccState.Reload.before_eq {a : AccState} {n : ChainNode} (h : a.Reload n) :
    a.before n = accStateUndef := if_pos h

/-- Where the first tests load their own words, it does not matter whether the check of the
number has loaded it. -/
theorem DbArgChainTree.Threaded.accReset {Q : ChainNode → AccState → Prop}
    (hQ : ∀ {n a}, Q n a → a.Reload n ∧ Q n accStateUndef) {tree : DbArgChainTree}
    (h : tree.Threaded Q (accStateOffset BPF_OFFSET_SYSCALL)) (accReset : Bool) :
    tree.Threaded Q (if accReset then accStateOffset BPF_OFFSET_SYSCALL else accStateUndef) := by
  cases accReset with
  | true => exact h
  | false =>
    show tree.Threaded Q accStateUndef
    cases tree with
    | null => trivial
    | node n nxtT nxtF lvlNxt =>
      obtain ⟨hn, hT, hF, hNxt⟩ := h
      rw [(hQ hn).1.before_eq] at hT hF
      refine ⟨(hQ hn).2, ?_, ?_, hNxt⟩
      · rwa [(reload_accStateUndef n).before_eq]
      · rwa [(reload_accStateUndef n).before_eq]

/-- Along the chains of an entry every node loads its own word. -/
theorem DbSysList.Reloads.threaded {s : DbSysList} (h : s.Reloads) (accReset : Bool) :
    s.chains.Threaded ChainNode.Reloads
      (if accReset then accStateOffset BPF_OFFSET_SYSCALL else accStateUndef) :=
  DbArgChainTree.Threaded.accReset (fun hn => ⟨hn.2, hn.1, reload_accStateUndef _⟩) h accReset

theorem DbSysList.Reloads.loads {s : DbSysList} (h : s.Reloads) : s.Loads :=
  (h.threaded false).imp fun _ _ hn => hn.1

theorem DbFilterCol.Reloading.loads {col : DbFilterCol} (h : col.Reloading) : col.Loads :=
  fun f hf s hs hv => (h.reloads f hf s hs hv).loads

/-! ## The state that a block expects -/

/-- The state that a block of such a collection expects: a single comparison is the check
of a number that some block before it has loaded. -/
def startOf (blks : List BpfInstr) : AccState :=
  match blks with
  | [⟨_, .hsh _, .hsh _, _⟩] => accStateOffset BPF_OFFSET_SYSCALL
  | _ => accStateUndef

/-- A block starts with nothing in the accumulator or with the number of the call. -/
theorem startOf_cases (blks : List BpfInstr) :
    startOf blks = accStateUndef ∨ startOf blks = accStateOffset BPF_OFFSET_SYSCALL := by
  unfold startOf
  split
  · exact Or.inr rfl
  · exact Or.inl rfl

/-- The block with the hash expects nothing. -/
def UndefStart (tbl : BpfHtbl) (l : UInt64) : Prop :=
  ∃ e ∈ tbl, e.blk.hash = l ∧ startOf e.blk.blks = accStateUndef

/-- A block that expects nothing does so in a larger table. -/
theorem UndefStart.mono {tbl tbl' : BpfHtbl} (hext : TableExt tbl tbl') {l : UInt64}
    (h : UndefStart tbl l) : UndefStart tbl' l := by
  obtain ⟨e, he, hhash, hstart⟩ := h
  obtain ⟨e', he', hblk, -, -⟩ := hext e he
  rw [← hblk] at hhash hstart
  exact ⟨e', he', hhash, hstart⟩

/-- A block expects what its contents say, and refers to blocks that expect nothing or
leaves the number of the call in the accumulator. -/
structure ReloadOk (tbl : BpfHtbl) (blk : BpfBlk) (_ : Bool) : Prop where
  start : blk.accStart = startOf blk.blks
  targets : blk.accEnd = accStateOffset BPF_OFFSET_SYSCALL ∧ ¬ blk.HasNxt ∨
    ∀ l ∈ blk.targets, UndefStart tbl l

section

variable {jhash : List BpfInstr → UInt32} {host target : ArchEndian} {d : BpfData}

/-- A block that expects nothing gets the hash of one that expects nothing. -/
theorem undefStart_hshAdd {tbl tbl' : BpfHtbl} {blk b : BpfBlk} {found : Bool}
    (h : hshAdd jhash tbl blk found = some (b, tbl')) (hstart : startOf blk.blks = accStateUndef) :
    UndefStart tbl' b.hash := by
  obtain ⟨e, he, hhash, hblks⟩ := hshAdd_entry h
  exact ⟨e, he, hhash, by rw [hblks, hstart]⟩

/-- The block of a node that reloads expects nothing. -/
theorem startOf_nodeBlk {n : ChainNode} {a : AccState} (h : a.Reload n) (op : UInt16)
    (jt jf : UInt64) : startOf (nodeBlk host target n a op jt jf).blks = accStateUndef := by
  rw [nodeBlk, genBpfLoad, if_pos h, if_pos h]
  split_ifs <;> rfl

theorem targets_nodeBlk (n : ChainNode) (a : AccState) (op : UInt16) (jt jf : UInt64) :
    (nodeBlk host target n a op jt jf).targets = [jt, jf] := by
  unfold nodeBlk genBpfLoad BpfBlk.targets
  split_ifs <;> rfl

/-- The trees of such a collection are fine. -/
theorem syscallRule_reloading (jhash : List BpfInstr → UInt32) (host target : ArchEndian)
    (d : BpfData) :
    SyscallRule jhash host target d ChainNode.Reloads ReloadOk (fun tbl l _ => UndefStart tbl l)
      (fun _ _ _ => True) (fun _ _ => True) where
  mono := fun hext h => h.mono hext
  action := fun hadd => ⟨⟨rfl, Or.inr fun l hl => by cases hl⟩, undefStart_hshAdd hadd rfl⟩
  node := by
    intro tbl tbl' n a op jt jf rT rF b hn _ hT hF hadd
    have hstart : startOf (nodeBlk host target n a op jt jf).blks = accStateUndef :=
      startOf_nodeBlk hn.2 op jt jf
    refine ⟨⟨hn.2.before_eq.trans hstart.symm, Or.inr fun l hl => ?_⟩,
      undefStart_hshAdd hadd hstart⟩
    rw [targets_nodeBlk, List.mem_cons, List.mem_singleton] at hl
    rcases hl with rfl | rfl
    · exact hT
    · exact hF
  monoZ := fun _ _ => trivial
  monoTop := fun _ _ => trivial
  syscall := by
    intro tbl tbl' accReset num chain nxtHash rC rN b _ _ hadd
    refine ⟨⟨?_, Or.inl ⟨rfl, not_hasNxt_syscallBlk accReset num chain nxtHash⟩⟩, trivial,
      trivial⟩
    cases accReset <;> rfl

/-- The first block of a list that loads the number itself. -/
theorem undefStart_headHash {tbl tbl' : BpfHtbl} {defHsh : UInt64} {syscalls : List DbSysList}
    {blks : List BpfBlk} (hfirst : ∀ s ∈ syscalls.head?, s.valid = true)
    (hdef : UndefStart tbl defHsh)
    (h : genBpfSyscalls jhash host target tbl defHsh true syscalls = some (blks, tbl')) :
    UndefStart tbl' (headHash defHsh blks) := by
  cases syscalls with
  | nil =>
    obtain ⟨rfl, rfl⟩ := Prod.mk.inj (Option.some.inj h)
    exact hdef
  | cons s rest =>
    obtain ⟨blks₁, tbl₁, -, ⟨hs, -⟩ | ⟨-, b, rfl, hb⟩⟩ := genBpfSyscalls_cases h
    · exact (hs (hfirst s rfl)).elim
    · obtain ⟨chain, tbl₂, -, hadd⟩ := genBpfSyscall_cases hb
      exact undefStart_hshAdd hadd rfl

/-- `_gen_bpf_arch` adds blocks that declare what their instructions expect. -/
theorem genBpfArch_reloading {tbl tbl' : BpfHtbl} {badArchHsh defHsh : UInt64} {db : DbFilterTree}
    {secondary : Option DbFilterTree} {blks : List BpfBlk}
    (hreload : ∀ s ∈ db.syscalls ++ secondary.elim [] DbFilterTree.syscalls,
      s.valid = true → s.Reloads)
    (hfirst : ¬ db.arch.NeedsAbiCheck secondary →
      FirstValid (db.syscalls ++ secondary.elim [] DbFilterTree.syscalls))
    (hdef : UndefStart tbl defHsh)
    (h : genBpfArch jhash host tbl badArchHsh defHsh db secondary = some (blks, tbl')) :
    Adds jhash ReloadOk tbl tbl' := by
  obtain ⟨blks₁, tbl₁, blks₂, tbl₂, b, hsys, habi, hadd, rfl⟩ := genBpfArch_cases h
  have hperm := perm_sortPriority (db.syscalls ++ secondary.elim [] DbFilterTree.syscalls)
  obtain ⟨hadds₁, -, -⟩ :=
    (syscallRule_reloading jhash host db.arch.endian ⟨0, 0, 0, fun _ => 0⟩).genBpfSyscalls (r := 0)
      (fun s hs hv accReset => (hreload s (hperm.mem_iff.mp hs) hv).threaded accReset) hsys hdef
      trivial
  suffices h₂ : Adds jhash ReloadOk tbl₁ tbl₂ ∧ UndefStart tbl₂ (headHash defHsh blks₂) by
    refine (hadds₁.trans h₂.1).trans (Adds.single ⟨rfl, Or.inr fun l hl => ?_⟩ hadd)
    rw [show (archBlk host db.arch (headHash defHsh blks₂) blks₂.length).targets =
      [headHash defHsh blks₂] from rfl, List.mem_singleton] at hl
    rw [hl]
    exact h₂.2
  rcases habi with ⟨-, c, rfl, hc⟩ | ⟨hneed, rfl, rfl⟩
  · have hstart : startOf (abiBlk host db.arch badArchHsh (headHash defHsh blks₁)).blks =
        accStateUndef := rfl
    exact ⟨Adds.single ⟨hstart.symm, Or.inl ⟨rfl, not_hasNxt_abiBlk _ _ _⟩⟩ hc,
      undefStart_hshAdd hc hstart⟩
  · rw [decide_eq_false hneed] at hsys
    exact ⟨Adds.refl, undefStart_headHash (hfirst hneed) hdef hsys⟩

/-- So do all the groups of a collection. -/
theorem genBpfGroups_reloading {groups : List (DbFilterTree × Option DbFilterTree)}
    (hreload : ∀ g ∈ groups, ∀ s ∈ g.1.syscalls ++ g.2.elim [] DbFilterTree.syscalls,
      s.valid = true → s.Reloads)
    (hfirst : ∀ g ∈ groups, ¬ g.1.arch.NeedsAbiCheck g.2 →
      FirstValid (g.1.syscalls ++ g.2.elim [] DbFilterTree.syscalls))
    {badArchHsh defHsh : UInt64} {tbl tbl' : BpfHtbl} {blks : List BpfBlk}
    (hdef : UndefStart tbl defHsh)
    (h : genBpfGroups jhash host badArchHsh defHsh groups tbl = some (blks, tbl')) :
    Adds jhash ReloadOk tbl tbl' := by
  induction groups generalizing tbl blks with
  | nil =>
    obtain ⟨rfl, rfl⟩ := Prod.mk.inj (Option.some.inj h)
    exact Adds.refl
  | cons g rest ih =>
    obtain ⟨db, secondary⟩ := g
    simp only [genBpfGroups, Option.bind_eq_bind, Option.bind_eq_some_iff] at h
    obtain ⟨⟨blks₁, tbl₁⟩, harch, ⟨blks₂, tbl₂⟩, hrest, h⟩ := h
    obtain ⟨rfl, rfl⟩ := Prod.mk.inj (Option.some.inj h)
    have hcons : ∀ g ∈ rest, g ∈ (db, secondary) :: rest :=
      fun g hg => List.mem_cons_of_mem (db, secondary) hg
    have hadds := genBpfArch_reloading (hreload _ List.mem_cons_self)
      (hfirst _ List.mem_cons_self) hdef harch
    exact hadds.trans (ih (fun g hg => hreload g (hcons g hg)) (fun g hg => hfirst g (hcons g hg))
      (hdef.mono hadds.tableExt) hrest)

theorem DbFilterCol.Reloading.group {col : DbFilterCol} (hcol : col.WellFormed)
    (h : col.Reloading) {g : DbFilterTree × Option DbFilterTree} (hg : g ∈ col.groups) :
    ∀ s ∈ g.1.syscalls ++ g.2.elim [] DbFilterTree.syscalls, s.valid = true → s.Reloads := by
  intro s hs
  obtain ⟨f, hf, hsf⟩ := DbFilterCol.exists_of_mem_group hcol hg hs
  exact h.reloads f hf s hsf

/-- Every block of the table is fine. -/
theorem genBpfBlocks_reloading {col : DbFilterCol} (hcol : col.WellFormed) (h : col.Reloading)
    {top : List BpfBlk} {tbl : BpfHtbl} (htop : genBpfBlocks jhash host col = some (top, tbl)) :
    Adds jhash ReloadOk [] tbl := by
  obtain ⟨badarch, tbl₁, default, tbl₂, head, tbl₃, blks, hbad, hdef, hhead, hblks, rfl⟩ :=
    genBpfBlocks_cases htop
  have hact : ∀ (tbl : BpfHtbl) (action : UInt32) (found : Bool),
      ReloadOk tbl (genBpfAction host col.endian action) found :=
    fun tbl action found => ⟨rfl, Or.inr fun l hl => by cases hl⟩
  have hdefStart : UndefStart tbl₃ default.hash :=
    (undefStart_hshAdd hdef rfl).mono (tableExt_hshAdd hhead)
  have hload : ReloadOk tbl₂ (loadArchBlk host col.endian) true :=
    ⟨rfl, Or.inr fun l hl => by cases hl⟩
  exact (((Adds.single (hact _ _ _) hbad).trans (Adds.single (hact _ _ _) hdef)).trans
    (Adds.single hload hhead)).trans (genBpfGroups_reloading (fun g hg => h.group hcol hg)
      (fun g hg => h.first g hg) hdefStart hblks)

/-! ## The check succeeds -/

/-- Duplicates have the contents of their entry, so they expect the same. -/
theorem sameStart_of_reloadOk {tbl : BpfHtbl} (htbl : TableOk tbl)
    (hok : ∀ e ∈ tbl, ReloadOk tbl e.blk e.found ∧ ∀ b ∈ e.dups, ∃ found, ReloadOk tbl b found) :
    SameStart tbl := by
  intro e he b hb
  obtain ⟨found, hbok⟩ := (hok e he).2 b hb
  rw [hbok.start, (hok e he).1.start, (htbl.dups e he b hb).2]

/-- A block that expects the number of the call is not one that expects nothing. -/
theorem not_undefStart {tbl : BpfHtbl} (htbl : TableOk tbl) {e : BpfHashBkt} (he : e ∈ tbl)
    (hstart : startOf e.blk.blks = accStateOffset BPF_OFFSET_SYSCALL) :
    ¬ UndefStart tbl e.blk.hash := by
  rintro ⟨e', he', hhash, hundef⟩
  rw [htbl.eq_of_hash he' he hhash, hstart] at hundef
  cases hundef

/-- The checks of the tokens go to blocks that expect nothing. -/
theorem TopResolved.undefStart {tbl : BpfHtbl} (hsame : SameStart tbl)
    (hok : ∀ e ∈ tbl, ReloadOk tbl e.blk e.found) {archs : List Arch} {bs : List BpfBlk}
    {r : UInt32} (h : TopResolved host target d tbl archs bs r) :
    (∀ b ∈ bs.head?, UndefStart tbl b.hash) ∧ ∀ b ∈ bs, TopBlk host target d tbl b ∨
      b.accStart = accStateUndef ∧ ∀ l ∈ b.targets, UndefStart tbl l := by
  induction h with
  | @bad b r htop hblks _ =>
    refine ⟨fun c hc => ?_, fun c hc => ?_⟩
    · obtain rfl := Option.some.inj hc
      obtain ⟨e, he, hhash, heb, -⟩ := htop.stored hsame
      exact ⟨e, he, hhash, by rw [heb, hblks]; rfl⟩
    · rw [List.mem_singleton.mp hc]
      exact Or.inl htop
  | @group arch archs b next first inner rest r rRest harch _ hinner _ ih =>
    obtain ⟨e, he, hhash, -, skip, hblks⟩ := harch.stored
    refine ⟨fun c hc => ?_, fun c hc => ?_⟩
    · obtain rfl := Option.some.inj hc
      exact ⟨e, he, hhash, by rw [hblks]; rfl⟩
    · rcases List.mem_append.mp hc with hc | hc
      · rcases List.mem_cons.mp hc with rfl | hc
        · refine Or.inr ⟨harch.accStart, fun l hl => ?_⟩
          rw [show c.targets = [first, next.hash] by rw [BpfBlk.targets, harch.blks]; rfl,
            List.mem_cons, List.mem_singleton] at hl
          rcases hl with rfl | rfl
          · -- the entry of the check refers to the same block
            rcases (hok e he).targets with ⟨-, hnxt⟩ | htargets
            · refine (hnxt ⟨bpfJump host arch.endian BPF_JMP_JEQ (.hsh l) (.nxt skip)
                arch.tokenBpf, ?_, skip, Or.inr rfl⟩).elim
              rw [hblks]
              exact List.mem_cons_self
            · refine htargets l ?_
              rw [BpfBlk.targets, hblks]
              exact List.mem_cons_self
          · exact ih.1 next rfl
        · exact Or.inl (hinner c hc)
      · exact ih.2 c hc

/-- A reload adds no targets. -/
theorem targets_reloadBlk {accEnd : AccState} {b : BpfBlk} {l : UInt64}
    (h : l ∈ (reloadBlk host target accEnd b).targets) : l ∈ b.targets := by
  unfold reloadBlk at h
  cases ho : b.accStart.offset with
  | none =>
    rw [ho] at h
    exact h
  | some offset =>
    simp only [ho] at h
    split at h
    · exact h
    · rw [BpfBlk.targets, List.reverse_append, List.flatMap_append, List.mem_append] at h
      rcases h with h | h
      · exact h
      · split at h <;> cases h

theorem accEnd_reloadBlk (accEnd : AccState) (b : BpfBlk) :
    (reloadBlk host target accEnd b).accEnd = b.accEnd := by
  unfold reloadBlk
  cases b.accStart.offset with
  | none => rfl
  | some offset => dsimp only; split <;> rfl

/-- A block that was placed as it is or with a reload. -/
theorem accStart_reloadBlk (host target : ArchEndian) (accEnd : AccState) (b : BpfBlk) :
    (reloadBlk host target accEnd b).accStart = b.accStart ∨
      (reloadBlk host target accEnd b).accStart = accStateUndef := by
  unfold reloadBlk
  cases b.accStart.offset with
  | none => exact Or.inl rfl
  | some offset =>
    dsimp only
    split
    · exact Or.inl rfl
    · exact Or.inr rfl

/-- **The blocks agree on the accumulator.** -/
theorem accSafe_genBpfPull {tbl : BpfHtbl} (htbl : TableOk tbl) (hsame : SameStart tbl)
    (hok : ∀ e ∈ tbl, ReloadOk tbl e.blk e.found) {archs : List Arch} {bs : List BpfBlk}
    {r : UInt32} (h : TopResolved host target d tbl archs bs r) :
    AccSafe (genBpfPull host target bs tbl) := by
  obtain ⟨-, htop⟩ := h.undefStart hsame hok
  intro b hb c hc hcb ho
  -- a block that expects something checks a number
  have hc' : c.accStart = accStateOffset BPF_OFFSET_SYSCALL ∧ ¬ UndefStart tbl c.hash := by
    have hentry : ∀ e ∈ tbl, e.blk.hash = c.hash → e.blk.accStart = c.accStart →
        c.accStart = accStateOffset BPF_OFFSET_SYSCALL ∧ ¬ UndefStart tbl c.hash := by
      intro e he hhash hstart
      have hs := (hok e he).start
      rcases startOf_cases e.blk.blks with hu | hu
      · rw [← hstart, hs, hu] at ho
        exact (ho rfl).elim
      · rw [← hhash, ← hstart]
        exact ⟨hs.trans hu, not_undefStart htbl he hu⟩
    rcases mem_genBpfPull hc with hc | ⟨e, he, -, accEnd, rfl⟩
    · rcases htop c hc with hct | ⟨hu, -⟩
      · obtain ⟨e, he, hhash, -, hstart⟩ := hct.stored hsame
        exact hentry e he hhash hstart
      · rw [hu] at ho
        exact (ho rfl).elim
    · rcases accStart_reloadBlk host target accEnd e.blk with hs | hs
      · exact hentry e he (hash_reloadBlk accEnd e.blk).symm hs.symm
      · rw [hs] at ho
        exact (ho rfl).elim
  rw [hc'.1]
  rcases mem_genBpfPull hb with hb | ⟨e, he, -, accEnd, rfl⟩
  · rcases htop b hb with hbt | ⟨-, htargets⟩
    · rcases hbt.leaves with hend | hnil
      · exact hend
      · rw [hnil] at hcb
        cases hcb
    · exact (hc'.2 (htargets c.hash hcb)).elim
  · rw [accEnd_reloadBlk]
    rcases (hok e he).targets with ⟨hend, -⟩ | htargets
    · exact hend
    · exact (hc'.2 (htargets c.hash (targets_reloadBlk hcb))).elim

/-- Duplicates expect the same. -/
theorem sameStart_genBpfBlocks {col : DbFilterCol} (hcol : col.WellFormed) (h : col.Reloading)
    {top : List BpfBlk} {tbl : BpfHtbl} (htop : genBpfBlocks jhash host col = some (top, tbl)) :
    TableOk tbl ∧ SameStart tbl ∧ ∀ e ∈ tbl, ReloadOk tbl e.blk e.found := by
  have hadds := genBpfBlocks_reloading hcol h htop
  have htbl := tableOk_nil.adds hadds
  have hok := forall_blk_of_adds (fun h _ => ⟨h.start, h.targets⟩)
    (fun hext h => ⟨h.start, h.targets.imp_right fun ht l hl => (ht l hl).mono hext⟩) hadds
  exact ⟨htbl, sameStart_of_reloadOk htbl hok, fun e he => (hok e he).1⟩

/-- **The check succeeds** on every collection whose tests load their own words. -/
theorem genSafe_of_reloading {col : DbFilterCol} (hcol : col.WellFormed) (h : col.Reloading) :
    genSafe jhash host col = true := by
  rw [genSafe, Option.all_eq_true]
  intro p hp
  rw [decide_eq_true_eq]
  simp only [genBpfPlaced, Option.bind_eq_bind, Option.bind_eq_some_iff] at hp
  obtain ⟨⟨top, tbl⟩, htop, top', htop', hp⟩ := hp
  obtain rfl := Option.some.inj hp
  obtain ⟨-, hVal, rest, rfl, hmeans⟩ := genBpfBlocks_means hcol h.loads htop
    ⟨0, 0, 0, fun _ => 0⟩
  obtain ⟨htbl, hsame, hok⟩ := sameStart_genBpfBlocks hcol h htop
  obtain ⟨b, b', rest₁, rest₂, rfl, hres, -, htopRes⟩ := (hmeans hsame).resolve
  have htop'' : top' = { loadArchBlk host col.endian with hash := hVal } :: b' :: rest₂ := by
    rw [genBpfResolveNxt_cons _ (by simp), hres] at htop'
    exact (Option.some.inj htop').symm
  subst htop''
  refine ⟨hsame, ?_⟩
  rw [genBpfPull_cons rfl]
  have hsafe := accSafe_genBpfPull htbl hsame hok htopRes
  -- the load of the architecture neither jumps nor expects anything
  rintro x hx y hy hyx ho
  rcases List.mem_cons.mp hx with rfl | hx
  · cases hyx
  · rcases List.mem_cons.mp hy with rfl | hy
    · exact (ho rfl).elim
    · exact hsafe x hx y hy hyx ho

end

end Draco
