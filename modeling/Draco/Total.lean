/-
# The compiler succeeds

Every collection that the database can make, with tests that load the words of arguments,
is compiled: the hash table does not overflow, all blocks are placed down the list, every
jump comes into reach, and the program has at most seven instructions for each addition to
the table.  The program gives the action of the collection on every call
(`genBpfGenerate_total`).
-/
import Draco.ForwardOrder

namespace Draco

open LabelledCode

/-- The test compares the word of an argument, which it loads itself, by an operator of
the machine. -/
def ChainNode.Generated (n : ChainNode) (a : AccState) : Prop :=
  n.Reloads a ∧ 16 ≤ n.argOffset ∧ (genBpfOp n.op).isSome = true

instance (n : ChainNode) (a : AccState) : Decidable (n.Generated a) :=
  inferInstanceAs (Decidable (_ ∧ _ ∧ _))

/-- There is a filter, all tests load the words of arguments, a list of system calls
without the check that tells x86-64 from x32 starts with an entry that has rules, and the
program fits the counter of its instructions. -/
structure DbFilterCol.Compilable (col : DbFilterCol) : Prop where
  nonempty : col.filters ≠ []
  tests : ∀ f ∈ col.filters, ∀ s ∈ f.syscalls, s.valid = true →
    s.chains.Threaded ChainNode.Generated (accStateOffset BPF_OFFSET_SYSCALL)
  first : ∀ g ∈ col.groups, ¬ g.1.arch.NeedsAbiCheck g.2 →
    FirstValid (g.1.syscalls ++ g.2.elim [] DbFilterTree.syscalls)
  size : 7 * col.additions < 2 ^ 16

instance (col : DbFilterCol) : Decidable col.Compilable :=
  have : Decidable (∀ f ∈ col.filters, ∀ s ∈ f.syscalls, s.valid = true →
      s.chains.Threaded ChainNode.Generated (accStateOffset BPF_OFFSET_SYSCALL)) := inferInstance
  decidable_of_iff (_ ∧ _ ∧ _ ∧ _) ⟨fun h => ⟨h.1, h.2.1, h.2.2.1, h.2.2.2⟩,
    fun h => ⟨h.1, h.2, h.3, h.4⟩⟩

variable {col : DbFilterCol} {jhash : List BpfInstr → UInt32} {host : ArchEndian}

theorem DbFilterCol.Compilable.reloading (h : col.Compilable) : col.Reloading :=
  ⟨fun f hf s hs hv => (h.tests f hf s hs hv).imp fun _ _ hn => hn.1, h.first⟩

theorem DbFilterCol.Compilable.loadsArgs (h : col.Compilable) : col.LoadsArgs := by
  intro f hf s hs hv accReset
  refine DbArgChainTree.Threaded.imp (fun n a hn => ⟨hn.2.1, hn.1.2⟩)
    (DbArgChainTree.Threaded.accReset (fun hn => ?_) (h.tests f hf s hs hv) accReset)
  exact ⟨hn.1.2, ⟨hn.1.1, reload_accStateUndef _⟩, hn.2⟩

/-- The words of `struct seccomp_data` are not far from its start. -/
theorem LoadValid.le {k : UInt32} (h : LoadValid k) : k ≤ 0x7fffffff := by
  have hlt : k.toNat < 64 := UInt32.lt_iff_toNat_lt.mp h.1
  rw [UInt32.le_iff_toNat_le]
  exact hlt.le.trans (by decide)

theorem DbFilterCol.Compilable.testable (h : col.Compilable) : col.Testable := by
  intro f hf s hs hv
  have htest : s.chains.Threaded (fun n _ => n.Testable) (accStateOffset BPF_OFFSET_SYSCALL) :=
    (h.tests f hf s hs hv).imp fun n _ hn => ⟨hn.1.1.le, hn.2.2⟩
  exact htest.state accStateUndef

/-! ## The table of a collection -/

/-- The table that is made for a collection is ordered, and its only inner block of the list
is the action for bad architectures. -/
theorem tableOrdered_of_adds {actBad : UInt32} {target : ArchEndian} {tbl : BpfHtbl}
    (hadds : Adds jhash (OrderOk host target actBad) [] tbl) {z : UInt64}
    (hz : ∃ e ∈ tbl, e.blk.hash = z ∧ e.blk.blks = (genBpfAction host target actBad).blks) :
    TableOrdered host target tbl z := by
  have hok : ∀ e ∈ tbl, OrderOk host target actBad tbl e.blk e.found := fun e he =>
    (forall_blk_of_adds (fun h _ => ⟨h.known, h.inner, h.pulled, h.listed⟩)
      (fun hext h => h.mono hext) hadds e he).1
  refine ⟨tableOk_nil.adds hadds, pos_lt_of_adds (fun h => h.known) hadds,
    fun e he => (hok e he).inner, fun e he => (hok e he).pulled, fun e he hfound hinner => ?_⟩
  obtain ⟨e', he', rfl, hblks⟩ := hz
  have hsame : e.blk.blks = e'.blk.blks := by rw [(hok e he).listed hfound hinner, hblks]
  rw [eq_of_blks hadds he he' hsame]

/-- The top level behind the load of the architecture: after its jumps are resolved, every
block of it refers to inner blocks and to blocks further down, and the last one is the
action for bad architectures. -/
theorem exists_resolved (hcol : col.WellFormed) (h : col.Compilable) {top : List BpfBlk}
    {tbl : BpfHtbl} (htop : genBpfBlocks jhash host col = some (top, tbl)) :
    ∃ hVal bs z, genBpfResolveNxt top =
        some ({ loadArchBlk host col.endian with hash := hVal } :: bs) ∧
      bs.length + 1 = top.length ∧ TableOrdered host col.endian tbl z ∧
      Tailwise (TopPlaced host col.endian tbl) bs ∧ (∀ b ∈ bs.getLast?, b.hash = z) ∧
      ∀ b ∈ bs.getLast?, b.targets = [] := by
  obtain ⟨-, hVal, rest, rfl, hmeans⟩ := genBpfBlocks_means hcol h.reloading.loads htop
    ⟨0, 0, 0, fun _ => 0⟩
  obtain ⟨-, hsame, -⟩ := sameStart_genBpfBlocks hcol h.reloading htop
  obtain ⟨hadds, head, blks, bad, htop', htopRefs, hbad, e, he, hhash, hblks⟩ :=
    genBpfBlocks_order hcol h.loadsArgs htop
  obtain ⟨-, rfl⟩ := List.cons.inj htop'
  obtain ⟨b, b', rest₁, rest₂, hrest, hres, -, -⟩ := (hmeans hsame).resolve
  obtain ⟨hmap, hplaced, hlast⟩ := topPlaced_genBpfResolveNxt hbad ⟨e, he, hhash⟩ htopRefs hres
  refine ⟨hVal, b' :: rest₂, bad.hash, ?_, ?_, tableOrdered_of_adds hadds ⟨e, he, hhash, ?_⟩,
    hplaced, fun c hc => ?_, fun c hc => ?_⟩
  · rw [genBpfResolveNxt_cons _ (by simp), hres]
    rfl
  · have hlen := congrArg List.length hmap
    rw [List.length_map, List.length_map] at hlen
    rw [hlen, List.length_cons]
  · rw [hblks, hbad]
  · obtain rfl : bad = c := Option.some.inj (hlast.symm.trans hc)
    rfl
  · obtain rfl : bad = c := Option.some.inj (hlast.symm.trans hc)
    rw [BpfBlk.targets, hbad]
    rfl

/-! ## The whole compilation -/

/-- The blocks are placed, jump at their end and refer to blocks further down. -/
theorem exists_genBpfPlaced (jhash : List BpfInstr → UInt32) (host : ArchEndian)
    (hcol : col.WellFormed) (h : col.Compilable) :
    ∃ placed tbl, genBpfPlaced jhash host col = some (placed, tbl) ∧ ForwardRefs placed ∧
      (∀ b ∈ placed, b.Straight ∧ b.blks.length ≤ 5) ∧ placed.length ≤ col.additions := by
  have hsize : col.additions ≤ 2 ^ 32 := by
    have := h.size
    omega
  obtain ⟨top, tbl, htop, hlen⟩ := exists_genBpfBlocks jhash host hcol h.nonempty h.testable
    hsize
  obtain ⟨hVal, bs, z, hres, htopLen, htbl, hplaced, hz, hlast⟩ := exists_resolved hcol h htop
  obtain ⟨hfwd, hle⟩ := forwardRefs_genBpfPull htbl hplaced hz hlast
  have hstraight := straight_genBpfPull htbl hplaced
  have hload : (loadArchBlk host col.endian).targets = [] := rfl
  refine ⟨{ loadArchBlk host col.endian with hash := hVal } :: genBpfPull host col.endian bs tbl,
    tbl, ?_, ⟨fun l hl => ?_, hfwd⟩, fun b hb => ?_, ?_⟩
  · rw [genBpfPlaced, htop]
    show (genBpfResolveNxt top).bind _ = _
    rw [hres, ← genBpfPull_cons rfl]
    rfl
  · cases hload ▸ hl
  · rcases List.mem_cons.mp hb with rfl | hb
    · exact ⟨straight_single rfl, Nat.le_add_left 1 4⟩
    · exact hstraight b hb
  · rw [List.length_cons]
    omega

/-- Blocks of at most five instructions. -/
theorem instrCnt_le {bs : List BpfBlk} (h : ∀ b ∈ bs, b.blks.length ≤ 5) :
    instrCnt bs ≤ 5 * bs.length := by
  induction bs with
  | nil => exact Nat.le_refl 0
  | cons b bs ih =>
    have hb := h b List.mem_cons_self
    have hbs := ih fun c hc => h c (List.mem_cons_of_mem b hc)
    rw [instrCnt_cons, List.length_cons]
    omega

/-- **Compilation succeeds.**  The program has at most seven instructions for each addition
to the hash table. -/
theorem exists_genBpfGenerate (jhash : List BpfInstr → UInt32) (host : ArchEndian)
    (hcol : col.WellFormed) (h : col.Compilable) :
    ∃ prg, genBpfGenerate jhash host col = some prg ∧ prg.length ≤ 7 * col.additions := by
  obtain ⟨placed, tbl, hplaced, hfwd, hblks, hlen⟩ := exists_genBpfPlaced jhash host hcol h
  obtain ⟨bs', prg, hlong, hprg, hcnt⟩ := genBpfLongJumps_resolve host col.endian
    (fun b hb => (hblks b hb).1) hfwd
  refine ⟨prg, ?_, ?_⟩
  · rw [genBpfGenerate_eq, hplaced, Option.bind_some, hlong, Option.bind_some, hprg]
  · have hfive := instrCnt_le fun b hb => (hblks b hb).2
    rw [length_genBpfResolve hprg]
    omega

/-- What the program gives, for tests that load their own words. -/
theorem bpfExecute_of_reloading (hcol : col.WellFormed) (h : col.Reloading)
    (hhost : host = col.endian) {prg : List BpfInstrRaw}
    (hprg : genBpfGenerate jhash host col = some prg) (hsize : prg.length < 2 ^ 32) (d : BpfData) :
    bpfExecute host col.endian prg d = some (col.verdict d) := by
  have hgen := hprg
  rw [genBpfGenerate_eq] at hgen
  obtain ⟨⟨placed, tbl⟩, hplaced, -⟩ := Option.bind_eq_some_iff.mp hgen
  have hsafe : genSafe jhash host col = true := genSafe_of_reloading hcol h
  rw [genSafe, hplaced, Option.all_some, decide_eq_true_eq] at hsafe
  exact bpfExecute_of_placed hcol h.loads hplaced hsafe.1 hsafe.2 hhost hprg hsize d

/-- **Compilation succeeds and keeps the meaning.**  A collection that the database can make,
with tests that load the words of arguments, is compiled, whatever the hash function is; the
program has at most seven instructions for each addition to the hash table, and on every
call it gives the action of the collection. -/
theorem genBpfGenerate_total (jhash : List BpfInstr → UInt32) (hcol : col.WellFormed)
    (h : col.Compilable) (hhost : host = col.endian) :
    ∃ prg, genBpfGenerate jhash host col = some prg ∧ prg.length ≤ 7 * col.additions ∧
      ∀ d, bpfExecute host col.endian prg d = some (col.verdict d) := by
  obtain ⟨prg, hprg, hle⟩ := exists_genBpfGenerate jhash host hcol h
  have hsize : prg.length < 2 ^ 32 := by
    have := h.size
    omega
  exact ⟨prg, hprg, hle, bpfExecute_of_reloading hcol h.reloading hhost hprg hsize⟩

/-- `socket(AF_UNIX, …)` and `personality(0)` on x86-64 and x32, and everything on x86. -/
def socketCol : DbFilterCol :=
  let eq (datum : UInt64) : Fin 6 → DbApiArg := fun i =>
    if i.val = 0 then ⟨.eq, DATUM_MAX, datum, true⟩ else DbApiArg.zero
  ⟨0x00050001, 0, .little,
    [⟨.x86, []⟩, ⟨.x86_64, [dbRuleGen64 .little 0x7fff0000 41 (eq 1),
      dbRuleGen64 .little 0x7fff0000 135 (eq 0)]⟩, ⟨.x32, []⟩]⟩

theorem genBpfGenerate_socket :
    ∃ prg, genBpfGenerate (fun blks => UInt32.ofNat blks.length) .little socketCol = some prg ∧
      prg.length ≤ 7 * socketCol.additions ∧
      ∀ d, bpfExecute .little .little prg d = some (socketCol.verdict d) :=
  genBpfGenerate_total (fun blks => UInt32.ofNat blks.length) (by decide)
    (by decide) rfl

end Draco
