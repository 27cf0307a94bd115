/-
# The compiler keeps the meaning of a collection

A program that `gen_bpf_generate` returns gives, on every call, the action that the
collection says: the action of the matching entry for the number of the call, the default
if there is none, and the action for bad architectures if no filter is for the token
(`bpfExecute_genBpfGenerate`).

This holds under a condition that can be checked on the blocks (`genSafe`): blocks that
are stored as one expect the same in the accumulator, and a block that expects a word is
referred to only from blocks that leave it.  The compiler does not check this, and where it
fails the program may decide by the wrong argument (`bpfExecute_genBpfGenerate_unsafe`).
-/
import Draco.Placement
import Draco.LongJumps

namespace Draco

open LabelledCode

/-! ## The check -/

/-- The blocks in their order, before long jumps are inserted, and the hash table. -/
def genBpfPlaced (jhash : List BpfInstr → UInt32) (host : ArchEndian) (col : DbFilterCol) :
    Option (List BpfBlk × BpfHtbl) := do
  let (top, tbl) ← genBpfBlocks jhash host col
  let top ← genBpfResolveNxt top
  some (genBpfPull host col.endian top tbl, tbl)

/-- Duplicates agree on the accumulator, and so do the blocks of the list with those that
refer to them. -/
def genSafe (jhash : List BpfInstr → UInt32) (host : ArchEndian) (col : DbFilterCol) : Bool :=
  (genBpfPlaced jhash host col).all fun p => SameStart p.2 ∧ AccSafe p.1

/-- The compiler places the blocks, brings their jumps into range and resolves them. -/
theorem genBpfGenerate_eq (jhash : List BpfInstr → UInt32) (host : ArchEndian)
    (col : DbFilterCol) :
    genBpfGenerate jhash host col = (genBpfPlaced jhash host col).bind fun p =>
      (genBpfLongJumps host col.endian p.1.reverse []).bind (genBpfResolve host col.endian) := by
  unfold genBpfGenerate genBpfPlaced
  cases genBpfBlocks jhash host col with
  | none => rfl
  | some p =>
    show (genBpfResolveNxt p.1).bind _ = ((genBpfResolveNxt p.1).bind _).bind _
    cases genBpfResolveNxt p.1 <;> rfl

variable {host target : ArchEndian} {d : BpfData}

/-! ## The first blocks -/

/-- Nothing is inserted behind the load of the architecture. -/
theorem genBpfLongJumps_loadArch {hVal : UInt64} {bs bs' : List BpfBlk}
    (h : genBpfLongJumps host target
      ({ loadArchBlk host target with hash := hVal } :: bs).reverse [] = some bs') :
    ∃ post, genBpfLongJumps host target bs.reverse [] = some post ∧
      bs' = { loadArchBlk host target with hash := hVal } :: post := by
  rw [List.reverse_cons, genBpfLongJumps_append] at h
  obtain ⟨post, hpost, h⟩ := Option.bind_eq_some_iff.mp h
  exact ⟨post, hpost, (Option.some.inj h).symm⟩

/-- **The program of a placed list.**  Started at the first check of a token, it comes to the
action of the top level. -/
theorem exec_of_placed (hhost : host = target) {tbl : BpfHtbl} (htbl : TableOk tbl)
    {b : BpfBlk} {bs bs' : List BpfBlk} (hbs : Placed host target d tbl (b :: bs))
    (hsafe : AccSafe (b :: bs)) {arch : Arch} {first next : UInt64}
    (harch : ArchResolved host target tbl arch first next b) {r : UInt32}
    (hr : TopYields host target d tbl (b :: bs) b.hash r)
    (hlong : genBpfLongJumps host target (b :: bs).reverse [] = some bs')
    {prg : List BpfInstrRaw} (hprg : genBpfResolve host target bs' = some prg)
    (hsize : prg.length < 2 ^ 32) : exec (bpfStep host target d) prg 0 d.arch = some r := by
  have hsound := sound_genBpfLongJumps hhost (fun c hc =>
    sound_of_placed htbl hbs hsafe (List.mem_reverse.mp hc)) hlong
  rw [length_genBpfResolve hprg] at hsize
  obtain ⟨post, post', -, -, rfl⟩ := genBpfLongJumps_cons hlong
  refine exec_of_sound hsound (assembled_genBpfResolve hprg hsize)
    ⟨[], b, post', rfl, rfl, rfl⟩ ⟨fun c hc hhash => ?_, Or.inr ⟨rfl, hr⟩⟩
  rw [hbs.unique b List.mem_cons_self harch c hc hhash, harch.accStart]
  exact holds_accStateUndef target d _

theorem AccSafe.of_cons {b : BpfBlk} {bs : List BpfBlk} (h : AccSafe (b :: bs)) : AccSafe bs :=
  fun c hc c' hc' => h c (List.mem_cons_of_mem b hc) c' (List.mem_cons_of_mem b hc')

/-- A program that starts with the load of the architecture. -/
theorem exec_loadArch {hVal : UInt64} {bs : List BpfBlk} {prg : List BpfInstrRaw}
    (h : genBpfResolve host target ({ loadArchBlk host target with hash := hVal } :: bs) =
      some prg) :
    ∃ i prg', genBpfResolve host target bs = some prg' ∧ prg = i :: prg' ∧
      ∀ d, bpfExecute host target prg d = exec (bpfStep host target d) prg' 0 d.arch := by
  simp only [genBpfResolve, Option.bind_eq_bind, Option.bind_eq_some_iff] at h
  obtain ⟨r, hr, prg', hprg', h⟩ := h
  obtain rfl := Option.some.inj h
  obtain rfl := Option.some.inj hr
  refine ⟨_, prg', hprg', rfl, fun d => ?_⟩
  rw [bpfExecute]
  refine exec_of_next ?_ prg'
  simp +decide [bpfStep, word_arch, bpfInstr]

/-! ## The program and the collection -/

variable {jhash : List BpfInstr → UInt32}

theorem DbFilterCol.groups_ne_nil {col : DbFilterCol} (hcol : col.WellFormed)
    (hne : col.filters ≠ []) : ∃ g rest, col.groups = g :: rest := by
  obtain ⟨f, fs, hf⟩ := List.exists_cons_of_ne_nil hne
  have hfm : f ∈ col.filters := by
    rw [hf]
    exact List.mem_cons_self
  obtain ⟨g, hg, -⟩ := DbFilterCol.exists_group hcol hfm
  exact List.exists_cons_of_ne_nil (List.ne_nil_of_mem hg)

/-- A program made from blocks that agree on the accumulator gives the action of the
collection on every call. -/
theorem bpfExecute_of_placed {col : DbFilterCol} (hcol : col.WellFormed) (hloads : col.Loads)
    {placed : List BpfBlk} {tbl : BpfHtbl}
    (hplaced : genBpfPlaced jhash host col = some (placed, tbl)) (hsame : SameStart tbl)
    (hacc : AccSafe placed) (hhost : host = col.endian) {prg : List BpfInstrRaw}
    (h : genBpfGenerate jhash host col = some prg) (hsize : prg.length < 2 ^ 32) (d : BpfData) :
    bpfExecute host col.endian prg d = some (col.verdict d) := by
  rw [genBpfGenerate_eq, hplaced, Option.bind_some] at h
  obtain ⟨bs', hlong, hprg⟩ := Option.bind_eq_some_iff.mp h
  simp only [genBpfPlaced, Option.bind_eq_bind, Option.bind_eq_some_iff] at hplaced
  obtain ⟨⟨top, tbl⟩, htop, top', htop', hp⟩ := hplaced
  obtain ⟨rfl, rfl⟩ := Prod.mk.inj (Option.some.inj hp)
  obtain ⟨hadds, hVal, rest, rfl, hmeans⟩ := genBpfBlocks_means hcol hloads htop d
  have htbl := tableOk_nil.adds hadds
  have hok : ∀ e ∈ tbl, BlkOk host col.endian d tbl e.blk e.found := fun e he =>
    (forall_blk_of_adds (fun h _ => ⟨h.endOk, h.loads, h.nxt⟩)
      (fun _ h => ⟨h.endOk, h.loads, h.nxt⟩) hadds e he).1
  -- the top level after its jumps are resolved
  obtain ⟨b, b', rest₁, rest₂, rfl, hres, -, htopRes⟩ := (hmeans hsame).resolve
  have htop'' : top' = { loadArchBlk host col.endian with hash := hVal } :: b' :: rest₂ := by
    rw [genBpfResolveNxt_cons _ (by simp), hres] at htop'
    exact (Option.some.inj htop').symm
  subst htop''
  -- the list of the placed blocks, behind the load of the architecture
  rw [genBpfPull_cons rfl] at hacc hlong
  obtain ⟨bs₂, hlong₂, rfl⟩ := genBpfLongJumps_loadArch hlong
  obtain ⟨i, prg', hprg', rfl, hexec⟩ := exec_loadArch hprg
  rw [hexec d]
  have hpair : (col.groups.map fun g => g.1.arch).Pairwise
      fun arch arch' => arch.tokenBpf ≠ arch'.tokenBpf :=
    List.pairwise_map.mpr (DbFilterCol.pairwise_groups hcol)
  have hpl := placed_genBpfPull htbl hsame hok htopRes hpair
  have hhead : (genBpfPull host col.endian (b' :: rest₂) tbl).head? = some b' :=
    head?_genBpfPull (b' :: rest₂) tbl
  obtain ⟨cs, hpull⟩ := List.head?_eq_some_iff.mp hhead
  rw [hpull] at hpl hacc hlong₂
  have hr : TopYields host col.endian d tbl (genBpfPull host col.endian (b' :: rest₂) tbl) b'.hash
      (col.verdict d) := htopRes.topYields fun c hc => mem_genBpfPull_of_mem tbl hc
  obtain ⟨arch, first, next, harch⟩ := htopRes.head (by
    obtain ⟨g, gs, hg⟩ := DbFilterCol.groups_ne_nil hcol (fun hnil => by
      rw [genBpfBlocks, hnil] at htop
      cases htop)
    rw [hg]
    exact List.cons_ne_nil _ _)
  rw [hpull] at hr
  rw [List.length_cons] at hsize
  exact exec_of_placed hhost htbl hpl hacc.of_cons harch hr hlong₂ hprg' (by omega)

/-- **The compiler keeps the meaning of a collection.**  If the check of the blocks
succeeds, a program that is returned gives the action of the collection on every call. -/
theorem bpfExecute_genBpfGenerate {col : DbFilterCol} (hcol : col.WellFormed)
    (hloads : col.Loads) (hsafe : genSafe jhash host col = true) (hhost : host = col.endian)
    {prg : List BpfInstrRaw} (h : genBpfGenerate jhash host col = some prg)
    (hsize : prg.length < 2 ^ 16) (d : BpfData) :
    bpfExecute host col.endian prg d = some (col.verdict d) := by
  have hgen := h
  rw [genBpfGenerate_eq] at hgen
  obtain ⟨⟨placed, tbl⟩, hplaced, -⟩ := Option.bind_eq_some_iff.mp hgen
  rw [genSafe, hplaced, Option.all_some, decide_eq_true_eq] at hsafe
  exact bpfExecute_of_placed hcol hloads hplaced hsafe.1 hsafe.2 hhost h
    (hsize.trans (by norm_num)) d

/-- `personality(0)` and `personality(8)` on x86-64: two tests that share a word. -/
def personalityCol : DbFilterCol :=
  let lo (datum : UInt32) (next : DbArgChainTree) : DbArgChainTree :=
    .node (chainNode 0 (archArgOffsetLo .little 0) .eq 0xffffffff datum (some 0x7fff0000) none)
      .null .null next
  let hi : DbArgChainTree :=
    .node (chainNode 0 (archArgOffsetHi .little 0) .eq 0xffffffff 0 none none) (lo 0 (lo 8 .null))
      .null .null
  ⟨0x00050001, 0, .little, [⟨.x86_64, [⟨135, 100, hi, 3, 0, true⟩, ⟨0, 200, .null, 0, 0x7fff0000,
    true⟩]⟩]⟩

/-- Compiled, the two tests decide every call as the collection does. -/
theorem bpfExecute_genBpfGenerate_personality :
    ∃ prg, genBpfGenerate (fun blks => UInt32.ofNat blks.length) .little personalityCol = some prg ∧
      ∀ d, bpfExecute .little .little prg d = some (personalityCol.verdict d) := by
  have hsome : (genBpfGenerate (fun blks => UInt32.ofNat blks.length) .little
      personalityCol).any (fun prg => prg.length < 2 ^ 16) = true := by
    decide +kernel
  obtain ⟨prg, hprg, hsize⟩ := (Option.any_eq_true _ _).mp hsome
  exact ⟨prg, hprg, bpfExecute_genBpfGenerate (by decide +kernel) (by decide +kernel)
    (by decide +kernel) rfl hprg (by simpa using hsize)⟩

/-- `a0 = 0 ∧ a1 = 7` or `a0 = 5` for one call, `a0 ∈ {1, 5}` for another one, on x86. -/
def sharedTestCol : DbFilterCol :=
  let eq (arg : ℕ) (datum : UInt32) (act : Option UInt32) (nxtT next : DbArgChainTree) :=
    DbArgChainTree.node (chainNode arg (archArgOffsetLo .little arg) .eq 0xffffffff datum act none)
      nxtT .null next
  let tree₁ := eq 0 0 none (eq 1 7 (some 1) .null .null) (eq 0 5 (some 1) .null .null)
  let tree₂ := eq 0 1 (some 1) .null (eq 0 5 (some 1) .null .null)
  ⟨0, 0, .little, [⟨.x86, [⟨1, 9, tree₁, 3, 0, true⟩, ⟨2, 6, tree₂, 2, 0, true⟩]⟩]⟩

/-- **The check is needed.**  The test `a0 = 5` of the two calls is stored once, and it is
placed behind a test of `a0`; the first call also comes to it with `a1` in the accumulator,
so it is accepted for `a0 = 0` and `a1 = 5`. -/
theorem bpfExecute_genBpfGenerate_unsafe :
    sharedTestCol.WellFormed ∧ sharedTestCol.Loads ∧
      let d : BpfData := ⟨1, Arch.x86.token, 0, fun i => if i = 0 then 0 else 5⟩
      sharedTestCol.verdict d = 0 ∧
        (genBpfGenerate (fun blks => UInt32.ofNat blks.length) .little sharedTestCol).bind
          (bpfExecute .little .little · d) = some 1 := by
  decide +kernel

end Draco
