/-
# Placing the blocks

The blocks of the top level stand in a list.  Every other block that a jump refers to is
taken out of the hash table and placed behind the last block of the list that refers to
it (`genBpfPull`).  If it expects a word in the accumulator that this block does not leave
there, a load is put in front of it; the other blocks that refer to it are not looked at.

So the list does what its blocks mean as long as every block that expects something is
referred to only from blocks that leave it (`AccSafe`).  Under this condition each block
of the list keeps what is expected at its hash (`sound_of_placed`).
-/
import Draco.GenTop

namespace Draco

open LabelledCode

variable {host target : ArchEndian} {d : BpfData}

/-! ## Searching the table -/

theorem hshFindOnce_some {tbl tbl' : BpfHtbl} {hVal : UInt64} {b : BpfBlk}
    (h : hshFindOnce tbl hVal = some (b, tbl')) :
    (∃ e ∈ tbl, e.found = false ∧ e.blk = b) ∧ b.hash = hVal ∧
      tbl' = tbl.map fun e => if e.blk.hash = hVal then { e with found := true } else e := by
  unfold hshFindOnce at h
  cases hf : hshFindBkt tbl hVal with
  | none =>
    rw [hf] at h
    cases h
  | some e =>
    obtain ⟨he, hhash⟩ := hshFindBkt_some hf
    rw [hf] at h
    cases hfound : e.found with
    | true => simp [hfound] at h
    | false =>
      simp only [hfound, Bool.false_eq_true, if_false, Option.some.injEq, Prod.mk.injEq] at h
      obtain ⟨rfl, rfl⟩ := h
      exact ⟨⟨e, he, hfound, rfl⟩, hhash, rfl⟩

/-- What is marked as found in the search. -/
def Marked (tbl tbl' : BpfHtbl) : Prop :=
  ∀ e' ∈ tbl', ∃ e ∈ tbl, e.blk = e'.blk ∧ (e'.found = false → e.found = false)

theorem Marked.refl (tbl : BpfHtbl) : Marked tbl tbl := fun e he => ⟨e, he, rfl, id⟩

theorem Marked.trans {tbl tbl' tbl'' : BpfHtbl} (h : Marked tbl tbl') (h' : Marked tbl' tbl'') :
    Marked tbl tbl'' := by
  intro e'' he''
  obtain ⟨e', he', hblk, hfound⟩ := h' e'' he''
  obtain ⟨e, he, hblk', hfound'⟩ := h e' he'
  exact ⟨e, he, hblk'.trans hblk, fun hf => hfound' (hfound hf)⟩

theorem marked_hshFindOnce {tbl tbl' : BpfHtbl} {hVal : UInt64} {b : BpfBlk}
    (h : hshFindOnce tbl hVal = some (b, tbl')) : Marked tbl tbl' := by
  obtain ⟨-, -, rfl⟩ := hshFindOnce_some h
  intro e' he'
  obtain ⟨e, he, rfl⟩ := List.mem_map.mp he'
  refine ⟨e, he, ?_⟩
  split
  · exact ⟨rfl, fun hf => by cases hf⟩
  · exact ⟨rfl, id⟩

/-! ## One placement -/

/-- **What one search does.**  It places a block behind the last one that refers to a block
which is not placed yet. -/
theorem genBpfPullOnce_cases {tbl tbl' : BpfHtbl} {rev rev' : List BpfBlk}
    (h : genBpfPullOnce host target tbl rev = some (rev', tbl')) :
    ∃ xs b ys hVal blk, rev = xs ++ b :: ys ∧ hVal ∈ b.targets ∧
      hshFindOnce tbl hVal = some (blk, tbl') ∧
      rev' = xs ++ reloadBlk host target b.accEnd blk :: b :: ys ∧
      ∀ c ∈ xs, ∀ t ∈ c.targets, hshFindOnce tbl t = none := by
  induction rev generalizing rev' with
  | nil => cases h
  | cons b bs ih =>
    rw [genBpfPullOnce] at h
    cases hf : b.targets.findSome? (hshFindOnce tbl) with
    | some p =>
      obtain ⟨blk, tbl₁⟩ := p
      rw [hf] at h
      obtain ⟨rfl, rfl⟩ := Prod.mk.inj (Option.some.inj h)
      obtain ⟨l₁, hVal, l₂, hsplit, hfind, -⟩ := List.findSome?_eq_some_iff.mp hf
      refine ⟨[], b, bs, hVal, blk, rfl, ?_, hfind, rfl, fun c hc => by cases hc⟩
      rw [hsplit]
      exact List.mem_append_right l₁ List.mem_cons_self
    | none =>
      rw [hf] at h
      obtain ⟨⟨rev₁, tbl₁⟩, hrec, hp⟩ := Option.map_eq_some_iff.mp h
      obtain ⟨rfl, rfl⟩ := Prod.mk.inj hp
      obtain ⟨xs, c, ys, hVal, blk, rfl, ht, hfind, rfl, hxs⟩ := ih hrec
      refine ⟨b :: xs, c, ys, hVal, blk, rfl, ht, hfind, rfl, fun c' hc' => ?_⟩
      rcases List.mem_cons.mp hc' with rfl | hc'
      · exact List.findSome?_eq_none_iff.mp hf
      · exact hxs c' hc'

/-- Where nothing is found, all references are to blocks that are placed. -/
theorem genBpfPullOnce_eq_none {tbl : BpfHtbl} {rev : List BpfBlk}
    (h : genBpfPullOnce host target tbl rev = none) :
    ∀ c ∈ rev, ∀ t ∈ c.targets, hshFindOnce tbl t = none := by
  induction rev with
  | nil =>
    intro c hc
    cases hc
  | cons b bs ih =>
    rw [genBpfPullOnce] at h
    cases hf : b.targets.findSome? (hshFindOnce tbl) with
    | some p =>
      rw [hf] at h
      cases h
    | none =>
      rw [hf] at h
      intro c hc
      rcases List.mem_cons.mp hc with rfl | hc
      · exact List.findSome?_eq_none_iff.mp hf
      · exact ih (Option.map_eq_none_iff.mp h) c hc

/-- **Rule for the placement.**  What every placement keeps holds in the end. -/
theorem genBpfPullAll_induct (I : List BpfBlk → BpfHtbl → Prop)
    (hstep : ∀ {rev rev' : List BpfBlk} {tbl tbl' : BpfHtbl},
      genBpfPullOnce host target tbl rev = some (rev', tbl') → I rev tbl → I rev' tbl')
    (n : ℕ) {rev : List BpfBlk} {tbl : BpfHtbl} (h : I rev tbl) :
    ∃ tbl', I (genBpfPullAll host target n rev tbl) tbl' := by
  induction n generalizing rev tbl with
  | zero => exact ⟨tbl, h⟩
  | succ n ih =>
    rw [genBpfPullAll]
    cases hp : genBpfPullOnce host target tbl rev with
    | none => exact ⟨tbl, h⟩
    | some p => exact ih (hstep hp h)

theorem hash_reloadBlk (accEnd : AccState) (b : BpfBlk) :
    (reloadBlk host target accEnd b).hash = b.hash := by
  unfold reloadBlk
  cases b.accStart.offset with
  | none => rfl
  | some offset => dsimp only; split <;> rfl

/-- A block from the table, as it was placed. -/
def Pulled (host target : ArchEndian) (tbl : BpfHtbl) (b : BpfBlk) : Prop :=
  ∃ e ∈ tbl, e.found = false ∧ ∃ accEnd, b = reloadBlk host target accEnd e.blk

/-- The blocks of the list were there before or come from the table. -/
theorem mem_genBpfPull {bs : List BpfBlk} {tbl : BpfHtbl} {b : BpfBlk}
    (h : b ∈ genBpfPull host target bs tbl) : b ∈ bs ∨ Pulled host target tbl b := by
  have hstart : Marked tbl tbl ∧ ∀ b ∈ bs.reverse, b ∈ bs ∨ Pulled host target tbl b :=
    ⟨Marked.refl tbl, fun b hb => Or.inl (List.mem_reverse.mp hb)⟩
  obtain ⟨tbl', -, hmem⟩ := genBpfPullAll_induct
    (fun rev tbl' => Marked tbl tbl' ∧ ∀ b ∈ rev, b ∈ bs ∨ Pulled host target tbl b)
    (fun hp hI => by
      obtain ⟨xs, c, ys, hVal, blk, rfl, -, hfind, rfl, -⟩ := genBpfPullOnce_cases hp
      obtain ⟨⟨e, he, hfound, rfl⟩, -, -⟩ := hshFindOnce_some hfind
      refine ⟨hI.1.trans (marked_hshFindOnce hfind), fun b hb => ?_⟩
      rcases List.mem_append.mp hb with hb | hb
      · exact hI.2 b (List.mem_append_left _ hb)
      · rcases List.mem_cons.mp hb with rfl | hb
        · obtain ⟨e₀, he₀, hblk, hf⟩ := hI.1 e he
          exact Or.inr ⟨e₀, he₀, hf hfound, c.accEnd, by rw [hblk]⟩
        · exact hI.2 b (List.mem_append_right xs hb))
    (tbl.filter fun e => !e.found).length hstart
  exact hmem b (List.mem_reverse.mp h)

/-- The blocks of the list stay there. -/
theorem mem_genBpfPull_of_mem {bs : List BpfBlk} (tbl : BpfHtbl) {b : BpfBlk} (h : b ∈ bs) :
    b ∈ genBpfPull host target bs tbl := by
  let I (rev : List BpfBlk) (_ : BpfHtbl) : Prop := b ∈ rev
  have hstart : I bs.reverse tbl := List.mem_reverse.mpr h
  obtain ⟨tbl', hmem⟩ := genBpfPullAll_induct I
    (fun hp hI => by
      obtain ⟨xs, c, ys, hVal, blk, rfl, -, -, rfl, -⟩ := genBpfPullOnce_cases hp
      rcases List.mem_append.mp hI with hI | hI
      · exact List.mem_append_left _ hI
      · exact List.mem_append_right xs (List.mem_cons_of_mem _ hI))
    (tbl.filter fun e => !e.found).length hstart
  exact List.mem_reverse.mpr hmem

/-- A first block without jumps stays in front. -/
theorem genBpfPull_cons {head : BpfBlk} (hhead : head.targets = []) (bs : List BpfBlk)
    (tbl : BpfHtbl) :
    genBpfPull host target (head :: bs) tbl = head :: genBpfPull host target bs tbl := by
  have honce : ∀ (tbl : BpfHtbl) (rev : List BpfBlk),
      genBpfPullOnce host target tbl (rev ++ [head]) =
        (genBpfPullOnce host target tbl rev).map fun p => (p.1 ++ [head], p.2) := by
    intro tbl rev
    induction rev with
    | nil => simp [genBpfPullOnce, hhead]
    | cons b rev ih =>
      rw [List.cons_append, genBpfPullOnce, genBpfPullOnce]
      cases b.targets.findSome? (hshFindOnce tbl) with
      | some p => rfl
      | none =>
        rw [ih]
        cases genBpfPullOnce host target tbl rev <;> rfl
  have hall : ∀ (n : ℕ) (rev : List BpfBlk) (tbl : BpfHtbl),
      genBpfPullAll host target n (rev ++ [head]) tbl =
        genBpfPullAll host target n rev tbl ++ [head] := by
    intro n
    induction n with
    | zero => exact fun rev tbl => rfl
    | succ n ih =>
      intro rev tbl
      rw [genBpfPullAll, genBpfPullAll, honce]
      cases genBpfPullOnce host target tbl rev with
      | none => rfl
      | some p => exact ih p.1 p.2
  rw [genBpfPull, genBpfPull, List.reverse_cons, hall, List.reverse_append]
  rfl

/-- The first block stays the first. -/
theorem head?_genBpfPull (bs : List BpfBlk) (tbl : BpfHtbl) :
    (genBpfPull host target bs tbl).head? = bs.head? := by
  let I (rev : List BpfBlk) (_ : BpfHtbl) : Prop := rev.getLast? = bs.head?
  have hstart : I bs.reverse tbl := List.getLast?_reverse
  obtain ⟨tbl', hlast⟩ := genBpfPullAll_induct I
    (fun hp hI => by
      obtain ⟨xs, c, ys, hVal, blk, rfl, -, -, rfl, -⟩ := genBpfPullOnce_cases hp
      show (xs ++ _ :: c :: ys).getLast? = bs.head?
      rw [← show (xs ++ c :: ys).getLast? = bs.head? from hI]
      simp)
    (tbl.filter fun e => !e.found).length hstart
  rw [genBpfPull, List.head?_reverse]
  exact hlast

/-! ## What a block of the list keeps -/

/-- Run with the accumulator it expects, the block does what the table says of its hash,
and leaves the accumulator in its end state. -/
def Keeps (host target : ArchEndian) (d : BpfData) (tbl : BpfHtbl) (b : BpfBlk) : Prop :=
  ∀ acc r, Yields host target d tbl b.hash r → b.accStart.Holds target d acc →
    blkEffect host target d b.blks acc = .done r ∨
      ∃ l acc', blkEffect host target d b.blks acc = .goto l acc' ∧
        Yields host target d tbl l r ∧ b.accEnd.Holds target d acc'

/-- A block with the contents and the start state of its entry keeps what the table says. -/
theorem keeps_of_entry {tbl : BpfHtbl} (htbl : TableOk tbl) {e : BpfHashBkt} (he : e ∈ tbl)
    {b : BpfBlk} (hhash : e.blk.hash = b.hash) (hblks : e.blk.blks = b.blks)
    (hstart : e.blk.accStart = b.accStart) (hend : EndOk host target d b) :
    Keeps host target d tbl b := by
  intro acc r hy hacc
  have hacc' := hacc
  rw [← hstart] at hacc'
  rw [← hhash] at hy
  generalize hl : e.blk.hash = l at hy
  cases hy with
  | @returns e' r he' hret =>
    have hee' := htbl.eq_of_hash he he' hl
    subst hee'
    refine Or.inl ?_
    rw [← hblks]
    exact hret acc hacc'
  | @steps e' l' r he' hstep hl' =>
    have hee' := htbl.eq_of_hash he he' hl
    subst hee'
    obtain ⟨acc', heff⟩ := hstep acc hacc'
    rw [hblks] at heff
    exact Or.inr ⟨l', acc', heff, hl', hend acc hacc l' acc' heff⟩

/-- A reload in front of a block does not change what it does. -/
theorem keeps_reloadBlk {tbl : BpfHtbl} {b : BpfBlk}
    (hloads : ∀ offset, b.accStart.offset = some offset → LoadValid offset)
    (h : Keeps host target d tbl b) (accEnd : AccState) :
    Keeps host target d tbl (reloadBlk host target accEnd b) := by
  unfold reloadBlk
  cases ho : b.accStart.offset with
  | none => exact h
  | some offset =>
    dsimp only
    split
    · exact h
    · intro acc r hy _
      -- the loads leave the word that the block expects
      have hrel : blkEffect host target d (bpfInstr host target BPF_LD_ABS offset ::
          (if b.accStart.mask ≠ ARG_MASK_MAX then
            [bpfInstr host target BPF_ALU_AND b.accStart.mask] else []) ++ b.blks) acc =
          blkEffect host target d b.blks (d.word target offset &&& b.accStart.mask) := by
        rw [List.cons_append, blkEffect_load host target d (hloads offset ho)]
        split
        · rw [List.singleton_append, blkEffect_and]
        next hmask => rw [not_not.mp hmask, List.nil_append, and_ffffffff]
      have hacc : b.accStart.Holds target d (d.word target offset &&& b.accStart.mask) := by
        intro offset' ho'
        rw [ho] at ho'
        cases ho'
        rfl
      show blkEffect host target d (_ :: _ ++ b.blks) acc = _ ∨
        ∃ l acc', blkEffect host target d (_ :: _ ++ b.blks) acc = _ ∧ _
      rw [hrel]
      exact h _ r hy hacc

/-! ## The list as a whole -/

/-- A block that expects something in the accumulator is referred to only from blocks that
leave it there. -/
def AccSafe (bs : List BpfBlk) : Prop :=
  ∀ b ∈ bs, ∀ c ∈ bs, c.hash ∈ b.targets → c.accStart.offset ≠ none → b.accEnd = c.accStart

instance (bs : List BpfBlk) : Decidable (AccSafe bs) :=
  inferInstanceAs (Decidable (∀ b ∈ bs, ∀ c ∈ bs, c.hash ∈ b.targets → _))

/-- The checks of the tokens, from the one with the hash `l` on, come to the action. -/
inductive TopYields (host target : ArchEndian) (d : BpfData) (tbl : BpfHtbl)
    (bs : List BpfBlk) : UInt64 → UInt32 → Prop where
  | yields {l : UInt64} {r : UInt32} (h : Yields host target d tbl l r) :
      TopYields host target d tbl bs l r
  | here {b : BpfBlk} {arch : Arch} {first next : UInt64} {r : UInt32} (hb : b ∈ bs)
      (harch : ArchResolved host target tbl arch first next b) (hd : d.arch = arch.tokenBpf)
      (h : Yields host target d tbl first r) : TopYields host target d tbl bs b.hash r
  | next {b : BpfBlk} {arch : Arch} {first next : UInt64} {r : UInt32} (hb : b ∈ bs)
      (harch : ArchResolved host target tbl arch first next b) (hd : d.arch ≠ arch.tokenBpf)
      (h : TopYields host target d tbl bs next r) : TopYields host target d tbl bs b.hash r

/-- The list has blocks that keep what the table says and blocks that check a token, and
the hash of the latter names no other block. -/
structure Placed (host target : ArchEndian) (d : BpfData) (tbl : BpfHtbl)
    (bs : List BpfBlk) : Prop where
  blocks : ∀ b ∈ bs, Keeps host target d tbl b ∨
    ∃ arch first next, ArchResolved host target tbl arch first next b
  unique : ∀ {arch first next}, ∀ b ∈ bs, ArchResolved host target tbl arch first next b →
    ∀ c ∈ bs, c.hash = b.hash → c = b

/-- What is expected at a hash of the list: that the accumulator is as the blocks with
the hash expect it, and then what the table or the checks of the tokens say. -/
def Expected (host target : ArchEndian) (d : BpfData) (tbl : BpfHtbl) (bs : List BpfBlk)
    (l : UInt64) (acc : UInt32) (r : UInt32) : Prop :=
  (∀ c ∈ bs, c.hash = l → c.accStart.Holds target d acc) ∧
    (Yields host target d tbl l r ∨ acc = d.arch ∧ TopYields host target d tbl bs l r)

theorem blkEffect_archResolved {tbl : BpfHtbl} {arch : Arch} {first next : UInt64} {b : BpfBlk}
    (harch : ArchResolved host target tbl arch first next b) (acc : UInt32) :
    blkEffect host target d b.blks acc =
      .goto (if acc = arch.tokenBpf then first else next) acc := by
  rw [harch.blks, blkEffect_jump host target d (Or.inl rfl)]
  by_cases h : acc = arch.tokenBpf <;> simp [jumpTest, h, jumpEffect]

/-- The table says nothing of the check of a token, which falls through. -/
theorem not_yields_archResolved {tbl : BpfHtbl} (htbl : TableOk tbl) {arch : Arch}
    {first next : UInt64} {b : BpfBlk} (harch : ArchResolved host target tbl arch first next b)
    {r : UInt32} : ¬ Yields host target d tbl b.hash r := by
  intro hy
  obtain ⟨e, he, hhash, hstart, skip, hblks⟩ := harch.stored
  have hacc : e.blk.accStart.Holds target d (arch.tokenBpf + 1) := by
    rw [hstart]
    exact holds_accStateUndef target d _
  -- run from an accumulator without the token, the entry is stuck
  have heff : blkEffect host target d e.blk.blks (arch.tokenBpf + 1) = .stuck := by
    rw [hblks, archBlk, harch.endian, blkEffect_jump host target d (Or.inl rfl)]
    simp [jumpTest, jumpEffect]
  rw [← hhash] at hy
  generalize hl : e.blk.hash = l at hy
  cases hy with
  | @returns e' r he' hret =>
    have hee' := htbl.eq_of_hash he he' hl
    subst hee'
    rw [hret _ hacc] at heff
    cases heff
  | @steps e' l' r he' hstep hl' =>
    have hee' := htbl.eq_of_hash he he' hl
    subst hee'
    obtain ⟨acc', hgo⟩ := hstep _ hacc
    rw [hgo] at heff
    cases heff

/-- **Every block of the list keeps what is expected at its hash.** -/
theorem sound_of_placed {tbl : BpfHtbl} (htbl : TableOk tbl) {bs : List BpfBlk}
    (hbs : Placed host target d tbl bs) (hsafe : AccSafe bs) {b : BpfBlk} (hb : b ∈ bs) :
    Sound BpfBlk.hash (fun b => blkEffect host target d b.blks)
      (Expected host target d tbl bs) b := by
  rintro acc r ⟨hacc, hr⟩
  -- a block that is jumped to finds the accumulator as it expects it
  have hnext : ∀ l acc', blkEffect host target d b.blks acc = .goto l acc' →
      b.accEnd.Holds target d acc' → ∀ c ∈ bs, c.hash = l → c.accStart.Holds target d acc' := by
    rintro l acc' heff hend c hc rfl
    by_cases ho : c.accStart.offset = none
    · intro offset ho'
      rw [ho] at ho'
      cases ho'
    · rwa [← hsafe b hb c hc (mem_targets_of_blkEffect heff) ho]
  have hkeeps : Yields host target d tbl b.hash r →
      blkEffect host target d b.blks acc = .done r ∨
        ∃ l acc', blkEffect host target d b.blks acc = .goto l acc' ∧
          Expected host target d tbl bs l acc' r := by
    intro hy
    rcases hbs.blocks b hb with hkeep | ⟨arch, first, next, harch⟩
    · rcases hkeep acc r hy (hacc b hb rfl) with heff | ⟨l, acc', heff, hyl, hend⟩
      · exact Or.inl heff
      · exact Or.inr ⟨l, acc', heff, hnext l acc' heff hend, Or.inl hyl⟩
    · exact (not_yields_archResolved htbl harch hy).elim
  rcases hr with hy | ⟨rfl, hy⟩
  · exact hkeeps hy
  · generalize hl : b.hash = l at hy
    cases hy with
    | yields hy =>
      rw [← hl] at hy
      exact hkeeps hy
    | @here c arch first next r hc harch hd hy =>
      have hbc := hbs.unique c hc harch b hb hl
      subst hbc
      have heff := blkEffect_archResolved (d := d) harch d.arch
      rw [if_pos hd] at heff
      refine Or.inr ⟨first, d.arch, heff, hnext first d.arch heff ?_, Or.inl hy⟩
      rw [harch.accEnd]
      exact holds_accStateUndef target d _
    | @next c arch first next r hc harch hd hy =>
      have hbc := hbs.unique c hc harch b hb hl
      subst hbc
      have heff := blkEffect_archResolved (d := d) harch d.arch
      rw [if_neg hd] at heff
      refine Or.inr ⟨next, d.arch, heff, hnext next d.arch heff ?_, Or.inr ⟨rfl, hy⟩⟩
      rw [harch.accEnd]
      exact holds_accStateUndef target d _

/-! ## The list that the compiler makes -/

/-- A block that checks a token and one that does not fall through have different hashes. -/
theorem hash_ne_of_not_hasNxt {tbl : BpfHtbl} (htbl : TableOk tbl) {arch : Arch}
    {first next : UInt64} {b : BpfBlk} (harch : ArchResolved host target tbl arch first next b)
    {e : BpfHashBkt} (he : e ∈ tbl) (hnxt : ¬ e.blk.HasNxt) : e.blk.hash ≠ b.hash := by
  intro hhash
  obtain ⟨e', he', hhash', -, skip, hblks⟩ := harch.stored
  have hee' := htbl.eq_of_hash he he' (hhash.trans hhash'.symm)
  subst hee'
  refine hnxt ⟨bpfJump host arch.endian BPF_JMP_JEQ (.hsh first) (.nxt skip) arch.tokenBpf, ?_,
    skip, Or.inr rfl⟩
  rw [hblks]
  exact List.mem_cons_self

theorem TopBlk.hash_ne {tbl : BpfHtbl} (htbl : TableOk tbl) (hsame : SameStart tbl) {arch : Arch}
    {first next : UInt64} {b c : BpfBlk}
    (harch : ArchResolved host target tbl arch first next b) (h : TopBlk host target d tbl c) :
    c.hash ≠ b.hash := by
  obtain ⟨e, he, hhash, hblks, -⟩ := h.stored hsame
  have hnxt : ¬ e.blk.HasNxt := by
    rintro ⟨i, hi, hn⟩
    rw [hblks] at hi
    exact h.nxt ⟨i, hi, hn⟩
  rw [← hhash]
  exact hash_ne_of_not_hasNxt htbl harch he hnxt

/-- Checks of a token with one hash check the same token. -/
theorem tokenBpf_eq_of_hash {tbl : BpfHtbl} (htbl : TableOk tbl) {arch arch' : Arch}
    {first next first' next' : UInt64} {b b' : BpfBlk}
    (h : ArchResolved host target tbl arch first next b)
    (h' : ArchResolved host target tbl arch' first' next' b') (hhash : b.hash = b'.hash) :
    arch.tokenBpf = arch'.tokenBpf := by
  obtain ⟨e, he, heb, -, skip, hblks⟩ := h.stored
  obtain ⟨e', he', heb', -, skip', hblks'⟩ := h'.stored
  have hee' := htbl.eq_of_hash he he' ((heb.trans hhash).trans heb'.symm)
  subst hee'
  rw [hblks, archBlk, archBlk, h.endian, h'.endian] at hblks'
  simp only [bpfJump, bpfK, List.cons.injEq, BpfInstr.mk.injEq, BpfJump.k.injEq] at hblks'
  rw [← ttoh32_htot32 host target arch.tokenBpf, hblks'.1.2.2.2, ttoh32_htot32]

/-- What the blocks of the top level are. -/
theorem TopResolved.mem {tbl : BpfHtbl} {archs : List Arch} {bs : List BpfBlk} {r : UInt32}
    (h : TopResolved host target d tbl archs bs r) {b : BpfBlk} (hb : b ∈ bs) :
    TopBlk host target d tbl b ∨
      ∃ arch ∈ archs, ∃ first next, ArchResolved host target tbl arch first next b := by
  induction h with
  | bad htop _ _ =>
    rw [List.mem_singleton.mp hb]
    exact Or.inl htop
  | @group arch archs c next first inner rest r rRest harch _ hinner _ ih =>
    rcases List.mem_append.mp hb with hb | hb
    · rcases List.mem_cons.mp hb with rfl | hb
      · exact Or.inr ⟨arch, List.mem_cons_self, first, next.hash, harch⟩
      · exact Or.inl (hinner b hb)
    · rcases ih hb with h | ⟨arch', harch', h⟩
      · exact Or.inl h
      · exact Or.inr ⟨arch', List.mem_cons_of_mem arch harch', h⟩

/-- The hash of a check names no other block of the top level. -/
theorem TopResolved.unique {tbl : BpfHtbl} (htbl : TableOk tbl) (hsame : SameStart tbl)
    {archs : List Arch} {bs : List BpfBlk} {r : UInt32}
    (h : TopResolved host target d tbl archs bs r)
    (hpair : archs.Pairwise fun arch arch' => arch.tokenBpf ≠ arch'.tokenBpf)
    {arch : Arch} {first next : UInt64} {b c : BpfBlk}
    (harch : ArchResolved host target tbl arch first next b) (hb : b ∈ bs) (hc : c ∈ bs)
    (hhash : c.hash = b.hash) : c = b := by
  induction h with
  | bad htop _ _ =>
    rw [List.mem_singleton.mp hb] at harch
    exact (htop.hash_ne htbl hsame harch rfl).elim
  | @group arch₁ archs b₁ next₁ first₁ inner rest r rRest harch₁ _ hinner hrest ih =>
    have hsplit : ∀ x ∈ b₁ :: inner ++ next₁ :: rest, x.hash = b.hash →
        x = b₁ ∨ x ∈ next₁ :: rest := by
      intro x hx hxb
      rcases List.mem_append.mp hx with hx | hx
      · rcases List.mem_cons.mp hx with rfl | hx
        · exact Or.inl rfl
        · exact ((hinner x hx).hash_ne htbl hsame harch hxb).elim
      · exact Or.inr hx
    -- a check further down has another token
    have hother : ∀ x ∈ next₁ :: rest, x.hash = b₁.hash → False := by
      intro x hx hxb
      rcases hrest.mem hx with htop | ⟨arch', harch', first', next', h'⟩
      · exact htop.hash_ne htbl hsame harch₁ hxb
      · exact List.rel_of_pairwise_cons hpair harch'
          (tokenBpf_eq_of_hash htbl harch₁ h' hxb.symm)
    rcases hsplit b hb rfl with rfl | hb'
    · rcases hsplit c hc hhash with rfl | hc'
      · rfl
      · exact (hother c hc' hhash).elim
    · rcases hsplit c hc hhash with rfl | hc'
      · exact (hother b hb' hhash.symm).elim
      · exact ih hpair.of_cons hb' hc'

/-- The first block checks a token, unless there are no architectures. -/
theorem TopResolved.head {tbl : BpfHtbl} {archs : List Arch} {b : BpfBlk} {bs : List BpfBlk}
    {r : UInt32} (h : TopResolved host target d tbl archs (b :: bs) r) (hne : archs ≠ []) :
    ∃ arch first next, ArchResolved host target tbl arch first next b := by
  generalize hl : b :: bs = l at h
  cases h with
  | bad _ _ _ => exact (hne rfl).elim
  | @group arch archs c next first inner rest r rRest harch _ _ _ =>
    obtain ⟨rfl, -⟩ := List.cons.inj hl
    exact ⟨arch, first, next.hash, harch⟩

/-- The checks of the tokens come to the action of the top level. -/
theorem TopResolved.topYields {tbl : BpfHtbl} {archs : List Arch} {b : BpfBlk}
    {rest bs : List BpfBlk} {r : UInt32} (h : TopResolved host target d tbl archs (b :: rest) r)
    (hsub : ∀ c ∈ b :: rest, c ∈ bs) : TopYields host target d tbl bs b.hash r := by
  generalize hl : b :: rest = l at h
  induction h generalizing b rest with
  | bad _ _ hr =>
    obtain ⟨rfl, -⟩ := List.cons.inj hl
    exact TopYields.yields hr
  | @group arch archs c next first inner rest' r rRest harch hfirst _ _ ih =>
    obtain ⟨rfl, rfl⟩ := List.cons.inj hl
    have hb := hsub b List.mem_cons_self
    by_cases hd : d.arch = arch.tokenBpf
    · rw [if_pos hd]
      exact TopYields.here hb harch hd hfirst
    · rw [if_neg hd]
      refine TopYields.next hb harch hd (ih (fun c hc => hsub c ?_) rfl)
      exact List.mem_cons_of_mem b (List.mem_append_right inner hc)

/-- **The list that the compiler makes is placed.** -/
theorem placed_genBpfPull {tbl : BpfHtbl} (htbl : TableOk tbl) (hsame : SameStart tbl)
    (hok : ∀ e ∈ tbl, BlkOk host target d tbl e.blk e.found) {archs : List Arch}
    {bs : List BpfBlk} {r : UInt32} (h : TopResolved host target d tbl archs bs r)
    (hpair : archs.Pairwise fun arch arch' => arch.tokenBpf ≠ arch'.tokenBpf) :
    Placed host target d tbl (genBpfPull host target bs tbl) where
  blocks := by
    intro b hb
    rcases mem_genBpfPull hb with hb | ⟨e, he, -, accEnd, rfl⟩
    · rcases h.mem hb with htop | ⟨arch, -, first, next, harch⟩
      · obtain ⟨e, he, hhash, hblks, hstart⟩ := htop.stored hsame
        exact Or.inl (keeps_of_entry htbl he hhash hblks hstart htop.endOk)
      · exact Or.inr ⟨arch, first, next, harch⟩
    · exact Or.inl (keeps_reloadBlk (hok e he).loads
        (keeps_of_entry htbl he rfl rfl rfl (hok e he).endOk) accEnd)
  unique := by
    intro arch first next b hb harch c hc hhash
    -- the entry of a check counts as found, so it is never pulled
    have htop : ∀ x ∈ genBpfPull host target bs tbl, x.hash = b.hash → x ∈ bs := by
      intro x hx hxb
      rcases mem_genBpfPull hx with hx | ⟨e, he, hfound, accEnd, rfl⟩
      · exact hx
      · rw [hash_reloadBlk] at hxb
        refine (hash_ne_of_not_hasNxt htbl harch he (fun hn => ?_) hxb).elim
        have hf := (hok e he).nxt hn
        rw [hfound] at hf
        cases hf
    exact h.unique htbl hsame hpair harch (htop b hb rfl) (htop c hc hhash) hhash

end Draco
