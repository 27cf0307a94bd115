/-
# All references go down the list

The blocks of the table are placed behind the last block of the list that refers to them.
The order in which this happens matters: a block must not be placed behind one that it
refers to.  What keeps it right is that a block which is not placed yet reaches, by
references of the table, only placed blocks that stand behind everything that refers to
it (`Pulling.refs`).  Each placement keeps this (`pulling_genBpfPullOnce`), there are enough
rounds to place everything (`genBpfPullAll_spec`), and in the end every reference goes down
the list (`forwardRefs_genBpfPull`).
-/
import Draco.References
import Draco.Capacity

namespace Draco

open LabelledCode

variable {host target : ArchEndian}

/-! ## Reachability -/

/-- The entry of the first hash refers to the second one. -/
def Refers (tbl : BpfHtbl) (l u : UInt64) : Prop := ∃ e ∈ tbl, e.blk.hash = l ∧ u ∈ e.blk.targets

/-- What is reached by references of the table. -/
abbrev Reaches (tbl : BpfHtbl) : UInt64 → UInt64 → Prop := Relation.ReflTransGen (Refers tbl)

/-- What the placement relies on in a table: references go to entries before, inner blocks
refer to inner blocks, and `z` is the hash of the only inner block of the list. -/
structure TableOrdered (host target : ArchEndian) (tbl : BpfHtbl) (z : UInt64) : Prop where
  ok : TableOk tbl
  pos : ∀ e ∈ tbl, ∀ l ∈ e.blk.targets, KnownHash tbl l ∧ pos tbl l < pos tbl e.blk.hash
  inner : ∀ e ∈ tbl, InnerBlk host target e.blk.blks →
    ∀ l ∈ e.blk.targets, InnerHash host target tbl l
  pulled : ∀ e ∈ tbl, e.found = false →
    InnerBlk host target e.blk.blks ∧ e.blk.Straight ∧ e.blk.blks.length ≤ 3
  listed : ∀ e ∈ tbl, e.found = true → InnerBlk host target e.blk.blks → e.blk.hash = z

variable {tbl : BpfHtbl} {z : UInt64}

theorem TableOrdered.pos_le (h : TableOrdered host target tbl z) {l u : UInt64}
    (hr : Reaches tbl l u) : Draco.pos tbl u ≤ Draco.pos tbl l := by
  induction hr with
  | refl => exact Nat.le_refl _
  | tail _ hvu ih =>
    obtain ⟨e, he, rfl, hu⟩ := hvu
    exact (h.pos e he _ hu).2.le.trans ih

/-- A block does not reach itself by one of its references. -/
theorem TableOrdered.not_reaches (h : TableOrdered host target tbl z) {t l : UInt64}
    (hr : Refers tbl t l) : ¬ Reaches tbl l t := by
  obtain ⟨e, he, rfl, hl⟩ := hr
  exact fun hlt => absurd (h.pos_le hlt) (Nat.not_le.mpr (h.pos e he l hl).2)

/-- From inner blocks only inner blocks are reached. -/
theorem TableOrdered.innerHash (h : TableOrdered host target tbl z) {l u : UInt64}
    (hl : InnerHash host target tbl l) (hr : Reaches tbl l u) : InnerHash host target tbl u := by
  induction hr with
  | refl => exact hl
  | tail _ hvu ih =>
    obtain ⟨e, he, rfl, hu⟩ := hvu
    obtain ⟨e', he', hhash, hinner⟩ := ih
    obtain rfl := h.ok.eq_of_hash he' he hhash
    exact h.inner e' he' hinner _ hu

/-! ## Marks -/

/-- The block with the hash counts as placed. -/
def FoundHash (tbl : BpfHtbl) (l : UInt64) : Prop :=
  ∃ e ∈ tbl, e.blk.hash = l ∧ e.found = true

/-- The entries have different hashes. -/
abbrev HashNodup (tbl : BpfHtbl) : Prop := (tbl.map fun e => e.blk.hash).Nodup

theorem hshFindOnce_eq_none {tbl : BpfHtbl} {l : UInt64} (h : hshFindOnce tbl l = none)
    (hl : KnownHash tbl l) : FoundHash tbl l := by
  unfold hshFindOnce at h
  cases hf : hshFindBkt tbl l with
  | none =>
    obtain ⟨e, he, hhash⟩ := hl
    exact (hshFindBkt_eq_none.mp hf e he hhash).elim
  | some e =>
    obtain ⟨he, hhash⟩ := hshFindBkt_some hf
    rw [hf] at h
    cases hfound : e.found with
    | true => exact ⟨e, he, hhash, hfound⟩
    | false => simp [hfound] at h

/-- What is found is marked, and nothing else changes. -/
theorem foundHash_hshFindOnce {tbl tbl' : BpfHtbl} {t : UInt64} {b : BpfBlk}
    (hnodup : HashNodup tbl) (h : hshFindOnce tbl t = some (b, tbl')) :
    ¬ FoundHash tbl t ∧ tbl'.map BpfHashBkt.blk = tbl.map BpfHashBkt.blk ∧
      ∀ l, FoundHash tbl' l ↔ FoundHash tbl l ∨ l = t := by
  obtain ⟨⟨e, he, hfound, rfl⟩, rfl, rfl⟩ := hshFindOnce_some h
  refine ⟨?_, ?_, fun l => ⟨?_, ?_⟩⟩
  · rintro ⟨e', he', hhash, hfound'⟩
    obtain rfl := List.inj_on_of_nodup_map hnodup he' he hhash
    rw [hfound] at hfound'
    cases hfound'
  · rw [List.map_map]
    refine List.map_congr_left fun e' _ => ?_
    rw [Function.comp_apply]
    split <;> rfl
  · rintro ⟨e', he', rfl, hfound'⟩
    obtain ⟨f, hf, rfl⟩ := List.mem_map.mp he'
    by_cases hhash : f.blk.hash = e.blk.hash
    · rw [if_pos hhash]
      exact Or.inr hhash
    · rw [if_neg hhash] at hfound' ⊢
      exact Or.inl ⟨f, hf, rfl, hfound'⟩
  · rintro (⟨f, hf, rfl, hfound'⟩ | rfl)
    · refine ⟨_, List.mem_map_of_mem hf, ?_, ?_⟩
      · split <;> rfl
      · split
        · rfl
        · exact hfound'
    · exact ⟨_, List.mem_map_of_mem he, by rw [if_pos rfl], by rw [if_pos rfl]⟩

/-! ## The invariant of the placement -/

/-- The state of the placement: the list is in reverse, so what stands behind a block comes
before it.  Of the references of a block, those to placed blocks go to blocks behind it,
and from those to other blocks only placed blocks behind it are reached. -/
structure Pulling (tbl : BpfHtbl) (rev : List BpfBlk) (tbl' : BpfHtbl) : Prop where
  blks : tbl'.map BpfHashBkt.blk = tbl.map BpfHashBkt.blk
  refs : ∀ xs b ys, rev = xs ++ b :: ys → ∀ l ∈ b.targets, KnownHash tbl l ∧
    (FoundHash tbl' l → l ∈ xs.map BpfBlk.hash) ∧
    (¬ FoundHash tbl' l → ∀ u, Reaches tbl l u → FoundHash tbl' u → u ∈ xs.map BpfBlk.hash)

variable {rev : List BpfBlk} {tbl' : BpfHtbl}

theorem Pulling.nodup (h : Pulling tbl rev tbl') (hok : TableOk tbl) : HashNodup tbl' := by
  have hmap : (tbl'.map fun e => e.blk.hash) = tbl.map fun e => e.blk.hash := by
    calc (tbl'.map fun e => e.blk.hash) = (tbl'.map BpfHashBkt.blk).map BpfBlk.hash := by
          rw [List.map_map]
          rfl
      _ = (tbl.map BpfHashBkt.blk).map BpfBlk.hash := by rw [h.blks]
      _ = tbl.map fun e => e.blk.hash := by
          rw [List.map_map]
          rfl
  rw [HashNodup, hmap]
  exact hok.nodup

/-- The blocks of the table stay the same. -/
theorem Pulling.mem_blk (h : Pulling tbl rev tbl') {b : BpfBlk} :
    (∃ e ∈ tbl', e.blk = b) ↔ ∃ e ∈ tbl, e.blk = b := by
  have hmem : b ∈ tbl'.map BpfHashBkt.blk ↔ b ∈ tbl.map BpfHashBkt.blk := by rw [h.blks]
  simpa only [List.mem_map] using hmem

theorem Pulling.known (h : Pulling tbl rev tbl') {l : UInt64} (hl : KnownHash tbl l) :
    KnownHash tbl' l := by
  obtain ⟨e, he, hhash⟩ := hl
  obtain ⟨e', he', hblk⟩ := h.mem_blk.mpr ⟨e, he, rfl⟩
  exact ⟨e', he', by rw [hblk, hhash]⟩

/-- Where the list is split after the placement. -/
theorem split_insert {xs ys xs' ys' : List BpfBlk} {b c b' : BpfBlk}
    (h : xs ++ c :: b :: ys = xs' ++ b' :: ys') :
    (∃ zs, xs = xs' ++ b' :: zs) ∨ xs' = xs ∧ b' = c ∨
      ∃ zs, b :: ys = zs ++ b' :: ys' ∧ xs' = xs ++ c :: zs := by
  rcases List.append_eq_append_iff.mp h with ⟨zs, rfl, hzs⟩ | ⟨zs, rfl, hzs⟩
  · cases zs with
    | nil =>
      obtain ⟨rfl, -⟩ := List.cons.inj hzs
      exact Or.inr (Or.inl ⟨by rw [List.append_nil], rfl⟩)
    | cons z zs =>
      obtain ⟨rfl, hzs'⟩ := List.cons.inj hzs
      exact Or.inr (Or.inr ⟨zs, hzs', rfl⟩)
  · cases zs with
    | nil =>
      obtain ⟨rfl, -⟩ := List.cons.inj hzs
      exact Or.inr (Or.inl ⟨by rw [List.append_nil], rfl⟩)
    | cons z zs =>
      obtain ⟨rfl, -⟩ := List.cons.inj hzs
      exact Or.inl ⟨zs, rfl⟩

/-- **Each placement keeps the references in order.** -/
theorem pulling_genBpfPullOnce {rev' : List BpfBlk} {tbl'' : BpfHtbl}
    (htbl : TableOrdered host target tbl z) (h : Pulling tbl rev tbl')
    (hp : genBpfPullOnce host target tbl' rev = some (rev', tbl'')) :
    Pulling tbl rev' tbl'' := by
  obtain ⟨xs, b, ys, t, blk, rfl, ht, hfind, rfl, hxs⟩ := genBpfPullOnce_cases hp
  obtain ⟨hnot, hblks, hfound⟩ := foundHash_hshFindOnce (h.nodup htbl.ok) hfind
  obtain ⟨⟨e', he', -, rfl⟩, hhash, -⟩ := hshFindOnce_some hfind
  obtain ⟨e, he, hblk⟩ := h.mem_blk.mp ⟨e', he', rfl⟩
  obtain ⟨c, hc⟩ : ∃ c, c = reloadBlk host target b.accEnd e'.blk := ⟨_, rfl⟩
  have hchash : c.hash = t := by rw [hc, hash_reloadBlk, hhash]
  rw [← hc]
  refine ⟨hblks.trans h.blks, fun xs' b' ys' hsplit l hl => ?_⟩
  rcases split_insert hsplit with ⟨zs, rfl⟩ | ⟨rfl, rfl⟩ | ⟨zs, hzs, rfl⟩
  · -- a block behind the one that jumps refers to placed blocks only
    obtain ⟨hknown, hplaced, -⟩ := h.refs xs' b' (zs ++ b :: ys) (by simp) l hl
    have hl' : FoundHash tbl' l := hshFindOnce_eq_none (hxs b' (by simp) l hl) (h.known hknown)
    exact ⟨hknown, fun _ => hplaced hl', fun hn => (hn ((hfound l).mpr (Or.inl hl'))).elim⟩
  · -- the placed block refers to what its entry refers to
    have hlt : l ∈ e.blk.targets := by
      rw [hc] at hl
      rw [hblk]
      exact targets_reloadBlk hl
    have hrefers : Refers tbl t l := ⟨e, he, by rw [hblk, hhash], hlt⟩
    have hbehind : ∀ u, Reaches tbl l u → FoundHash tbl'' u → u ∈ xs'.map BpfBlk.hash := by
      intro u hu hfu
      rcases (hfound u).mp hfu with hfu | rfl
      · exact (h.refs xs' b ys rfl t ht).2.2 hnot u (hu.head hrefers) hfu
      · exact (htbl.not_reaches hrefers hu).elim
    exact ⟨(htbl.pos e he l hlt).1, hbehind l Relation.ReflTransGen.refl,
      fun _ u hu hfu => hbehind u hu hfu⟩
  · -- a block in front of it has one more placed block behind it
    obtain ⟨hknown, hplaced, hunplaced⟩ := h.refs (xs ++ zs) b' ys'
      (by rw [List.append_assoc, ← hzs]) l hl
    have hmem : ∀ {u : UInt64}, u ∈ (xs ++ zs).map BpfBlk.hash ∨ u = t →
        u ∈ (xs ++ c :: zs).map BpfBlk.hash := by
      intro u hu
      rw [List.map_append, List.mem_append] at hu ⊢
      rw [List.map_cons, List.mem_cons, hchash]
      tauto
    refine ⟨hknown, fun hfl => ?_, fun hn u hu hfu => ?_⟩
    · exact hmem (((hfound l).mp hfl).imp_left hplaced)
    · have hn' : ¬ FoundHash tbl' l := fun hfl => hn ((hfound l).mpr (Or.inl hfl))
      exact hmem (((hfound u).mp hfu).imp_left (hunplaced hn' u hu))

/-! ## Enough rounds -/

/-- A placement marks an entry. -/
theorem unfound_hshFindOnce {t : UInt64} {b : BpfBlk} {tbl tbl' : BpfHtbl}
    (h : hshFindOnce tbl t = some (b, tbl')) : unfound tbl' < unfound tbl := by
  obtain ⟨⟨e, he, hfound, hblk⟩, hhash, rfl⟩ := hshFindOnce_some h
  have hle : ∀ tbl : BpfHtbl, unfound (tbl.map fun e => if e.blk.hash = t then
      { e with found := true } else e) ≤ unfound tbl := by
    intro tbl
    rw [unfound, List.filter_map, List.length_map]
    refine (List.monotone_filter_right tbl fun e he => ?_).length_le
    rw [Function.comp_apply] at he
    split at he
    · cases he
    · exact he
  obtain ⟨xs, ys, rfl⟩ := List.append_of_mem he
  have hmark : (if e.blk.hash = t then { e with found := true } else e).found = true := by
    rw [if_pos (by rw [hblk, hhash])]
  have hxs := hle xs
  have hys := hle ys
  simp only [unfound, List.map_append, List.map_cons, List.filter_append, List.filter_cons, hmark,
    hfound, List.length_append, List.length_cons, Bool.not_true, Bool.not_false, if_true,
    Bool.false_eq_true, if_false] at hxs hys ⊢
  omega

/-- A round places one block. -/
theorem genBpfPullOnce_count {rev' : List BpfBlk} {tbl'' : BpfHtbl}
    (h : genBpfPullOnce host target tbl' rev = some (rev', tbl'')) :
    rev'.length = rev.length + 1 ∧ unfound tbl'' < unfound tbl' := by
  obtain ⟨xs, b, ys, t, blk, rfl, -, hfind, rfl, -⟩ := genBpfPullOnce_cases h
  refine ⟨?_, unfound_hshFindOnce hfind⟩
  simp only [List.length_append, List.length_cons]
  omega

/-- **All blocks are placed in the end**, and there are no more of them than entries that
were not placed before. -/
theorem genBpfPullAll_spec (htbl : TableOrdered host target tbl z) {n : ℕ}
    (h : Pulling tbl rev tbl') (hn : unfound tbl' ≤ n) :
    ∃ tbl'', Pulling tbl (genBpfPullAll host target n rev tbl') tbl'' ∧
      genBpfPullOnce host target tbl'' (genBpfPullAll host target n rev tbl') = none ∧
      (genBpfPullAll host target n rev tbl').length ≤ rev.length + unfound tbl' := by
  induction n generalizing rev tbl' with
  | zero =>
    refine ⟨tbl', h, ?_, Nat.le_add_right _ _⟩
    cases hp : genBpfPullOnce host target tbl' rev with
    | none => exact hp
    | some p =>
      have := (genBpfPullOnce_count hp).2
      omega
  | succ n ih =>
    rw [genBpfPullAll]
    cases hp : genBpfPullOnce host target tbl' rev with
    | none => exact ⟨tbl', h, hp, Nat.le_add_right _ _⟩
    | some p =>
      obtain ⟨rev₁, tbl₁⟩ := p
      obtain ⟨hlen, hun⟩ := genBpfPullOnce_count hp
      obtain ⟨tbl'', hpull, hdone, hle⟩ := ih (pulling_genBpfPullOnce htbl h hp) (by omega)
      exact ⟨tbl'', hpull, hdone, hle.trans (by omega)⟩

/-! ## The list of the compiler -/

/-- Before the placement everything that is reached and counts as placed is at the end. -/
theorem pulling_start (htbl : TableOrdered host target tbl z) {bs : List BpfBlk}
    (hbs : Tailwise (TopPlaced host target tbl) bs) (hz : ∀ b ∈ bs.getLast?, b.hash = z)
    (hlast : ∀ b ∈ bs.getLast?, b.targets = []) : Pulling tbl bs.reverse tbl := by
  refine ⟨rfl, fun xs b ys hsplit l hl => ?_⟩
  have hbs' : bs = ys.reverse ++ b :: xs.reverse := by
    rw [← List.reverse_reverse bs, hsplit, List.reverse_append, List.reverse_cons,
      List.append_assoc, List.singleton_append]
  have hmem : ∀ {u : UInt64}, u ∈ xs.reverse.map BpfBlk.hash → u ∈ xs.map BpfBlk.hash := by
    intro u hu
    rwa [List.map_reverse, List.mem_reverse] at hu
  obtain ⟨hknown, hcases⟩ := (hbs' ▸ hbs).of_split.refs l hl
  -- the last block is behind every block that refers to something
  have hzmem : z ∈ xs.map BpfBlk.hash := by
    cases xs with
    | nil =>
      have hb : bs.getLast? = some b := by rw [← List.head?_reverse, hsplit]; rfl
      rw [hlast b hb] at hl
      cases hl
    | cons x xs =>
      have hx : bs.getLast? = some x := by rw [← List.head?_reverse, hsplit]; rfl
      rw [← hz x hx]
      exact List.mem_cons_self
  have hfoundz : ∀ {u : UInt64}, InnerHash host target tbl u → FoundHash tbl u → u = z := by
    rintro u ⟨e, he, rfl, hinner⟩ ⟨e', he', hhash, hfound⟩
    obtain rfl := htbl.ok.eq_of_hash he' he hhash
    exact htbl.listed e' he' hfound hinner
  refine ⟨hknown, fun hfl => ?_, fun hn u hu hfu => ?_⟩
  · rcases hcases with hinner | hl'
    · rw [hfoundz hinner hfl]
      exact hzmem
    · exact hmem hl'
  · obtain ⟨e, he, rfl⟩ := hknown
    have hfound : e.found = false := by
      cases hf : e.found with
      | false => rfl
      | true => exact (hn ⟨e, he, rfl, hf⟩).elim
    have hinner : InnerHash host target tbl e.blk.hash := ⟨e, he, rfl, (htbl.pulled e he hfound).1⟩
    rw [hfoundz (htbl.innerHash hinner hu) hfu]
    exact hzmem

/-- **Every reference goes down the list.** -/
theorem forwardRefs_genBpfPull (htbl : TableOrdered host target tbl z) {bs : List BpfBlk}
    (hbs : Tailwise (TopPlaced host target tbl) bs) (hz : ∀ b ∈ bs.getLast?, b.hash = z)
    (hlast : ∀ b ∈ bs.getLast?, b.targets = []) :
    ForwardRefs (genBpfPull host target bs tbl) ∧
      (genBpfPull host target bs tbl).length ≤ bs.length + unfound tbl := by
  obtain ⟨tbl'', hpull, hdone, hle⟩ :=
    genBpfPullAll_spec htbl (pulling_start htbl hbs hz hlast) (Nat.le_refl _)
  refine ⟨tailwise_of_splits fun xs b ys hsplit l hl => ?_, ?_⟩
  · have hrev : genBpfPullAll host target (unfound tbl) bs.reverse tbl =
        ys.reverse ++ b :: xs.reverse := by
      rw [← List.reverse_reverse (genBpfPullAll host target (unfound tbl) bs.reverse tbl)]
      rw [show (genBpfPullAll host target (unfound tbl) bs.reverse tbl).reverse =
        xs ++ b :: ys from hsplit]
      simp
    obtain ⟨hknown, hplaced, -⟩ := hpull.refs _ b _ hrev l hl
    have hfind := genBpfPullOnce_eq_none hdone b (by rw [hrev]; simp) l hl
    have hmem := hplaced (hshFindOnce_eq_none hfind (hpull.known hknown))
    rwa [List.map_reverse, List.mem_reverse] at hmem
  · rw [List.length_reverse] at hle
    rw [genBpfPull, List.length_reverse]
    exact hle

/-- Loads in front of a block. -/
theorem straight_reloadBlk (accEnd : AccState) {b : BpfBlk} (hb : b.Straight) :
    (reloadBlk host target accEnd b).Straight ∧
      (reloadBlk host target accEnd b).blks.length ≤ b.blks.length + 2 := by
  unfold reloadBlk
  cases b.accStart.offset with
  | none => exact ⟨hb, Nat.le_add_right _ _⟩
  | some offset =>
    dsimp only
    split
    · exact ⟨hb, Nat.le_add_right _ _⟩
    · obtain ⟨init, last, hblks, hinit, hlast⟩ := hb
      refine ⟨⟨bpfInstr host target BPF_LD_ABS offset :: (if b.accStart.mask ≠ ARG_MASK_MAX then
        [bpfInstr host target BPF_ALU_AND b.accStart.mask] else []) ++ init,
          last, ?_, ?_, hlast⟩, ?_⟩
      · rw [List.append_assoc, hblks]
      · intro i hi
        rcases List.mem_append.mp hi with hi | hi
        · rcases List.mem_cons.mp hi with rfl | hi
          · exact ⟨rfl, rfl, _, rfl⟩
          · split at hi
            · rw [List.mem_singleton.mp hi]
              exact ⟨rfl, rfl, _, rfl⟩
            · cases hi
        · exact hinit i hi
      · rw [List.length_append, List.length_cons]
        split <;> simp <;> omega

/-- The blocks of the list jump at their end and are short. -/
theorem straight_genBpfPull (htbl : TableOrdered host target tbl z) {bs : List BpfBlk}
    (hbs : Tailwise (TopPlaced host target tbl) bs) :
    ∀ b ∈ genBpfPull host target bs tbl, b.Straight ∧ b.blks.length ≤ 5 := by
  intro b hb
  rcases mem_genBpfPull hb with hb | ⟨e, he, hfound, accEnd, rfl⟩
  · obtain ⟨xs, ys, rfl⟩ := List.append_of_mem hb
    have hplaced := hbs.of_split
    exact ⟨hplaced.straight, hplaced.length.trans (by decide)⟩
  · obtain ⟨-, hstraight, hlen⟩ := htbl.pulled e he hfound
    obtain ⟨hreload, hle⟩ := straight_reloadBlk accEnd hstraight
    exact ⟨hreload, hle.trans (Nat.add_le_add_right hlen 2)⟩

end Draco
