/-
# Long jumps and distances

A conditional jump of the machine skips at most 255 instructions.  From the tail of the
list to its head the compiler checks every jump, and where the target is out of reach it
inserts a block behind the jumping one that has the hash of the target: an unconditional
jump there, or a copy of the target if that is a return (`genBpfLongJumps`).  Afterwards it
replaces the hashes by distances, to the first block with the hash or, for an unconditional
jump, to the last one (`genBpfResolve`).

What is inserted keeps whatever the blocks of the list keep (`sound_genBpfLongJumps`), so a
program does what the list does (`exec_genBpfResolve`).  One part of this depends on the
byte order: the copy of a return converts its action to the byte order of the target for a
second time, which is right only where host and target agree; elsewhere it returns the
action with its bytes swapped (`blkEffect_retCopy`).
-/
import Draco.BlockGraph

namespace Draco

open LabelledCode

variable {host target : ArchEndian} {d : BpfData}

/-! ## What is inserted -/

/-- A copy of a return. -/
def retCopy (host target : ArchEndian) (c : BpfBlk) : BpfBlk :=
  { genBpfAction host target c.retK with hash := c.hash }

/-- A jump to the block with a hash, under the same hash. -/
def trampoline (host target : ArchEndian) (h : UInt64) : BpfBlk :=
  ⟨[⟨htot16 host target BPF_JMP_JA, .no, .no, .hsh h⟩], accStateUndef, accStateUndef, h⟩

/-- The blocks that may be inserted in front of a list. -/
def Inserted (host target : ArchEndian) (post : List BpfBlk) (b : BpfBlk) : Prop :=
  ∃ c ∈ post, c.IsRet host target ∧ b = retCopy host target c ∨ b = trampoline host target c.hash

theorem genBpfBuildJmpRet_cases {post : List BpfBlk} {len : ℕ} {bRet : BpfBlk}
    {r : Option BpfBlk} (h : genBpfBuildJmpRet host target post len bRet = some r) :
    r = none ∧ (jmpWalk (atLast bRet.hash) post len = some true ∨
        jmpWalk (atHash bRet.hash) post len = some true) ∨
      r = some (retCopy host target bRet) := by
  simp only [genBpfBuildJmpRet, Option.bind_eq_bind, Option.bind_eq_some_iff] at h
  obtain ⟨near, hnear, h⟩ := h
  split at h
  next hn =>
    rw [hn] at hnear
    exact Or.inl ⟨(Option.some.inj h).symm, Or.inl hnear⟩
  next =>
    obtain ⟨near', hnear', h⟩ := Option.bind_eq_some_iff.mp h
    split at h
    next hn =>
      rw [hn] at hnear'
      exact Or.inl ⟨(Option.some.inj h).symm, Or.inr hnear'⟩
    next => exact Or.inr (Option.some.inj h).symm

/-- **What the check of a jump does.**  The target is in the list; either it is in reach, or
a block with its hash is to be inserted. -/
theorem genBpfBuildJmp_cases {post : List BpfBlk} {len : ℕ} {h : UInt64} {r : Option BpfBlk}
    (hr : genBpfBuildJmp host target post len h = some r) :
    r = none ∧ (jmpWalk (atLast h) post len = some true ∨
        jmpWalk (atHash h) post len = some true) ∨
      ∃ b, r = some b ∧ Inserted host target post b ∧ b.hash = h := by
  simp only [genBpfBuildJmp, Option.bind_eq_bind, Option.bind_eq_some_iff] at hr
  obtain ⟨bTgt, hfind, ret, hret, hr⟩ := hr
  have hmem : bTgt ∈ post := List.mem_reverse.mp (List.mem_of_find?_eq_some hfind)
  have hhash : bTgt.hash = h := by simpa using List.find?_some hfind
  subst hhash
  cases ret with
  | some bNew =>
    refine Or.inr ⟨bNew, (Option.some.inj hr).symm, ?_⟩
    split at hret
    next his =>
      rcases genBpfBuildJmpRet_cases hret with ⟨h, -⟩ | h
      · cases h
      · obtain rfl := Option.some.inj h
        exact ⟨⟨bTgt, hmem, Or.inl ⟨his, rfl⟩⟩, rfl⟩
    next => cases hret
  | none =>
    obtain ⟨near, hnear, hr⟩ := Option.bind_eq_some_iff.mp hr
    split at hr
    next hn =>
      rw [hn] at hnear
      exact Or.inl ⟨(Option.some.inj hr).symm, Or.inl hnear⟩
    next =>
      obtain ⟨near', hnear', hr⟩ := Option.bind_eq_some_iff.mp hr
      split at hr
      next hn =>
        rw [hn] at hnear'
        exact Or.inl ⟨(Option.some.inj hr).symm, Or.inr hnear'⟩
      next =>
        exact Or.inr ⟨_, (Option.some.inj hr).symm, ⟨bTgt, hmem, Or.inr rfl⟩, rfl⟩

/-- Some blocks have been inserted in front of a list. -/
inductive Extended (host target : ArchEndian) (post : List BpfBlk) : List BpfBlk → Prop where
  | refl : Extended host target post post
  | insert {post' : List BpfBlk} {b : BpfBlk} (h : Extended host target post post')
      (hb : Inserted host target post' b) : Extended host target post (b :: post')

/-- Insertions before a list that has had some are insertions before it. -/
theorem Extended.trans {post post' post'' : List BpfBlk} (h : Extended host target post post')
    (h' : Extended host target post' post'') : Extended host target post post'' := by
  induction h' with
  | refl => exact h
  | insert _ hb ih => exact .insert ih hb

/-- What one check does with the blocks behind a jump. -/
theorem checkJmp_cases {post post' : List BpfBlk} {len n : ℕ} {j : BpfJump}
    (h : checkJmp host target post len j = some (post', n)) :
    n = 0 ∧ post' = post ∧ (∀ l, j = .hsh l → jmpWalk (atLast l) post len = some true ∨
        jmpWalk (atHash l) post len = some true) ∨
      n = 1 ∧ ∃ b l, j = .hsh l ∧ post' = b :: post ∧ Inserted host target post b ∧
        b.hash = l := by
  cases j with
  | hsh l =>
    obtain ⟨r, hr, hp⟩ := Option.map_eq_some_iff.mp h
    rcases genBpfBuildJmp_cases hr with ⟨rfl, hnear⟩ | ⟨b, rfl, hb, hhash⟩
    · obtain ⟨rfl, rfl⟩ := Prod.mk.inj hp
      refine Or.inl ⟨rfl, rfl, fun l' hl' => ?_⟩
      cases hl'
      exact hnear
    · obtain ⟨rfl, rfl⟩ := Prod.mk.inj hp
      exact Or.inr ⟨rfl, b, l, rfl, rfl, hb, hhash⟩
  | no =>
    obtain ⟨rfl, rfl⟩ := Prod.mk.inj (Option.some.inj h)
    exact Or.inl ⟨rfl, rfl, fun l hl => by cases hl⟩
  | imm k =>
    obtain ⟨rfl, rfl⟩ := Prod.mk.inj (Option.some.inj h)
    exact Or.inl ⟨rfl, rfl, fun l hl => by cases hl⟩
  | k v => cases h
  | nxt m => cases h

/-- The check of a jump inserts blocks in front of the rest at most. -/
theorem extended_checkJmp {post post' : List BpfBlk} {len n : ℕ} {j : BpfJump}
    (h : checkJmp host target post len j = some (post', n)) :
    Extended host target post post' := by
  rcases checkJmp_cases h with ⟨-, rfl, -⟩ | ⟨-, b, l, -, rfl, hb, -⟩
  · exact .refl
  · exact .insert .refl hb

theorem checkJmps_cons {i : BpfInstr} {is : List BpfInstr} {len n : ℕ} {post post' : List BpfBlk}
    (h : checkJmps host target (i :: is) len post = some (post', n)) :
    ∃ post₁ n₁ post₂ n₂ n₃, checkJmp host target post len i.jt = some (post₁, n₁) ∧
      checkJmp host target post₁ len i.jf = some (post₂, n₂) ∧
      checkJmps host target is (len + 1) post₂ = some (post', n₃) ∧ n = n₁ + n₂ + n₃ := by
  simp only [checkJmps, Option.bind_eq_bind, Option.bind_eq_some_iff] at h
  obtain ⟨⟨post₁, n₁⟩, h₁, ⟨post₂, n₂⟩, h₂, ⟨post₃, n₃⟩, h₃, h⟩ := h
  obtain ⟨rfl, rfl⟩ := Prod.mk.inj (Option.some.inj h)
  exact ⟨post₁, n₁, post₂, n₂, n₃, h₁, h₂, h₃, rfl⟩

/-- So do the checks of a block's jumps. -/
theorem extended_checkJmps {is : List BpfInstr} {len n : ℕ} {post post' : List BpfBlk}
    (h : checkJmps host target is len post = some (post', n)) :
    Extended host target post post' := by
  induction is generalizing len n post with
  | nil =>
    obtain ⟨rfl, -⟩ := Prod.mk.inj (Option.some.inj h)
    exact .refl
  | cons i is ih =>
    obtain ⟨post₁, n₁, post₂, n₂, n₃, h₁, h₂, h₃, -⟩ := checkJmps_cons h
    exact ((extended_checkJmp h₁).trans (extended_checkJmp h₂)).trans (ih h₃)

/-- Where nothing had to be inserted, every jump of the block is in reach. -/
theorem near_of_checkJmps {is : List BpfInstr} {len : ℕ} {post post' : List BpfBlk}
    (h : checkJmps host target is len post = some (post', 0)) :
    post' = post ∧ ∀ xs i ys, is = xs ++ i :: ys → ∀ l, i.jt = .hsh l ∨ i.jf = .hsh l →
      jmpWalk (atLast l) post (len + xs.length) = some true ∨
        jmpWalk (atHash l) post (len + xs.length) = some true := by
  induction is generalizing len with
  | nil =>
    obtain ⟨rfl, -⟩ := Prod.mk.inj (Option.some.inj h)
    exact ⟨rfl, fun xs i ys hsplit => by simp at hsplit⟩
  | cons i is ih =>
    obtain ⟨post₁, n₁, post₂, n₂, n₃, h₁, h₂, h₃, hn⟩ := checkJmps_cons h
    obtain ⟨rfl, rfl, rfl⟩ : n₁ = 0 ∧ n₂ = 0 ∧ n₃ = 0 := by omega
    rcases checkJmp_cases h₁ with ⟨-, rfl, hjt⟩ | ⟨h, -⟩
    · rcases checkJmp_cases h₂ with ⟨-, rfl, hjf⟩ | ⟨h, -⟩
      · obtain ⟨hpost, hrest⟩ := ih h₃
        refine ⟨hpost, fun xs i' ys hsplit l hl => ?_⟩
        cases xs with
        | nil =>
          obtain ⟨rfl, rfl⟩ := List.cons.inj hsplit
          exact hl.elim (hjt l) (hjf l)
        | cons x xs =>
          obtain ⟨rfl, rfl⟩ := List.cons.inj hsplit
          have := hrest xs i' ys rfl l hl
          rwa [List.length_cons, Nat.add_comm xs.length 1, ← Nat.add_assoc]
      · cases h
    · cases h

/-- **What the check of a block does.**  Some blocks are inserted behind it, and then all its
jumps are in reach. -/
theorem settleJmps_cases {b : BpfBlk} {n : ℕ} {post post' : List BpfBlk}
    (h : settleJmps host target b n post = some post') :
    Extended host target post post' ∧
      checkJmps host target b.blks.reverse 0 post' = some (post', 0) := by
  induction n generalizing post with
  | zero => cases h
  | succ n ih =>
    simp only [settleJmps, Option.bind_eq_bind, Option.bind_eq_some_iff] at h
    obtain ⟨⟨post₁, m⟩, hcheck, h⟩ := h
    split at h
    next hm =>
      obtain rfl := Option.some.inj h
      obtain rfl : m = 0 := hm
      obtain ⟨rfl, -⟩ := near_of_checkJmps hcheck
      exact ⟨.refl, hcheck⟩
    next =>
      obtain ⟨hext, hdone⟩ := ih h
      exact ⟨(extended_checkJmps hcheck).trans hext, hdone⟩

/-! ## What the insertions keep -/

/-- **Rule for the insertions.**  What holds of the blocks of the list, and of a block that is
inserted in front of such blocks, holds of all blocks in the end. -/
theorem forall_genBpfLongJumps {S : BpfBlk → Prop}
    (hins : ∀ post b, (∀ c ∈ post, S c) → Inserted host target post b → S b)
    {rev post bs : List BpfBlk} (hrev : ∀ b ∈ rev, S b) (hpost : ∀ b ∈ post, S b)
    (h : genBpfLongJumps host target rev post = some bs) : ∀ b ∈ bs, S b := by
  have hext : ∀ {post post'}, Extended host target post post' → (∀ b ∈ post, S b) →
      ∀ b ∈ post', S b := by
    intro post post' hext hpost
    induction hext with
    | refl => exact hpost
    | insert _ hb ih =>
      intro c hc
      rcases List.mem_cons.mp hc with rfl | hc
      · exact hins _ _ ih hb
      · exact ih c hc
  induction rev generalizing post with
  | nil =>
    obtain rfl := Option.some.inj h
    exact hpost
  | cons b rev ih =>
    obtain ⟨post', hsettle, h⟩ := Option.bind_eq_some_iff.mp h
    have hpost' := hext (settleJmps_cases hsettle).1 hpost
    refine ih (fun c hc => hrev c (List.mem_cons_of_mem b hc)) (fun c hc => ?_) h
    rcases List.mem_cons.mp hc with rfl | hc
    · exact hrev c List.mem_cons_self
    · exact hpost' c hc

theorem genBpfLongJumps_append (rev rev' post : List BpfBlk) :
    genBpfLongJumps host target (rev ++ rev') post =
      (genBpfLongJumps host target rev post).bind (genBpfLongJumps host target rev') := by
  induction rev generalizing post with
  | nil => rfl
  | cons b rev ih =>
    rw [List.cons_append, genBpfLongJumps, genBpfLongJumps]
    cases settleJmps host target b (2 * b.blks.length + 1) post with
    | none => rfl
    | some post' => exact ih (b :: post')

/-- Nothing is inserted in front of the first block. -/
theorem genBpfLongJumps_cons {b : BpfBlk} {bs bs' : List BpfBlk}
    (h : genBpfLongJumps host target (b :: bs).reverse [] = some bs') :
    ∃ post post', genBpfLongJumps host target bs.reverse [] = some post ∧
      Extended host target post post' ∧ bs' = b :: post' := by
  rw [List.reverse_cons, genBpfLongJumps_append] at h
  obtain ⟨post, hpost, h⟩ := Option.bind_eq_some_iff.mp h
  obtain ⟨post', hsettle, h⟩ := Option.bind_eq_some_iff.mp h
  exact ⟨post, post', hpost, (settleJmps_cases hsettle).1, (Option.some.inj h).symm⟩

/-- An inserted jump goes where it was sent, with the accumulator as it is. -/
theorem blkEffect_trampoline (l : UInt64) (acc : UInt32) :
    blkEffect host target d (trampoline host target l).blks acc = .goto l acc := by
  rw [trampoline, blkEffect, bodyEffect_singleton]
  simp [instrEffect]

/-- The effect of a return, whose jumps do not matter. -/
theorem blkEffect_isRet {b : BpfBlk} (hret : b.IsRet host target) {acc r : UInt32}
    (h : blkEffect host target d b.blks acc = .done r) : ttoh32 host target b.retK = r := by
  obtain ⟨i, hi, hop⟩ : ∃ i, b.blks = [i] ∧ i.op = htot16 host target BPF_RET := by
    obtain ⟨i, hi, hop⟩ := List.map_eq_singleton_iff.mp hret
    exact ⟨i, hi, hop⟩
  obtain ⟨op, jt, jf, k⟩ := i
  obtain rfl : op = htot16 host target BPF_RET := hop
  rw [hi, blkEffect, bodyEffect_singleton] at h
  rw [BpfBlk.retK, hi]
  cases k with
  | k v =>
    simp +decide [instrEffect] at h
    exact h
  | no => simp [instrEffect] at h
  | nxt n => simp [instrEffect] at h
  | imm j => simp [instrEffect] at h
  | hsh l => simp +decide [instrEffect] at h

/-- A return does not jump. -/
theorem not_goto_of_isRet {b : BpfBlk} (hret : b.IsRet host target) {acc acc' : UInt32}
    {l : UInt64} : blkEffect host target d b.blks acc ≠ .goto l acc' := by
  intro h
  obtain ⟨i, hi, hop⟩ := List.map_eq_singleton_iff.mp hret
  obtain ⟨op, jt, jf, k⟩ := i
  obtain rfl : op = htot16 host target BPF_RET := hop
  rw [hi, blkEffect, bodyEffect_singleton] at h
  cases k <;> simp +decide [instrEffect] at h

/-- **The insertions keep what the blocks of the list keep**, whatever that is, if the
program is compiled on a machine with the byte order of the target. -/
theorem sound_genBpfLongJumps {R : UInt64 → UInt32 → UInt32 → Prop} (hhost : host = target)
    {rev bs : List BpfBlk}
    (hrev : ∀ b ∈ rev, Sound BpfBlk.hash (fun b => blkEffect host target d b.blks) R b)
    (h : genBpfLongJumps host target rev [] = some bs) :
    ∀ b ∈ bs, Sound BpfBlk.hash (fun b => blkEffect host target d b.blks) R b := by
  refine forall_genBpfLongJumps ?_ hrev (fun b hb => by cases hb) h
  rintro post b hpost ⟨c, hc, ⟨hret, rfl⟩ | rfl⟩ acc r hr
  · -- a copy of a return does what the return does
    refine Or.inl ?_
    rcases hpost c hc acc r hr with hdone | ⟨l, acc', hgo, -⟩
    · show blkEffect host target d (genBpfAction host target c.retK).blks acc = .done r
      rw [genBpfAction, blkEffect_ret, ← blkEffect_isRet hret hdone, hhost, ttoh32, if_pos rfl]
    · exact (not_goto_of_isRet hret hgo).elim
  · exact Or.inr ⟨c.hash, acc, blkEffect_trampoline c.hash acc, hr⟩

/-- **The copy of a return for a target of the other byte order.**  It returns the action of
the return with its bytes swapped. -/
theorem blkEffect_retCopy (hhost : host ≠ target) {c : BpfBlk} (hret : c.IsRet host target)
    {acc r : UInt32} (h : blkEffect host target d c.blks acc = .done r) :
    blkEffect host target d (retCopy host target c).blks acc = .done (byteSwap32 r) := by
  show blkEffect host target d (genBpfAction host target c.retK).blks acc = _
  rw [genBpfAction, blkEffect_ret, ← blkEffect_isRet hret h, ttoh32, if_neg hhost.symm,
    byteSwap32_byteSwap32]

/-! ## Distances -/

/-- The number of instructions of some blocks. -/
abbrev instrCnt (bs : List BpfBlk) : ℕ := size BpfBlk.blks bs

/-- The first distance is where a block with the hash starts. -/
theorem startsAt_distFirst {l : UInt64} {bs : List BpfBlk} {n : ℕ} (h : distFirst l bs = some n) :
    StartsAt BpfBlk.hash BpfBlk.blks bs l n := by
  induction bs generalizing n with
  | nil => cases h
  | cons b bs ih =>
    rw [distFirst] at h
    split at h
    next hb =>
      obtain rfl := Option.some.inj h
      exact ⟨[], b, bs, rfl, hb, rfl⟩
    next =>
      obtain ⟨m, hm, rfl⟩ := Option.map_eq_some_iff.mp h
      exact (ih hm).cons b

theorem startsAt_distLast {l : UInt64} {bs : List BpfBlk} {n : ℕ} (h : distLast l bs = some n) :
    StartsAt BpfBlk.hash BpfBlk.blks bs l n := by
  induction bs generalizing n with
  | nil => cases h
  | cons b bs ih =>
    rw [distLast] at h
    cases hm : distLast l bs with
    | some m =>
      rw [hm] at h
      obtain rfl := Option.some.inj h
      exact (ih hm).cons b
    | none =>
      rw [hm] at h
      by_cases hb : b.hash = l
      · simp only [if_pos hb, Option.some.injEq] at h
        subst h
        exact ⟨[], b, bs, rfl, hb, rfl⟩
      · simp only [if_neg hb, reduceCtorEq] at h

/-- A conditional jump that was resolved skips what lies before its target. -/
theorem resolveJmp_hsh {post : List BpfBlk} {len : ℕ} {l : UInt64} {j : UInt8}
    (h : (resolveJmp post len (.hsh l)).bind rawJmp = some j) :
    ∃ n, StartsAt BpfBlk.hash BpfBlk.blks post l n ∧ j.toNat = len + n := by
  obtain ⟨j', hj', h⟩ := Option.bind_eq_some_iff.mp h
  obtain ⟨n, hn, hj'⟩ := Option.bind_eq_some_iff.mp hj'
  split at hj'
  next hle =>
    obtain rfl := Option.some.inj hj'
    obtain rfl := Option.some.inj h
    refine ⟨n, startsAt_distFirst hn, ?_⟩
    rw [UInt8.toNat_ofNat']
    exact Nat.mod_eq_of_lt (Nat.lt_succ_of_le hle)
  next => cases hj'

/-! ## The program does what the blocks do -/

/-- The effect of a conditional jump and of its translation. -/
theorem jump_resolved {post : List BpfBlk} {len : ℕ} {i : BpfInstr} {jt jf : UInt8}
    (hjt : (resolveJmp post len i.jt).bind rawJmp = some jt)
    (hjf : (resolveJmp post len i.jf).bind rawJmp = some jf) (c : Prop) [Decidable c]
    (acc : UInt32) :
    jumpEffect (if c then i.jt else i.jf) acc = .stuck ∨
      ∃ l n, jumpEffect (if c then i.jt else i.jf) acc = .goto l acc ∧
        StartsAt BpfBlk.hash BpfBlk.blks post l n ∧
        (if c then jt.toNat else jf.toNat) = len + n := by
  have hjump : ∀ (j : BpfJump) (k : UInt8), (resolveJmp post len j).bind rawJmp = some k →
      jumpEffect j acc = .stuck ∨ ∃ l n, jumpEffect j acc = .goto l acc ∧
        StartsAt BpfBlk.hash BpfBlk.blks post l n ∧ k.toNat = len + n := by
    intro j k hj
    cases j with
    | hsh l =>
      obtain ⟨n, hn, hk⟩ := resolveJmp_hsh hj
      exact Or.inr ⟨l, n, rfl, hn, hk⟩
    | no => exact Or.inl rfl
    | k v => exact Or.inl rfl
    | nxt m => exact Or.inl rfl
    | imm m => exact Or.inl rfl
  by_cases hc : c
  · rw [if_pos hc, if_pos hc]
    exact hjump i.jt jt hjt
  · rw [if_neg hc, if_neg hc]
    exact hjump i.jf jf hjf

/-- What an instruction of a block and its translation do. -/
theorem instrEffect_genBpfInstr {post : List BpfBlk} {len : ℕ} {i : BpfInstr} {r : BpfInstrRaw}
    (h : genBpfInstr host target post len i = some r) (hsize : len + instrCnt post < 2 ^ 32)
    (acc : UInt32) :
    instrEffect host target d i acc = .stuck ∨
      (∃ acc', instrEffect host target d i acc = .next acc' ∧
        bpfStep host target d r acc = .next acc') ∨
      (∃ l n, instrEffect host target d i acc = .goto l acc ∧
        StartsAt BpfBlk.hash BpfBlk.blks post l n ∧
        bpfStep host target d r acc = .skip (len + n) acc) ∨
      ∃ action, instrEffect host target d i acc = .done action ∧
        bpfStep host target d r acc = .done action := by
  simp only [genBpfInstr, Option.bind_eq_bind, Option.bind_eq_some_iff] at h
  obtain ⟨jt, hjt, jf, hjf, k, ⟨k', hk', hk⟩, h⟩ := h
  obtain rfl := Option.some.inj h
  obtain ⟨op, ijt, ijf, ik⟩ := i
  have hjump := fun (c : Prop) [Decidable c] => jump_resolved (i := ⟨op, ijt, ijf, ik⟩)
    (Option.bind_eq_some_iff.mpr hjt) (Option.bind_eq_some_iff.mpr hjf) c acc
  cases ik with
  | k v =>
    obtain rfl := Option.some.inj hk'
    obtain rfl := Option.some.inj hk
    simp only [instrEffect, bpfStep]
    generalize ttoh16 host target op = code
    generalize ttoh32 host target v = x
    by_cases hld : code = BPF_LD_ABS
    · by_cases hx : LoadValid x
      · exact Or.inr (Or.inl ⟨d.word target x, by simp [hld, hx], by simp [hld, hx]⟩)
      · exact Or.inl (by simp [hld, hx])
    by_cases hand : code = BPF_ALU_AND
    · exact Or.inr (Or.inl ⟨acc &&& x, by simp +decide [hand], by simp +decide [hand]⟩)
    by_cases hjeq : code = BPF_JMP_JEQ
    · rcases hjump (acc = x) with hs | ⟨l, n, hg, hn, hskip⟩
      · exact Or.inl (by simpa +decide [hjeq] using hs)
      · exact Or.inr (Or.inr (Or.inl ⟨l, n, by simpa +decide [hjeq] using hg, hn,
          by simpa +decide [hjeq] using hskip⟩))
    by_cases hjgt : code = BPF_JMP_JGT
    · rcases hjump (x < acc) with hs | ⟨l, n, hg, hn, hskip⟩
      · exact Or.inl (by simpa +decide [hjgt] using hs)
      · exact Or.inr (Or.inr (Or.inl ⟨l, n, by simpa +decide [hjgt] using hg, hn,
          by simpa +decide [hjgt] using hskip⟩))
    by_cases hjge : code = BPF_JMP_JGE
    · rcases hjump (x ≤ acc) with hs | ⟨l, n, hg, hn, hskip⟩
      · exact Or.inl (by simpa +decide [hjge] using hs)
      · exact Or.inr (Or.inr (Or.inl ⟨l, n, by simpa +decide [hjge] using hg, hn,
          by simpa +decide [hjge] using hskip⟩))
    by_cases hret : code = BPF_RET
    · exact Or.inr (Or.inr (Or.inr ⟨x, by simp +decide [hret], by simp +decide [hret]⟩))
    · exact Or.inl (by simp [hld, hand, hjeq, hjgt, hjge, hret])
  | hsh l =>
    obtain ⟨n, hn, hk'⟩ := Option.map_eq_some_iff.mp hk'
    subst hk'
    obtain rfl := Option.some.inj hk
    simp only [instrEffect, bpfStep, ttoh32_htot32]
    generalize ttoh16 host target op = code
    have hstart := startsAt_distLast hn
    by_cases hja : code = BPF_JMP_JA
    · refine Or.inr (Or.inr (Or.inl ⟨l, n, by simp [hja], hstart, ?_⟩))
      have hlt : len + n < 2 ^ 32 := lt_of_le_of_lt (Nat.add_le_add_left hstart.le_size len) hsize
      simp +decide [hja]
      exact hlt
    · exact Or.inl (by simp [hja])
  | no => exact Or.inl rfl
  | nxt m => exact Or.inl rfl
  | imm m => exact Or.inl rfl

/-- **A translated instruction does what the instruction of the block does.** -/
theorem instrResolved_genBpfInstr {post : List BpfBlk} {len : ℕ} {i : BpfInstr} {r : BpfInstrRaw}
    (h : genBpfInstr host target post len i = some r) (hsize : len + instrCnt post < 2 ^ 32) :
    InstrResolved BpfBlk.hash BpfBlk.blks (instrEffect host target d) (bpfStep host target d)
      post len i r where
  next := by
    intro acc acc' he
    rcases instrEffect_genBpfInstr (d := d) h hsize acc with h | ⟨a, h, hs⟩ | ⟨l, n, h, -⟩ |
      ⟨a, h, -⟩ <;> rw [he] at h <;> cases h
    exact hs
  goto := by
    intro acc l acc' he
    rcases instrEffect_genBpfInstr (d := d) h hsize acc with h | ⟨a, h, -⟩ | ⟨l, n, h, hn, hs⟩ |
      ⟨a, h, -⟩ <;> rw [he] at h <;> cases h
    exact ⟨n, hn, hs⟩
  done := by
    intro acc r he
    rcases instrEffect_genBpfInstr (d := d) h hsize acc with h | ⟨a, h, -⟩ | ⟨l, n, h, -⟩ |
      ⟨a, h, hs⟩ <;> rw [he] at h <;> cases h
    exact hs

/-- The translated instructions of a block do what the block does. -/
theorem bodyResolved_genBpfBody {post : List BpfBlk} {is : List BpfInstr} {rs : List BpfInstrRaw}
    (h : genBpfBody host target post is = some rs) (hsize : is.length + instrCnt post < 2 ^ 32) :
    BodyResolved BpfBlk.hash BpfBlk.blks (instrEffect host target d) (bpfStep host target d)
      post is rs := by
  induction is generalizing rs with
  | nil =>
    obtain rfl := Option.some.inj h
    rfl
  | cons i is ih =>
    simp only [genBpfBody, Option.bind_eq_bind, Option.bind_eq_some_iff] at h
    obtain ⟨r, hr, rs', hrs, h⟩ := h
    obtain rfl := Option.some.inj h
    rw [List.length_cons] at hsize
    exact ⟨r, rs', rfl, instrResolved_genBpfInstr hr (by omega), ih hrs (by omega)⟩

/-- **The program belongs to the blocks.** -/
theorem assembled_genBpfResolve {bs : List BpfBlk} {prg : List BpfInstrRaw}
    (h : genBpfResolve host target bs = some prg) (hsize : instrCnt bs < 2 ^ 32) :
    Assembled BpfBlk.hash BpfBlk.blks (instrEffect host target d) (bpfStep host target d)
      bs prg := by
  induction bs generalizing prg with
  | nil =>
    obtain rfl := Option.some.inj h
    rfl
  | cons b bs ih =>
    simp only [genBpfResolve, Option.bind_eq_bind, Option.bind_eq_some_iff] at h
    obtain ⟨r, hr, rs, hrs, h⟩ := h
    obtain rfl := Option.some.inj h
    rw [instrCnt, size_cons] at hsize
    exact ⟨r, rs, rfl, bodyResolved_genBpfBody hr hsize,
      ih hrs (lt_of_le_of_lt (Nat.le_add_left _ _) hsize)⟩

theorem length_genBpfBody {post : List BpfBlk} {is : List BpfInstr} {rs : List BpfInstrRaw}
    (h : genBpfBody host target post is = some rs) : rs.length = is.length := by
  induction is generalizing rs with
  | nil =>
    obtain rfl := Option.some.inj h
    rfl
  | cons i is ih =>
    simp only [genBpfBody, Option.bind_eq_bind, Option.bind_eq_some_iff] at h
    obtain ⟨r, -, rs', hrs, h⟩ := h
    obtain rfl := Option.some.inj h
    rw [List.length_cons, List.length_cons, ih hrs]

theorem length_genBpfResolve {bs : List BpfBlk} {prg : List BpfInstrRaw}
    (h : genBpfResolve host target bs = some prg) : prg.length = instrCnt bs := by
  induction bs generalizing prg with
  | nil =>
    obtain rfl := Option.some.inj h
    rfl
  | cons b bs ih =>
    simp only [genBpfResolve, Option.bind_eq_bind, Option.bind_eq_some_iff] at h
    obtain ⟨r, hr, rs, hrs, h⟩ := h
    obtain rfl := Option.some.inj h
    rw [List.length_append, length_genBpfBody hr, ih hrs]
    exact (size_cons BpfBlk.blks b bs).symm

end Draco
