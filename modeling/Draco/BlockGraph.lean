/-
# What the blocks of the hash table mean

A block names the blocks its jumps lead to, so the table is a graph.  It is read as the
compiler means it: every block runs with the accumulator in the state it declares
(`accStart`), whatever the block before it left there, and `Yields` is the action that
this comes to.  Blocks are only ever added, so what the table says of a hash stays
true (`Yields.mono`).

A block that joins the duplicates of another one is run as that one declares.  All
statements about the meaning of a block therefore ask for a table in which the duplicates
declare the same state (`SameStart`).
-/
import Draco.GenBpf

namespace Draco

open LabelledCode

section Effects

variable (host target : ArchEndian) (d : BpfData)

/-! ## The effect of a block -/

/-- A jump to a block. -/
def jumpEffect (j : BpfJump) (acc : UInt32) : Effect UInt64 UInt32 UInt32 :=
  match j with
  | .hsh h => .goto h acc
  | _ => .stuck

/-- The effect of an instruction of a block. -/
def instrEffect (i : BpfInstr) (acc : UInt32) : Effect UInt64 UInt32 UInt32 :=
  let code := ttoh16 host target i.op
  match i.k with
  | .k v =>
    let k := ttoh32 host target v
    if code = BPF_LD_ABS then
      if LoadValid k then .next (d.word target k) else .stuck
    else if code = BPF_ALU_AND then .next (acc &&& k)
    else if code = BPF_JMP_JEQ then jumpEffect (if acc = k then i.jt else i.jf) acc
    else if code = BPF_JMP_JGT then jumpEffect (if k < acc then i.jt else i.jf) acc
    else if code = BPF_JMP_JGE then jumpEffect (if k ≤ acc then i.jt else i.jf) acc
    else if code = BPF_RET then .done k
    else .stuck
  | .hsh h => if code = BPF_JMP_JA then .goto h acc else .stuck
  | _ => .stuck

/-- The effect of the instructions of a block. -/
def blkEffect (blks : List BpfInstr) (acc : UInt32) : Effect UInt64 UInt32 UInt32 :=
  bodyEffect (instrEffect host target d) blks acc

/-- The accumulator is in the state. -/
def AccState.Holds (a : AccState) (acc : UInt32) : Prop :=
  ∀ offset, a.offset = some offset → acc = d.word target offset &&& a.mask

/-- A block that expects nothing runs with any accumulator. -/
theorem holds_accStateUndef (acc : UInt32) : accStateUndef.Holds target d acc := by
  intro offset h
  cases h

/-- A block that expects a whole word needs just that word. -/
theorem holds_accStateOffset {offset acc : UInt32} :
    (accStateOffset offset).Holds target d acc ↔ acc = d.word target offset := by
  constructor
  · intro h
    rw [h offset rfl]
    exact and_ffffffff _
  · rintro rfl offset' h
    cases h
    exact (and_ffffffff _).symm

/-- A load leaves its word in the accumulator. -/
theorem blkEffect_load {x : UInt32} (hx : LoadValid x) (rest : List BpfInstr) (acc : UInt32) :
    blkEffect host target d (bpfInstr host target BPF_LD_ABS x :: rest) acc =
      blkEffect host target d rest (d.word target x) := by
  apply bodyEffect_cons_next
  simp +decide [instrEffect, bpfInstr, bpfK, hx]

/-- A mask leaves the masked accumulator. -/
theorem blkEffect_and (x : UInt32) (rest : List BpfInstr) (acc : UInt32) :
    blkEffect host target d (bpfInstr host target BPF_ALU_AND x :: rest) acc =
      blkEffect host target d rest (acc &&& x) := by
  apply bodyEffect_cons_next
  simp +decide [instrEffect, bpfInstr, bpfK]

/-- A return ends the run with its action. -/
theorem blkEffect_ret (x acc : UInt32) :
    blkEffect host target d [bpfInstr host target BPF_RET x] acc = .done x := by
  rw [blkEffect, bodyEffect_singleton]
  simp +decide [instrEffect, bpfInstr, bpfK]

/-- The comparison of a conditional jump. -/
def jumpTest (op : UInt16) (acc x : UInt32) : Bool :=
  if op = BPF_JMP_JEQ then acc = x
  else if op = BPF_JMP_JGT then x < acc
  else x ≤ acc

/-- The operators of conditional jumps. -/
def IsJump (op : UInt16) : Prop := op = BPF_JMP_JEQ ∨ op = BPF_JMP_JGT ∨ op = BPF_JMP_JGE

/-- A conditional jump goes where its comparison says. -/
theorem blkEffect_jump {op : UInt16} (hop : IsJump op) (jt jf : BpfJump) (x acc : UInt32) :
    blkEffect host target d [bpfJump host target op jt jf x] acc =
      jumpEffect (if jumpTest op acc x then jt else jf) acc := by
  rw [blkEffect, bodyEffect_singleton]
  rcases hop with rfl | rfl | rfl <;>
    simp +decide [instrEffect, bpfJump, bpfK, jumpTest]

/-- The loads of a node leave its word in the accumulator, under its mask. -/
theorem blkEffect_genBpfLoad {n : ChainNode} {a : AccState} (hn : LoadValid n.argOffset)
    {acc : UInt32} (hacc : ¬ a.Reload n → a.Holds target d acc) (rest : List BpfInstr) :
    blkEffect host target d (genBpfLoad host target n a ++ rest) acc =
      blkEffect host target d rest (d.word target n.argOffset &&& n.mask) := by
  unfold genBpfLoad
  by_cases hr : a.Reload n
  · rw [if_pos hr, if_pos hr, List.singleton_append, List.cons_append,
      blkEffect_load host target d hn]
    split
    · rw [List.singleton_append, blkEffect_and]
    next hmask =>
      rw [List.nil_append, not_not.mp hmask, and_ffffffff]
  · have hoff : a.offset = some n.argOffset := by
      by_contra h
      exact hr (Or.inl h)
    have hmask : n.mask &&& a.mask = n.mask := by
      by_contra h
      exact hr (Or.inr h)
    rw [if_neg hr, if_neg hr, List.nil_append, hacc hr n.argOffset hoff]
    split
    · rw [List.singleton_append, blkEffect_and, UInt32.and_assoc, UInt32.and_comm a.mask, hmask]
    next h => rw [List.nil_append, not_not.mp h]

/-- The block leaves the accumulator in its end state. -/
def EndOk (b : BpfBlk) : Prop :=
  ∀ acc, b.accStart.Holds target d acc → ∀ l acc',
    blkEffect host target d b.blks acc = .goto l acc' → b.accEnd.Holds target d acc'

/-- The generated test is the test of the node. -/
theorem jumpTest_genBpfOp {n : ChainNode} {op : UInt16} (hop : genBpfOp n.op = some op)
    (w : UInt32) : jumpTest op (w &&& n.mask) n.datum = n.test w ∧ IsJump op := by
  unfold ChainNode.test
  cases hn : n.op <;> rw [hn] at hop <;> cases hop <;>
    simp +decide [jumpTest, IsJump, Bool.beq_eq_decide_eq]

end Effects

section Targets

variable {host target : ArchEndian} {d : BpfData}

/-- A jump of an instruction goes to one of its targets. -/
theorem mem_targets_of_instrEffect {i : BpfInstr} {acc acc' : UInt32} {l : UInt64}
    (h : instrEffect host target d i acc = .goto l acc') : l ∈ i.targets := by
  have hmem : ∀ j ∈ [i.jt, i.jf, i.k], j = .hsh l → l ∈ i.targets := by
    rintro j hj rfl
    exact List.mem_filterMap.mpr ⟨_, hj, rfl⟩
  have hjump : ∀ j ∈ [i.jt, i.jf, i.k], jumpEffect j acc = .goto l acc' → l ∈ i.targets := by
    intro j hj hjl
    refine hmem j hj ?_
    cases j <;> cases hjl
    rfl
  unfold instrEffect at h
  cases hk : i.k with
  | k v =>
    simp only [hk] at h
    split_ifs at h
    all_goals first | exact hjump i.jt (by simp) h | exact hjump i.jf (by simp) h
  | hsh l' =>
    simp only [hk] at h
    split_ifs at h
    cases h
    exact hmem i.k (by simp) hk
  | no => simp only [hk] at h; cases h
  | nxt n => simp only [hk] at h; cases h
  | imm j => simp only [hk] at h; cases h

/-- A block goes to one of its targets only. -/
theorem mem_targets_of_blkEffect {b : BpfBlk} {acc acc' : UInt32} {l : UInt64}
    (h : blkEffect host target d b.blks acc = .goto l acc') : l ∈ b.targets := by
  have hgo : ∀ (blks : List BpfInstr) (acc : UInt32),
      blkEffect host target d blks acc = .goto l acc' → ∃ i ∈ blks, l ∈ i.targets := by
    intro blks
    induction blks with
    | nil =>
      intro acc h
      cases h
    | cons i is ih =>
      intro acc h
      rw [blkEffect, bodyEffect] at h
      cases he : instrEffect host target d i acc with
      | next acc₁ =>
        rw [he] at h
        obtain ⟨i', hi', hl⟩ := ih acc₁ h
        exact ⟨i', List.mem_cons_of_mem i hi', hl⟩
      | goto l' acc₁ =>
        rw [he] at h
        cases h
        exact ⟨i, List.mem_cons_self, mem_targets_of_instrEffect he⟩
      | done r =>
        rw [he] at h
        cases h
      | stuck =>
        rw [he] at h
        cases h
  obtain ⟨i, hi, hl⟩ := hgo b.blks acc h
  exact List.mem_flatMap.mpr ⟨i, List.mem_reverse.mpr hi, hl⟩

end Targets

variable {jhash : List BpfInstr → UInt32}

/-! ## The action of a hash -/

section Yields

variable (host target : ArchEndian) (d : BpfData)

/-- The block does the same from every accumulator that its start state allows. -/
def StepsTo (b : BpfBlk) (l : UInt64) : Prop :=
  ∀ acc, b.accStart.Holds target d acc → ∃ acc', blkEffect host target d b.blks acc = .goto l acc'

/-- The block returns the action from every such accumulator. -/
def Returns (b : BpfBlk) (action : UInt32) : Prop :=
  ∀ acc, b.accStart.Holds target d acc → blkEffect host target d b.blks acc = .done action

/-- The action that the block with a hash comes to, if every block is run with the
accumulator it declares. -/
inductive Yields (tbl : BpfHtbl) : UInt64 → UInt32 → Prop where
  | returns {e : BpfHashBkt} {action : UInt32} (he : e ∈ tbl)
      (h : Returns host target d e.blk action) : Yields tbl e.blk.hash action
  | steps {e : BpfHashBkt} {l : UInt64} {action : UInt32} (he : e ∈ tbl)
      (h : StepsTo host target d e.blk l) (hl : Yields tbl l action) : Yields tbl e.blk.hash action

variable {host target d}

/-- What a block comes to, it comes to in every extension of the table. -/
theorem Yields.mono {tbl tbl' : BpfHtbl} (hext : TableExt tbl tbl') {l : UInt64}
    {action : UInt32} (h : Yields host target d tbl l action) :
    Yields host target d tbl' l action := by
  induction h with
  | @returns e action he h =>
    obtain ⟨e', he', hblk, -, -⟩ := hext e he
    rw [← hblk] at h ⊢
    exact Yields.returns he' h
  | @steps e l action he h hl ih =>
    obtain ⟨e', he', hblk, -, -⟩ := hext e he
    rw [← hblk] at h ⊢
    exact Yields.steps he' h ih

/-- The hash of a block that returns. -/
theorem yields_of_returns {tbl tbl' : BpfHtbl} {blk b : BpfBlk} {found : Bool}
    (h : hshAdd jhash tbl blk found = some (b, tbl')) (hsame : SameStart tbl')
    {action : UInt32} (hret : Returns host target d blk action) :
    Yields host target d tbl' b.hash action := by
  obtain ⟨-, -, e, he, hhash, hblks, hstart⟩ := hshAdd_stored h hsame
  rw [← hhash]
  refine Yields.returns he fun acc hacc => ?_
  rw [hblks]
  rw [hstart] at hacc
  exact hret acc hacc

/-- The hash of a block that jumps. -/
theorem yields_of_steps {tbl tbl' : BpfHtbl} {blk b : BpfBlk} {found : Bool}
    (h : hshAdd jhash tbl blk found = some (b, tbl')) (hsame : SameStart tbl')
    {l : UInt64} {action : UInt32} (hstep : StepsTo host target d blk l)
    (hl : Yields host target d tbl l action) : Yields host target d tbl' b.hash action := by
  obtain ⟨-, -, e, he, hhash, hblks, hstart⟩ := hshAdd_stored h hsame
  rw [← hhash]
  refine Yields.steps he (fun acc hacc => ?_) (hl.mono (tableExt_hshAdd h))
  rw [hblks]
  rw [hstart] at hacc
  exact hstep acc hacc

end Yields

end Draco
