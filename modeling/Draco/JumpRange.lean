/-
# Every jump comes into reach

The check of the jumps goes round and round on a block until nothing had to be inserted,
and every insertion moves the targets of the block further away.  All the same it comes
to an end: a block jumps at most at its last instruction, and after an insertion its
target is the next block or the one after it, so the third round inserts nothing
(`settleJmps_spec`).  If every reference goes down the list (`ForwardRefs`), the
insertion of long jumps and the translation into a program therefore succeed, and
the program has at most two instructions more for every block
(`genBpfLongJumps_resolve`).  On a host of the byte order of the target it does what the
list does (`exec_genBpfLongJumps`), on another one it need not
(`exec_genBpfLongJumps_foreign`).
-/
import Draco.LongJumps

namespace Draco

open LabelledCode

variable {host target : ArchEndian} {d : BpfData}

/-! ## Blocks that jump at their end -/

/-- The instruction does not jump. -/
def BpfInstr.Plain (i : BpfInstr) : Prop := i.jt = .no ∧ i.jf = .no ∧ ∃ v, i.k = .k v

/-- The instruction jumps to hashes, or not at all. -/
def BpfInstr.Last (i : BpfInstr) : Prop :=
  (∀ j ∈ [i.jt, i.jf], j = .no ∨ ∃ l, j = .hsh l) ∧ ∃ v, i.k = .k v

/-- The block jumps at its last instruction, if at all. -/
def BpfBlk.Straight (b : BpfBlk) : Prop :=
  ∃ init last, b.blks = init ++ [last] ∧ (∀ i ∈ init, i.Plain) ∧ last.Last

/-- A block of one instruction without jumps. -/
theorem straight_single {b : BpfBlk} {op : UInt16} {x : UInt32}
    (hb : b.blks = [bpfInstr host target op x]) : b.Straight := by
  refine ⟨[], _, hb, (fun i hi => by cases hi), fun j hj => ?_, _, rfl⟩
  rw [List.mem_cons, List.mem_singleton] at hj
  exact Or.inl (hj.elim id id)

/-- A conditional jump to hashes is a last instruction. -/
theorem last_bpfJump (op : UInt16) (jt jf : UInt64) (x : UInt32) :
    (bpfJump host target op (.hsh jt) (.hsh jf) x).Last := by
  refine ⟨fun j hj => ?_, _, rfl⟩
  rw [List.mem_cons, List.mem_singleton] at hj
  rcases hj with rfl | rfl
  · exact Or.inr ⟨jt, rfl⟩
  · exact Or.inr ⟨jf, rfl⟩

/-- The jump goes to a block of the list, if anywhere. -/
def BpfJump.Known (j : BpfJump) (post : List BpfBlk) : Prop :=
  j = .no ∨ ∃ l ∈ post.map BpfBlk.hash, j = .hsh l

/-! ## The walk to a block -/

/-- The walk to a block that is in the list finds it or gives up before. -/
theorem jmpWalk_isSome {stop : List BpfBlk → Bool} {xs ys : List BpfBlk} (hne : ys ≠ [])
    (hstop : stop ys = true) (len : ℕ) : ∃ near, jmpWalk stop (xs ++ ys) len = some near := by
  induction xs generalizing len with
  | nil =>
    obtain ⟨y, ys, rfl⟩ := List.exists_cons_of_ne_nil hne
    exact ⟨_, by rw [List.nil_append, jmpWalk, if_pos hstop]⟩
  | cons x xs ih =>
    rw [List.cons_append, jmpWalk]
    split
    · exact ⟨_, rfl⟩
    · split
      · exact ⟨_, rfl⟩
      · exact ih (len + x.blks.length)

/-- The walk to a hash ends when a block of the list has it. -/
theorem jmpWalk_atHash_isSome {post : List BpfBlk} {l : UInt64} (hl : l ∈ post.map BpfBlk.hash)
    (len : ℕ) : ∃ near, jmpWalk (atHash l) post len = some near := by
  obtain ⟨c, hc, rfl⟩ := List.mem_map.mp hl
  obtain ⟨xs, ys, rfl⟩ := List.append_of_mem hc
  exact jmpWalk_isSome (List.cons_ne_nil c ys) (by simp [atHash]) len

/-- The last block with a hash of the list. -/
theorem exists_atLast {post : List BpfBlk} {l : UInt64} (hl : l ∈ post.map BpfBlk.hash) :
    ∃ xs ys, post = xs ++ ys ∧ ys ≠ [] ∧ atLast l ys = true := by
  induction post with
  | nil => cases hl
  | cons b bs ih =>
    by_cases h : l ∈ bs.map BpfBlk.hash
    · obtain ⟨xs, ys, rfl, hys⟩ := ih h
      exact ⟨b :: xs, ys, rfl, hys⟩
    · have hb : b.hash = l := ((List.mem_cons.mp hl).resolve_right h).symm
      refine ⟨[], b :: bs, rfl, List.cons_ne_nil b bs, ?_⟩
      rw [atLast, decide_eq_true_eq]
      exact ⟨hb, fun c hc hcl => h (List.mem_map.mpr ⟨c, hc, hcl⟩)⟩

/-- So does the walk to the last block of a hash. -/
theorem jmpWalk_atLast_isSome {post : List BpfBlk} {l : UInt64} (hl : l ∈ post.map BpfBlk.hash)
    (len : ℕ) : ∃ near, jmpWalk (atLast l) post len = some near := by
  obtain ⟨xs, ys, rfl, hne, hstop⟩ := exists_atLast hl
  exact jmpWalk_isSome hne hstop len

/-- Where the walk finds its block in reach, the first block with the hash is in reach. -/
theorem distFirst_of_jmpWalk {stop : List BpfBlk → Bool} {l : UInt64}
    (hstop : ∀ b bs, stop (b :: bs) = true → b.hash = l) {post : List BpfBlk} {len : ℕ}
    (h : jmpWalk stop post len = some true) :
    ∃ n, distFirst l post = some n ∧ len + n ≤ BPF_JMP_MAX := by
  induction post generalizing len with
  | nil => cases h
  | cons b bs ih =>
    rw [jmpWalk] at h
    rw [distFirst]
    split at h
    next hs =>
      rw [if_pos (hstop b bs hs)]
      exact ⟨0, rfl, by simpa using h⟩
    next =>
      split at h
      · cases h
      next hlt =>
        split
        · exact ⟨0, rfl, by omega⟩
        · obtain ⟨n, hn, hle⟩ := ih h
          exact ⟨b.blks.length + n, by rw [hn, Option.map_some], by omega⟩

/-- One of the walks of the check finds its block in reach. -/
def Near (l : UInt64) (post : List BpfBlk) : Prop :=
  jmpWalk (atLast l) post 0 = some true ∨ jmpWalk (atHash l) post 0 = some true

/-- In reach means within `BPF_JMP_MAX` instructions of the first block with the hash. -/
theorem Near.distFirst {l : UInt64} {post : List BpfBlk} (h : Near l post) :
    ∃ n, Draco.distFirst l post = some n ∧ n ≤ BPF_JMP_MAX := by
  have hn : ∃ n, Draco.distFirst l post = some n ∧ 0 + n ≤ BPF_JMP_MAX := by
    rcases h with h | h
    · refine distFirst_of_jmpWalk (fun b bs hs => ?_) h
      rw [atLast, decide_eq_true_eq] at hs
      exact hs.1
    · exact distFirst_of_jmpWalk (fun b bs hs => by simpa [atHash] using hs) h
  simpa using hn

/-- The next block is in reach. -/
theorem near_cons (b : BpfBlk) (post : List BpfBlk) : Near b.hash (b :: post) := by
  refine Or.inr ?_
  rw [jmpWalk, if_pos (by simp [atHash])]
  rfl

/-- So is the one behind a single instruction. -/
theorem near_cons_cons {b' : BpfBlk} (hb' : b'.blks.length = 1) (b : BpfBlk)
    (post : List BpfBlk) : Near b.hash (b' :: b :: post) := by
  refine Or.inr ?_
  rw [jmpWalk]
  split
  · rfl
  · rw [if_neg (by decide), hb', jmpWalk, if_pos (by simp [atHash])]
    rfl

/-! ## One check -/

/-- **The check of a jump to a block of the list** finds it in reach, or inserts a block of
one instruction with its hash. -/
theorem genBpfBuildJmp_total (host target : ArchEndian) {post : List BpfBlk} {l : UInt64}
    (hl : l ∈ post.map BpfBlk.hash) :
    Near l post ∧ genBpfBuildJmp host target post 0 l = some none ∨
      ¬ Near l post ∧ ∃ b, genBpfBuildJmp host target post 0 l = some (some b) ∧ b.hash = l ∧
        b.blks.length = 1 := by
  obtain ⟨last, hlast⟩ := jmpWalk_atLast_isSome hl 0
  obtain ⟨first, hfirst⟩ := jmpWalk_atHash_isSome hl 0
  obtain ⟨bTgt, hfind⟩ : ∃ bTgt, post.reverse.find? (fun b => b.hash = l) = some bTgt := by
    obtain ⟨c, hc, hcl⟩ := List.mem_map.mp hl
    refine Option.isSome_iff_exists.mp (List.find?_isSome.mpr ⟨c, List.mem_reverse.mpr hc, ?_⟩)
    exact decide_eq_true hcl
  have hhash : bTgt.hash = l := by simpa using List.find?_some hfind
  by_cases hnear : last = true ∨ first = true
  · refine Or.inl ⟨hnear.imp (fun h => by rw [hlast, h]) (fun h => by rw [hfirst, h]), ?_⟩
    rcases hnear with rfl | rfl
    · simp [genBpfBuildJmp, genBpfBuildJmpRet, hfind, hhash, hlast]
    · cases last <;> simp [genBpfBuildJmp, genBpfBuildJmpRet, hfind, hhash, hlast, hfirst]
  · obtain ⟨rfl, rfl⟩ : last = false ∧ first = false := by simpa using hnear
    refine Or.inr ⟨by simp [Near, hlast, hfirst], ?_⟩
    by_cases hret : bTgt.IsRet host target
    · refine ⟨retCopy host target bTgt, ?_, hhash, rfl⟩
      simp [genBpfBuildJmp, genBpfBuildJmpRet, hfind, hhash, hlast, hfirst, hret, retCopy]
    · refine ⟨trampoline host target l, ?_, rfl, rfl⟩
      simp [genBpfBuildJmp, hfind, hlast, hfirst, hret, trampoline]

/-- The check of a jump inserts nothing. -/
def CheckOk (host target : ArchEndian) (post : List BpfBlk) (j : BpfJump) : Prop :=
  checkJmp host target post 0 j = some (post, 0)

/-- A jump in reach needs no trampoline. -/
theorem checkOk_of_near (host target : ArchEndian) {l : UInt64} {post : List BpfBlk}
    (hl : l ∈ post.map BpfBlk.hash) (h : Near l post) : CheckOk host target post (.hsh l) := by
  rcases genBpfBuildJmp_total host target hl with ⟨-, hb⟩ | ⟨hfar, -⟩
  · rw [CheckOk, checkJmp, hb]
    rfl
  · exact (hfar h).elim

/-- A block that was inserted for a jump. -/
def InsertedFor (j : BpfJump) (b : BpfBlk) : Prop := j = .hsh b.hash ∧ b.blks.length = 1

/-- The check of a jump finds it in reach or inserts one block for it. -/
theorem checkJmp_total (host target : ArchEndian) {post : List BpfBlk} {j : BpfJump}
    (hj : j.Known post) :
    CheckOk host target post j ∨ ∃ b, InsertedFor j b ∧
      checkJmp host target post 0 j = some (b :: post, 1) := by
  rcases hj with rfl | ⟨l, hl, rfl⟩
  · exact Or.inl rfl
  · rcases genBpfBuildJmp_total host target hl with ⟨hnear, -⟩ | ⟨-, b, h, rfl, hlen⟩
    · exact Or.inl (checkOk_of_near host target hl hnear)
    · refine Or.inr ⟨b, ⟨rfl, hlen⟩, ?_⟩
      rw [checkJmp, h]
      rfl

/-- Behind a block that was inserted for a jump it is in reach. -/
theorem InsertedFor.checkOk {j : BpfJump} {b : BpfBlk} (h : InsertedFor j b)
    (post : List BpfBlk) : CheckOk host target (b :: post) j := by
  rw [h.1]
  exact checkOk_of_near host target List.mem_cons_self (near_cons b post)

/-- The block inserted for a jump is in its reach, even behind one more. -/
theorem InsertedFor.checkOk_cons {j : BpfJump} {b b' : BpfBlk} (h : InsertedFor j b)
    (hb' : b'.blks.length = 1) (post : List BpfBlk) :
    CheckOk host target (b' :: b :: post) j := by
  rw [h.1]
  exact checkOk_of_near host target (List.mem_cons_of_mem _ List.mem_cons_self)
    (near_cons_cons hb' b post)

theorem BpfJump.Known.cons {j : BpfJump} {post : List BpfBlk} (h : j.Known post) (b : BpfBlk) :
    j.Known (b :: post) :=
  h.imp_right fun ⟨l, hl, hj⟩ => ⟨l, List.mem_cons_of_mem _ hl, hj⟩

/-! ## One block -/

/-- Instructions that do not jump need no insertion. -/
theorem checkJmps_plain {is : List BpfInstr} (h : ∀ i ∈ is, i.Plain) (len : ℕ)
    (post : List BpfBlk) : checkJmps host target is len post = some (post, 0) := by
  induction is generalizing len with
  | nil => rfl
  | cons i is ih =>
    obtain ⟨hjt, hjf, -⟩ := h i List.mem_cons_self
    rw [checkJmps, hjt, hjf]
    simp [checkJmp, ih fun i' hi' => h i' (List.mem_cons_of_mem i hi')]

/-- Only the last instruction of a straight block is checked. -/
theorem checkJmps_straight {init : List BpfInstr} {last : BpfInstr}
    (h : ∀ i ∈ init, i.Plain) (post : List BpfBlk) :
    checkJmps host target (init ++ [last]).reverse 0 post =
      (checkJmp host target post 0 last.jt).bind fun p =>
        (checkJmp host target p.1 0 last.jf).map fun q => (q.1, p.2 + q.2) := by
  rw [List.reverse_append, List.reverse_singleton, List.singleton_append, checkJmps]
  cases checkJmp host target post 0 last.jt with
  | none => rfl
  | some p =>
    show (checkJmp host target p.1 0 last.jf).bind _ = Option.map _ _
    cases checkJmp host target p.1 0 last.jf with
    | none => rfl
    | some q =>
      show (checkJmps host target init.reverse (0 + 1) q.1).bind _ = _
      rw [checkJmps_plain fun i hi => h i (List.mem_reverse.mp hi)]
      rfl

/-- A check after which nothing had to be inserted is the last one. -/
theorem settleJmps_done {b : BpfBlk} {post : List BpfBlk} (n : ℕ)
    (h : checkJmps host target b.blks.reverse 0 post = some (post, 0)) :
    settleJmps host target b (n + 1) post = some post := by
  rw [settleJmps, h]
  rfl

/-- A round that inserted a block is followed by another. -/
theorem settleJmps_again {b : BpfBlk} {post post' : List BpfBlk} {m : ℕ} (hm : m ≠ 0) (n : ℕ)
    (h : checkJmps host target b.blks.reverse 0 post = some (post', m)) :
    settleJmps host target b (n + 1) post = settleJmps host target b n post' := by
  rw [settleJmps, h]
  exact if_neg hm

theorem instrCnt_cons (b : BpfBlk) (bs : List BpfBlk) :
    instrCnt (b :: bs) = b.blks.length + instrCnt bs :=
  size_cons BpfBlk.blks b bs

/-- A jump of the last instruction goes to a target of the block. -/
theorem mem_targets_of_last {b : BpfBlk} {init : List BpfInstr} {last : BpfInstr}
    (hblks : b.blks = init ++ [last]) {l : UInt64} (h : last.jt = .hsh l ∨ last.jf = .hsh l) :
    l ∈ b.targets := by
  rw [BpfBlk.targets, hblks, List.mem_flatMap]
  refine ⟨last, by simp, ?_⟩
  rw [BpfInstr.targets, List.mem_filterMap]
  rcases h with h | h
  · exact ⟨last.jt, by simp, by rw [h]; rfl⟩
  · exact ⟨last.jf, by simp, by rw [h]; rfl⟩

/-- **The jumps of a block come into reach.**  A round inserts a block for the false branch
behind the one for the true branch; the second round can only insert another one for the
true branch, and the third one inserts nothing. -/
theorem settleJmps_spec (host target : ArchEndian) {b : BpfBlk} (hb : b.Straight)
    {post : List BpfBlk} (hpost : ∀ l ∈ b.targets, l ∈ post.map BpfBlk.hash) {n : ℕ}
    (hn : 3 ≤ n) :
    ∃ post', settleJmps host target b n post = some post' ∧
      instrCnt post' ≤ instrCnt post + 2 := by
  obtain ⟨n, rfl⟩ := Nat.exists_eq_add_of_le' hn
  obtain ⟨init, last, hblks, hinit, hlast, -⟩ := hb
  have hknown : ∀ j ∈ [last.jt, last.jf], j.Known post := by
    intro j hj
    refine (hlast j hj).imp_right fun ⟨l, hl⟩ => ⟨l, hpost l (mem_targets_of_last hblks ?_), hl⟩
    rw [List.mem_cons, List.mem_singleton] at hj
    rcases hj with rfl | rfl
    · exact Or.inl hl
    · exact Or.inr hl
  have hjt := hknown last.jt (by simp)
  have hjf := hknown last.jf (by simp)
  -- one round, by what the two checks do
  have hround : ∀ {post post₁ post₂ : List BpfBlk} {k m : ℕ},
      checkJmp host target post 0 last.jt = some (post₁, k) →
      checkJmp host target post₁ 0 last.jf = some (post₂, m) →
      checkJmps host target b.blks.reverse 0 post = some (post₂, k + m) := by
    intro post post₁ post₂ k m h₁ h₂
    rw [hblks, checkJmps_straight hinit, h₁, Option.bind_some, h₂]
    rfl
  rcases checkJmp_total host target hjt with h₁ | ⟨bt, hbt, h₁⟩
  · rcases checkJmp_total host target hjf with h₂ | ⟨bf, hbf, h₂⟩
    · exact ⟨post, settleJmps_done _ (hround h₁ h₂), Nat.le_add_right _ _⟩
    · rw [settleJmps_again (by decide) _ (hround h₁ h₂)]
      -- the insertion may have moved the target of the true branch out of reach
      rcases checkJmp_total host target (hjt.cons bf) with h₁ | ⟨bt, hbt, h₁⟩
      · refine ⟨bf :: post, settleJmps_done _ (hround h₁ (hbf.checkOk post)), ?_⟩
        rw [instrCnt_cons, hbf.2]
        omega
      · rw [settleJmps_again (by decide) _ (hround h₁ (hbf.checkOk_cons hbt.2 post))]
        refine ⟨bt :: bf :: post, settleJmps_done _
          (hround (hbt.checkOk _) (hbf.checkOk_cons hbt.2 post)), ?_⟩
        rw [instrCnt_cons, instrCnt_cons, hbf.2, hbt.2]
        omega
  · rcases checkJmp_total host target (hjf.cons bt) with h₂ | ⟨bf, hbf, h₂⟩
    · rw [settleJmps_again (by decide) _ (hround h₁ h₂)]
      refine ⟨bt :: post, settleJmps_done _ (hround (hbt.checkOk post) h₂), ?_⟩
      rw [instrCnt_cons, hbt.2]
      omega
    · rw [settleJmps_again (by decide) _ (hround h₁ h₂)]
      refine ⟨bf :: bt :: post, settleJmps_done _
        (hround (hbt.checkOk_cons hbf.2 post) (hbf.checkOk _)), ?_⟩
      rw [instrCnt_cons, instrCnt_cons, hbf.2, hbt.2]
      omega

/-! ## The translation of a block -/

/-- An instruction that does not jump is always translated. -/
theorem genBpfInstr_plain {i : BpfInstr} (h : i.Plain) (post : List BpfBlk) (len : ℕ) :
    ∃ r, genBpfInstr host target post len i = some r := by
  obtain ⟨hjt, hjf, v, hk⟩ := h
  exact ⟨⟨i.op, 0, 0, v⟩, by simp [genBpfInstr, hjt, hjf, hk, resolveJmp, resolveK, rawJmp, rawK]⟩

/-- A last instruction whose targets are in reach can be translated. -/
theorem genBpfInstr_last {i : BpfInstr} (h : i.Last) {post : List BpfBlk}
    (hnear : ∀ l, i.jt = .hsh l ∨ i.jf = .hsh l → Near l post) :
    ∃ r, genBpfInstr host target post 0 i = some r := by
  obtain ⟨hjumps, v, hk⟩ := h
  have hjump : ∀ j ∈ [i.jt, i.jf], ∃ r, (resolveJmp post 0 j).bind rawJmp = some r := by
    intro j hj
    rcases hjumps j hj with rfl | ⟨l, rfl⟩
    · exact ⟨0, rfl⟩
    · have hl : i.jt = .hsh l ∨ i.jf = .hsh l := by
        rw [List.mem_cons, List.mem_singleton] at hj
        exact hj.imp Eq.symm Eq.symm
      obtain ⟨n, hn, hle⟩ := (hnear l hl).distFirst
      refine ⟨UInt8.ofNat (0 + n), ?_⟩
      rw [resolveJmp, hn, Option.bind_some, if_pos (by omega), Option.bind_some, rawJmp]
  obtain ⟨rt, hrt⟩ := hjump i.jt (by simp)
  obtain ⟨rf, hrf⟩ := hjump i.jf (by simp)
  exact ⟨⟨i.op, rt, rf, v⟩, by simp [genBpfInstr, hrt, hrf, hk, resolveK, rawK]⟩

/-- Instructions that do not jump do not get in the way of the last one. -/
theorem genBpfBody_straight {init : List BpfInstr} (hinit : ∀ i ∈ init, i.Plain)
    {last : BpfInstr} {post : List BpfBlk}
    (hlast : ∃ r, genBpfInstr host target post 0 last = some r) :
    ∃ rs, genBpfBody host target post (init ++ [last]) = some rs := by
  induction init with
  | nil =>
    obtain ⟨r, hr⟩ := hlast
    exact ⟨[r], by simp [genBpfBody, hr]⟩
  | cons i init ih =>
    obtain ⟨r, hr⟩ : ∃ r, genBpfInstr host target post (init ++ [last]).length i = some r :=
      genBpfInstr_plain (hinit i List.mem_cons_self) post _
    obtain ⟨rs, hrs⟩ := ih fun i' hi' => hinit i' (List.mem_cons_of_mem i hi')
    exact ⟨r :: rs, by rw [List.cons_append, genBpfBody, hr, hrs]; rfl⟩

/-- A block all of whose jumps are in reach can be translated. -/
theorem genBpfBody_of_checkJmps {b : BpfBlk} (hb : b.Straight) {post : List BpfBlk}
    (h : checkJmps host target b.blks.reverse 0 post = some (post, 0)) :
    ∃ rs, genBpfBody host target post b.blks = some rs := by
  obtain ⟨init, last, hblks, hinit, hlast⟩ := hb
  rw [hblks] at h ⊢
  obtain ⟨-, hnear⟩ := near_of_checkJmps h
  refine genBpfBody_straight hinit (genBpfInstr_last hlast fun l hl => ?_)
  exact hnear [] last init.reverse (by simp) l hl

/-- A hash of the list has a distance. -/
theorem distLast_isSome {post : List BpfBlk} {l : UInt64} (hl : l ∈ post.map BpfBlk.hash) :
    ∃ n, distLast l post = some n := by
  induction post with
  | nil => cases hl
  | cons b bs ih =>
    rw [distLast]
    by_cases h : l ∈ bs.map BpfBlk.hash
    · obtain ⟨n, hn⟩ := ih h
      exact ⟨b.blks.length + n, by rw [hn]⟩
    · have hb : b.hash = l := ((List.mem_cons.mp hl).resolve_right h).symm
      cases distLast l bs with
      | some n => exact ⟨b.blks.length + n, rfl⟩
      | none => exact ⟨0, if_pos hb⟩

/-- What is inserted can be translated. -/
theorem genBpfBody_inserted {post : List BpfBlk} {b : BpfBlk} (h : Inserted host target post b) :
    ∃ rs, genBpfBody host target post b.blks = some rs := by
  have hnil : ∀ i ∈ ([] : List BpfInstr), i.Plain := fun i hi => by cases hi
  obtain ⟨c, hc, ⟨-, rfl⟩ | rfl⟩ := h
  · exact genBpfBody_straight hnil (genBpfInstr_plain ⟨rfl, rfl, _, rfl⟩ post 0)
  · obtain ⟨n, hn⟩ := distLast_isSome (List.mem_map.mpr ⟨c, hc, rfl⟩)
    refine genBpfBody_straight hnil
      ⟨⟨htot16 host target BPF_JMP_JA, 0, 0, htot32 host target (UInt32.ofNat (0 + n))⟩, ?_⟩
    simp [genBpfInstr, resolveJmp, resolveK, hn, rawJmp, bpfK, rawK]

/-! ## The whole list -/

/-- Every reference goes to a block further down the list. -/
def ForwardRefs (bs : List BpfBlk) : Prop :=
  Tailwise (fun b rest => ∀ l ∈ b.targets, l ∈ rest.map BpfBlk.hash) bs

/-- The effects of blocks that do not fall through go forward as well. -/
theorem ForwardRefs.forward {bs : List BpfBlk} (h : ForwardRefs bs)
    (hstop : ∀ b ∈ bs, ∀ acc acc', blkEffect host target d b.blks acc ≠ .next acc') :
    Forward BpfBlk.hash (fun b => blkEffect host target d b.blks) bs := by
  induction bs with
  | nil => trivial
  | cons b bs ih =>
    refine ⟨fun acc => ⟨fun acc' => hstop b List.mem_cons_self acc acc', ?_⟩,
      ih h.2 fun c hc => hstop c (List.mem_cons_of_mem b hc)⟩
    exact fun l acc' heff => h.1 l (mem_targets_of_blkEffect heff)

/-- Every block of the list can be translated. -/
def Resolvable (host target : ArchEndian) (bs : List BpfBlk) : Prop :=
  Tailwise (fun b rest => ∃ rs, genBpfBody host target rest b.blks = some rs) bs

/-- A resolvable list is translated to a program. -/
theorem Resolvable.genBpfResolve {bs : List BpfBlk} (h : Resolvable host target bs) :
    ∃ prg, Draco.genBpfResolve host target bs = some prg := by
  induction bs with
  | nil => exact ⟨[], rfl⟩
  | cons b bs ih =>
    obtain ⟨⟨r, hr⟩, hbs⟩ := h
    obtain ⟨rs, hrs⟩ := ih hbs
    exact ⟨r ++ rs, by rw [Draco.genBpfResolve, hr, hrs]; rfl⟩

/-- Insertions in front keep a list resolvable. -/
theorem Extended.resolvable {post post' : List BpfBlk} (h : Extended host target post post')
    (hpost : Resolvable host target post) : Resolvable host target post' := by
  induction h with
  | refl => exact hpost
  | insert _ hb ih => exact ⟨genBpfBody_inserted hb, ih⟩

/-- Insertions in front keep every block. -/
theorem Extended.mem {post post' : List BpfBlk} (h : Extended host target post post')
    {b : BpfBlk} (hb : b ∈ post) : b ∈ post' := by
  induction h with
  | refl => exact hb
  | insert _ _ ih => exact List.mem_cons_of_mem _ ih

/-- The step of the loop, and from it the loop: `post₀` are the blocks of the list behind
those still to check, and `post` is what has become of them. -/
theorem genBpfLongJumps_spec (host target : ArchEndian) {rev post₀ post : List BpfBlk}
    (hrev : ∀ b ∈ rev, b.Straight) (hfwd : ForwardRefs (rev.reverse ++ post₀))
    (hsub : ∀ b ∈ post₀, b ∈ post) (hpost : Resolvable host target post) :
    ∃ bs, genBpfLongJumps host target rev post = some bs ∧ Resolvable host target bs ∧
      instrCnt bs ≤ instrCnt rev + 2 * rev.length + instrCnt post := by
  induction rev generalizing post₀ post with
  | nil => exact ⟨post, rfl, hpost, Nat.le_add_left _ _⟩
  | cons b rev ih =>
    rw [List.reverse_cons, List.append_assoc, List.singleton_append] at hfwd
    have hb := hrev b List.mem_cons_self
    have htargets : ∀ l ∈ b.targets, l ∈ post.map BpfBlk.hash := by
      intro l hl
      obtain ⟨c, hc, rfl⟩ := List.mem_map.mp (hfwd.of_split l hl)
      exact List.mem_map.mpr ⟨c, hsub c hc, rfl⟩
    have hlen : 3 ≤ 2 * b.blks.length + 1 := by
      obtain ⟨init, last, hblks, -⟩ := hb
      rw [hblks, List.length_append, List.length_singleton]
      omega
    obtain ⟨post', hsettle, hcnt⟩ := settleJmps_spec host target hb htargets hlen
    obtain ⟨hext, hdone⟩ := settleJmps_cases hsettle
    have hsub' : ∀ c ∈ b :: post₀, c ∈ b :: post' := by
      intro c hc
      rcases List.mem_cons.mp hc with rfl | hc
      · exact List.mem_cons_self
      · exact List.mem_cons_of_mem b (hext.mem (hsub c hc))
    obtain ⟨bs, hbs, hres, hle⟩ := ih (fun c hc => hrev c (List.mem_cons_of_mem b hc)) hfwd hsub'
      ⟨genBpfBody_of_checkJmps hb hdone, hext.resolvable hpost⟩
    refine ⟨bs, ?_, hres, ?_⟩
    · rw [genBpfLongJumps, hsettle]
      exact hbs
    · rw [instrCnt_cons] at hle
      rw [instrCnt_cons, List.length_cons]
      omega

/-- **The last stages of the compiler succeed** on every list of straight blocks whose
references go forward, and add at most two instructions for every block. -/
theorem genBpfLongJumps_resolve (host target : ArchEndian) {bs : List BpfBlk}
    (hbs : ∀ b ∈ bs, b.Straight) (hfwd : ForwardRefs bs) :
    ∃ bs' prg, genBpfLongJumps host target bs.reverse [] = some bs' ∧
      genBpfResolve host target bs' = some prg ∧
      instrCnt bs' ≤ instrCnt bs + 2 * bs.length := by
  have hfwd' : ForwardRefs (bs.reverse.reverse ++ []) := by
    rwa [List.reverse_reverse, List.append_nil]
  have hnil : Resolvable host target [] := trivial
  obtain ⟨bs', h, hres, hcnt⟩ := genBpfLongJumps_spec host target
    (fun b hb => hbs b (List.mem_reverse.mp hb)) hfwd' (fun b hb => hb) hnil
  obtain ⟨prg, hprg⟩ := hres.genBpfResolve
  refine ⟨bs', prg, h, hprg, ?_⟩
  rw [List.length_reverse, instrCnt, instrCnt, size_reverse] at hcnt
  exact hcnt

/-- **Long jumps keep the meaning of a list of blocks.**  If every block jumps at its end,
all references go down the list, blocks with one hash are the same and no block falls
through, then the list is made into a program, and started at its first instruction the
program does what the list does, on every call and with every accumulator. -/
theorem exec_genBpfLongJumps (hhost : host = target) {bs : List BpfBlk}
    (hbs : ∀ b ∈ bs, b.Straight) (hfwd : ForwardRefs bs)
    (hsame : ∀ b ∈ bs, ∀ c ∈ bs, b.hash = c.hash → b.blks = c.blks)
    (hstop : ∀ b ∈ bs, ∀ d acc acc', blkEffect host target d b.blks acc ≠ .next acc')
    (hsize : instrCnt bs + 2 * bs.length < 2 ^ 16) :
    ∃ prg, (genBpfLongJumps host target bs.reverse []).bind (genBpfResolve host target) =
        some prg ∧ prg.length ≤ instrCnt bs + 2 * bs.length ∧
      ∀ d acc r, runFrom BpfBlk.hash (fun b => blkEffect host target d b.blks) bs none acc = some r →
        exec (bpfStep host target d) prg 0 acc = some r := by
  obtain ⟨bs', prg, hlong, hprg, hcnt⟩ := genBpfLongJumps_resolve host target hbs hfwd
  refine ⟨prg, by rw [hlong, Option.bind_some, hprg], ?_, fun d acc r hr => ?_⟩
  · rw [length_genBpfResolve hprg]
    exact hcnt
  · cases bs with
    | nil => cases hr
    | cons b rest =>
      have hcoh : Coherent BpfBlk.hash (fun b => blkEffect host target d b.blks) (b :: rest) :=
        fun c hc c' hc' h => congrArg (blkEffect host target d) (hsame c hc c' hc' h)
      have hsound := sound_genBpfLongJumps hhost (fun c hc => sound_of_coherent hcoh
        (hfwd.forward fun c hc => hstop c hc d) (List.mem_reverse.mp hc)) hlong
      have hlt : instrCnt bs' < 2 ^ 32 := lt_of_le_of_lt hcnt (hsize.trans (by norm_num))
      obtain ⟨post, post', -, -, rfl⟩ := genBpfLongJumps_cons hlong
      refine exec_of_sound hsound (assembled_genBpfResolve hprg hlt)
        ⟨[], b, post', rfl, rfl, rfl⟩ ⟨List.mem_cons_self, ?_⟩
      rw [runFrom_self]
      exact hr

/-- A jump over 300 blocks, to the last one of them. -/
def farJumpBlks (target : ArchEndian) : List BpfBlk :=
  ⟨[bpfJump .little target BPF_JMP_JEQ (.hsh 300) (.hsh 1) 7], accStateUndef, accStateUndef, 0⟩ ::
    (List.range 300).map fun i => ⟨[bpfInstr .little target BPF_RET (UInt32.ofNat i)],
      accStateUndef, accStateUndef, UInt64.ofNat (i + 1)⟩

/-- A return 300 instructions away is reached through the copy that is put in front of it. -/
theorem exec_genBpfLongJumps_far :
    ∃ prg, (genBpfLongJumps .little .little (farJumpBlks .little).reverse []).bind
        (genBpfResolve .little .little) = some prg ∧
      prg.length ≤ instrCnt (farJumpBlks .little) + 2 * (farJumpBlks .little).length ∧
      ∀ d acc r,
        runFrom BpfBlk.hash (fun b => blkEffect .little .little d b.blks) (farJumpBlks .little)
            none acc = some r →
          exec (bpfStep .little .little d) prg 0 acc = some r := by
  have hrange : ((farJumpBlks .little).map BpfBlk.hash).map UInt64.toNat = List.range 301 := by
    decide +kernel
  have hnodup : ((farJumpBlks .little).map BpfBlk.hash).Nodup := by
    refine List.Nodup.of_map UInt64.toNat ?_
    rw [hrange]
    exact List.nodup_range
  refine exec_genBpfLongJumps rfl (List.forall_mem_cons.mpr ⟨?_, List.forall_mem_map.mpr ?_⟩)
    ⟨fun l hl => ?_, tailwise_of_splits fun xs b ys hsplit l hl => ?_⟩
    (fun b hb c hc h => congrArg BpfBlk.blks (List.inj_on_of_nodup_map hnodup hb hc h))
    (List.forall_mem_cons.mpr ⟨fun d acc acc' => ?_, List.forall_mem_map.mpr ?_⟩)
    (by decide +kernel)
  · exact ⟨[], _, rfl, (fun i hi => by cases hi), last_bpfJump _ _ _ _⟩
  · exact fun i _ => straight_single rfl
  · have hl' : l ∈ [(300 : UInt64), 1] := hl
    rw [List.mem_cons, List.mem_singleton] at hl'
    rcases hl' with rfl | rfl <;> decide +kernel
  · have hb : b ∈ (List.range 300).map _ := hsplit ▸ List.mem_append_right xs List.mem_cons_self
    obtain ⟨i, -, rfl⟩ := List.mem_map.mp hb
    cases hl
  · rw [blkEffect_jump _ _ _ (Or.inl rfl)]
    split <;> exact fun h => by cases h
  · intro i _ d acc acc'
    rw [blkEffect_ret]
    exact fun h => by cases h

/-- **The byte order of the host matters.**  For a target of the other byte order the far
return is copied with its bytes swapped: 299 becomes 0x2b010000. -/
theorem exec_genBpfLongJumps_foreign :
    let d : BpfData := ⟨0, 0, 0, fun _ => 0⟩
    runFrom BpfBlk.hash (fun b => blkEffect .little .big d b.blks) (farJumpBlks .big) none 7 =
        some 299 ∧
      ((genBpfLongJumps .little .big (farJumpBlks .big).reverse []).bind
        (genBpfResolve .little .big)).bind (fun prg => exec (bpfStep .little .big d) prg 0 7) =
        some (byteSwap32 299) := by
  decide +kernel

end Draco
