/-
# The generation of blocks succeeds

Nothing in the generation of blocks can fail but the search for a free place in the hash
table, and this needs 2^32 entries.  So it is enough to count the additions: two actions
and a block for every test, a block and an action for every system call, and a few for
every architecture (`DbFilterCol.additions`).  The blocks that end up in the program are
no more than that (`exists_genBpfBlocks`).
-/
import Draco.GenTop

namespace Draco

/-! ## Counting -/

/-- The nodes of a level. -/
def DbArgChainTree.width : DbArgChainTree → ℕ
  | .null => 0
  | .node _ _ _ lvlNxt => lvlNxt.width + 1

/-- The nodes of a level and of the levels below it. -/
def DbArgChainTree.nodes : DbArgChainTree → ℕ
  | .null => 0
  | .node _ nxtT nxtF lvlNxt => nxtT.nodes + nxtF.nodes + lvlNxt.nodes + 1

/-- The additions that are made when a level is resolved, after the actions of its nodes. -/
def DbArgChainTree.levelAdds : DbArgChainTree → ℕ
  | .null => 0
  | .node _ nxtT nxtF lvlNxt =>
    lvlNxt.levelAdds + (2 * nxtT.width + nxtT.levelAdds) + (2 * nxtF.width + nxtF.levelAdds) + 1

/-- Three additions for every node: two for its actions and one for its block. -/
theorem DbArgChainTree.levelAdds_eq (tree : DbArgChainTree) :
    2 * tree.width + tree.levelAdds = 3 * tree.nodes := by
  induction tree with
  | null => rfl
  | node n nxtT nxtF lvlNxt ihT ihF ihNxt =>
    rw [width, levelAdds, nodes]
    omega

/-- The additions for some entries: for each its block, and the blocks of its tree or of
its action. -/
def sysAdditions : List DbSysList → ℕ
  | [] => 0
  | s :: rest => sysAdditions rest + 3 * s.chains.nodes + 2

/-- The additions for some filters. -/
def filterAdditions : List DbFilterTree → ℕ
  | [] => 0
  | f :: rest => filterAdditions rest + sysAdditions f.syscalls + 2

/-- The additions to the hash table in the course of a compilation. -/
def DbFilterCol.additions (col : DbFilterCol) : ℕ := filterAdditions col.filters + 3

/-- The entries whose blocks are not in the list. -/
abbrev unfound (tbl : BpfHtbl) : ℕ := (tbl.filter fun e => !e.found).length

/-- The entries after some additions. -/
structure Grown (n : ℕ) (tbl tbl' : BpfHtbl) : Prop where
  length : tbl'.length ≤ tbl.length + n
  unfound : unfound tbl' ≤ unfound tbl + n

section

variable (jhash : List BpfInstr → UInt32) (host target : ArchEndian)

/-! ## One addition -/

/-- A duplicate leaves the number of these entries as it is. -/
theorem unfound_hshDup (tbl : BpfHtbl) (blk : BpfBlk) : unfound (hshDup tbl blk) = unfound tbl := by
  rw [unfound, hshDup, List.filter_map, List.length_map]
  refine congrArg (fun p => (tbl.filter p).length) ?_
  funext e
  rw [Function.comp_apply]
  split <;> rfl

/-- An addition for a block of the list makes an entry that is found. -/
theorem exists_hshAdd_true {tbl : BpfHtbl} (h : tbl.length < 2 ^ 32) (blk : BpfBlk) :
    ∃ b tbl', hshAdd jhash tbl blk true = some (b, tbl') ∧ tbl'.length ≤ tbl.length + 1 ∧
      unfound tbl' = unfound tbl := by
  obtain ⟨b, tbl', hadd⟩ := exists_hshAdd h blk true
  refine ⟨b, tbl', hadd, ?_⟩
  rcases hshAdd_cases hadd with ⟨hVal, -, -, rfl⟩ | ⟨e, -, -, -, rfl⟩
  · simp [unfound]
  · exact ⟨by rw [hshDup, List.length_map]; exact Nat.le_succ _, unfound_hshDup tbl _⟩

/-- In a table that is not full, an addition succeeds and makes it longer by one at most. -/
theorem exists_hshAdd_false {tbl : BpfHtbl} (h : tbl.length < 2 ^ 32) (blk : BpfBlk) :
    ∃ b tbl', hshAdd jhash tbl blk false = some (b, tbl') ∧ Grown 1 tbl tbl' := by
  obtain ⟨b, tbl', hadd⟩ := exists_hshAdd h blk false
  refine ⟨b, tbl', hadd, ?_⟩
  rcases hshAdd_cases hadd with ⟨hVal, -, -, rfl⟩ | ⟨e, -, -, -, rfl⟩
  · exact ⟨by simp, by simp [unfound]⟩
  · exact ⟨by rw [hshDup, List.length_map]; exact Nat.le_succ _,
      (unfound_hshDup tbl _).le.trans (Nat.le_succ _)⟩

theorem Grown.refl (n : ℕ) (tbl : BpfHtbl) : Grown n tbl tbl :=
  ⟨Nat.le_add_right _ _, Nat.le_add_right _ _⟩

/-- Additions add up. -/
theorem Grown.trans {n m : ℕ} {tbl tbl' tbl'' : BpfHtbl} (h : Grown n tbl tbl')
    (h' : Grown m tbl' tbl'') : Grown (n + m) tbl tbl'' := by
  obtain ⟨hl, hu⟩ := h
  obtain ⟨hl', hu'⟩ := h'
  exact ⟨by omega, by omega⟩

theorem Grown.mono {n m : ℕ} {tbl tbl' : BpfHtbl} (h : Grown n tbl tbl') (hnm : n ≤ m) :
    Grown m tbl tbl' :=
  ⟨h.length.trans (Nat.add_le_add_left hnm _), h.unfound.trans (Nat.add_le_add_left hnm _)⟩

/-! ## The tests of a tree -/

/-- The node compares a word of `struct seccomp_data` by an operator of the machine. -/
def ChainNode.Testable (n : ChainNode) : Prop :=
  n.argOffset ≤ 0x7fffffff ∧ (genBpfOp n.op).isSome = true

instance (n : ChainNode) : Decidable n.Testable := inferInstanceAs (Decidable (_ ∧ _))

/-- The block of an action is one addition. -/
theorem exists_genBpfActionHsh {tbl : BpfHtbl} (h : tbl.length < 2 ^ 32) (action : UInt32) :
    ∃ l tbl', genBpfActionHsh jhash host target tbl action = some (l, tbl') ∧
      Grown 1 tbl tbl' := by
  obtain ⟨b, tbl', hadd, hgrown⟩ := exists_hshAdd_false jhash h (genBpfAction host target action)
  exact ⟨b.hash, tbl', by rw [genBpfActionHsh, hadd]; rfl, hgrown⟩

/-- A node has an action or none. -/
theorem exists_genBpfActionOpt {tbl : BpfHtbl} (h : tbl.length < 2 ^ 32)
    (action : Option UInt32) :
    ∃ l tbl', genBpfActionOpt jhash host target tbl action = some (l, tbl') ∧
      Grown 1 tbl tbl' := by
  cases action with
  | none => exact ⟨none, tbl, rfl, Grown.refl 1 tbl⟩
  | some action =>
    obtain ⟨l, tbl', h', hgrown⟩ := exists_genBpfActionHsh jhash host target h action
    exact ⟨some l, tbl', by rw [genBpfActionOpt, h']; rfl, hgrown⟩

/-- The actions of a node are two additions at most. -/
theorem exists_genBpfNode {tbl : BpfHtbl} (h : tbl.length + 2 ≤ 2 ^ 32) {n : ChainNode}
    (hn : n.Testable) (a : AccState) :
    ∃ b tbl', genBpfNode jhash host target tbl n a = some (b, tbl') ∧ Grown 2 tbl tbl' := by
  have hlt : tbl.length < 2 ^ 32 := by omega
  obtain ⟨actT, tbl₁, hT, hgrown₁⟩ := exists_genBpfActionOpt jhash host target hlt n.actT
  have hlt₁ : tbl₁.length < 2 ^ 32 := lt_of_le_of_lt hgrown₁.length (by omega)
  obtain ⟨actF, tbl₂, hF, hgrown₂⟩ := exists_genBpfActionOpt jhash host target hlt₁ n.actF
  obtain ⟨op, hop⟩ := Option.isSome_iff_exists.mp hn.2
  refine ⟨⟨genBpfLoad host target n a, op, n.datum, actT, actF, a.before n, n.accAfter⟩, tbl₂, ?_,
    hgrown₁.trans hgrown₂⟩
  simp only [genBpfNode, hT, hF, hop, Option.bind_eq_bind, Option.bind_some]
  exact if_neg (UInt32.not_lt.mpr hn.1)

/-- The nodes of a level are made while there is room for two additions for each. -/
theorem exists_genBpfNodes {tree : DbArgChainTree} {tbl : BpfHtbl} {a : AccState}
    (h : tbl.length + 2 * tree.width ≤ 2 ^ 32)
    (htree : tree.Threaded (fun n _ => n.Testable) a) :
    ∃ bs tbl', genBpfNodes jhash host target tbl a tree = some (bs, tbl') ∧
      Grown (2 * tree.width) tbl tbl' := by
  induction tree generalizing tbl a with
  | null => exact ⟨[], tbl, rfl, Grown.refl _ tbl⟩
  | node n nxtT nxtF lvlNxt _ _ ih =>
    rw [DbArgChainTree.width] at h ⊢
    have hle : tbl.length + 2 ≤ 2 ^ 32 := by omega
    obtain ⟨b, tbl₁, hb, hgrown₁⟩ := exists_genBpfNode jhash host target hle htree.1 a
    have hle₁ : tbl₁.length + 2 * lvlNxt.width ≤ 2 ^ 32 := by
      have := hgrown₁.length
      omega
    obtain ⟨bs, tbl₂, hbs, hgrown₂⟩ := ih hle₁ (htree.2.2.2.state b.accEnd)
    refine ⟨b :: bs, tbl₂, ?_, (hgrown₁.trans hgrown₂).mono (by omega)⟩
    rw [genBpfNodes, hb]
    show (genBpfNodes jhash host target tbl₁ b.accEnd lvlNxt).bind _ = _
    rw [hbs]
    rfl

/-- One branch of a node. -/
theorem exists_branch {nxt : DbArgChainTree} {tbl : BpfHtbl} {a a' : AccState}
    (ih : ∀ {tbl : BpfHtbl} {bs : List NodeBlk} (next : UInt64),
      tbl.length + nxt.levelAdds ≤ 2 ^ 32 → LevelAll (fun _ _ _ => True) a nxt bs →
      ∃ l tbl', genBpfLevel jhash host target nxt bs next tbl = some (l, tbl') ∧
        Grown nxt.levelAdds tbl tbl')
    (h : tbl.length + (2 * nxt.width + nxt.levelAdds) ≤ 2 ^ 32)
    (hnxt : nxt.Threaded (fun n _ => n.Testable) a') (act : Option UInt64) (next : UInt64) :
    ∃ l tbl', (if nxt.isNull then some (act.getD next, tbl)
      else (genBpfNodes jhash host target tbl a nxt).bind fun p =>
        genBpfLevel jhash host target nxt p.1 next p.2) = some (l, tbl') ∧
      Grown (2 * nxt.width + nxt.levelAdds) tbl tbl' := by
  split
  · exact ⟨_, tbl, rfl, Grown.refl _ tbl⟩
  · have hle : tbl.length + 2 * nxt.width ≤ 2 ^ 32 := by omega
    obtain ⟨bs, tbl₁, hbs, hgrown₁⟩ :=
      exists_genBpfNodes jhash host target hle (hnxt.state a)
    have hle₁ : tbl₁.length + nxt.levelAdds ≤ 2 ^ 32 := by
      have := hgrown₁.length
      omega
    obtain ⟨l, tbl₂, hl, hgrown₂⟩ := ih next hle₁
      ((levelMade_genBpfNodes hbs).imp fun _ _ _ _ => trivial)
    exact ⟨l, tbl₂, by rw [hbs, Option.bind_some, hl], hgrown₁.trans hgrown₂⟩

/-- A level is resolved with all that hangs below it, within its number of additions. -/
theorem exists_genBpfLevel {tree : DbArgChainTree} {tbl : BpfHtbl} {a a' : AccState}
    {bs : List NodeBlk} (nxtJump : UInt64) (h : tbl.length + tree.levelAdds ≤ 2 ^ 32)
    (htree : tree.Threaded (fun n _ => n.Testable) a')
    (hbs : LevelAll (fun _ _ _ => True) a tree bs) :
    ∃ l tbl', genBpfLevel jhash host target tree bs nxtJump tbl = some (l, tbl') ∧
      Grown tree.levelAdds tbl tbl' := by
  induction tree generalizing tbl a a' bs nxtJump with
  | null => exact ⟨nxtJump, tbl, rfl, Grown.refl _ tbl⟩
  | node n nxtT nxtF lvlNxt ihT ihF ihNxt =>
    obtain ⟨b, bs', rfl, -, hbs'⟩ := hbs
    rw [DbArgChainTree.levelAdds] at h ⊢
    have hle : tbl.length + lvlNxt.levelAdds ≤ 2 ^ 32 := by omega
    obtain ⟨next, tbl₁, hnext, hgrown₁⟩ := ihNxt nxtJump hle htree.2.2.2 hbs'
    have hlen₁ := hgrown₁.length
    have hle₁ : tbl₁.length + (2 * nxtT.width + nxtT.levelAdds) ≤ 2 ^ 32 := by omega
    obtain ⟨jt, tbl₂, hjt, hgrown₂⟩ := exists_branch jhash host target
      (fun next hle hbs => ihT next hle htree.2.1 hbs) hle₁ htree.2.1 b.actT next
    have hlen₂ := hgrown₂.length
    have hle₂ : tbl₂.length + (2 * nxtF.width + nxtF.levelAdds) ≤ 2 ^ 32 := by omega
    obtain ⟨jf, tbl₃, hjf, hgrown₃⟩ := exists_branch jhash host target
      (fun next hle hbs => ihF next hle htree.2.2.1 hbs) hle₂ htree.2.2.1 b.actF next
    have hlen₃ := hgrown₃.length
    have hlt₃ : tbl₃.length < 2 ^ 32 := by omega
    obtain ⟨blk, tbl₄, hadd, hgrown₄⟩ := exists_hshAdd_false jhash hlt₃
      ⟨b.load ++ [bpfJump host target b.op (.hsh jt) (.hsh jf) b.datum], b.accStart, b.accEnd, 0⟩
    refine ⟨blk.hash, tbl₄, ?_, (((hgrown₁.trans hgrown₂).trans hgrown₃).trans hgrown₄)⟩
    rw [genBpfLevel, hnext]
    dsimp only [Option.bind_eq_bind, Option.bind_some]
    rw [hjt]
    dsimp only [Option.bind_some]
    rw [hjf]
    dsimp only [Option.bind_some]
    rw [hadd]
    rfl

/-- The tree of an entry, or its action, is three additions for each node and one more at most. -/
theorem exists_genBpfChain {s : DbSysList} {tbl : BpfHtbl} {a a' : AccState}
    (nxtJump : UInt64) (h : tbl.length + (3 * s.chains.nodes + 1) ≤ 2 ^ 32)
    (htree : s.chains.Threaded (fun n _ => n.Testable) a') :
    ∃ l tbl', genBpfChain jhash host target tbl s nxtJump a = some (l, tbl') ∧
      Grown (3 * s.chains.nodes + 1) tbl tbl' := by
  rw [genBpfChain]
  have hadds := s.chains.levelAdds_eq
  split
  · have hlt : tbl.length < 2 ^ 32 := by omega
    obtain ⟨l, tbl', hl, hgrown⟩ := exists_genBpfActionHsh jhash host target hlt s.action
    exact ⟨l, tbl', hl, hgrown.mono (Nat.le_add_left _ _)⟩
  · have hle : tbl.length + 2 * s.chains.width ≤ 2 ^ 32 := by omega
    obtain ⟨bs, tbl₁, hbs, hgrown₁⟩ := exists_genBpfNodes jhash host target hle (htree.state a)
    have hle₁ : tbl₁.length + s.chains.levelAdds ≤ 2 ^ 32 := by
      have := hgrown₁.length
      omega
    obtain ⟨l, tbl₂, hl, hgrown₂⟩ := exists_genBpfLevel jhash host target nxtJump hle₁ htree
      ((levelMade_genBpfNodes hbs).imp fun _ _ _ _ => trivial)
    refine ⟨l, tbl₂, ?_, (hgrown₁.trans hgrown₂).mono (by omega)⟩
    rw [hbs]
    exact hl

/-! ## The lists of blocks -/

/-- The table and the blocks of the list after some additions. -/
structure ListGrown (n : ℕ) (tbl tbl' : BpfHtbl) (blks : List BpfBlk) : Prop where
  length : tbl'.length ≤ tbl.length + n
  blocks : blks.length + unfound tbl' ≤ unfound tbl + n

theorem ListGrown.mono {n m : ℕ} {tbl tbl' : BpfHtbl} {blks : List BpfBlk}
    (h : ListGrown n tbl tbl' blks) (hnm : n ≤ m) : ListGrown m tbl tbl' blks :=
  ⟨h.length.trans (Nat.add_le_add_left hnm _), h.blocks.trans (Nat.add_le_add_left hnm _)⟩

/-- The tests of the tree have operators of the machine. -/
def DbSysList.Testable (s : DbSysList) : Prop :=
  s.chains.Threaded (fun n _ => n.Testable) accStateUndef

instance (s : DbSysList) : Decidable s.Testable := DbArgChainTree.decidableThreaded _ _ _

/-- The entries of a filter are compiled within their number of additions. -/
theorem exists_genBpfSyscalls {syscalls : List DbSysList} {tbl : BpfHtbl} (defHsh : UInt64)
    (accReset : Bool) (h : tbl.length + sysAdditions syscalls ≤ 2 ^ 32)
    (hsys : ∀ s ∈ syscalls, s.valid = true → s.Testable) :
    ∃ blks tbl', genBpfSyscalls jhash host target tbl defHsh accReset syscalls =
      some (blks, tbl') ∧ ListGrown (sysAdditions syscalls) tbl tbl' blks := by
  induction syscalls generalizing accReset with
  | nil => exact ⟨[], tbl, rfl, Nat.le_refl _, by simp [sysAdditions]⟩
  | cons s rest ih =>
    rw [sysAdditions] at h ⊢
    have hle : tbl.length + sysAdditions rest ≤ 2 ^ 32 := by omega
    obtain ⟨blks, tbl₁, hrest, hlen₁, hblks₁⟩ :=
      ih false hle fun t ht => hsys t (List.mem_cons_of_mem s ht)
    by_cases hv : s.valid = true
    · have hle₁ : tbl₁.length + (3 * s.chains.nodes + 1) ≤ 2 ^ 32 := by omega
      obtain ⟨chain, tbl₂, hchain, hlen₂, hun₂⟩ := exists_genBpfChain jhash host target defHsh hle₁
        (hsys s List.mem_cons_self hv)
      have hlt₂ : tbl₂.length < 2 ^ 32 := by omega
      obtain ⟨b, tbl₃, hadd, hlen₃, hun₃⟩ := exists_hshAdd_true jhash hlt₂
        (syscallBlk host target accReset s.num chain (headHash defHsh blks))
      refine ⟨b :: blks, tbl₃, ?_, by omega, by rw [List.length_cons]; omega⟩
      rw [genBpfSyscalls, hrest]
      dsimp only [Option.bind_eq_bind, Option.bind_some]
      rw [if_pos hv, genBpfSyscall, hchain]
      dsimp only [Option.bind_eq_bind, Option.bind_some]
      rw [hadd]
      rfl
    · refine ⟨blks, tbl₁, ?_, by omega, by omega⟩
      rw [genBpfSyscalls, hrest]
      dsimp only [Option.bind_eq_bind, Option.bind_some]
      rw [if_neg hv]

/-- The additions for two lists of entries add up. -/
theorem sysAdditions_append (l l' : List DbSysList) :
    sysAdditions (l ++ l') = sysAdditions l + sysAdditions l' := by
  induction l with
  | nil => rw [List.nil_append, sysAdditions, Nat.zero_add]
  | cons s l ih =>
    rw [List.cons_append, sysAdditions, sysAdditions, ih]
    omega

/-- The order of the entries does not matter. -/
theorem sysAdditions_perm {l l' : List DbSysList} (h : l.Perm l') :
    sysAdditions l = sysAdditions l' := by
  induction h with
  | nil => rfl
  | cons s _ ih => rw [sysAdditions, sysAdditions, ih]
  | swap s t l =>
    simp only [sysAdditions]
    omega
  | trans _ _ ih ih' => exact ih.trans ih'

/-- A filter with its partner is compiled within their number of additions. -/
theorem exists_genBpfArch {db : DbFilterTree} {secondary : Option DbFilterTree} {tbl : BpfHtbl}
    (badArchHsh defHsh : UInt64)
    (h : tbl.length + filterAdditions (db :: secondary.toList) ≤ 2 ^ 32)
    (hsys : ∀ s ∈ db.syscalls ++ secondary.elim [] DbFilterTree.syscalls,
      s.valid = true → s.Testable) :
    ∃ blks tbl', genBpfArch jhash host tbl badArchHsh defHsh db secondary = some (blks, tbl') ∧
      ListGrown (filterAdditions (db :: secondary.toList)) tbl tbl' blks := by
  have hperm := perm_sortPriority (db.syscalls ++ secondary.elim [] DbFilterTree.syscalls)
  have hadds : sysAdditions (sortPriority (db.syscalls ++
      secondary.elim [] DbFilterTree.syscalls)) + 2 ≤ filterAdditions (db :: secondary.toList) := by
    rw [sysAdditions_perm hperm, sysAdditions_append]
    cases secondary with
    | none =>
      simp only [Option.elim_none, Option.toList_none, filterAdditions, sysAdditions]
      omega
    | some f =>
      simp only [Option.elim_some, Option.toList_some, filterAdditions]
      omega
  generalize filterAdditions (db :: secondary.toList) = n at h hadds ⊢
  generalize hsorted : sortPriority (db.syscalls ++ secondary.elim [] DbFilterTree.syscalls) =
    sorted at hadds hperm
  have hle : tbl.length + sysAdditions sorted ≤ 2 ^ 32 := by omega
  obtain ⟨blks, tbl₁, hblks, hlen₁, hun₁⟩ := exists_genBpfSyscalls jhash host db.arch.endian
    defHsh (!decide (db.arch.NeedsAbiCheck secondary)) hle
    fun s hs => hsys s (hperm.mem_iff.mp hs)
  rw [genBpfArch]
  dsimp only
  rw [hsorted, hblks]
  dsimp only [Option.bind_eq_bind, Option.bind_some]
  have hlt₁ : tbl₁.length < 2 ^ 32 := by omega
  by_cases hneed : db.arch.NeedsAbiCheck secondary
  · obtain ⟨c, tbl₂, hc, hlen₂, hun₂⟩ := exists_hshAdd_true jhash hlt₁
      (abiBlk host db.arch badArchHsh (headHash defHsh blks))
    have hlt₂ : tbl₂.length < 2 ^ 32 := by omega
    obtain ⟨b, tbl₃, hb, hlen₃, hun₃⟩ := exists_hshAdd_true jhash hlt₂
      (archBlk host db.arch (headHash defHsh (c :: blks)) (c :: blks).length)
    refine ⟨b :: c :: blks, tbl₃, ?_, by omega, by rw [List.length_cons, List.length_cons]; omega⟩
    rw [if_pos (decide_eq_true hneed), hc]
    dsimp only [Option.map_some, Option.bind_some]
    rw [hb]
    rfl
  · obtain ⟨b, tbl₃, hb, hlen₃, hun₃⟩ := exists_hshAdd_true jhash hlt₁
      (archBlk host db.arch (headHash defHsh blks) blks.length)
    refine ⟨b :: blks, tbl₃, ?_, by omega, by rw [List.length_cons]; omega⟩
    rw [if_neg (by simpa using hneed)]
    dsimp only [Option.bind_some]
    rw [hb]
    rfl

/-- The additions for two lists of filters add up. -/
theorem filterAdditions_append (l l' : List DbFilterTree) :
    filterAdditions (l ++ l') = filterAdditions l + filterAdditions l' := by
  induction l with
  | nil => rw [List.nil_append, filterAdditions, Nat.zero_add]
  | cons f l ih =>
    rw [List.cons_append, filterAdditions, filterAdditions, ih]
    omega

/-- The order of the filters does not matter. -/
theorem filterAdditions_perm {l l' : List DbFilterTree} (h : l.Perm l') :
    filterAdditions l = filterAdditions l' := by
  induction h with
  | nil => rfl
  | cons f _ ih => rw [filterAdditions, filterAdditions, ih]
  | swap f g l =>
    simp only [filterAdditions]
    omega
  | trans _ _ ih ih' => exact ih.trans ih'

/-- Fewer filters need no more additions. -/
theorem filterAdditions_sublist {l l' : List DbFilterTree} (h : l.Sublist l') :
    filterAdditions l ≤ filterAdditions l' := by
  induction h with
  | slnil => exact Nat.le_refl _
  | cons f _ ih =>
    rw [filterAdditions]
    omega
  | cons_cons f _ ih =>
    rw [filterAdditions, filterAdditions]
    omega

/-- The groups of a collection are compiled within the additions for all their filters. -/
theorem exists_genBpfGroups {groups : List (DbFilterTree × Option DbFilterTree)}
    {tbl : BpfHtbl} (badArchHsh defHsh : UInt64)
    (h : tbl.length + filterAdditions (groups.flatMap fun g => g.1 :: g.2.toList) ≤ 2 ^ 32)
    (hsys : ∀ g ∈ groups, ∀ s ∈ g.1.syscalls ++ g.2.elim [] DbFilterTree.syscalls,
      s.valid = true → s.Testable) :
    ∃ blks tbl', genBpfGroups jhash host badArchHsh defHsh groups tbl = some (blks, tbl') ∧
      ListGrown (filterAdditions (groups.flatMap fun g => g.1 :: g.2.toList)) tbl tbl' blks := by
  induction groups generalizing tbl with
  | nil => exact ⟨[], tbl, rfl, Nat.le_refl _, by simp [filterAdditions]⟩
  | cons g rest ih =>
    obtain ⟨db, secondary⟩ := g
    rw [List.flatMap_cons, filterAdditions_append] at h ⊢
    dsimp only at h ⊢
    have hle : tbl.length + filterAdditions (db :: secondary.toList) ≤ 2 ^ 32 := by omega
    obtain ⟨blks₁, tbl₁, h₁, hlen₁, hun₁⟩ := exists_genBpfArch jhash host badArchHsh defHsh hle
      (hsys _ List.mem_cons_self)
    have hle₁ : tbl₁.length + filterAdditions (rest.flatMap fun g => g.1 :: g.2.toList) ≤
        2 ^ 32 := by omega
    obtain ⟨blks₂, tbl₂, h₂, hlen₂, hun₂⟩ := ih hle₁
      fun g hg => hsys g (List.mem_cons_of_mem (db, secondary) hg)
    refine ⟨blks₁ ++ blks₂, tbl₂, ?_, by omega, by rw [List.length_append]; omega⟩
    rw [genBpfGroups, h₁]
    dsimp only [Option.bind_eq_bind, Option.bind_some]
    rw [h₂]
    rfl

/-- Every filter belongs to one group at most. -/
theorem DbFilterCol.filterAdditions_groups {col : DbFilterCol} (hcol : col.WellFormed) :
    filterAdditions (col.groups.flatMap fun g => g.1 :: g.2.toList) ≤
      filterAdditions col.filters := by
  have hmem : ∀ {g : DbFilterTree × Option DbFilterTree}, g ∈ col.groups →
      ∀ f ∈ g.1 :: g.2.toList, f ∈ col.filters ∧ f.arch.tokenBpf = g.1.arch.tokenBpf := by
    intro g hg f hf
    have hf' := (DbFilterCol.perm_group hcol hg).mem_iff.mpr hf
    rw [DbFilterCol.filtersFor, List.mem_filter, decide_eq_true_eq] at hf'
    exact hf'
  have hnodup : (col.groups.flatMap fun g => g.1 :: g.2.toList).Nodup := by
    rw [List.nodup_flatMap]
    refine ⟨fun g hg => ?_, (DbFilterCol.pairwise_groups hcol).imp_of_mem fun hg hg' hne f hf hf' =>
      hne ((hmem hg f hf).2.symm.trans (hmem hg' f hf').2)⟩
    exact (DbFilterCol.perm_group hcol hg).nodup_iff.mp (hcol.archs.of_map.filter _)
  have hsub : col.groups.flatMap (fun g => g.1 :: g.2.toList) ⊆ col.filters := by
    intro f hf
    obtain ⟨g, hg, hfg⟩ := List.mem_flatMap.mp hf
    exact (hmem hg f hfg).1
  obtain ⟨l, hperm, hl⟩ := hnodup.subperm hsub
  rw [← filterAdditions_perm hperm]
  exact filterAdditions_sublist hl

/-- All tests of a collection have operators of the machine. -/
def DbFilterCol.Testable (col : DbFilterCol) : Prop :=
  ∀ f ∈ col.filters, ∀ s ∈ f.syscalls, s.valid = true → s.Testable

instance (col : DbFilterCol) : Decidable col.Testable :=
  inferInstanceAs (Decidable (∀ f ∈ col.filters, ∀ s ∈ f.syscalls, s.valid = true → s.Testable))

/-- **The generation of blocks succeeds**, and the blocks of the list with those that can
be placed are no more than the additions. -/
theorem exists_genBpfBlocks {col : DbFilterCol} (hcol : col.WellFormed) (hne : col.filters ≠ [])
    (htest : col.Testable) (hsize : col.additions ≤ 2 ^ 32) :
    ∃ top tbl, genBpfBlocks jhash host col = some (top, tbl) ∧
      top.length + unfound tbl ≤ col.additions := by
  rw [DbFilterCol.additions] at hsize ⊢
  have hgroups := DbFilterCol.filterAdditions_groups hcol
  obtain ⟨bad, tbl₁, h₁, hlen₁, hun₁⟩ := exists_hshAdd_true jhash (show ([] : BpfHtbl).length <
    2 ^ 32 by decide) (genBpfAction host col.endian col.actBadarch)
  rw [List.length_nil] at hlen₁
  have hlt₁ : tbl₁.length < 2 ^ 32 := by omega
  obtain ⟨default, tbl₂, h₂, hlen₂, hun₂⟩ := exists_hshAdd_false jhash hlt₁
    (genBpfAction host col.endian col.actDefault)
  have hlt₂ : tbl₂.length < 2 ^ 32 := by omega
  obtain ⟨head, tbl₃, h₃, hlen₃, hun₃⟩ := exists_hshAdd_true jhash hlt₂
    (loadArchBlk host col.endian)
  have hle₃ : tbl₃.length + filterAdditions (col.groups.flatMap fun g => g.1 :: g.2.toList) ≤
      2 ^ 32 := by omega
  have hsys : ∀ g ∈ col.groups, ∀ s ∈ g.1.syscalls ++ g.2.elim [] DbFilterTree.syscalls,
      s.valid = true → s.Testable := by
    intro g hg s hs hv
    obtain ⟨f, hf, hsf⟩ := DbFilterCol.exists_of_mem_group hcol hg hs
    exact htest f hf s hsf hv
  obtain ⟨blks, tbl₄, h₄, hlen₄, hun₄⟩ := exists_genBpfGroups jhash host bad.hash default.hash
    hle₃ hsys
  refine ⟨head :: blks ++ [bad], tbl₄, ?_, ?_⟩
  · rw [genBpfBlocks, if_neg (by rw [List.isEmpty_iff]; exact hne), h₁]
    dsimp only [Option.bind_eq_bind, Option.bind_some]
    rw [h₂]
    dsimp only [Option.bind_some]
    rw [h₃]
    dsimp only [Option.bind_some]
    rw [genBpfArchs_eq, ← DbFilterCol.groups, h₄]
    rfl
  · rw [List.length_append, List.length_cons, List.length_singleton]
    have hnil : unfound [] = 0 := rfl
    have hun₂' := hun₂.trans_eq (by rw [hun₁, hnil])
    omega

end

end Draco
