/-
# The blocks of a tree of tests

The compiler turns the tree of a system call into blocks (`genBpfChain`).  Everything
that is shown of it follows one rule (`ChainRule`): if each addition to the table keeps
what is asked of it, then so does the whole tree.  The first use of the rule is that what
the table says of the first block of the tree is the action that the tree comes to
(`chainRule_yields`): for every tree whose tests load words of `struct seccomp_data`, if
duplicates agree on the accumulator.
-/
import Draco.BlockGraph

namespace Draco

open LabelledCode

/-- `Q` holds of every node of a level and of the levels below it, with the accumulator
state in which the block of the node is generated. -/
def DbArgChainTree.Threaded (Q : ChainNode → AccState → Prop) : AccState → DbArgChainTree → Prop
  | _, .null => True
  | a, .node n nxtT nxtF lvlNxt =>
    Q n a ∧ nxtT.Threaded Q (a.before n) ∧ nxtF.Threaded Q (a.before n) ∧
      lvlNxt.Threaded Q n.accAfter

/-- A weaker property holds along the chain too. -/
theorem DbArgChainTree.Threaded.imp {Q Q' : ChainNode → AccState → Prop}
    (hQ : ∀ n a, Q n a → Q' n a) {a : AccState} {tree : DbArgChainTree}
    (h : tree.Threaded Q a) : tree.Threaded Q' a := by
  induction tree generalizing a with
  | null => trivial
  | node n nxtT nxtF lvlNxt ihT ihF ihNxt =>
    exact ⟨hQ n a h.1, ihT h.2.1, ihF h.2.2.1, ihNxt h.2.2.2⟩

/-- What does not depend on the accumulator holds in every state. -/
theorem DbArgChainTree.Threaded.state {Q : ChainNode → Prop} {a : AccState}
    {tree : DbArgChainTree} (h : tree.Threaded (fun n _ => Q n) a) (a' : AccState) :
    tree.Threaded (fun n _ => Q n) a' := by
  induction tree generalizing a a' with
  | null => trivial
  | node n nxtT nxtF lvlNxt ihT ihF _ => exact ⟨h.1, ihT h.2.1 _, ihF h.2.2.1 _, h.2.2.2⟩

instance DbArgChainTree.decidableThreaded (Q : ChainNode → AccState → Prop)
    [∀ n a, Decidable (Q n a)] :
    ∀ (a : AccState) (tree : DbArgChainTree), Decidable (tree.Threaded Q a)
  | _, .null => isTrue trivial
  | a, .node n nxtT nxtF lvlNxt =>
    have := decidableThreaded Q (a.before n) nxtT
    have := decidableThreaded Q (a.before n) nxtF
    have := decidableThreaded Q n.accAfter lvlNxt
    inferInstanceAs (Decidable (Q n a ∧ nxtT.Threaded Q (a.before n) ∧
      nxtF.Threaded Q (a.before n) ∧ lvlNxt.Threaded Q n.accAfter))

/-- The node loads a word of `struct seccomp_data`. -/
def ChainNode.Loads (n : ChainNode) (_ : AccState) : Prop := LoadValid n.argOffset

instance (n : ChainNode) (a : AccState) : Decidable (n.Loads a) :=
  inferInstanceAs (Decidable (LoadValid _))

/-- The block of a node. -/
def nodeBlk (host target : ArchEndian) (n : ChainNode) (a : AccState) (op : UInt16)
    (jt jf : UInt64) : BpfBlk :=
  ⟨genBpfLoad host target n a ++ [bpfJump host target op (.hsh jt) (.hsh jf) n.datum],
    a.before n, n.accAfter, 0⟩

section

variable {jhash : List BpfInstr → UInt32} {host target : ArchEndian}

/-! ## How a level is resolved -/

/-- The block of a node before its jumps are resolved, as `_gen_bpf_node` makes it in
accumulator state `a`. -/
structure NodeBlkMade (host target : ArchEndian) (n : ChainNode) (a : AccState)
    (b : NodeBlk) : Prop where
  load : b.load = genBpfLoad host target n a
  op : genBpfOp n.op = some b.op
  datum : b.datum = n.datum
  accStart : b.accStart = a.before n
  accEnd : b.accEnd = n.accAfter

/-- What `_gen_bpf_node` does. -/
theorem genBpfNode_cases {tbl tbl' : BpfHtbl} {n : ChainNode} {a : AccState} {b : NodeBlk}
    (h : genBpfNode jhash host target tbl n a = some (b, tbl')) :
    ∃ tbl₁, genBpfActionOpt jhash host target tbl n.actT = some (b.actT, tbl₁) ∧
      genBpfActionOpt jhash host target tbl₁ n.actF = some (b.actF, tbl') ∧
      NodeBlkMade host target n a b := by
  simp only [genBpfNode, Option.bind_eq_bind, Option.bind_eq_some_iff] at h
  obtain ⟨⟨actT, tbl₁⟩, hT, ⟨actF, tbl₂⟩, hF, h⟩ := h
  split at h
  · cases h
  · obtain ⟨op, hop, h⟩ := Option.bind_eq_some_iff.mp h
    obtain ⟨rfl, rfl⟩ := Prod.mk.inj (Option.some.inj h)
    exact ⟨tbl₁, hT, hF, rfl, hop, rfl, rfl, rfl⟩

/-- The blocks `bs` belong to the nodes of a level. -/
def LevelAll (C : ChainNode → AccState → NodeBlk → Prop) :
    AccState → DbArgChainTree → List NodeBlk → Prop
  | _, .null, bs => bs = []
  | a, .node n _ _ lvlNxt, bs =>
    ∃ b bs', bs = b :: bs' ∧ C n a b ∧ LevelAll C n.accAfter lvlNxt bs'

/-- A weaker property holds of the blocks of a level too. -/
theorem LevelAll.imp {C C' : ChainNode → AccState → NodeBlk → Prop}
    (hC : ∀ n a b, C n a b → C' n a b) {a : AccState} {tree : DbArgChainTree}
    {bs : List NodeBlk} (h : LevelAll C a tree bs) : LevelAll C' a tree bs := by
  induction tree generalizing a bs with
  | null => exact h
  | node n nxtT nxtF lvlNxt _ _ ih =>
    obtain ⟨b, bs', rfl, hb, hbs⟩ := h
    exact ⟨b, bs', rfl, hC n a b hb, ih hbs⟩

/-- The blocks of a level start with that of its first node. -/
theorem genBpfNodes_cases {tbl tbl' : BpfHtbl} {a : AccState} {n : ChainNode}
    {nxtT nxtF lvlNxt : DbArgChainTree} {bs : List NodeBlk}
    (h : genBpfNodes jhash host target tbl a (.node n nxtT nxtF lvlNxt) = some (bs, tbl')) :
    ∃ b tbl₁ bs', bs = b :: bs' ∧ genBpfNode jhash host target tbl n a = some (b, tbl₁) ∧
      genBpfNodes jhash host target tbl₁ n.accAfter lvlNxt = some (bs', tbl') := by
  simp only [genBpfNodes, Option.bind_eq_bind, Option.bind_eq_some_iff] at h
  obtain ⟨⟨b, tbl₁⟩, hb, ⟨bs', tbl₂⟩, hbs, h⟩ := h
  obtain ⟨rfl, rfl⟩ := Prod.mk.inj (Option.some.inj h)
  obtain ⟨-, -, -, hmade⟩ := genBpfNode_cases hb
  rw [hmade.accEnd] at hbs
  exact ⟨b, tbl₁, bs', rfl, hb, hbs⟩

/-- The blocks of a level are made from its nodes, in order. -/
theorem levelMade_genBpfNodes {tbl tbl' : BpfHtbl} {a : AccState} {tree : DbArgChainTree}
    {bs : List NodeBlk} (h : genBpfNodes jhash host target tbl a tree = some (bs, tbl')) :
    LevelAll (NodeBlkMade host target) a tree bs := by
  induction tree generalizing tbl a bs with
  | null => exact (Prod.mk.inj (Option.some.inj h)).1.symm
  | node n nxtT nxtF lvlNxt _ _ ih =>
    obtain ⟨b, tbl₁, bs', rfl, hb, hbs⟩ := genBpfNodes_cases h
    obtain ⟨-, -, -, hmade⟩ := genBpfNode_cases hb
    exact ⟨b, bs', rfl, hmade, ih hbs⟩

/-- How one branch of a node is resolved: to its action or the next node of the level
where it has no subtree, and else to the first block of the subtree. -/
def BranchTo (jhash : List BpfInstr → UInt32) (host target : ArchEndian) (nxt : DbArgChainTree)
    (act : Option UInt64) (a : AccState) (next : UInt64) (tbl : BpfHtbl) (l : UInt64)
    (tbl' : BpfHtbl) : Prop :=
  nxt.isNull = true ∧ l = act.getD next ∧ tbl' = tbl ∨
  nxt.isNull = false ∧ ∃ bs tbl₁, genBpfNodes jhash host target tbl a nxt = some (bs, tbl₁) ∧
    genBpfLevel jhash host target nxt bs next tbl₁ = some (l, tbl')

/-- What `_gen_bpf_chain` does with a branch, in one statement. -/
theorem branchTo_of_eq_some {nxt : DbArgChainTree} {act : Option UInt64} {a : AccState}
    {next l : UInt64} {tbl tbl' : BpfHtbl}
    (h : (if nxt.isNull = true then some (act.getD next, tbl)
      else (genBpfNodes jhash host target tbl a nxt).bind fun p =>
        genBpfLevel jhash host target nxt p.1 next p.2) = some (l, tbl')) :
    BranchTo jhash host target nxt act a next tbl l tbl' := by
  split at h
  next hnull =>
    obtain ⟨rfl, rfl⟩ := Prod.mk.inj (Option.some.inj h)
    exact Or.inl ⟨hnull, rfl, rfl⟩
  next hnull =>
    obtain ⟨⟨bs, tbl₁⟩, hbs, h⟩ := Option.bind_eq_some_iff.mp h
    exact Or.inr ⟨by simpa using hnull, bs, tbl₁, hbs, h⟩

/-- **What `_gen_bpf_chain` does with a level.**  It resolves the rest of the level, then
the subtrees of its first node, and adds the block of the node. -/
theorem genBpfLevel_cases {n : ChainNode} {a : AccState} {nxtT nxtF lvlNxt : DbArgChainTree}
    {bs : List NodeBlk} {nxtJump l : UInt64} {tbl tbl' : BpfHtbl}
    (h : genBpfLevel jhash host target (.node n nxtT nxtF lvlNxt) bs nxtJump tbl =
      some (l, tbl'))
    (hlevel : LevelAll (NodeBlkMade host target) a (.node n nxtT nxtF lvlNxt) bs) :
    ∃ b bs' next tbl₁ jt tbl₂ jf tbl₃ blk, bs = b :: bs' ∧ NodeBlkMade host target n a b ∧
      LevelAll (NodeBlkMade host target) n.accAfter lvlNxt bs' ∧
      genBpfLevel jhash host target lvlNxt bs' nxtJump tbl = some (next, tbl₁) ∧
      BranchTo jhash host target nxtT b.actT (a.before n) next tbl₁ jt tbl₂ ∧
      BranchTo jhash host target nxtF b.actF (a.before n) next tbl₂ jf tbl₃ ∧
      hshAdd jhash tbl₃ (nodeBlk host target n a b.op jt jf) false = some (blk, tbl') ∧
      l = blk.hash := by
  obtain ⟨b, bs', rfl, hmade, hbs⟩ := hlevel
  simp only [genBpfLevel, Option.bind_eq_bind, Option.bind_eq_some_iff] at h
  obtain ⟨⟨next, tbl₁⟩, hnext, ⟨jt, tbl₂⟩, hjt, ⟨jf, tbl₃⟩, hjf, ⟨blk, tbl₄⟩, hadd, h⟩ := h
  obtain ⟨rfl, rfl⟩ := Prod.mk.inj (Option.some.inj h)
  simp only [hmade.load, hmade.datum, hmade.accStart, hmade.accEnd] at hjt hjf hadd
  exact ⟨b, bs', next, tbl₁, jt, tbl₂, jf, tbl₃, blk, rfl, hmade, hbs, hnext,
    branchTo_of_eq_some hjt, branchTo_of_eq_some hjf, hadd, rfl⟩

/-! ## The rule for trees -/

variable {d : BpfData}

/-- What is to be shown of the generator, one call of `_hsh_add` at a time: everything that
is added has `P`, and its hash stands for an action in the sense of `Y`. -/
structure ChainRule (jhash : List BpfInstr → UInt32) (host target : ArchEndian) (d : BpfData)
    (Q : ChainNode → AccState → Prop) (P : BpfHtbl → BpfBlk → Bool → Prop)
    (Y : BpfHtbl → UInt64 → UInt32 → Prop) : Prop where
  mono : ∀ {tbl tbl' l r}, TableExt tbl tbl' → Y tbl l r → Y tbl' l r
  action : ∀ {tbl tbl' action b},
    hshAdd jhash tbl (genBpfAction host target action) false = some (b, tbl') →
    P tbl (genBpfAction host target action) false ∧ Y tbl' b.hash action
  node : ∀ {tbl tbl' n a op jt jf rT rF b}, Q n a → genBpfOp n.op = some op → Y tbl jt rT →
    Y tbl jf rF → hshAdd jhash tbl (nodeBlk host target n a op jt jf) false = some (b, tbl') →
    P tbl (nodeBlk host target n a op jt jf) false ∧
      Y tbl' b.hash (if n.test (d.word target n.argOffset) then rT else rF)

/-- The hash of an optional action stands for the action. -/
def ActionOk (Y : BpfHtbl → UInt64 → UInt32 → Prop) (tbl : BpfHtbl) (action : Option UInt32)
    (l : Option UInt64) : Prop :=
  match action with
  | none => l = none
  | some action => ∃ l', l = some l' ∧ Y tbl l' action

/-- Where a branch without a subtree goes. -/
theorem ActionOk.getD {Y : BpfHtbl → UInt64 → UInt32 → Prop} {tbl : BpfHtbl}
    {action : Option UInt32} {l : Option UInt64} (h : ActionOk Y tbl action l) {next : UInt64}
    {r : UInt32} (hnext : Y tbl next r) : Y tbl (l.getD next) (action.getD r) := by
  cases action with
  | none =>
    rw [show l = none from h]
    exact hnext
  | some action =>
    obtain ⟨l', rfl, hy⟩ := h
    exact hy

/-- The actions of a node are in the table. -/
def NodeActions (Y : BpfHtbl → UInt64 → UInt32 → Prop) (tbl : BpfHtbl) (n : ChainNode)
    (_ : AccState) (b : NodeBlk) : Prop :=
  ActionOk Y tbl n.actT b.actT ∧ ActionOk Y tbl n.actF b.actF

namespace ChainRule

variable {Q : ChainNode → AccState → Prop} {P : BpfHtbl → BpfBlk → Bool → Prop}
  {Y : BpfHtbl → UInt64 → UInt32 → Prop}

/-- The hash of an action keeps its meaning in a larger table. -/
theorem mono_actionOk (R : ChainRule jhash host target d Q P Y) {tbl tbl' : BpfHtbl}
    (hext : TableExt tbl tbl') {action : Option UInt32} {l : Option UInt64}
    (h : ActionOk Y tbl action l) : ActionOk Y tbl' action l := by
  cases action with
  | none => exact h
  | some action =>
    obtain ⟨l', hl, hy⟩ := h
    exact ⟨l', hl, R.mono hext hy⟩

/-- The block of an action is added, and its hash stands for the action. -/
theorem genBpfActionHsh (R : ChainRule jhash host target d Q P Y) {tbl tbl' : BpfHtbl}
    {action : UInt32} {l : UInt64}
    (h : Draco.genBpfActionHsh jhash host target tbl action = some (l, tbl')) :
    Adds jhash P tbl tbl' ∧ Y tbl' l action := by
  obtain ⟨⟨b, tbl''⟩, hadd, hp⟩ := Option.map_eq_some_iff.mp h
  obtain ⟨rfl, rfl⟩ := Prod.mk.inj hp
  obtain ⟨hP, hY⟩ := R.action hadd
  exact ⟨Adds.single hP hadd, hY⟩

/-- The same for an action that may be missing. -/
theorem genBpfActionOpt (R : ChainRule jhash host target d Q P Y) {tbl tbl' : BpfHtbl}
    {action : Option UInt32} {l : Option UInt64}
    (h : Draco.genBpfActionOpt jhash host target tbl action = some (l, tbl')) :
    Adds jhash P tbl tbl' ∧ ActionOk Y tbl' action l := by
  cases action with
  | none =>
    obtain ⟨rfl, rfl⟩ := Prod.mk.inj (Option.some.inj h)
    exact ⟨Adds.refl, rfl⟩
  | some action =>
    obtain ⟨⟨l', tbl''⟩, hadd, hp⟩ := Option.map_eq_some_iff.mp h
    obtain ⟨rfl, rfl⟩ := Prod.mk.inj hp
    obtain ⟨hadds, hY⟩ := R.genBpfActionHsh hadd
    exact ⟨hadds, l', rfl, hY⟩

/-- The first pass over a level adds the blocks of its actions. -/
theorem genBpfNodes (R : ChainRule jhash host target d Q P Y) {tbl tbl' : BpfHtbl}
    {a : AccState} {tree : DbArgChainTree} {bs : List NodeBlk}
    (h : Draco.genBpfNodes jhash host target tbl a tree = some (bs, tbl')) :
    Adds jhash P tbl tbl' ∧ LevelAll (NodeActions Y tbl') a tree bs := by
  induction tree generalizing tbl a bs with
  | null =>
    obtain ⟨rfl, rfl⟩ := Prod.mk.inj (Option.some.inj h)
    exact ⟨Adds.refl, rfl⟩
  | node n nxtT nxtF lvlNxt _ _ ih =>
    obtain ⟨b, tbl₁, bs', rfl, hb, hbs⟩ := genBpfNodes_cases h
    obtain ⟨tbl₂, hT, hF, -⟩ := genBpfNode_cases hb
    obtain ⟨haddsT, hT⟩ := R.genBpfActionOpt hT
    obtain ⟨haddsF, hF⟩ := R.genBpfActionOpt hF
    obtain ⟨hadds, hacts⟩ := ih hbs
    refine ⟨(haddsT.trans haddsF).trans hadds, b, bs', rfl, ⟨?_, ?_⟩, hacts⟩
    · exact R.mono_actionOk (haddsF.trans hadds).tableExt hT
    · exact R.mono_actionOk hadds.tableExt hF

/-- A branch comes to what its subtree comes to, its action, or the rest of the level. -/
theorem branchTo (R : ChainRule jhash host target d Q P Y) {nxt : DbArgChainTree} {a : AccState}
    (ih : ∀ {bs : List NodeBlk} {next l : UInt64} {tbl tbl' : BpfHtbl} {r : UInt32},
      genBpfLevel jhash host target nxt bs next tbl = some (l, tbl') →
      LevelAll (NodeBlkMade host target) a nxt bs → LevelAll (NodeActions Y tbl) a nxt bs →
      Y tbl next r → Adds jhash P tbl tbl' ∧ Y tbl' l (nxt.eval target d r))
    {act : Option UInt64} {action : Option UInt32} {next l : UInt64} {tbl tbl' : BpfHtbl}
    (h : BranchTo jhash host target nxt act a next tbl l tbl') (hact : ActionOk Y tbl action act)
    {r : UInt32} (hnext : Y tbl next r) :
    Adds jhash P tbl tbl' ∧
      Y tbl' l (if nxt.isNull then action.getD r else nxt.eval target d r) := by
  rcases h with ⟨hnull, rfl, rfl⟩ | ⟨hnull, bs, tbl₁, hbs, h⟩
  · rw [if_pos hnull]
    exact ⟨Adds.refl, hact.getD hnext⟩
  · rw [if_neg (by rw [hnull]; decide)]
    obtain ⟨hadds, hacts⟩ := R.genBpfNodes hbs
    obtain ⟨hadds', hY⟩ :=
      ih h (levelMade_genBpfNodes hbs) hacts (R.mono hadds.tableExt hnext)
    exact ⟨hadds.trans hadds', hY⟩

/-- **The rule for a level.** -/
theorem genBpfLevel (R : ChainRule jhash host target d Q P Y) {tree : DbArgChainTree}
    {a : AccState} {bs : List NodeBlk} {nxtJump l : UInt64} {tbl tbl' : BpfHtbl} {r : UInt32}
    (hQ : tree.Threaded Q a)
    (h : Draco.genBpfLevel jhash host target tree bs nxtJump tbl = some (l, tbl'))
    (hlevel : LevelAll (NodeBlkMade host target) a tree bs)
    (hacts : LevelAll (NodeActions Y tbl) a tree bs) (hnxt : Y tbl nxtJump r) :
    Adds jhash P tbl tbl' ∧ Y tbl' l (tree.eval target d r) := by
  induction tree generalizing a bs nxtJump l tbl tbl' r with
  | null =>
    obtain ⟨rfl, rfl⟩ := Prod.mk.inj (Option.some.inj h)
    exact ⟨Adds.refl, hnxt⟩
  | node n nxtT nxtF lvlNxt ihT ihF ihNxt =>
    obtain ⟨hn, hQT, hQF, hQNxt⟩ := hQ
    obtain ⟨b, bs', rfl, ⟨hactT, hactF⟩, hacts⟩ := hacts
    obtain ⟨b, bs', next, tbl₁, jt, tbl₂, jf, tbl₃, blk, hcons, hmade, hbs, hnext, hT, hF, hadd,
      rfl⟩ := genBpfLevel_cases h hlevel
    obtain ⟨rfl, rfl⟩ := List.cons.inj hcons
    -- the rest of the level, then the two branches, then the node itself
    obtain ⟨hadds₁, hyNext⟩ := ihNxt hQNxt hnext hbs hacts hnxt
    obtain ⟨hadds₂, hyT⟩ :=
      R.branchTo (ihT hQT) hT (R.mono_actionOk hadds₁.tableExt hactT) hyNext
    obtain ⟨hadds₃, hyF⟩ :=
      R.branchTo (ihF hQF) hF (R.mono_actionOk (hadds₁.trans hadds₂).tableExt hactF)
        (R.mono hadds₂.tableExt hyNext)
    obtain ⟨hP, hY⟩ := R.node hn hmade.op (R.mono hadds₃.tableExt hyT) hyF hadd
    refine ⟨((hadds₁.trans hadds₂).trans hadds₃).trans (Adds.single hP hadd), ?_⟩
    rw [DbArgChainTree.eval]
    exact hY

/-- **The rule for the tree of a system call.**  `nxtJump` stands for the default. -/
theorem genBpfChain (R : ChainRule jhash host target d Q P Y) {s : DbSysList}
    {nxtJump l : UInt64} {a : AccState} {tbl tbl' : BpfHtbl} {r : UInt32}
    (hQ : s.chains.Threaded Q a)
    (h : Draco.genBpfChain jhash host target tbl s nxtJump a = some (l, tbl'))
    (hnxt : Y tbl nxtJump r) : Adds jhash P tbl tbl' ∧ Y tbl' l (s.eval target d r) := by
  unfold Draco.genBpfChain at h
  unfold DbSysList.eval
  split at h
  next hnull =>
    rw [if_pos hnull]
    exact R.genBpfActionHsh h
  next hnull =>
    rw [if_neg hnull]
    obtain ⟨⟨bs, tbl₁⟩, hbs, h⟩ := Option.bind_eq_some_iff.mp h
    obtain ⟨hadds, hacts⟩ := R.genBpfNodes hbs
    obtain ⟨hadds', hY⟩ :=
      R.genBpfLevel hQ h (levelMade_genBpfNodes hbs) hacts (R.mono hadds.tableExt hnxt)
    exact ⟨hadds.trans hadds', hY⟩

end ChainRule

/-! ## The meaning of a tree -/

/-- The block of a node goes where its test says, with its word in the accumulator. -/
theorem blkEffect_nodeBlk {n : ChainNode} {a : AccState} {op : UInt16}
    (hop : genBpfOp n.op = some op) (hn : LoadValid n.argOffset) (jt jf : UInt64) {acc : UInt32}
    (hacc : (a.before n).Holds target d acc) :
    blkEffect host target d (nodeBlk host target n a op jt jf).blks acc =
      .goto (if n.test (d.word target n.argOffset) then jt else jf)
        (d.word target n.argOffset &&& n.mask) := by
  have hbare : ¬ a.Reload n → a.Holds target d acc := by
    intro hr
    rwa [AccState.before, if_neg hr] at hacc
  obtain ⟨htest, hjump⟩ := jumpTest_genBpfOp hop (d.word target n.argOffset)
  rw [nodeBlk, blkEffect_genBpfLoad host target d hn hbare, blkEffect_jump host target d hjump,
    htest]
  cases n.test (d.word target n.argOffset) <;> rfl

/-- The block of a node leaves its word in the accumulator. -/
theorem endOk_nodeBlk {n : ChainNode} {a : AccState} {op : UInt16}
    (hop : genBpfOp n.op = some op) (hn : LoadValid n.argOffset) (jt jf : UInt64) :
    EndOk host target d (nodeBlk host target n a op jt jf) := by
  intro acc hacc l acc' heff offset hoffset
  rw [blkEffect_nodeBlk hop hn jt jf hacc] at heff
  cases heff
  cases hoffset
  rfl

/-- **The blocks of a tree mean its tests.**  This is the rule for trees with `Yields` for
the meaning, wherever duplicates agree on the accumulator. -/
theorem chainRule_yields (jhash : List BpfInstr → UInt32) (host target : ArchEndian) (d : BpfData)
    (P : BpfHtbl → BpfBlk → Bool → Prop)
    (hact : ∀ tbl action, P tbl (genBpfAction host target action) false)
    (hnode : ∀ tbl n a op jt jf, LoadValid n.argOffset → genBpfOp n.op = some op →
      P tbl (nodeBlk host target n a op jt jf) false) :
    ChainRule jhash host target d ChainNode.Loads P fun tbl l r =>
      SameStart tbl → Yields host target d tbl l r where
  mono := fun hext h hsame => (h (hsame.of_ext hext)).mono hext
  action := fun hadd => ⟨hact _ _, fun hsame =>
    yields_of_returns hadd hsame fun acc _ => blkEffect_ret host target d _ acc⟩
  node := by
    intro tbl tbl' n a op jt jf rT rF b hn hop hT hF hadd
    refine ⟨hnode tbl n a op jt jf hn hop, fun hsame => ?_⟩
    have hsame₁ := hsame.of_ext (tableExt_hshAdd hadd)
    refine yields_of_steps hadd hsame (fun acc hacc => ⟨_, blkEffect_nodeBlk hop hn jt jf hacc⟩) ?_
    cases n.test (d.word target n.argOffset) with
    | true => exact hT hsame₁
    | false => exact hF hsame₁

end

end Draco
