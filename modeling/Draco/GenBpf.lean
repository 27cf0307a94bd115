/-
# The filter compiler (`gen_bpf.c`)

`gen_bpf_generate` turns a filter collection into a BPF program.  It works in stages:

* for every test of a tree it generates a block, sibling after sibling and with what the
  accumulator holds in between; then it gives the jumps of a level the names of the
  blocks they lead to, from the last sibling to the first (`genBpfChain`);
* for every system call, in the order of priority, it generates the block that checks
  its number, and for every architecture the block that checks the token (`genBpfArch`);
* it places the blocks that jumps refer to behind the last block that does so, and
  reloads the accumulator where the two disagree about it (`genBpfPull`);
* it inserts further jumps where a target is more than 255 instructions away
  (`genBpfLongJumps`), and
* it replaces the names by distances (`genBpfResolve`).

A failure (`none`) is a negative return code or `NULL`.
-/
import Draco.BlockTable

namespace Draco

/-! ## Architectures -/

/-- `arch_def.token` -/
def Arch.token : Arch → UInt32
  | .x86 => 0x40000003
  | .x86_64 => 0xc000003e
  | .x32 => 0x4000003e
  | .arm => 0x40000028
  | .aarch64 => 0xc00000b7
  | .mips => 0x00000008
  | .mipsel => 0x40000008
  | .mips64 => 0x80000008
  | .mipsel64 => 0xc0000008
  | .mips64n32 => 0xa0000008
  | .mipsel64n32 => 0xe0000008
  | .ppc => 0x00000014
  | .ppc64 => 0x80000015
  | .ppc64le => 0xc0000015
  | .s390 => 0x00000016
  | .s390x => 0x80000016

/-- `arch_def.token_bpf`: the kernel does not tell x32 from x86-64. -/
def Arch.tokenBpf : Arch → UInt32
  | .x32 => Arch.x86_64.token
  | arch => arch.token

/-- `arch_def.endian` -/
def Arch.endian : Arch → ArchEndian
  | .mips => .big
  | .mips64 => .big
  | .mips64n32 => .big
  | .ppc => .big
  | .ppc64 => .big
  | .s390 => .big
  | .s390x => .big
  | _ => .little

/-- `X32_SYSCALL_BIT` -/
abbrev X32_SYSCALL_BIT : UInt32 := 0x40000000

/-! ## Instructions -/

section Instructions

variable (host target : ArchEndian)

/-- `_BPF_K` -/
def bpfK (x : UInt32) : BpfJump := .k (htot32 host target x)

/-- An instruction that does not jump. -/
def bpfInstr (op : UInt16) (x : UInt32) : BpfInstr :=
  ⟨htot16 host target op, .no, .no, bpfK host target x⟩

/-- A conditional jump to two blocks. -/
def bpfJump (op : UInt16) (jt jf : BpfJump) (x : UInt32) : BpfInstr :=
  ⟨htot16 host target op, jt, jf, bpfK host target x⟩

/-- `_gen_bpf_action` into a new block -/
def genBpfAction (action : UInt32) : BpfBlk :=
  ⟨[bpfInstr host target BPF_RET action], accStateUndef, accStateUndef, 0⟩

end Instructions

/-! ## The tests of a tree -/

section Chains

variable (jhash : List BpfInstr → UInt32) (host target : ArchEndian)

/-- `_gen_bpf_action_hsh`: the hash of the block. -/
def genBpfActionHsh (tbl : BpfHtbl) (action : UInt32) : Option (UInt64 × BpfHtbl) :=
  (hshAdd jhash tbl (genBpfAction host target action) false).map fun p => (p.1.hash, p.2)

/-- The block of a node before its jumps are resolved: the loads, the operator and the
datum of the test, and the blocks of its actions. -/
structure NodeBlk where
  load : List BpfInstr
  op : UInt16
  datum : UInt32
  actT : Option UInt64
  actF : Option UInt64
  accStart : AccState
  accEnd : AccState

/-- The block of an action, if there is one. -/
def genBpfActionOpt (tbl : BpfHtbl) : Option UInt32 → Option (Option UInt64 × BpfHtbl)
  | none => some (none, tbl)
  | some action => (genBpfActionHsh jhash host target tbl action).map fun p => (some p.1, p.2)

/-- The operator of a test. -/
def genBpfOp : ScmpCompare → Option UInt16
  | .maskedEq => some BPF_JMP_JEQ
  | .eq => some BPF_JMP_JEQ
  | .gt => some BPF_JMP_JGT
  | .ge => some BPF_JMP_JGE
  | _ => none

/-- The node has to load its word, because the accumulator has another one or bits are
masked out that the test needs. -/
def AccState.Reload (a : AccState) (n : ChainNode) : Prop :=
  a.offset ≠ some n.argOffset ∨ n.mask &&& a.mask ≠ n.mask

instance (a : AccState) (n : ChainNode) : Decidable (a.Reload n) :=
  inferInstanceAs (Decidable (_ ∨ _))

/-- What the block of a node expects: nothing if it loads its word itself. -/
def AccState.before (a : AccState) (n : ChainNode) : AccState :=
  if a.Reload n then accStateUndef else a

/-- What the block of a node leaves in the accumulator. -/
def ChainNode.accAfter (n : ChainNode) : AccState := ⟨some n.argOffset, n.mask⟩

/-- The loads of a node. -/
def genBpfLoad (n : ChainNode) (a : AccState) : List BpfInstr :=
  (if a.Reload n then [bpfInstr host target BPF_LD_ABS n.argOffset] else []) ++
    if n.mask ≠ (if a.Reload n then ARG_MASK_MAX else a.mask) then
      [bpfInstr host target BPF_ALU_AND n.mask]
    else []

/-- `_gen_bpf_node`; the accumulator state behind the node is its `accEnd`. -/
def genBpfNode (tbl : BpfHtbl) (n : ChainNode) (a : AccState) : Option (NodeBlk × BpfHtbl) := do
  let (actT, tbl) ← genBpfActionOpt jhash host target tbl n.actT
  let (actF, tbl) ← genBpfActionOpt jhash host target tbl n.actF
  -- `arg_offset` does not fit an `int32_t`
  if 0x7fffffff < n.argOffset then none
  else do
    let op ← genBpfOp n.op
    some (⟨genBpfLoad host target n a, op, n.datum, actT, actF, a.before n, n.accAfter⟩, tbl)

/-- The first loop of `_gen_bpf_chain`: the blocks of a level. -/
def genBpfNodes (tbl : BpfHtbl) (a : AccState) :
    DbArgChainTree → Option (List NodeBlk × BpfHtbl)
  | .null => some ([], tbl)
  | .node n _ _ lvlNxt => do
    let (b, tbl) ← genBpfNode jhash host target tbl n a
    let (bs, tbl) ← genBpfNodes tbl b.accEnd lvlNxt
    some (b :: bs, tbl)

/-- The last loop of `_gen_bpf_chain` with `_gen_bpf_chain_lvl_res`: resolve the blocks of
a level, the last one first, and with each the levels below it.  Returns the hash of the
first block of the level; `nxtJump` is the hash of what follows the level. -/
def genBpfLevel : DbArgChainTree → List NodeBlk → UInt64 → BpfHtbl →
    Option (UInt64 × BpfHtbl)
  | .null, _, nxtJump, tbl => some (nxtJump, tbl)
  | .node _ _ _ _, [], _, _ => none
  | .node _ nxtT nxtF lvlNxt, b :: bs, nxtJump, tbl => do
    let (next, tbl) ← genBpfLevel lvlNxt bs nxtJump tbl
    let (jt, tbl) ←
      (if nxtT.isNull then some (b.actT.getD next, tbl)
      else (genBpfNodes jhash host target tbl b.accStart nxtT).bind fun p =>
        genBpfLevel nxtT p.1 next p.2)
    let (jf, tbl) ←
      (if nxtF.isNull then some (b.actF.getD next, tbl)
      else (genBpfNodes jhash host target tbl b.accStart nxtF).bind fun p =>
        genBpfLevel nxtF p.1 next p.2)
    let (blk, tbl) ← hshAdd jhash tbl
      ⟨b.load ++ [bpfJump host target b.op (.hsh jt) (.hsh jf) b.datum], b.accStart, b.accEnd, 0⟩
      false
    some (blk.hash, tbl)

/-- `_gen_bpf_chain` on the tree of a system call -/
def genBpfChain (tbl : BpfHtbl) (s : DbSysList) (nxtJump : UInt64) (a : AccState) :
    Option (UInt64 × BpfHtbl) :=
  if s.chains.isNull then genBpfActionHsh jhash host target tbl s.action
  else do
    let (blks, tbl) ← genBpfNodes jhash host target tbl a s.chains
    genBpfLevel jhash host target s.chains blks nxtJump tbl

/-! ## System calls and architectures -/

/-- The block that checks the number of a system call. -/
def syscallBlk (accReset : Bool) (num : UInt32) (chain nxtHash : UInt64) : BpfBlk :=
  ⟨(if accReset then [bpfInstr host target BPF_LD_ABS BPF_OFFSET_SYSCALL] else []) ++
      [bpfJump host target BPF_JMP_JEQ (.hsh chain) (.hsh nxtHash) num],
    if accReset then accStateUndef else accStateOffset BPF_OFFSET_SYSCALL,
    accStateOffset BPF_OFFSET_SYSCALL, 0⟩

/-- `_gen_bpf_syscall` -/
def genBpfSyscall (tbl : BpfHtbl) (defHsh : UInt64) (s : DbSysList) (nxtHash : UInt64)
    (accReset : Bool) : Option (BpfBlk × BpfHtbl) := do
  let (chain, tbl) ← genBpfChain jhash host target tbl s defHsh
    (if accReset then accStateOffset BPF_OFFSET_SYSCALL else accStateUndef)
  hshAdd jhash tbl (syscallBlk host target accReset s.num chain nxtHash) true

/-- Insert an entry behind those of the same or a higher priority. -/
def insertPriority (s : DbSysList) : List DbSysList → List DbSysList
  | [] => [s]
  | t :: ts => if t.priority < s.priority then s :: t :: ts else t :: insertPriority s ts

/-- The system calls of an architecture, by falling priority. -/
def sortPriority (syscalls : List DbSysList) : List DbSysList :=
  syscalls.foldl (fun sorted s => insertPriority s sorted) []

/-- The hash of the first block, and of the default action where there is none. -/
def headHash (defHsh : UInt64) : List BpfBlk → UInt64
  | [] => defHsh
  | b :: _ => b.hash

/-- The blocks of the system calls, generated from the last one; only the first entry of
the whole list may load the number itself. -/
def genBpfSyscalls (tbl : BpfHtbl) (defHsh : UInt64) : Bool → List DbSysList →
    Option (List BpfBlk × BpfHtbl)
  | _, [] => some ([], tbl)
  | accReset, s :: rest => do
    let (blks, tbl) ← genBpfSyscalls tbl defHsh false rest
    if s.valid then do
      let (b, tbl) ← genBpfSyscall jhash host target tbl defHsh s (headHash defHsh blks) accReset
      some (b :: blks, tbl)
    else some (blks, tbl)

end Chains

/-- `struct db_filter`, with the trees made of its rules. -/
structure DbFilterTree where
  arch : Arch
  syscalls : List DbSysList
  deriving DecidableEq, Repr

/-- `struct db_filter_col`, as far as the compiler reads it: the actions of
`db_filter_attr`, the byte order and the filters. -/
structure DbFilterCol where
  actDefault : UInt32
  actBadarch : UInt32
  endian : ArchEndian
  filters : List DbFilterTree
  deriving DecidableEq, Repr

section Collection

variable (jhash : List BpfInstr → UInt32) (host : ArchEndian)

/-- The architecture shares its token with another one, from which it has to be told by
the system call numbers. -/
def Arch.NeedsAbiCheck (arch : Arch) (secondary : Option DbFilterTree) : Prop :=
  (arch = .x86_64 ∨ arch = .x32) ∧ secondary = none

instance (arch : Arch) (secondary : Option DbFilterTree) :
    Decidable (arch.NeedsAbiCheck secondary) :=
  inferInstanceAs (Decidable (_ ∧ _))

/-- The block that checks the architecture token; the check jumps over the `skip` blocks
behind it. -/
def archBlk (arch : Arch) (first : UInt64) (skip : ℕ) : BpfBlk :=
  ⟨[bpfJump host arch.endian BPF_JMP_JEQ (.hsh first) (.nxt skip) arch.tokenBpf],
    accStateUndef, accStateUndef, 0⟩

/-- The first block of a program. -/
def loadArchBlk (target : ArchEndian) : BpfBlk :=
  ⟨[bpfInstr host target BPF_LD_ABS BPF_OFFSET_ARCH], accStateUndef,
    accStateOffset BPF_OFFSET_ARCH, 0⟩

/-- The block that tells x86-64 from x32. -/
def abiBlk (arch : Arch) (badArchHsh next : UInt64) : BpfBlk :=
  let jump := if arch = .x86_64 then
      bpfJump host arch.endian BPF_JMP_JGE (.hsh badArchHsh) (.hsh next) X32_SYSCALL_BIT
    else bpfJump host arch.endian BPF_JMP_JGE (.hsh next) (.hsh badArchHsh) X32_SYSCALL_BIT
  ⟨[bpfInstr host arch.endian BPF_LD_ABS BPF_OFFSET_SYSCALL, jump], accStateUndef,
    accStateOffset BPF_OFFSET_SYSCALL, 0⟩

/-- `_gen_bpf_arch`: the blocks of an architecture, or of x86-64 and x32 together. -/
def genBpfArch (tbl : BpfHtbl) (badArchHsh defHsh : UInt64) (db : DbFilterTree)
    (secondary : Option DbFilterTree) : Option (List BpfBlk × BpfHtbl) := do
  let target := db.arch.endian
  let abi := decide (db.arch.NeedsAbiCheck secondary)
  let syscalls := sortPriority (db.syscalls ++ (secondary.elim [] DbFilterTree.syscalls))
  let (blks, tbl) ← genBpfSyscalls jhash host target tbl defHsh (!abi) syscalls
  let (blks, tbl) ←
    (if abi then
      (hshAdd jhash tbl (abiBlk host db.arch badArchHsh (headHash defHsh blks)) true).map
        fun p => (p.1 :: blks, p.2)
    else some (blks, tbl))
  let (b, tbl) ← hshAdd jhash tbl (archBlk host db.arch (headHash defHsh blks) blks.length) true
  some (b :: blks, tbl)

/-- The last filter for an architecture. -/
def lastIndex (arch : Arch) (filters : List DbFilterTree) : Option ℕ :=
  (filters.zipIdx.filter fun p => p.1.arch = arch).getLast?.map Prod.snd

/-- Which filter goes with the one at `iter`, if that one is compiled on its own turn;
`secondary` is the value left by the turn before. -/
def secondaryOf (filters : List DbFilterTree) (iter : ℕ) (secondary : Option DbFilterTree) :
    Option (Option DbFilterTree) :=
  let x86_64 := lastIndex .x86_64 filters
  let x32 := lastIndex .x32 filters
  let pair (other : Option ℕ) : Option (Option DbFilterTree) :=
    match other with
    | none => some secondary
    | some j => if iter < j then some filters[j]? else none
  if x86_64 = some iter then pair x32
  else if x32 = some iter then pair x86_64
  else some none

/-- The loop of `_gen_bpf_build_bpf` over the filters. -/
def genBpfArchs (filters : List DbFilterTree) (badArchHsh defHsh : UInt64) :
    List (DbFilterTree × ℕ) → Option DbFilterTree → BpfHtbl → Option (List BpfBlk × BpfHtbl)
  | [], _, tbl => some ([], tbl)
  | (db, iter) :: rest, secondary, tbl =>
    match secondaryOf filters iter secondary with
    | none => genBpfArchs filters badArchHsh defHsh rest secondary tbl
    | some secondary => do
      let (blks, tbl) ← genBpfArch jhash host tbl badArchHsh defHsh db secondary
      let (blks', tbl) ← genBpfArchs filters badArchHsh defHsh rest secondary tbl
      some (blks ++ blks', tbl)

/-- What the generation of blocks leaves: the top level of the program and the table. -/
def genBpfBlocks (col : DbFilterCol) : Option (List BpfBlk × BpfHtbl) := do
  if col.filters.isEmpty then none
  else do
    let (badarch, tbl) ← hshAdd jhash [] (genBpfAction host col.endian col.actBadarch) true
    let (default, tbl) ← hshAdd jhash tbl (genBpfAction host col.endian col.actDefault) false
    let (head, tbl) ← hshAdd jhash tbl (loadArchBlk host col.endian) true
    let (blks, tbl) ← genBpfArchs jhash host col.filters badarch.hash default.hash
      col.filters.zipIdx none tbl
    some (head :: blks ++ [badarch], tbl)

end Collection

/-! ## Placing the blocks -/

/-- The block a `TGT_NXT` jump leads to, `following` being the blocks behind its own
(`_gen_bpf_find_nxt`). -/
def resolveNxt (following : List BpfBlk) : BpfJump → Option BpfJump
  | .nxt n => (following[n]?).map fun b => .hsh b.hash
  | j => some j

/-- Resolve the `TGT_NXT` jumps of an instruction. -/
def BpfInstr.resolveNxt (following : List BpfBlk) (i : BpfInstr) : Option BpfInstr := do
  let jt ← Draco.resolveNxt following i.jt
  let jf ← Draco.resolveNxt following i.jf
  some { i with jt := jt, jf := jf }

/-- Resolve the `TGT_NXT` jumps of the top level; the last block has none. -/
def genBpfResolveNxt : List BpfBlk → Option (List BpfBlk)
  | [] => some []
  | [b] => some [b]
  | b :: c :: bs => do
    let blks ← b.blks.mapM (BpfInstr.resolveNxt (c :: bs))
    let bs' ← genBpfResolveNxt (c :: bs)
    some ({ b with blks := blks } :: bs')

/-- The hash that a jump refers to. -/
def BpfJump.target : BpfJump → Option UInt64
  | .hsh h => some h
  | _ => none

/-- The hashes that an instruction refers to. -/
def BpfInstr.targets (i : BpfInstr) : List UInt64 :=
  [i.jt, i.jf, i.k].filterMap BpfJump.target

/-- The hashes that a block refers to, from its last instruction to its first. -/
def BpfBlk.targets (b : BpfBlk) : List UInt64 := b.blks.reverse.flatMap BpfInstr.targets

/-- `_hsh_find_once` -/
def hshFindOnce (tbl : BpfHtbl) (hVal : UInt64) : Option (BpfBlk × BpfHtbl) :=
  match hshFindBkt tbl hVal with
  | none => none
  | some e =>
    if e.found then none
    else some (e.blk, tbl.map fun e' => if e'.blk.hash = hVal then { e' with found := true } else e')

section Placing

variable (host target : ArchEndian)

/-- Put a load in front of a block that expects something else in the accumulator than
the block before it leaves there. -/
def reloadBlk (accEnd : AccState) (b : BpfBlk) : BpfBlk :=
  match b.accStart.offset with
  | none => b
  | some offset =>
    if accEnd = b.accStart then b
    else
      { b with
        blks := bpfInstr host target BPF_LD_ABS offset ::
          (if b.accStart.mask ≠ ARG_MASK_MAX then
            [bpfInstr host target BPF_ALU_AND b.accStart.mask] else []) ++ b.blks
        accStart := accStateUndef }

/-- One search for a jump to a block that is not placed yet, from the tail of the list
(which is given in reverse), and its placement behind the block that jumps. -/
def genBpfPullOnce (tbl : BpfHtbl) : List BpfBlk → Option (List BpfBlk × BpfHtbl)
  | [] => none
  | b :: bs =>
    match b.targets.findSome? (hshFindOnce tbl) with
    | some (bJmp, tbl') => some (reloadBlk host target b.accEnd bJmp :: b :: bs, tbl')
    | none => (genBpfPullOnce tbl bs).map fun p => (b :: p.1, p.2)

/-- Start again at the tail until nothing is found; each round places an entry. -/
def genBpfPullAll : ℕ → List BpfBlk → BpfHtbl → List BpfBlk
  | 0, bs, _ => bs
  | n + 1, bs, tbl =>
    match genBpfPullOnce host target tbl bs with
    | none => bs
    | some (bs', tbl') => genBpfPullAll n bs' tbl'

/-- Pull in all the blocks that jumps refer to. -/
def genBpfPull (bs : List BpfBlk) (tbl : BpfHtbl) : List BpfBlk :=
  (genBpfPullAll host target (tbl.filter fun e => !e.found).length bs.reverse tbl).reverse

/-! ## Long jumps -/

/-- `_BPF_JMP_MAX` and `_BPF_JMP_MAX_RET` -/
abbrev BPF_JMP_MAX : ℕ := 255

/-- Walk from the block behind a jump to the first place where `stop` holds, for at most
`BPF_JMP_MAX` instructions: whether it is in reach.  The end of the list is `-EFAULT`. -/
def jmpWalk (stop : List BpfBlk → Bool) : List BpfBlk → ℕ → Option Bool
  | [], _ => none
  | b :: bs, len =>
    if stop (b :: bs) then some (len ≤ BPF_JMP_MAX)
    else if BPF_JMP_MAX ≤ len then some false
    else jmpWalk stop bs (len + b.blks.length)

/-- The walk is at a block with the hash. -/
def atHash (h : UInt64) : List BpfBlk → Bool
  | [] => false
  | b :: _ => b.hash = h

/-- The walk is at the last block with the hash. -/
def atLast (h : UInt64) : List BpfBlk → Bool
  | [] => false
  | b :: bs => b.hash = h ∧ ∀ c ∈ bs, c.hash ≠ h

/-- The block is a single return. -/
def BpfBlk.IsRet (b : BpfBlk) : Prop :=
  b.blks.map BpfInstr.op = [htot16 host target BPF_RET]

instance (b : BpfBlk) : Decidable (b.IsRet host target) :=
  inferInstanceAs (Decidable (_ = _))

/-- The value of the return, as it stands in the block. -/
def BpfBlk.retK (b : BpfBlk) : UInt32 :=
  match b.blks with
  | ⟨_, _, _, .k v⟩ :: _ => v
  | _ => 0

/-- `_gen_bpf_build_jmp_ret`, with `post` behind the jumping block and `len` instructions
of the block behind the jump: the block to insert, if any. -/
def genBpfBuildJmpRet (post : List BpfBlk) (len : ℕ) (bRet : BpfBlk) : Option (Option BpfBlk) := do
  let near ← jmpWalk (atLast bRet.hash) post len
  if near then some none
  else do
    let near ← jmpWalk (atHash bRet.hash) post len
    if near then some none
    else some (some { genBpfAction host target bRet.retK with hash := bRet.hash })

/-- `_gen_bpf_build_jmp` -/
def genBpfBuildJmp (post : List BpfBlk) (len : ℕ) (tgtHash : UInt64) : Option (Option BpfBlk) := do
  let bTgt ← post.reverse.find? fun b => b.hash = tgtHash
  let ret ←
    (if bTgt.IsRet host target then genBpfBuildJmpRet host target post len bTgt else some none)
  match ret with
  | some bNew => some (some bNew)
  | none => do
    let near ← jmpWalk (atLast tgtHash) post len
    if near then some none
    else do
      let near ← jmpWalk (atHash tgtHash) post len
      if near then some none
      else some (some ⟨[⟨htot16 host target BPF_JMP_JA, .no, .no, .hsh tgtHash⟩], accStateUndef,
        accStateUndef, tgtHash⟩)

/-- The check of one jump: the blocks behind the jumping one, and the number of blocks
inserted. -/
def checkJmp (post : List BpfBlk) (len : ℕ) : BpfJump → Option (List BpfBlk × ℕ)
  | .no => some (post, 0)
  | .imm _ => some (post, 0)
  | .hsh h =>
    (genBpfBuildJmp host target post len h).map fun r =>
      match r with
      | none => (post, 0)
      | some bNew => (bNew :: post, 1)
  | _ => none

/-- The check of the jumps of a block, from its last instruction; `len` instructions of
the block are behind the next one. -/
def checkJmps : List BpfInstr → ℕ → List BpfBlk → Option (List BpfBlk × ℕ)
  | [], _, post => some (post, 0)
  | i :: is, len, post => do
    let (post, n) ← checkJmp host target post len i.jt
    let (post, m) ← checkJmp host target post len i.jf
    let (post, r) ← checkJmps is (len + 1) post
    some (post, n + m + r)

/-- Check a block until nothing had to be inserted; `none` after too many rounds. -/
def settleJmps (b : BpfBlk) : ℕ → List BpfBlk → Option (List BpfBlk)
  | 0, _ => none
  | n + 1, post => do
    let (post, res) ← checkJmps host target b.blks.reverse 0 post
    if res = 0 then some post else settleJmps b n post

/-- The loop over the blocks, from the tail: the blocks still to check are in reverse. -/
def genBpfLongJumps : List BpfBlk → List BpfBlk → Option (List BpfBlk)
  | [], post => some post
  | b :: bs, post => do
    let post ← settleJmps host target b (2 * b.blks.length + 1) post
    genBpfLongJumps bs (b :: post)

/-! ## The program -/

/-- The distance to the first block with a hash. -/
def distFirst (h : UInt64) : List BpfBlk → Option ℕ
  | [] => none
  | b :: bs => if b.hash = h then some 0 else (distFirst h bs).map (b.blks.length + ·)

/-- The distance to the last block with a hash. -/
def distLast (h : UInt64) : List BpfBlk → Option ℕ
  | [] => none
  | b :: bs =>
    match distLast h bs with
    | some n => some (b.blks.length + n)
    | none => if b.hash = h then some 0 else none

/-- Resolve a conditional jump; `len` instructions of the block follow it. -/
def resolveJmp (post : List BpfBlk) (len : ℕ) : BpfJump → Option BpfJump
  | .hsh h =>
    (distFirst h post).bind fun n =>
      if len + n ≤ BPF_JMP_MAX then some (.imm (UInt8.ofNat (len + n))) else none
  | j => some j

/-- Resolve the jump of a `BPF_JA`. -/
def resolveK (post : List BpfBlk) (len : ℕ) : BpfJump → Option BpfJump
  | .hsh h => (distLast h post).map fun n => bpfK host target (UInt32.ofNat (len + n))
  | j => some j

/-- The value of a jump in the program (`_bpf_append_blk`). -/
def rawJmp : BpfJump → Option UInt8
  | .no => some 0
  | .imm j => some j
  | _ => none

/-- The value of `k` in the program. -/
def rawK : BpfJump → Option UInt32
  | .no => some 0
  | .k v => some v
  | _ => none

/-- Resolve an instruction and translate it. -/
def genBpfInstr (post : List BpfBlk) (len : ℕ) (i : BpfInstr) : Option BpfInstrRaw := do
  let jt ← (resolveJmp post len i.jt).bind rawJmp
  let jf ← (resolveJmp post len i.jf).bind rawJmp
  let k ← (resolveK host target post len i.k).bind rawK
  some ⟨i.op, jt, jf, k⟩

/-- The instructions of a block. -/
def genBpfBody (post : List BpfBlk) : List BpfInstr → Option (List BpfInstrRaw)
  | [] => some []
  | i :: is => do
    let r ← genBpfInstr host target post is.length i
    let rs ← genBpfBody post is
    some (r :: rs)

/-- Resolve the jumps of the blocks and append them to the program. -/
def genBpfResolve : List BpfBlk → Option (List BpfInstrRaw)
  | [] => some []
  | b :: bs => do
    let r ← genBpfBody host target bs b.blks
    let rs ← genBpfResolve bs
    some (r ++ rs)

end Placing

/-- `gen_bpf_generate` -/
def genBpfGenerate (jhash : List BpfInstr → UInt32) (host : ArchEndian) (col : DbFilterCol) :
    Option (List BpfInstrRaw) := do
  let (top, tbl) ← genBpfBlocks jhash host col
  let top ← genBpfResolveNxt top
  let placed := genBpfPull host col.endian top tbl
  let blks ← genBpfLongJumps host col.endian placed.reverse []
  genBpfResolve host col.endian blks

end Draco
