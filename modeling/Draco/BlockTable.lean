/-
# Instruction blocks and their hash table (`gen_bpf.c`)

The filter compiler collects instructions in blocks and gives every block the hash of
its contents as a name; jumps go to blocks by that name.  A block whose contents are
in the table already is not stored again: it joins the list of duplicates of the
stored block, whatever it expects in the accumulator (`_hsh_add`).  Different contents
never share a name (`hshAdd_cases`), and an entry stays as it is (`TableExt`).

Memory is always available here.  The priority of a block, which is only ever written,
and the flags that say who frees its instructions are left out; the eight chains of
the table that are in use are kept as one list, since the hash of an entry determines
its chain.

The search of `_hsh_add` is an instance of the library's (`hshAddAt_eq`), so it succeeds
while there are fewer than 2^32 entries (`exists_hshAdd`), and no contents are stored twice
(`eq_of_blks`).
-/
import Draco.RuleChain
import Draco.Lib.Probing

namespace Draco

open LabelledCode Probing

/-! ## Blocks -/

/-- `ARG_MASK_MAX` -/
abbrev ARG_MASK_MAX : UInt32 := 0xffffffff

/-- `struct acc_state`: the accumulator holds the word at `offset` under `mask`;
`none` stands for the offset `-1`. -/
structure AccState where
  offset : Option UInt32
  mask : UInt32
  deriving DecidableEq, Repr

/-- `_ACC_STATE_OFFSET` -/
def accStateOffset (x : UInt32) : AccState := ⟨some x, ARG_MASK_MAX⟩

/-- `_ACC_STATE_UNDEF` -/
def accStateUndef : AccState := ⟨none, ARG_MASK_MAX⟩

/-- `struct bpf_jump`, without the pointers to nodes and blocks that stand in a block
only until its level is resolved. -/
inductive BpfJump where
  | no
  | k (v : UInt32)
  | nxt (n : ℕ)
  | imm (j : UInt8)
  | hsh (h : UInt64)
  deriving DecidableEq, Repr

/-- `struct bpf_instr` -/
structure BpfInstr where
  op : UInt16
  jt : BpfJump
  jf : BpfJump
  k : BpfJump
  deriving DecidableEq, Repr

/-- `struct bpf_blk` -/
structure BpfBlk where
  blks : List BpfInstr
  accStart : AccState
  accEnd : AccState
  hash : UInt64
  deriving DecidableEq, Repr

/-! ## The hash table -/

/-- `struct bpf_hash_bkt`; `dups` is the list `blk->hash_nxt`. -/
structure BpfHashBkt where
  blk : BpfBlk
  dups : List BpfBlk
  found : Bool
  deriving DecidableEq, Repr

/-- The chains of `htbl`. -/
abbrev BpfHtbl := List BpfHashBkt

/-- `_hsh_find_bkt` -/
def hshFindBkt (tbl : BpfHtbl) (hVal : UInt64) : Option BpfHashBkt :=
  tbl.find? fun e => e.blk.hash = hVal

/-- The block joins the duplicates of the entry with its hash. -/
def hshDup (tbl : BpfHtbl) (blk : BpfBlk) : BpfHtbl :=
  tbl.map fun e => if e.blk.hash = blk.hash then { e with dups := e.dups ++ [blk] } else e

/-- The search of `_hsh_add` from the hash `hVal` on; after `n` more collisions the hash
overflows. -/
def hshAddAt (tbl : BpfHtbl) (blk : BpfBlk) (found : Bool) :
    ℕ → UInt64 → Option (BpfBlk × BpfHtbl)
  | n, hVal =>
    match hshFindBkt tbl hVal with
    | none => some ({ blk with hash := hVal }, tbl ++ [⟨{ blk with hash := hVal }, [], found⟩])
    | some e =>
      if e.blk.blks = blk.blks then
        -- duplicate block
        some (if found then { blk with hash := hVal } else e.blk,
          hshDup tbl { blk with hash := hVal })
      else
        -- hash collision
        match n with
        | 0 => none
        | n + 1 => hshAddAt tbl blk found n (hVal + 0x100000000)

/-- `_hsh_add`, with `jhash` for the hash of the bytes of a block: the block that stands
for the given one, and the table. -/
def hshAdd (jhash : List BpfInstr → UInt32) (tbl : BpfHtbl) (blk : BpfBlk) (found : Bool) :
    Option (BpfBlk × BpfHtbl) :=
  hshAddAt tbl blk found 0xffffffff (jhash blk.blks).toUInt64

/-! ## What an addition does -/

/-- Nothing is found when no entry has the hash. -/
theorem hshFindBkt_eq_none {tbl : BpfHtbl} {hVal : UInt64} :
    hshFindBkt tbl hVal = none ↔ ∀ e ∈ tbl, e.blk.hash ≠ hVal := by
  simp [hshFindBkt]

/-- What is found is an entry with the hash. -/
theorem hshFindBkt_some {tbl : BpfHtbl} {hVal : UInt64} {e : BpfHashBkt}
    (h : hshFindBkt tbl hVal = some e) : e ∈ tbl ∧ e.blk.hash = hVal :=
  ⟨List.mem_of_find?_eq_some h, by simpa using List.find?_some h⟩

variable {jhash : List BpfInstr → UInt32}

/-- **What `_hsh_add` does.**  It stores the block under a hash that no entry has, or
finds an entry with the same contents and adds the block to its duplicates. -/
theorem hshAdd_cases {tbl tbl' : BpfHtbl} {blk b : BpfBlk} {found : Bool}
    (h : hshAdd jhash tbl blk found = some (b, tbl')) :
    (∃ hVal, (∀ e ∈ tbl, e.blk.hash ≠ hVal) ∧ b = { blk with hash := hVal } ∧
      tbl' = tbl ++ [⟨b, [], found⟩]) ∨
    (∃ e ∈ tbl, e.blk.blks = blk.blks ∧
      b = (if found then { blk with hash := e.blk.hash } else e.blk) ∧
      tbl' = hshDup tbl { blk with hash := e.blk.hash }) := by
  unfold hshAdd at h
  generalize 0xffffffff = n at h
  generalize (jhash blk.blks).toUInt64 = hVal at h
  fun_induction hshAddAt tbl blk found n hVal with
  | case1 n hVal hf =>
    obtain ⟨rfl, rfl⟩ := Prod.mk.inj (Option.some.inj h)
    exact Or.inl ⟨hVal, hshFindBkt_eq_none.mp hf, rfl, rfl⟩
  | case2 n hVal e hf hsame =>
    obtain ⟨he, rfl⟩ := hshFindBkt_some hf
    obtain ⟨rfl, rfl⟩ := Prod.mk.inj (Option.some.inj h)
    exact Or.inr ⟨e, he, hsame, rfl, rfl⟩
  | case3 hVal e hf hdiff => cases h
  | case4 hVal e hf hdiff n ih => exact ih h

/-- The hash that is tried after a collision. -/
abbrev nextHash (hVal : UInt64) : UInt64 := hVal + 0x100000000

/-- **The search is a search by probing**, for the contents of the block. -/
theorem hshAddAt_eq (tbl : BpfHtbl) (blk : BpfBlk) (found : Bool) (n : ℕ) (hVal : UInt64) :
    hshAddAt tbl blk found n hVal =
      (Probing.probe (fun e => e.blk.hash) (fun e => e.blk.blks) nextHash tbl blk.blks n
        hVal).map fun p =>
        p.2.elim ({ blk with hash := p.1 }, tbl ++ [⟨{ blk with hash := p.1 }, [], found⟩]) fun e =>
          (if found then { blk with hash := p.1 } else e.blk,
            hshDup tbl { blk with hash := p.1 }) := by
  fun_induction hshAddAt tbl blk found n hVal with
  | case1 n hVal hf =>
    rw [hshFindBkt] at hf
    rw [probe_of_free hf]
    rfl
  | case2 n hVal e hf hsame =>
    rw [hshFindBkt] at hf
    rw [probe_of_hit hf hsame]
    rfl
  | case3 hVal e hf hdiff =>
    rw [hshFindBkt] at hf
    rw [Probing.probe, hf]
    simp only [if_neg hdiff]
    rfl
  | case4 hVal e hf hdiff n ih =>
    rw [hshFindBkt] at hf
    rw [Probing.probe, hf]
    simp only [if_neg hdiff]
    exact ih

/-- The `i`-th rehash adds `i` to the upper half. -/
theorem iterate_nextHash (i : ℕ) (hVal : UInt64) :
    nextHash^[i] hVal = hVal + UInt64.ofNat i * 0x100000000 := by
  induction i with
  | zero => simp
  | succ i ih =>
    rw [Function.iterate_succ_apply', ih, nextHash, UInt64.ofNat_add, UInt64.add_mul,
      UInt64.add_assoc]
    rfl

/-- The hashes that are tried are different. -/
theorem injOn_nextHash (hVal : UInt64) :
    Set.InjOn (fun i => nextHash^[i] hVal) (Set.Iic 0xffffffff) := by
  intro i hi j hj hij
  have hij' : UInt64.ofNat i * 0x100000000 = UInt64.ofNat j * 0x100000000 := by
    simpa only [iterate_nextHash, UInt64.add_right_inj] using hij
  have hnat := congrArg UInt64.toNat hij'
  have hi' : i ≤ 0xffffffff := hi
  have hj' : j ≤ 0xffffffff := hj
  rw [UInt64.toNat_mul, UInt64.toNat_mul,
    UInt64.toNat_ofNat_of_lt' (lt_of_le_of_lt hi' (by decide)),
    UInt64.toNat_ofNat_of_lt' (lt_of_le_of_lt hj' (by decide))] at hnat
  simp only [UInt64.reduceToNat] at hnat
  omega

/-- **An addition succeeds** while there are fewer entries than hashes that may be tried. -/
theorem exists_hshAdd {tbl : BpfHtbl} (h : tbl.length < 2 ^ 32) (blk : BpfBlk) (found : Bool) :
    ∃ b tbl', hshAdd jhash tbl blk found = some (b, tbl') := by
  have hprobe : ∃ p, Probing.probe (fun e => e.blk.hash) (fun e => e.blk.blks) nextHash tbl blk.blks
      0xffffffff (jhash blk.blks).toUInt64 = some p :=
    exists_probe (injOn_nextHash (jhash blk.blks).toUInt64) (Nat.le_of_lt_succ h) blk.blks
  obtain ⟨p, hp⟩ := hprobe
  exact ⟨_, _, by rw [hshAdd, hshAddAt_eq, hp]; rfl⟩

/-! ## Extending the table -/

/-- The duplicates of every entry expect the same in the accumulator as its block. -/
def SameStart (tbl : BpfHtbl) : Prop :=
  ∀ e ∈ tbl, ∀ b ∈ e.dups, b.accStart = e.blk.accStart

instance (tbl : BpfHtbl) : Decidable (SameStart tbl) :=
  inferInstanceAs (Decidable (∀ e ∈ tbl, ∀ _ ∈ _, _))

/-- Every entry is still there, with more duplicates at most. -/
def TableExt (tbl tbl' : BpfHtbl) : Prop :=
  ∀ e ∈ tbl, ∃ e' ∈ tbl', e'.blk = e.blk ∧ e'.found = e.found ∧ ∀ b ∈ e.dups, b ∈ e'.dups

theorem TableExt.refl (tbl : BpfHtbl) : TableExt tbl tbl :=
  fun e he => ⟨e, he, rfl, rfl, fun _ hb => hb⟩

theorem TableExt.trans {tbl tbl' tbl'' : BpfHtbl} (h : TableExt tbl tbl')
    (h' : TableExt tbl' tbl'') : TableExt tbl tbl'' := by
  intro e he
  obtain ⟨e', he', hblk, hfound, hdups⟩ := h e he
  obtain ⟨e'', he'', hblk', hfound', hdups'⟩ := h' e' he'
  exact ⟨e'', he'', hblk'.trans hblk, hfound'.trans hfound, fun b hb => hdups' b (hdups b hb)⟩

/-- If the larger table has duplicates that expect the same only, so has the smaller. -/
theorem SameStart.of_ext {tbl tbl' : BpfHtbl} (h : SameStart tbl') (hext : TableExt tbl tbl') :
    SameStart tbl := by
  intro e he b hb
  obtain ⟨e', he', hblk, -, hdups⟩ := hext e he
  rw [h e' he' b (hdups b hb), hblk]

/-- An entry after a block has joined the duplicates of its hash. -/
theorem mem_hshDup {tbl : BpfHtbl} {blk : BpfBlk} {e' : BpfHashBkt} (h : e' ∈ hshDup tbl blk) :
    ∃ e ∈ tbl, e'.blk = e.blk ∧ e'.found = e.found ∧
      (e'.dups = e.dups ∨ e.blk.hash = blk.hash ∧ e'.dups = e.dups ++ [blk]) := by
  obtain ⟨e, he, rfl⟩ := List.mem_map.mp h
  refine ⟨e, he, ?_⟩
  split
  next hh => exact ⟨rfl, rfl, Or.inr ⟨hh, rfl⟩⟩
  next => exact ⟨rfl, rfl, Or.inl rfl⟩

/-- Recording a duplicate extends the table. -/
theorem tableExt_hshDup (tbl : BpfHtbl) (blk : BpfBlk) : TableExt tbl (hshDup tbl blk) := by
  intro e he
  refine ⟨_, List.mem_map_of_mem he, ?_⟩
  split
  · exact ⟨rfl, rfl, fun b hb => List.mem_append_left _ hb⟩
  · exact ⟨rfl, rfl, fun _ hb => hb⟩

/-- Every addition extends the table. -/
theorem tableExt_hshAdd {tbl tbl' : BpfHtbl} {blk b : BpfBlk} {found : Bool}
    (h : hshAdd jhash tbl blk found = some (b, tbl')) : TableExt tbl tbl' := by
  rcases hshAdd_cases h with ⟨hVal, -, -, rfl⟩ | ⟨e, -, -, -, rfl⟩
  · exact fun e he => ⟨e, List.mem_append_left _ he, rfl, rfl, fun _ hb => hb⟩
  · exact tableExt_hshDup tbl _

/-- What a table says of a hash it returned: there is an entry with the contents and, if
duplicates declare the same states, the state of the block that was added. -/
theorem hshAdd_stored {tbl tbl' : BpfHtbl} {blk b : BpfBlk} {found : Bool}
    (h : hshAdd jhash tbl blk found = some (b, tbl')) (hsame : SameStart tbl') :
    b.blks = blk.blks ∧ b.accStart = blk.accStart ∧
      ∃ e ∈ tbl', e.blk.hash = b.hash ∧ e.blk.blks = blk.blks ∧
        e.blk.accStart = blk.accStart := by
  rcases hshAdd_cases h with ⟨hVal, -, rfl, rfl⟩ | ⟨e, he, hblks, rfl, rfl⟩
  · exact ⟨rfl, rfl, _, List.mem_append_right _ List.mem_cons_self, rfl, rfl, rfl⟩
  · -- the block is among the duplicates of the entry it joined
    have he' : { e with dups := e.dups ++ [{ blk with hash := e.blk.hash }] } ∈
        hshDup tbl { blk with hash := e.blk.hash } := by
      refine List.mem_map.mpr ⟨e, he, ?_⟩
      rw [if_pos rfl]
    have hstart : blk.accStart = e.blk.accStart :=
      hsame _ he' { blk with hash := e.blk.hash } (List.mem_append_right _ List.mem_cons_self)
    refine ⟨?_, ?_, _, he', ?_, hblks, hstart.symm⟩
    · cases found with
      | true => rfl
      | false => exact hblks
    · cases found with
      | true => rfl
      | false => exact hstart.symm
    · cases found <;> rfl

/-- The table has an entry with the contents of what was added, under the hash that was
returned. -/
theorem hshAdd_entry {tbl tbl' : BpfHtbl} {blk b : BpfBlk} {found : Bool}
    (h : hshAdd jhash tbl blk found = some (b, tbl')) :
    ∃ e ∈ tbl', e.blk.hash = b.hash ∧ e.blk.blks = blk.blks := by
  rcases hshAdd_cases h with ⟨hVal, -, rfl, rfl⟩ | ⟨e, he, hblks, rfl, rfl⟩
  · exact ⟨_, List.mem_append_right _ List.mem_cons_self, rfl, rfl⟩
  · obtain ⟨e', he', hblk, -, -⟩ := tableExt_hshDup tbl { blk with hash := e.blk.hash } e he
    refine ⟨e', he', ?_, by rw [hblk, hblks]⟩
    rw [hblk]
    cases found <;> rfl

/-- A block that is added as one of the list keeps its own contents and states. -/
theorem hshAdd_found {tbl tbl' : BpfHtbl} {blk b : BpfBlk}
    (h : hshAdd jhash tbl blk true = some (b, tbl')) : b = { blk with hash := b.hash } := by
  rcases hshAdd_cases h with ⟨hVal, -, rfl, -⟩ | ⟨e, -, -, rfl, -⟩
  · rfl
  · rfl

/-! ## Series of additions -/

section Series

variable {P : BpfHtbl → BpfBlk → Bool → Prop}

/-- The table after some additions; `P` holds of every table, block and flag with which
`_hsh_add` was called. -/
inductive Adds (jhash : List BpfInstr → UInt32) (P : BpfHtbl → BpfBlk → Bool → Prop)
    (tbl : BpfHtbl) : BpfHtbl → Prop where
  | refl : Adds jhash P tbl tbl
  | add {tbl₁ tbl₂ : BpfHtbl} {blk b : BpfBlk} {found : Bool} (h : Adds jhash P tbl tbl₁)
      (hP : P tbl₁ blk found) (hadd : hshAdd jhash tbl₁ blk found = some (b, tbl₂)) :
      Adds jhash P tbl tbl₂

theorem Adds.single {tbl tbl' : BpfHtbl} {blk b : BpfBlk} {found : Bool}
    (hP : P tbl blk found) (hadd : hshAdd jhash tbl blk found = some (b, tbl')) :
    Adds jhash P tbl tbl' :=
  .add .refl hP hadd

theorem Adds.trans {tbl tbl' tbl'' : BpfHtbl} (h : Adds jhash P tbl tbl')
    (h' : Adds jhash P tbl' tbl'') : Adds jhash P tbl tbl'' := by
  induction h' with
  | refl => exact h
  | add _ hP hadd ih => exact .add ih hP hadd

/-- A series of additions extends the table. -/
theorem Adds.tableExt {tbl tbl' : BpfHtbl} (h : Adds jhash P tbl tbl') :
    TableExt tbl tbl' := by
  induction h with
  | refl => exact TableExt.refl tbl
  | add _ _ hadd ih => exact ih.trans (tableExt_hshAdd hadd)

/-- The invariant of the table: no two entries share a hash, and a duplicate has the hash
and the contents of the block of its entry. -/
structure TableOk (tbl : BpfHtbl) : Prop where
  nodup : (tbl.map fun e => e.blk.hash).Nodup
  dups : ∀ e ∈ tbl, ∀ b ∈ e.dups, b.hash = e.blk.hash ∧ b.blks = e.blk.blks

/-- The empty table is in order. -/
theorem tableOk_nil : TableOk [] := ⟨List.nodup_nil, fun _ he => by cases he⟩

/-- A duplicate changes none of the hashes of the entries. -/
theorem map_hash_hshDup (tbl : BpfHtbl) (blk : BpfBlk) :
    ((hshDup tbl blk).map fun e => e.blk.hash) = tbl.map fun e => e.blk.hash := by
  rw [hshDup, List.map_map]
  refine List.map_congr_left fun e _ => ?_
  show (if e.blk.hash = blk.hash then { e with dups := e.dups ++ [blk] } else e).blk.hash = _
  split <;> rfl

/-- An addition keeps the table in order. -/
theorem TableOk.hshAdd {tbl tbl' : BpfHtbl} {blk b : BpfBlk} {found : Bool} (h : TableOk tbl)
    (hadd : Draco.hshAdd jhash tbl blk found = some (b, tbl')) : TableOk tbl' := by
  rcases hshAdd_cases hadd with ⟨hVal, hfresh, rfl, rfl⟩ | ⟨e, he, hblks, -, rfl⟩
  · refine ⟨?_, fun e he => ?_⟩
    · rw [List.map_append, List.nodup_append]
      refine ⟨h.nodup, List.nodup_singleton _, ?_⟩
      intro x hx y hy
      obtain ⟨e, he, rfl⟩ := List.mem_map.mp hx
      rw [List.mem_singleton.mp hy]
      exact hfresh e he
    · rcases List.mem_append.mp he with he | he
      · exact h.dups e he
      · rw [List.mem_singleton.mp he]
        intro b hb
        cases hb
  · refine ⟨by rw [map_hash_hshDup]; exact h.nodup, fun e' he' => ?_⟩
    obtain ⟨f, hf, hblk, -, hdups⟩ := mem_hshDup he'
    rw [hblk]
    rcases hdups with hdups | ⟨hhash, hdups⟩
    · rw [hdups]
      exact h.dups f hf
    · -- the entry that the block joined is the one whose contents it has
      have hfe : f = e := List.inj_on_of_nodup_map h.nodup hf he hhash
      subst hfe
      intro b hb
      rw [hdups, List.mem_append, List.mem_singleton] at hb
      rcases hb with hb | rfl
      · exact h.dups f hf b hb
      · exact ⟨rfl, hblks.symm⟩

/-- So does a series of additions. -/
theorem TableOk.adds {tbl tbl' : BpfHtbl} (h : TableOk tbl)
    (hadds : Adds jhash P tbl tbl') : TableOk tbl' := by
  induction hadds with
  | refl => exact h
  | add _ _ hadd ih => exact ih.hshAdd hadd

/-- Every entry is where the search for its contents ends. -/
abbrev TableProbed (jhash : List BpfInstr → UInt32) (tbl : BpfHtbl) : Prop :=
  Probed (fun e => e.blk.hash) (fun e => e.blk.blks) nextHash (fun blks => (jhash blks).toUInt64)
    tbl

/-- An addition enters its block where the probing of its hash ends. -/
theorem tableProbed_hshAdd {tbl tbl' : BpfHtbl} {blk b : BpfBlk} {found : Bool}
    (h : TableProbed jhash tbl) (hadd : hshAdd jhash tbl blk found = some (b, tbl')) :
    TableProbed jhash tbl' := by
  rw [hshAdd, hshAddAt_eq] at hadd
  obtain ⟨⟨hVal, r⟩, hp, hr⟩ := Option.map_eq_some_iff.mp hadd
  cases r with
  | none =>
    obtain ⟨-, rfl⟩ := Prod.mk.inj hr
    exact h.insert hp
  | some e =>
    obtain ⟨-, rfl⟩ := Prod.mk.inj hr
    refine h.map (fun e => ?_) (fun e => ?_)
    · dsimp only
      split <;> rfl
    · dsimp only
      split <;> rfl

/-- Every entry of a table built by additions is found by probing from the hash of its contents.
-/
theorem tableProbed_of_adds {tbl : BpfHtbl} (hadds : Adds jhash P [] tbl) :
    TableProbed jhash tbl := by
  induction hadds with
  | refl => exact probed_nil
  | add _ _ hadd ih => exact tableProbed_hshAdd ih hadd

/-- Entries with the same hash are the same. -/
theorem TableOk.eq_of_hash {tbl : BpfHtbl} (h : TableOk tbl) {e e' : BpfHashBkt} (he : e ∈ tbl)
    (he' : e' ∈ tbl) (hhash : e.blk.hash = e'.blk.hash) : e = e' :=
  List.inj_on_of_nodup_map h.nodup he he' hhash

/-- **No contents are stored twice**, whatever the hash function. -/
theorem eq_of_blks {tbl : BpfHtbl} (hadds : Adds jhash P [] tbl) {e e' : BpfHashBkt}
    (he : e ∈ tbl) (he' : e' ∈ tbl) (hblks : e.blk.blks = e'.blk.blks) : e = e' :=
  (tableProbed_of_adds hadds).eq_of_content
    (fun _ hf _ hf' => (tableOk_nil.adds hadds).eq_of_hash hf hf') he he' hblks

/-- **What holds of all blocks that were added holds of all blocks of the table**, if it
does not depend on their hash and stays true as the table grows. -/
theorem forall_blk_of_adds
    (hhash : ∀ {tbl b found}, P tbl b found → ∀ hVal, P tbl { b with hash := hVal } found)
    (hext : ∀ {tbl tbl' b found}, TableExt tbl tbl' → P tbl b found → P tbl' b found)
    {tbl : BpfHtbl} (hadds : Adds jhash P [] tbl) :
    ∀ e ∈ tbl, P tbl e.blk e.found ∧ ∀ b ∈ e.dups, ∃ found, P tbl b found := by
  induction hadds with
  | refl =>
    intro e he
    cases he
  | @add tbl₁ tbl₂ blk b found _ hP hadd ih =>
    have hext₁ := tableExt_hshAdd hadd
    have ih' : ∀ e ∈ tbl₁, P tbl₂ e.blk e.found ∧ ∀ b ∈ e.dups, ∃ found, P tbl₂ b found :=
      fun e he => ⟨hext hext₁ (ih e he).1, fun b hb =>
        ((ih e he).2 b hb).imp fun _ h => hext hext₁ h⟩
    have hP' : ∀ hVal, P tbl₂ { blk with hash := hVal } found :=
      fun hVal => hext hext₁ (hhash hP hVal)
    rcases hshAdd_cases hadd with ⟨hVal, -, rfl, rfl⟩ | ⟨e, -, -, -, rfl⟩
    · intro e he
      rcases List.mem_append.mp he with he | he
      · exact ih' e he
      · rw [List.mem_singleton.mp he]
        exact ⟨hP' hVal, fun _ hb => by cases hb⟩
    · intro e' he'
      obtain ⟨f, hf, hblk, hfound, hdups⟩ := mem_hshDup he'
      rw [hblk, hfound]
      refine ⟨(ih' f hf).1, fun b hb => ?_⟩
      rcases hdups with hdups | ⟨-, hdups⟩
      · rw [hdups] at hb
        exact (ih' f hf).2 b hb
      · rw [hdups, List.mem_append, List.mem_singleton] at hb
        rcases hb with hb | rfl
        · exact (ih' f hf).2 b hb
        · exact ⟨found, hP' e.blk.hash⟩

end Series

end Draco
