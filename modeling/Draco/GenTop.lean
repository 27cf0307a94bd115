/-
# The top level of a program

A filter collection has one filter for each architecture.  x86-64 and x32 have the same
token: if both are there, their filters are compiled together on the turn of the first of
them (`archGroups`, which says what the loop of `_gen_bpf_build_bpf` over the filters
does).  The action on a call is that of its number under the filters for its token, the
default if the number has no entry, and the action for bad architectures if no filter
claims the call (`DbFilterCol.verdict`).

The first blocks of a program are those of the architectures, one group behind the other,
where the check of a token falls through to the next group and the last one to the action
for bad architectures.  What this comes to is the verdict (`genBpfBlocks_means`).
-/
import Draco.GenArch

namespace Draco

open LabelledCode

/-! ## Architectures with one token -/

/-- The architecture that has the same token. -/
def Arch.partner : Arch → Option Arch
  | .x86_64 => some .x32
  | .x32 => some .x86_64
  | _ => none

/-- Two architectures have one token when they are the same or partners. -/
theorem tokenBpf_eq_iff (a b : Arch) :
    a.tokenBpf = b.tokenBpf ↔ a = b ∨ a.partner = some b := by
  cases a <;> cases b <;> decide

/-- The partners are x86-64 and x32. -/
theorem partner_eq_some_iff (a b : Arch) :
    a.partner = some b ↔ (a = .x86_64 ∧ b = .x32) ∨ (a = .x32 ∧ b = .x86_64) := by
  cases a <;> cases b <;> decide

/-- Partnership is mutual. -/
theorem partner_comm {a b : Arch} : a.partner = some b ↔ b.partner = some a := by
  rw [partner_eq_some_iff, partner_eq_some_iff]
  tauto

/-- No architecture is its own partner. -/
theorem ne_of_partner {a b : Arch} (h : a.partner = some b) : a ≠ b := by
  rintro rfl
  revert h
  cases a <;> decide

/-- The numbers of a call belong to exactly one of two architectures with one token. -/
theorem foreign_partner {a b : Arch} (h : a.partner = some b) (nr : UInt32) :
    b.Foreign nr ↔ ¬ a.Foreign nr := by
  rcases (partner_eq_some_iff a b).mp h with ⟨rfl, rfl⟩ | ⟨rfl, rfl⟩
  · exact UInt32.not_le.symm
  · exact UInt32.not_lt.symm

/-- Without a partner no number belongs to another architecture. -/
theorem not_foreign_of_partner_eq_none {a : Arch} (h : a.partner = none) (nr : UInt32) :
    ¬ a.Foreign nr := by
  cases a <;> first | exact id | cases h

/-- An architecture on its own needs the check of the ABI when it has a partner. -/
theorem needsAbiCheck_none (a : Arch) : a.NeedsAbiCheck none ↔ a.partner ≠ none := by
  cases a <;> decide

/-! ## Groups of filters -/

/-- What the loop over the filters compiles: each filter on its turn, together with that of
its partner, unless this has been done. -/
def archGroups (filters : List DbFilterTree) : List (DbFilterTree × ℕ) → Option DbFilterTree →
    List (DbFilterTree × Option DbFilterTree)
  | [], _ => []
  | (db, iter) :: rest, secondary =>
    match secondaryOf filters iter secondary with
    | none => archGroups filters rest secondary
    | some secondary => (db, secondary) :: archGroups filters rest secondary

/-- The blocks of the groups. -/
def genBpfGroups (jhash : List BpfInstr → UInt32) (host : ArchEndian)
    (badArchHsh defHsh : UInt64) :
    List (DbFilterTree × Option DbFilterTree) → BpfHtbl → Option (List BpfBlk × BpfHtbl)
  | [], tbl => some ([], tbl)
  | (db, secondary) :: rest, tbl => do
    let (blks, tbl) ← genBpfArch jhash host tbl badArchHsh defHsh db secondary
    let (blks', tbl) ← genBpfGroups jhash host badArchHsh defHsh rest tbl
    some (blks ++ blks', tbl)

/-- The loop over the filters compiles the groups one after another. -/
theorem genBpfArchs_eq (jhash : List BpfInstr → UInt32) (host : ArchEndian)
    (filters : List DbFilterTree) (badArchHsh defHsh : UInt64) (rest : List (DbFilterTree × ℕ))
    (secondary : Option DbFilterTree) (tbl : BpfHtbl) :
    genBpfArchs jhash host filters badArchHsh defHsh rest secondary tbl =
      genBpfGroups jhash host badArchHsh defHsh (archGroups filters rest secondary) tbl := by
  induction rest generalizing secondary tbl with
  | nil => rfl
  | cons p rest ih =>
    obtain ⟨db, iter⟩ := p
    rw [genBpfArchs, archGroups]
    cases secondaryOf filters iter secondary with
    | none => exact ih secondary tbl
    | some secondary => simp only [genBpfGroups, ih]

section Groups

variable {filters : List DbFilterTree}

/-- The last index of an architecture is that of a filter for it. -/
theorem lastIndex_eq_some {arch : Arch} {i : ℕ} (h : lastIndex arch filters = some i) :
    ∃ f, filters[i]? = some f ∧ f.arch = arch := by
  obtain ⟨⟨f, j⟩, hlast, rfl⟩ := Option.map_eq_some_iff.mp h
  have hmem := List.mem_filter.mp (List.mem_of_getLast? hlast)
  exact ⟨f, List.mem_zipIdx_iff_getElem?.mp hmem.1, by simpa using hmem.2⟩

/-- Without a last index the architecture has no filter. -/
theorem lastIndex_eq_none {arch : Arch} (h : lastIndex arch filters = none) :
    ∀ f ∈ filters, f.arch ≠ arch := by
  intro f hf harch
  obtain ⟨i, hi⟩ := List.mem_iff_getElem?.mp hf
  rw [lastIndex, Option.map_eq_none_iff, List.getLast?_eq_none_iff, List.filter_eq_nil_iff] at h
  exact h (f, i) (List.mem_zipIdx_iff_getElem?.mpr hi) (by simpa using harch)

/-- The indices of filters for one architecture are the same. -/
theorem index_unique (harchs : (filters.map DbFilterTree.arch).Nodup) {i j : ℕ}
    {f g : DbFilterTree} (hi : filters[i]? = some f) (hj : filters[j]? = some g)
    (harch : f.arch = g.arch) : i = j := by
  have hlt : i < (filters.map DbFilterTree.arch).length := by
    rw [List.length_map]
    exact (List.getElem?_eq_some_iff.mp hi).1
  refine (List.getElem?_inj hlt harchs).mp ?_
  rw [List.getElem?_map, List.getElem?_map, hi, hj]
  exact congrArg some harch

/-- What goes with the filter at `iter`: nothing if its partner has no filter, and else the
filter of its partner, which comes later. -/
def GroupAt (filters : List DbFilterTree) (iter : ℕ) (db : DbFilterTree)
    (secondary : Option DbFilterTree) : Prop :=
  (secondary = none ∧ ∀ f ∈ filters, db.arch.partner ≠ some f.arch) ∨
    ∃ j f, iter < j ∧ filters[j]? = some f ∧ db.arch.partner = some f.arch ∧ secondary = some f

/-- The value that a turn of the loop leaves. -/
def SecondaryLeft (filters : List DbFilterTree) (secondary : Option DbFilterTree) : Prop :=
  secondary = none ∨
    (∃ f ∈ filters, f.arch = .x86_64) ∧ ∃ f ∈ filters, f.arch = .x32

/-- The choice for a filter whose partner is `partner`. -/
theorem pair_cases {iter : ℕ} {db : DbFilterTree} {partner : Arch}
    (hdb : filters[iter]? = some db) (hpartner : db.arch.partner = some partner)
    {secondary : Option DbFilterTree}
    (hleft : SecondaryLeft filters secondary) {r : Option (Option DbFilterTree)}
    (hnone : lastIndex partner filters = none → r = some secondary)
    (hsome : ∀ j, lastIndex partner filters = some j →
      r = if iter < j then some filters[j]? else none) :
    (r = none ∧ ∃ j f, j < iter ∧ filters[j]? = some f ∧ db.arch.partner = some f.arch) ∨
      ∃ secondary', r = some secondary' ∧ GroupAt filters iter db secondary' ∧
        SecondaryLeft filters secondary' := by
  cases hlast : lastIndex partner filters with
  | none =>
    have habs := lastIndex_eq_none hlast
    -- no turn before this one can have left a filter
    have hsec : secondary = none := by
      rcases hleft with h | ⟨⟨f, hf, hfa⟩, g, hg, hga⟩
      · exact h
      · rcases (partner_eq_some_iff db.arch partner).mp hpartner with ⟨-, rfl⟩ | ⟨-, rfl⟩
        · exact (habs g hg hga).elim
        · exact (habs f hf hfa).elim
    refine Or.inr ⟨secondary, hnone hlast, Or.inl ⟨hsec, fun f hf h => ?_⟩, Or.inl hsec⟩
    rw [hpartner] at h
    exact habs f hf (Option.some.inj h).symm
  | some j =>
    have hr := hsome j hlast
    obtain ⟨f, hf, hfa⟩ := lastIndex_eq_some hlast
    have hp : db.arch.partner = some f.arch := by rw [hpartner, hfa]
    have hne : iter ≠ j := by
      rintro rfl
      rw [hdb] at hf
      exact ne_of_partner hp (congrArg DbFilterTree.arch (Option.some.inj hf))
    by_cases hlt : iter < j
    · have hr' : r = some (some f) := by
        rw [hr, if_pos hlt, hf]
      refine Or.inr ⟨some f, hr', Or.inr ⟨j, f, hlt, hf, hp, rfl⟩, Or.inr ?_⟩
      have hdbm := List.mem_of_getElem? hdb
      have hfm := List.mem_of_getElem? hf
      rcases (partner_eq_some_iff db.arch f.arch).mp hp with ⟨h, h'⟩ | ⟨h, h'⟩
      · exact ⟨⟨db, hdbm, h⟩, f, hfm, h'⟩
      · exact ⟨⟨f, hfm, h'⟩, db, hdbm, h⟩
    · have hr' : r = none := by
        rw [hr, if_neg hlt]
      exact Or.inl ⟨hr', j, f, by omega, hf, hp⟩

/-- A filter whose partner came before is skipped; else it goes with the partner that comes later,
or alone. -/
theorem secondaryOf_cases (harchs : (filters.map DbFilterTree.arch).Nodup) {iter : ℕ}
    {db : DbFilterTree} (hdb : filters[iter]? = some db) {secondary : Option DbFilterTree}
    (hleft : SecondaryLeft filters secondary) :
    (secondaryOf filters iter secondary = none ∧
        ∃ j f, j < iter ∧ filters[j]? = some f ∧ db.arch.partner = some f.arch) ∨
      ∃ secondary', secondaryOf filters iter secondary = some secondary' ∧
        GroupAt filters iter db secondary' ∧ SecondaryLeft filters secondary' := by
  -- the turn of an architecture is the index of its filter
  have hturn : ∀ arch, lastIndex arch filters = some iter ↔ db.arch = arch := by
    intro arch
    constructor
    · intro h
      obtain ⟨f, hf, hfa⟩ := lastIndex_eq_some h
      rw [hdb] at hf
      rw [Option.some.inj hf, hfa]
    · rintro rfl
      cases hlast : lastIndex db.arch filters with
      | none => exact (lastIndex_eq_none hlast db (List.mem_of_getElem? hdb) rfl).elim
      | some j =>
        obtain ⟨f, hf, hfa⟩ := lastIndex_eq_some hlast
        rw [index_unique harchs hf hdb hfa]
  rw [secondaryOf]
  by_cases h64 : db.arch = .x86_64
  · rw [if_pos ((hturn .x86_64).mpr h64)]
    exact pair_cases hdb (by rw [h64]; rfl) hleft
      (fun h => by rw [h]) fun j h => by rw [h]
  · rw [if_neg fun h => h64 ((hturn .x86_64).mp h)]
    by_cases h32 : db.arch = .x32
    · rw [if_pos ((hturn .x32).mpr h32)]
      exact pair_cases hdb (by rw [h32]; rfl) hleft
        (fun h => by rw [h]) fun j h => by rw [h]
    · rw [if_neg fun h => h32 ((hturn .x32).mp h)]
      refine Or.inr ⟨none, rfl, Or.inl ⟨rfl, fun f _ h => ?_⟩, Or.inl rfl⟩
      rcases (partner_eq_some_iff db.arch f.arch).mp h with ⟨h', -⟩ | ⟨h', -⟩
      · exact h64 h'
      · exact h32 h'

/-- The groups are as they should be. -/
theorem groupAt_of_mem_archGroups (harchs : (filters.map DbFilterTree.arch).Nodup)
    {rest : List (DbFilterTree × ℕ)} (hrest : ∀ p ∈ rest, filters[p.2]? = some p.1)
    {secondary : Option DbFilterTree} (hleft : SecondaryLeft filters secondary)
    {g : DbFilterTree × Option DbFilterTree} (hg : g ∈ archGroups filters rest secondary) :
    ∃ iter, filters[iter]? = some g.1 ∧ GroupAt filters iter g.1 g.2 := by
  induction rest generalizing secondary with
  | nil => cases hg
  | cons p rest ih =>
    obtain ⟨db, iter⟩ := p
    have hdb : filters[iter]? = some db := hrest _ List.mem_cons_self
    have hrest' := fun q hq => hrest q (List.mem_cons_of_mem _ hq)
    rw [archGroups] at hg
    rcases secondaryOf_cases harchs hdb hleft with ⟨h, -⟩ | ⟨secondary', h, hat, hleft'⟩
    · rw [h] at hg
      exact ih hrest' hleft hg
    · rw [h] at hg
      rcases List.mem_cons.mp hg with rfl | hg
      · exact ⟨iter, hdb, hat⟩
      · exact ih hrest' hleft' hg

/-- A filter whose partner has no earlier filter has a group of its own. -/
theorem exists_mem_archGroups (harchs : (filters.map DbFilterTree.arch).Nodup)
    {rest : List (DbFilterTree × ℕ)} (hrest : ∀ p ∈ rest, filters[p.2]? = some p.1)
    {secondary : Option DbFilterTree} (hleft : SecondaryLeft filters secondary)
    {db : DbFilterTree} {iter : ℕ} (hdb : (db, iter) ∈ rest)
    (hfirst : ∀ j f, filters[j]? = some f → db.arch.partner = some f.arch → iter ≤ j) :
    ∃ secondary', (db, secondary') ∈ archGroups filters rest secondary := by
  induction rest generalizing secondary with
  | nil => cases hdb
  | cons p rest ih =>
    have hrest' := fun q hq => hrest q (List.mem_cons_of_mem _ hq)
    have hp := hrest p List.mem_cons_self
    rw [archGroups]
    rcases secondaryOf_cases harchs hp hleft with
      ⟨h, j, f, hj, hf, hpf⟩ | ⟨secondary', h, -, hleft'⟩
    · rw [h]
      rcases List.mem_cons.mp hdb with rfl | hdb
      · have := hfirst j f hf hpf
        omega
      · exact ih hrest' hleft hdb
    · rw [h]
      rcases List.mem_cons.mp hdb with rfl | hdb
      · exact ⟨secondary', List.mem_cons_self⟩
      · obtain ⟨s, hs⟩ := ih hrest' hleft' hdb
        exact ⟨s, List.mem_cons_of_mem _ hs⟩

/-- The groups are led by filters of the collection, in order. -/
theorem sublist_archGroups (filters : List DbFilterTree) (rest : List (DbFilterTree × ℕ))
    (secondary : Option DbFilterTree) :
    ((archGroups filters rest secondary).map Prod.fst).Sublist (rest.map Prod.fst) := by
  induction rest generalizing secondary with
  | nil => exact List.Sublist.refl _
  | cons p rest ih =>
    rw [archGroups]
    cases secondaryOf filters p.2 secondary with
    | none => exact (ih secondary).cons p.1
    | some secondary => exact (ih secondary).cons_cons p.1

/-- The groups of a collection. -/
def DbFilterCol.groups (col : DbFilterCol) : List (DbFilterTree × Option DbFilterTree) :=
  archGroups col.filters col.filters.zipIdx none

/-- The filters for a token. -/
def DbFilterCol.filtersFor (col : DbFilterCol) (token : UInt32) : List DbFilterTree :=
  col.filters.filter fun f => f.arch.tokenBpf = token

/-- What the code relies on in a collection: one filter for an architecture, all with the
byte order of the collection, and one entry for a number. -/
structure DbFilterCol.WellFormed (col : DbFilterCol) : Prop where
  archs : (col.filters.map DbFilterTree.arch).Nodup
  endian : ∀ f ∈ col.filters, f.arch.endian = col.endian
  nums : ∀ f ∈ col.filters,
    DistinctNums ((col.filtersFor f.arch.tokenBpf).flatMap DbFilterTree.syscalls)

instance (col : DbFilterCol) : Decidable col.WellFormed :=
  decidable_of_iff (_ ∧ _ ∧ _) ⟨fun h => ⟨h.1, h.2.1, h.2.2⟩, fun h => ⟨h.1, h.2, h.3⟩⟩

section Collection

variable {col : DbFilterCol}

/-- Every filter stands at its index. -/
theorem getElem?_of_mem_zipIdx : ∀ p ∈ col.filters.zipIdx, col.filters[p.2]? = some p.1 :=
  fun _ hp => List.mem_zipIdx_iff_getElem?.mp hp

/-- Every group of a collection is that of a filter and its partner. -/
theorem DbFilterCol.groupAt_of_mem (hcol : col.WellFormed)
    {g : DbFilterTree × Option DbFilterTree} (hg : g ∈ col.groups) :
    ∃ iter, col.filters[iter]? = some g.1 ∧ GroupAt col.filters iter g.1 g.2 :=
  groupAt_of_mem_archGroups hcol.archs getElem?_of_mem_zipIdx (Or.inl rfl) hg

/-- **A group has all the filters for its token.** -/
theorem DbFilterCol.perm_group (hcol : col.WellFormed) {g : DbFilterTree × Option DbFilterTree}
    (hg : g ∈ col.groups) : (col.filtersFor g.1.arch.tokenBpf).Perm (g.1 :: g.2.toList) := by
  obtain ⟨iter, hget, hat⟩ := DbFilterCol.groupAt_of_mem hcol hg
  have hmem := List.mem_of_getElem? hget
  have hinj : ∀ {f f' : DbFilterTree},
      f ∈ col.filters → f' ∈ col.filters → f.arch = f'.arch → f = f' :=
    fun hf hf' h => List.inj_on_of_nodup_map hcol.archs hf hf' h
  rw [DbFilterCol.filtersFor]
  have hnodup : (col.filters.filter fun f => f.arch.tokenBpf = g.1.arch.tokenBpf).Nodup :=
    (List.Nodup.of_map _ hcol.archs).filter _
  rcases hat with ⟨hnone, hno⟩ | ⟨j, f, -, hf, hp, hsome⟩
  · rw [hnone]
    refine (List.perm_ext_iff_of_nodup hnodup (List.nodup_singleton _)).mpr fun x => ?_
    rw [List.mem_filter, decide_eq_true_eq, List.mem_singleton]
    constructor
    · rintro ⟨hx, htoken⟩
      rcases (tokenBpf_eq_iff _ _).mp htoken with h | h
      · exact hinj hx hmem h
      · exact (hno x hx (partner_comm.mp h)).elim
    · rintro rfl
      exact ⟨hmem, rfl⟩
  · rw [hsome]
    have hfm := List.mem_of_getElem? hf
    have hne : g.1 ≠ f := fun h => ne_of_partner hp (congrArg _ h)
    have hnodup' : [g.1, f].Nodup := by simpa using hne
    refine (List.perm_ext_iff_of_nodup hnodup hnodup').mpr fun x => ?_
    rw [List.mem_filter, decide_eq_true_eq, List.mem_cons, List.mem_singleton]
    constructor
    · rintro ⟨hx, htoken⟩
      rcases (tokenBpf_eq_iff _ _).mp htoken with h | h
      · exact Or.inl (hinj hx hmem h)
      · exact Or.inr (hinj hx hfm (Option.some.inj ((partner_comm.mp h).symm.trans hp)))
    · rintro (rfl | rfl)
      · exact ⟨hmem, rfl⟩
      · exact ⟨hfm, ((tokenBpf_eq_iff _ _).mpr (Or.inr hp)).symm⟩

/-- No two groups have the same token. -/
theorem DbFilterCol.pairwise_groups (hcol : col.WellFormed) :
    col.groups.Pairwise fun g g' => g.1.arch.tokenBpf ≠ g'.1.arch.tokenBpf := by
  have hsub : (col.groups.map Prod.fst).Sublist col.filters := by
    have h := sublist_archGroups col.filters col.filters.zipIdx none
    rwa [List.zipIdx_map_fst] at h
  have hnodup : ((col.groups.map Prod.fst).map DbFilterTree.arch).Nodup :=
    hcol.archs.sublist (hsub.map _)
  rw [List.map_map, List.Nodup, List.pairwise_map] at hnodup
  refine hnodup.imp_of_mem fun {g g'} hg hg' harch htoken => ?_
  -- two partners: each of them would have to come before the other
  have hp := ((tokenBpf_eq_iff _ _).mp htoken).resolve_left harch
  obtain ⟨i, hi, hat⟩ := DbFilterCol.groupAt_of_mem hcol hg
  obtain ⟨i', hi', hat'⟩ := DbFilterCol.groupAt_of_mem hcol hg'
  have hlt : ∀ {i i' : ℕ} {g g' : DbFilterTree × Option DbFilterTree},
      col.filters[i']? = some g'.1 → GroupAt col.filters i g.1 g.2 →
      g.1.arch.partner = some g'.1.arch → i < i' := by
    intro i i' g g' hi' hat hp
    rcases hat with ⟨-, hno⟩ | ⟨j, f, hj, hf, hpf, -⟩
    · exact (hno _ (List.mem_of_getElem? hi') hp).elim
    · rwa [index_unique hcol.archs hf hi' (Option.some.inj (hpf.symm.trans hp))] at hj
  exact absurd (hlt hi' hat hp) (Nat.lt_asymm (hlt hi hat' (partner_comm.mp hp)))

/-- Every token of a filter has a group. -/
theorem DbFilterCol.exists_group (hcol : col.WellFormed) {f : DbFilterTree}
    (hf : f ∈ col.filters) : ∃ g ∈ col.groups, g.1.arch.tokenBpf = f.arch.tokenBpf := by
  have hgroup : ∀ {i : ℕ} {f : DbFilterTree}, col.filters[i]? = some f →
      (∀ (j : ℕ) (f' : DbFilterTree), col.filters[j]? = some f' →
        f.arch.partner = some f'.arch → i ≤ j) →
      ∃ g ∈ col.groups, g.1.arch.tokenBpf = f.arch.tokenBpf := by
    intro i f hi hfirst
    obtain ⟨s, hs⟩ := exists_mem_archGroups hcol.archs getElem?_of_mem_zipIdx (Or.inl rfl)
      (List.mem_zipIdx_iff_getElem?.mpr hi) hfirst
    exact ⟨_, hs, rfl⟩
  obtain ⟨i, hi⟩ := List.mem_iff_getElem?.mp hf
  by_cases hfirst : ∀ j f', col.filters[j]? = some f' → f.arch.partner = some f'.arch → i ≤ j
  · exact hgroup hi hfirst
  · -- the partner comes first
    push Not at hfirst
    obtain ⟨j, f', hj, hp, hlt⟩ := hfirst
    have hp' := partner_comm.mp hp
    obtain ⟨g, hg, htoken⟩ := hgroup hj fun k f'' hk hpk => by
      rw [index_unique hcol.archs hk hi (Option.some.inj (hpk.symm.trans hp'))]
      exact hlt.le
    exact ⟨g, hg, htoken.trans ((tokenBpf_eq_iff _ _).mpr (Or.inr hp'))⟩

/-! ## The verdict -/

/-- **The action on a call under a collection.** -/
def DbFilterCol.verdict (col : DbFilterCol) (d : BpfData) : UInt32 :=
  if ∀ f ∈ col.filtersFor d.arch, f.arch.Foreign d.nr then col.actBadarch
  else evalSyscalls col.endian d col.actDefault
    ((col.filtersFor d.arch).flatMap DbFilterTree.syscalls)

/-- The action under the groups, one after the other. -/
def groupsVerdict (target : ArchEndian) (d : BpfData) (actDefault actBadarch : UInt32) :
    List (DbFilterTree × Option DbFilterTree) → UInt32
  | [] => actBadarch
  | g :: rest =>
    if d.arch = g.1.arch.tokenBpf then groupVerdict target d actDefault actBadarch g.1 g.2
    else groupsVerdict target d actDefault actBadarch rest

/-- A token of no group gets the action for foreign architectures. -/
theorem groupsVerdict_of_forall_ne {target : ArchEndian} {d : BpfData}
    {actDefault actBadarch : UInt32} {groups : List (DbFilterTree × Option DbFilterTree)}
    (h : ∀ g ∈ groups, d.arch ≠ g.1.arch.tokenBpf) :
    groupsVerdict target d actDefault actBadarch groups = actBadarch := by
  induction groups with
  | nil => rfl
  | cons g rest ih =>
    rw [groupsVerdict, if_neg (h g List.mem_cons_self)]
    exact ih fun g' hg' => h g' (List.mem_cons_of_mem g hg')

/-- The token of a group gets the verdict of that group, since no other has it. -/
theorem groupsVerdict_of_mem {target : ArchEndian} {d : BpfData}
    {actDefault actBadarch : UInt32} {groups : List (DbFilterTree × Option DbFilterTree)}
    (hpair : groups.Pairwise fun g g' => g.1.arch.tokenBpf ≠ g'.1.arch.tokenBpf)
    {g : DbFilterTree × Option DbFilterTree} (hg : g ∈ groups)
    (htoken : d.arch = g.1.arch.tokenBpf) :
    groupsVerdict target d actDefault actBadarch groups =
      groupVerdict target d actDefault actBadarch g.1 g.2 := by
  induction groups with
  | nil => cases hg
  | cons g' rest ih =>
    rw [groupsVerdict]
    rcases List.mem_cons.mp hg with rfl | hg
    · rw [if_pos htoken]
    · have hne := List.rel_of_pairwise_cons hpair hg
      rw [if_neg fun h => hne (h.symm.trans htoken)]
      exact ih hpair.of_cons hg

theorem flatMap_toList (db : DbFilterTree) (secondary : Option DbFilterTree) :
    (db :: secondary.toList).flatMap DbFilterTree.syscalls =
      db.syscalls ++ secondary.elim [] DbFilterTree.syscalls := by
  cases secondary <;> simp

/-- The entries of a group are those of filters of the collection. -/
theorem DbFilterCol.exists_of_mem_group (hcol : col.WellFormed)
    {g : DbFilterTree × Option DbFilterTree} (hg : g ∈ col.groups) {s : DbSysList}
    (hs : s ∈ g.1.syscalls ++ g.2.elim [] DbFilterTree.syscalls) :
    ∃ f ∈ col.filters, s ∈ f.syscalls := by
  rw [← flatMap_toList] at hs
  obtain ⟨f, hf, hsf⟩ := List.mem_flatMap.mp hs
  have hf' := (DbFilterCol.perm_group hcol hg).mem_iff.mpr hf
  exact ⟨f, (List.mem_filter.mp hf').1, hsf⟩

/-- The system calls of a group have distinct numbers. -/
theorem DbFilterCol.distinctNums_group (hcol : col.WellFormed)
    {g : DbFilterTree × Option DbFilterTree} (hg : g ∈ col.groups) :
    DistinctNums (g.1.syscalls ++ g.2.elim [] DbFilterTree.syscalls) := by
  obtain ⟨iter, hget, -⟩ := DbFilterCol.groupAt_of_mem hcol hg
  rw [← flatMap_toList]
  exact (hcol.nums g.1 (List.mem_of_getElem? hget)).perm
    ((DbFilterCol.perm_group hcol hg).flatMap_right _)

/-- **The groups come to the verdict.** -/
theorem DbFilterCol.groupsVerdict_groups (hcol : col.WellFormed) (d : BpfData) :
    groupsVerdict col.endian d col.actDefault col.actBadarch col.groups = col.verdict d := by
  rw [DbFilterCol.verdict]
  by_cases hsome : ∃ f ∈ col.filters, f.arch.tokenBpf = d.arch
  · obtain ⟨f, hf, htoken⟩ := hsome
    obtain ⟨g, hg, hgf⟩ := DbFilterCol.exists_group hcol hf
    have hgd : d.arch = g.1.arch.tokenBpf := (hgf.trans htoken).symm
    have hperm := DbFilterCol.perm_group hcol hg
    rw [groupsVerdict_of_mem (DbFilterCol.pairwise_groups hcol) hg hgd, groupVerdict, hgd,
      ← flatMap_toList]
    have hforeign : (∀ f ∈ col.filtersFor g.1.arch.tokenBpf, f.arch.Foreign d.nr) ↔
        g.1.arch.NeedsAbiCheck g.2 ∧ g.1.arch.Foreign d.nr := by
      obtain ⟨iter, -, hat⟩ := DbFilterCol.groupAt_of_mem hcol hg
      simp only [hperm.mem_iff]
      rcases hat with ⟨hnone, -⟩ | ⟨j, f', -, -, hp, hsome⟩
      · rw [hnone, needsAbiCheck_none]
        simp only [Option.toList_none, List.mem_singleton, forall_eq]
        constructor
        · exact fun h => ⟨fun hp => not_foreign_of_partner_eq_none hp d.nr h, h⟩
        · exact fun h => h.2
      · rw [hsome]
        simp only [Option.toList_some, List.mem_cons, List.not_mem_nil, or_false, forall_eq_or_imp,
          forall_eq, foreign_partner hp]
        constructor
        · exact fun h => (h.2 h.1).elim
        · exact fun h => by cases h.1.2
    by_cases hall : g.1.arch.NeedsAbiCheck g.2 ∧ g.1.arch.Foreign d.nr
    · rw [if_pos hall, if_pos (hforeign.mpr hall)]
    · rw [if_neg hall, if_neg fun h => hall (hforeign.mp h)]
      refine (evalSyscalls_perm col.endian d col.actDefault (hperm.flatMap_right _) ?_).symm
      obtain ⟨iter, hget, -⟩ := DbFilterCol.groupAt_of_mem hcol hg
      exact hcol.nums g.1 (List.mem_of_getElem? hget)
  · have hnone : col.filtersFor d.arch = [] := by
      refine List.filter_eq_nil_iff.mpr fun f hf h => hsome ⟨f, hf, by simpa using h⟩
    rw [hnone, if_pos (fun f hf => by cases hf)]
    refine groupsVerdict_of_forall_ne fun g hg h => ?_
    obtain ⟨iter, hget, -⟩ := DbFilterCol.groupAt_of_mem hcol hg
    exact hsome ⟨g.1, List.mem_of_getElem? hget, h.symm⟩

end Collection

end Groups

/-! ## The blocks of the top level -/

section Top

variable {jhash : List BpfInstr → UInt32} {host target : ArchEndian} {d : BpfData}

theorem GroupMeans.mono {tbl tbl' : BpfHtbl} (hext : TableExt tbl tbl') {arch : Arch}
    {r : UInt32} {b : BpfBlk} {first : UInt64} {inner : List BpfBlk}
    (h : GroupMeans host target d tbl arch r b first inner) :
    GroupMeans host target d tbl' arch r b first inner :=
  ⟨h.blk, h.stored.mono hext, h.first.mono hext, fun c hc => (h.inner c hc).mono hext⟩

/-- The blocks of the top level, for the architectures of the groups: group behind group,
and behind the last one the action for bad architectures. -/
inductive TopMeans (host target : ArchEndian) (d : BpfData) (tbl : BpfHtbl) :
    List Arch → List BpfBlk → UInt32 → Prop where
  | bad {b : BpfBlk} {r : UInt32} (htop : TopBlk host target d tbl b)
      (hblks : b.blks = (genBpfAction host target r).blks)
      (hr : Yields host target d tbl b.hash r) : TopMeans host target d tbl [] [b] r
  | group {arch : Arch} {archs : List Arch} {b : BpfBlk} {first : UInt64}
      {inner rest : List BpfBlk} {r rRest : UInt32} (hendian : arch.endian = target)
      (hgroup : GroupMeans host target d tbl arch r b first inner)
      (hrest : TopMeans host target d tbl archs rest rRest) :
      TopMeans host target d tbl (arch :: archs) (b :: inner ++ rest)
        (if d.arch = arch.tokenBpf then r else rRest)

/-- **The blocks of the groups mean their filters.** -/
theorem genBpfGroups_means {groups : List (DbFilterTree × Option DbFilterTree)}
    (hendian : ∀ g ∈ groups, g.1.arch.endian = target)
    (hloads : ∀ g ∈ groups, ∀ s ∈ g.1.syscalls ++ g.2.elim [] DbFilterTree.syscalls,
      s.valid = true → s.Loads)
    (hnums : ∀ g ∈ groups, DistinctNums (g.1.syscalls ++ g.2.elim [] DbFilterTree.syscalls))
    {badArchHsh defHsh : UInt64} {tbl tbl' : BpfHtbl} {blks : List BpfBlk} {r rBad : UInt32}
    (h : genBpfGroups jhash host badArchHsh defHsh groups tbl = some (blks, tbl'))
    (hdef : Means host target d tbl defHsh r) (hbad : Means host target d tbl badArchHsh rBad) :
    Adds jhash (BlkOk host target d) tbl tbl' ∧ (SameStart tbl' → ∀ b,
      TopBlk host target d tbl' b → b.blks = (genBpfAction host target rBad).blks →
      Yields host target d tbl' b.hash rBad →
      TopMeans host target d tbl' (groups.map fun g => g.1.arch) (blks ++ [b])
        (groupsVerdict target d r rBad groups)) := by
  induction groups generalizing tbl blks with
  | nil =>
    obtain ⟨rfl, rfl⟩ := Prod.mk.inj (Option.some.inj h)
    exact ⟨Adds.refl, fun _ b htop hblks hy => TopMeans.bad htop hblks hy⟩
  | cons g rest ih =>
    obtain ⟨db, secondary⟩ := g
    simp only [genBpfGroups, Option.bind_eq_bind, Option.bind_eq_some_iff] at h
    obtain ⟨⟨blks₁, tbl₁⟩, harch, ⟨blks₂, tbl₂⟩, hrest, h⟩ := h
    obtain ⟨rfl, rfl⟩ := Prod.mk.inj (Option.some.inj h)
    have hmem := List.mem_cons_self (a := (db, secondary)) (l := rest)
    obtain ⟨hadds₁, hmeans₁⟩ := genBpfArch_means (hendian _ hmem) (hloads _ hmem) (hnums _ hmem)
      harch hdef hbad
    have hcons : ∀ g ∈ rest, g ∈ (db, secondary) :: rest :=
      fun g hg => List.mem_cons_of_mem (db, secondary) hg
    obtain ⟨hadds₂, hmeans₂⟩ := ih (fun g hg => hendian g (hcons g hg))
      (fun g hg => hloads g (hcons g hg)) (fun g hg => hnums g (hcons g hg)) hrest
      (hdef.mono hadds₁.tableExt) (hbad.mono hadds₁.tableExt)
    refine ⟨hadds₁.trans hadds₂, fun hsame b htop hblks hy => ?_⟩
    obtain ⟨c, first, inner, rfl, hgroup⟩ := hmeans₁ (hsame.of_ext hadds₂.tableExt)
    rw [List.append_assoc]
    exact TopMeans.group (hendian _ hmem) (hgroup.mono hadds₂.tableExt)
      (hmeans₂ hsame b htop hblks hy)

/-- The tests of all trees load words of `struct seccomp_data`. -/
def DbFilterCol.Loads (col : DbFilterCol) : Prop :=
  ∀ f ∈ col.filters, ∀ s ∈ f.syscalls, s.valid = true → s.Loads

instance (col : DbFilterCol) : Decidable col.Loads :=
  inferInstanceAs (Decidable (∀ f ∈ col.filters, ∀ s ∈ f.syscalls, s.valid = true → s.Loads))

/-- The loads of a collection are valid in each of its groups. -/
theorem DbFilterCol.Loads.group {col : DbFilterCol} (hcol : col.WellFormed) (h : col.Loads)
    {g : DbFilterTree × Option DbFilterTree} (hg : g ∈ col.groups) :
    ∀ s ∈ g.1.syscalls ++ g.2.elim [] DbFilterTree.syscalls, s.valid = true → s.Loads := by
  intro s hs
  obtain ⟨f, hf, hsf⟩ := DbFilterCol.exists_of_mem_group hcol hg hs
  exact h f hf s hsf

/-- What `_gen_bpf_build_bpf` does up to the blocks of the architectures. -/
theorem genBpfBlocks_cases {col : DbFilterCol} {top : List BpfBlk} {tbl : BpfHtbl}
    (h : genBpfBlocks jhash host col = some (top, tbl)) :
    ∃ badarch tbl₁ default tbl₂ head tbl₃ blks,
      hshAdd jhash [] (genBpfAction host col.endian col.actBadarch) true = some (badarch, tbl₁) ∧
      hshAdd jhash tbl₁ (genBpfAction host col.endian col.actDefault) false =
        some (default, tbl₂) ∧
      hshAdd jhash tbl₂ (loadArchBlk host col.endian) true = some (head, tbl₃) ∧
      genBpfGroups jhash host badarch.hash default.hash col.groups tbl₃ = some (blks, tbl) ∧
      top = head :: (blks ++ [badarch]) := by
  unfold genBpfBlocks at h
  split at h
  · cases h
  · simp only [Option.bind_eq_bind, Option.bind_eq_some_iff, genBpfArchs_eq] at h
    obtain ⟨⟨badarch, tbl₁⟩, hbad, ⟨default, tbl₂⟩, hdef, ⟨head, tbl₃⟩, hhead, ⟨blks, tbl₄⟩,
      hblks, h⟩ := h
    obtain ⟨rfl, rfl⟩ := Prod.mk.inj (Option.some.inj h)
    exact ⟨badarch, tbl₁, default, tbl₂, head, tbl₃, blks, hbad, hdef, hhead, hblks, rfl⟩

/-- **The blocks of the top level mean the collection.** -/
theorem genBpfBlocks_means {col : DbFilterCol} (hcol : col.WellFormed) (hloads : col.Loads)
    {top : List BpfBlk} {tbl : BpfHtbl} (h : genBpfBlocks jhash host col = some (top, tbl))
    (d : BpfData) :
    Adds jhash (BlkOk host col.endian d) [] tbl ∧ ∃ hVal rest,
      top = { loadArchBlk host col.endian with hash := hVal } :: rest ∧
      (SameStart tbl → TopMeans host col.endian d tbl (col.groups.map fun g => g.1.arch) rest
        (col.verdict d)) := by
  obtain ⟨badarch, tbl₁, default, tbl₂, head, tbl₃, blks, hbad, hdef, hhead, hblks, rfl⟩ :=
    genBpfBlocks_cases h
  have hact : ∀ (tbl : BpfHtbl) (action : UInt32) (found : Bool),
      BlkOk host col.endian d tbl (genBpfAction host col.endian action) found :=
    fun tbl action found => blkOk_genBpfAction tbl action found
  have hloadArch : BlkOk host col.endian d tbl₂ (loadArchBlk host col.endian) true := by
    refine ⟨?_, (fun _ h => by cases h), fun _ => rfl⟩
    intro acc _ l acc' heff
    rw [loadArchBlk, blkEffect_load host col.endian d (by decide)] at heff
    cases heff
  have hmeansBad : Means host col.endian d tbl₁ badarch.hash col.actBadarch := fun hsame =>
    yields_of_returns hbad hsame fun acc _ => blkEffect_ret host col.endian d _ acc
  have hmeansDef : Means host col.endian d tbl₂ default.hash col.actDefault := fun hsame =>
    yields_of_returns hdef hsame fun acc _ => blkEffect_ret host col.endian d _ acc
  have hext₃ := tableExt_hshAdd hhead
  have hext₁ := (tableExt_hshAdd hdef).trans hext₃
  obtain ⟨hadds, hmeans⟩ := genBpfGroups_means
    (fun g hg => by
      obtain ⟨iter, hget, -⟩ := DbFilterCol.groupAt_of_mem hcol hg
      exact hcol.endian g.1 (List.mem_of_getElem? hget))
    (fun g hg => hloads.group hcol hg) (fun g hg => DbFilterCol.distinctNums_group hcol hg)
    hblks (hmeansDef.mono hext₃) (hmeansBad.mono hext₁)
  refine ⟨?_, head.hash, blks ++ [badarch], by rw [← hshAdd_found hhead], fun hsame => ?_⟩
  · exact (((Adds.single (hact _ _ _) hbad).trans (Adds.single (hact _ _ _) hdef)).trans
      (Adds.single hloadArch hhead)).trans hadds
  · have hext := hext₁.trans hadds.tableExt
    rw [← DbFilterCol.groupsVerdict_groups hcol d]
    refine hmeans hsame badarch ?_ (by rw [hshAdd_found hbad]) ((hmeansBad.mono hext) hsame)
    exact (topBlk_hshAdd hbad (hact [] _ true).endOk (not_hasNxt_genBpfAction _)
      (Or.inr rfl)).mono hext

/-! ## Falling through -/

/-- The block that checks a token, after its jump to the next architecture is resolved. -/
structure ArchResolved (host target : ArchEndian) (tbl : BpfHtbl) (arch : Arch)
    (first next : UInt64) (b : BpfBlk) : Prop where
  endian : arch.endian = target
  blks : b.blks = [bpfJump host target BPF_JMP_JEQ (.hsh first) (.hsh next) arch.tokenBpf]
  accStart : b.accStart = accStateUndef
  accEnd : b.accEnd = accStateUndef
  stored : ∃ e ∈ tbl, e.blk.hash = b.hash ∧ e.blk.accStart = accStateUndef ∧
    ∃ skip, e.blk.blks = (archBlk host arch first skip).blks

/-- The blocks of the top level after the jumps are resolved. -/
inductive TopResolved (host target : ArchEndian) (d : BpfData) (tbl : BpfHtbl) :
    List Arch → List BpfBlk → UInt32 → Prop where
  | bad {b : BpfBlk} {r : UInt32} (htop : TopBlk host target d tbl b)
      (hblks : b.blks = (genBpfAction host target r).blks)
      (hr : Yields host target d tbl b.hash r) : TopResolved host target d tbl [] [b] r
  | group {arch : Arch} {archs : List Arch} {b next : BpfBlk} {first : UInt64}
      {inner rest : List BpfBlk} {r rRest : UInt32}
      (harch : ArchResolved host target tbl arch first next.hash b)
      (hfirst : Yields host target d tbl first r)
      (hinner : ∀ c ∈ inner, TopBlk host target d tbl c)
      (hrest : TopResolved host target d tbl archs (next :: rest) rRest) :
      TopResolved host target d tbl (arch :: archs) (b :: inner ++ next :: rest)
        (if d.arch = arch.tokenBpf then r else rRest)

/-- Jumps that are not relative stay. -/
theorem resolveNxt_of_ne {following : List BpfBlk} {j : BpfJump} (h : ∀ n, j ≠ .nxt n) :
    resolveNxt following j = some j := by
  cases j <;> first | rfl | exact (h _ rfl).elim

/-- A block that does not fall through is not changed. -/
theorem mapM_resolveNxt {b : BpfBlk} (h : ¬ b.HasNxt) (following : List BpfBlk) :
    b.blks.mapM (BpfInstr.resolveNxt following) = some b.blks := by
  have hnxt : ∀ i ∈ b.blks, BpfInstr.resolveNxt following i = some i := by
    intro i hi
    rw [BpfInstr.resolveNxt, resolveNxt_of_ne fun n hn => h ⟨i, hi, n, Or.inl hn⟩,
      resolveNxt_of_ne fun n hn => h ⟨i, hi, n, Or.inr hn⟩]
    rfl
  clear h
  generalize b.blks = blks at hnxt ⊢
  induction blks with
  | nil => rfl
  | cons i is ih =>
    rw [List.mapM_cons, hnxt i List.mem_cons_self,
      ih fun i' hi' => hnxt i' (List.mem_cons_of_mem i hi')]
    rfl

/-- The pass resolves a block against the blocks behind it. -/
theorem genBpfResolveNxt_cons (b : BpfBlk) {bs : List BpfBlk} (hbs : bs ≠ []) :
    genBpfResolveNxt (b :: bs) = (b.blks.mapM (BpfInstr.resolveNxt bs)).bind fun blks =>
      (genBpfResolveNxt bs).map ({ b with blks := blks } :: ·) := by
  cases bs with
  | nil => exact (hbs rfl).elim
  | cons c bs =>
    rw [genBpfResolveNxt]
    cases b.blks.mapM (BpfInstr.resolveNxt (c :: bs)) with
    | none => rfl
    | some blks => cases genBpfResolveNxt (c :: bs) <;> rfl

/-- Blocks that do not fall through are not changed. -/
theorem genBpfResolveNxt_append {inner rest rest' : List BpfBlk} (hrest : rest ≠ [])
    (hinner : ∀ b ∈ inner, ¬ b.HasNxt) (h : genBpfResolveNxt rest = some rest') :
    genBpfResolveNxt (inner ++ rest) = some (inner ++ rest') := by
  induction inner with
  | nil => exact h
  | cons b inner ih =>
    rw [List.cons_append, genBpfResolveNxt_cons b (by simp [hrest]),
      mapM_resolveNxt (hinner b List.mem_cons_self),
      ih fun c hc => hinner c (List.mem_cons_of_mem b hc)]
    rfl

/-- **Resolving the jumps of the top level succeeds**, and the first block keeps its hash. -/
theorem TopMeans.resolve {tbl : BpfHtbl} {archs : List Arch} {bs : List BpfBlk} {r : UInt32}
    (h : TopMeans host target d tbl archs bs r) :
    ∃ b b' rest rest', bs = b :: rest ∧ genBpfResolveNxt bs = some (b' :: rest') ∧
      b'.hash = b.hash ∧ TopResolved host target d tbl archs (b' :: rest') r := by
  induction h with
  | @bad b r htop hblks hr =>
    exact ⟨b, b, [], [], rfl, rfl, rfl, TopResolved.bad htop hblks hr⟩
  | @group arch archs b first inner rest r rRest hendian hgroup hrest ih =>
    obtain ⟨c, c', rest, rest', rfl, hres, hhash, hmeans⟩ := ih
    have hne : inner ++ c :: rest ≠ [] := by simp
    have hblks : b.blks.mapM (BpfInstr.resolveNxt (inner ++ c :: rest)) =
        some [bpfJump host target BPF_JMP_JEQ (.hsh first) (.hsh c'.hash) arch.tokenBpf] := by
      rw [hgroup.blk, hhash, ← hendian]
      show ([bpfJump host arch.endian BPF_JMP_JEQ (.hsh first) (.nxt inner.length)
        arch.tokenBpf].mapM _) = _
      simp [BpfInstr.resolveNxt, bpfJump, resolveNxt]
    obtain ⟨b', hb'⟩ : ∃ b', b' = { b with
        blks := [bpfJump host target BPF_JMP_JEQ (.hsh first) (.hsh c'.hash) arch.tokenBpf] } :=
      ⟨_, rfl⟩
    have harch : ArchResolved host target tbl arch first c'.hash b' := by
      rw [hb']
      obtain ⟨e, he, hh, hb, hs⟩ := hgroup.stored
      have hstart : b.accStart = accStateUndef := by
        rw [hgroup.blk]
        rfl
      have hend : b.accEnd = accStateUndef := by
        rw [hgroup.blk]
        rfl
      exact ⟨hendian, rfl, hstart, hend, e, he, hh, hs.trans hstart, inner.length,
        by rw [hb, hgroup.blk]⟩
    refine ⟨b, b', inner ++ c :: rest, inner ++ c' :: rest', rfl, ?_, by rw [hb'],
      TopResolved.group harch hgroup.first hgroup.inner hmeans⟩
    rw [List.cons_append, genBpfResolveNxt_cons b hne, hblks,
      genBpfResolveNxt_append (by simp) (fun i hi => (hgroup.inner i hi).nxt) hres, hb']
    rfl

end Top

end Draco
