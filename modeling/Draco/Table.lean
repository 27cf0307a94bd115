/-
# The sets of a table

A set of a table is four rows with a flag each.  `insert_value` reads a set up
to the first flag that is not 1, so what it can see of a set is the list of its
leading occupied rows, `rows`.  This file restates the probing loop on that list
(`probe_snd_eq_true_iff`, `probe_fst_of_miss`) and shows that recording a key
appends one row to it (`rows_recordRow_self`), provided that the occupied rows
of every set are a prefix of it (`Tidy`).
-/
import Draco.HashTable
import Mathlib.Data.List.Infix
import Mathlib.Tactic.SplitIfs

namespace Draco

/-! ## Keys and rows -/

/-- A key stored in an empty row: its words, then zeros. -/
def padded (key : List UInt64) : List UInt64 :=
  key ++ List.replicate (MAX_ARGUMENT_COUNT - key.length) 0

/-- A set lies in the table. -/
theorem hashCode_lt (jhash : List UInt64 → UInt32) (key : List UInt64) :
    hashCode jhash key < INIT_HASH_ARGUMENT :=
  Nat.mod_lt _ (by decide)

/-- `memcmp` over the length of the key finds rows that begin with it. -/
theorem memcmpEq_iff {key row : List UInt64} : memcmpEq key row = true ↔ key <+: row := by
  rw [memcmpEq, beq_iff_eq, List.prefix_iff_eq_take, eq_comm]

/-- Copying a key into a zero row pads it with zeros. -/
theorem memcpyRow_zero (key : List UInt64) :
    memcpyRow key (List.replicate MAX_ARGUMENT_COUNT 0) = padded key := by
  rw [memcpyRow, List.drop_replicate, padded]

theorem prefix_padded (key : List UInt64) : key <+: padded key :=
  List.prefix_append key _

/-- Among keys of one length, a row matches the key it was stored for only. -/
theorem prefix_padded_iff {key key' : List UInt64} (h : key.length = key'.length) :
    key <+: padded key' ↔ key = key' := by
  constructor
  · intro hp
    exact (List.prefix_of_prefix_length_le hp (prefix_padded key') (Nat.le_of_eq h)).eq_of_length h
  · rintro rfl
    exact prefix_padded key

/-! ## The visible rows of a set -/

namespace PerSyscall

/-- The rows that the probing loop passes: from `index` on, while the flag is 1. -/
def rowsFrom (T : PerSyscall) (entryPosition : ℕ) : (fuel index : ℕ) → List (List UInt64)
  | 0, _ => []
  | fuel + 1, index =>
    if T.flag (entryPosition + index) = 1 then
      T.table (entryPosition + index) :: rowsFrom T entryPosition fuel (index + 1)
    else []

/-- The leading occupied rows of set `h`, oldest first. -/
def rows (T : PerSyscall) (h : ℕ) : List (List UInt64) :=
  T.rowsFrom (h * ASOS) ASOS 0

theorem length_rowsFrom_le (T : PerSyscall) (e fuel index : ℕ) :
    (T.rowsFrom e fuel index).length ≤ fuel := by
  induction fuel generalizing index with
  | zero => exact Nat.le_refl 0
  | succ fuel ih =>
    rw [rowsFrom]
    split_ifs
    · exact Nat.succ_le_succ (ih (index + 1))
    · exact Nat.zero_le _

/-- A set holds at most `ASOS` rows. -/
theorem length_rows_le (T : PerSyscall) (h : ℕ) : (T.rows h).length ≤ 4 :=
  T.length_rowsFrom_le _ _ _

/-- Where a visible row is. -/
theorem getElem_rowsFrom (T : PerSyscall) (e fuel index : ℕ) {i : ℕ}
    (hi : i < (T.rowsFrom e fuel index).length) :
    T.flag (e + (index + i)) = 1 ∧ (T.rowsFrom e fuel index)[i] = T.table (e + (index + i)) := by
  induction fuel generalizing index i with
  | zero => exact absurd hi (Nat.not_lt_zero i)
  | succ fuel ih =>
    by_cases hf : T.flag (e + index) = 1
    · simp only [rowsFrom, hf, if_true] at hi ⊢
      cases i with
      | zero => exact ⟨hf, rfl⟩
      | succ i =>
        rw [show index + (i + 1) = index + 1 + i from by omega]
        exact ih (index + 1) (by simpa using hi)
    · simp [rowsFrom, hf] at hi

/-- The flag behind the visible rows is not 1. -/
theorem flag_length_rowsFrom (T : PerSyscall) (e fuel index : ℕ)
    (h : (T.rowsFrom e fuel index).length < fuel) :
    T.flag (e + (index + (T.rowsFrom e fuel index).length)) ≠ 1 := by
  induction fuel generalizing index with
  | zero => exact absurd h (Nat.not_lt_zero _)
  | succ fuel ih =>
    by_cases hf : T.flag (e + index) = 1
    · simp only [rowsFrom, hf, if_true, List.length_cons] at h ⊢
      have := ih (index + 1) (by omega)
      rwa [show index + 1 + (T.rowsFrom e fuel (index + 1)).length =
        index + ((T.rowsFrom e fuel (index + 1)).length + 1) from by omega] at this
    · simp [rowsFrom, hf]

/-- Tables with the same flags and rows in a set show the same rows there. -/
theorem rowsFrom_congr {T T' : PerSyscall} {e fuel index : ℕ}
    (h : ∀ i, index ≤ i → i < index + fuel →
      T.flag (e + i) = T'.flag (e + i) ∧ T.table (e + i) = T'.table (e + i)) :
    T.rowsFrom e fuel index = T'.rowsFrom e fuel index := by
  induction fuel generalizing index with
  | zero => rfl
  | succ fuel ih =>
    have h0 := h index (Nat.le_refl _) (by omega)
    rw [rowsFrom, rowsFrom, h0.1, h0.2,
      @ih (index + 1) (fun i hi hi' => h i (by omega) (by omega))]

end PerSyscall

/-! ## The probing loop on the visible rows -/

/-- The probe finds a key when one of the rows it passes begins with it. -/
theorem probe_snd_eq_true_iff (T : PerSyscall) (key : List UInt64) (e fuel index : ℕ) :
    (probe T key e fuel index).2 = true ↔ ∃ r ∈ T.rowsFrom e fuel index, key <+: r := by
  induction fuel generalizing index with
  | zero => simp [probe, PerSyscall.rowsFrom]
  | succ fuel ih =>
    rw [probe, PerSyscall.rowsFrom]
    split_ifs with hf hm
    · rw [memcmpEq_iff] at hm
      simp [hm]
    · rw [memcmpEq_iff] at hm
      rw [ih]
      simp [hm]
    · simp

/-- A probe that misses stops behind the last row it passes. -/
theorem probe_fst_of_miss (T : PerSyscall) (key : List UInt64) (e fuel index : ℕ)
    (h : (probe T key e fuel index).2 = false) :
    (probe T key e fuel index).1 = index + (T.rowsFrom e fuel index).length := by
  induction fuel generalizing index with
  | zero => rfl
  | succ fuel ih =>
    rw [probe] at h ⊢
    rw [PerSyscall.rowsFrom]
    split_ifs at h ⊢ with hf hm
    · rw [ih (index + 1) h, List.length_cons]
      omega
    · rfl

/-- On a hit the loop stands at the first visible row that matches. -/
theorem probe_fst_of_hit (T : PerSyscall) (key : List UInt64) (e fuel index : ℕ)
    (h : (probe T key e fuel index).2 = true) :
    ∃ i, ∃ hi : i < (T.rowsFrom e fuel index).length,
      (probe T key e fuel index).1 = index + i ∧ key <+: (T.rowsFrom e fuel index)[i] ∧
      ∀ j, ∀ hj : j < i, ¬ key <+: (T.rowsFrom e fuel index)[j] := by
  induction fuel generalizing index with
  | zero => exact absurd h (by simp [probe])
  | succ fuel ih =>
    by_cases hf : T.flag (e + index) = 1
    · simp only [probe, PerSyscall.rowsFrom, hf, if_true] at h ⊢
      by_cases hm : memcmpEq key (T.table (e + index)) = true
      · refine ⟨0, by simp, by simp [hm], memcmpEq_iff.mp hm, fun j hj => by omega⟩
      · simp only [hm, Bool.false_eq_true, if_false] at h ⊢
        obtain ⟨i, hi, hfst, hpre, hmin⟩ := ih (index + 1) h
        refine ⟨i + 1, by simpa using hi, by rw [hfst]; omega, hpre, fun j hj => ?_⟩
        cases j with
        | zero => exact fun hp => hm (memcmpEq_iff.mpr hp)
        | succ j => exact hmin j (by omega)
    · simp [probe, hf] at h

/-! ## Recording a key -/

namespace PerSyscall

/-- The shape that `insert_value` keeps: every flag is 0 or 1, the occupied rows
of a set come first, free rows are zero, and every row has six words. -/
structure Tidy (T : PerSyscall) : Prop where
  binary : ∀ e, T.flag e = 0 ∨ T.flag e = 1
  leading : ∀ h i j, i ≤ j → j < 4 → T.flag (h * 4 + j) = 1 → T.flag (h * 4 + i) = 1
  free : ∀ e, T.flag e = 0 → T.table e = List.replicate MAX_ARGUMENT_COUNT 0
  length : ∀ e, (T.table e).length = 6

/-- The zeroed table is tidy. -/
theorem tidy_zero : PerSyscall.zero.Tidy where
  binary := fun _ => Or.inl rfl
  leading := fun _ _ _ _ _ h => absurd h (by simp [PerSyscall.zero])
  free := fun _ _ => rfl
  length := fun _ => rfl

theorem rows_zero (h : ℕ) : PerSyscall.zero.rows h = [] := by
  rw [rows, rowsFrom, if_neg (by simp [PerSyscall.zero])]

/-- In a tidy table row `i` of a set is visible exactly when it is occupied. -/
theorem Tidy.flag_eq_one_iff {T : PerSyscall} (hT : T.Tidy) {h i : ℕ} (hi : i < 4) :
    T.flag (h * 4 + i) = 1 ↔ i < (T.rows h).length := by
  constructor
  · intro hf
    by_contra hlt
    have hlen : (T.rows h).length < 4 := by omega
    have hne := T.flag_length_rowsFrom (h * ASOS) ASOS 0 hlen
    rw [Nat.zero_add] at hne
    exact hne (hT.leading h (T.rows h).length i (by omega) hi hf)
  · intro hlt
    have := (T.getElem_rowsFrom (h * ASOS) ASOS 0 hlt).1
    rwa [Nat.zero_add] at this

theorem getElem_rows {T : PerSyscall} {h i : ℕ} (hi : i < (T.rows h).length) :
    (T.rows h)[i] = T.table (h * 4 + i) := by
  have := (T.getElem_rowsFrom (h * ASOS) ASOS 0 hi).2
  rwa [Nat.zero_add] at this

theorem recordRow_flag (T : PerSyscall) (e : ℕ) (key : List UInt64) :
    (recordRow T e key).flag = Function.update T.flag e 1 := rfl

theorem recordRow_table (T : PerSyscall) (e : ℕ) (key : List UInt64) :
    (recordRow T e key).table = Function.update T.table e (memcpyRow key (T.table e)) := rfl

/-- Recording a key in the first free place of a set keeps the table tidy. -/
theorem Tidy.recordRow {T : PerSyscall} (hT : T.Tidy) {h : ℕ} {key : List UInt64}
    (hkey : key.length ≤ 6) (hroom : (T.rows h).length < 4) :
    (recordRow T (h * 4 + (T.rows h).length) key).Tidy := by
  refine ⟨?_, ?_, ?_, ?_⟩
  · intro e
    rw [recordRow_flag]
    by_cases he : e = h * 4 + (T.rows h).length
    · rw [he, Function.update_self]
      exact Or.inr rfl
    · rw [Function.update_of_ne he]
      exact hT.binary e
  · intro h' i j hij hj hf
    rw [recordRow_flag] at hf ⊢
    by_cases hi : h' * 4 + i = h * 4 + (T.rows h).length
    · rw [hi, Function.update_self]
    · rw [Function.update_of_ne hi]
      by_cases hj' : h' * 4 + j = h * 4 + (T.rows h).length
      · -- the new row is the first free one, so the rows before it are occupied
        have hh : h' = h := by omega
        subst hh
        exact (hT.flag_eq_one_iff (by omega)).mpr (by omega)
      · rw [Function.update_of_ne hj'] at hf
        exact hT.leading h' i j hij hj hf
  · intro e hf
    rw [recordRow_flag] at hf
    rw [recordRow_table]
    by_cases he : e = h * 4 + (T.rows h).length
    · rw [he, Function.update_self] at hf
      exact absurd hf (by decide)
    · rw [Function.update_of_ne he] at hf ⊢
      exact hT.free e hf
  · intro e
    rw [recordRow_table]
    by_cases he : e = h * 4 + (T.rows h).length
    · rw [he, Function.update_self, memcpyRow, List.length_append, List.length_drop, hT.length]
      omega
    · rw [Function.update_of_ne he]
      exact hT.length e

/-- Recording in one set leaves the rows of the others. -/
theorem rows_recordRow_of_ne (T : PerSyscall) {h h' i : ℕ} (key : List UInt64) (hi : i < 4)
    (hne : h' ≠ h) : (recordRow T (h * 4 + i) key).rows h' = T.rows h' := by
  apply rowsFrom_congr
  intro j _ hj
  have he : h' * ASOS + j ≠ h * 4 + i := by simp only [ASOS] at hj ⊢; omega
  rw [recordRow_flag, recordRow_table, Function.update_of_ne he, Function.update_of_ne he]
  exact ⟨rfl, rfl⟩

/-- **Recording a key appends its padded row to the set.** -/
theorem rows_recordRow_self {T : PerSyscall} (hT : T.Tidy) {h : ℕ} {key : List UInt64}
    (hkey : key.length ≤ 6) (hroom : (T.rows h).length < 4) :
    (recordRow T (h * 4 + (T.rows h).length) key).rows h = T.rows h ++ [padded key] := by
  set T' := recordRow T (h * 4 + (T.rows h).length) key with hT'
  have htidy : T'.Tidy := hT.recordRow hkey hroom
  have hflag : ∀ i < 4, i < (T'.rows h).length ↔ i < (T.rows h).length + 1 := by
    intro i hi
    rw [← htidy.flag_eq_one_iff hi, hT', recordRow_flag]
    by_cases he : i = (T.rows h).length
    · rw [he, Function.update_self]
      simp
    · rw [Function.update_of_ne (by omega), hT.flag_eq_one_iff hi]
      omega
  have hlen : (T'.rows h).length = (T.rows h).length + 1 := by
    have h4 := T'.length_rows_le h
    have h1 := (hflag (T.rows h).length hroom).mpr (Nat.lt_succ_self _)
    by_contra hne
    have h2 := (hflag ((T.rows h).length + 1) (by omega)).mp (by omega)
    omega
  apply List.ext_getElem
  · rw [hlen, List.length_append, List.length_singleton]
  · intro i hi hi'
    rw [getElem_rows hi, hT', recordRow_table]
    by_cases he : i = (T.rows h).length
    · subst he
      have hfree : T.flag (h * 4 + (T.rows h).length) = 0 := by
        rcases hT.binary (h * 4 + (T.rows h).length) with h0 | h1
        · exact h0
        · have := (hT.flag_eq_one_iff hroom).mp h1
          omega
      rw [Function.update_self, hT.free _ hfree, memcpyRow_zero]
      simp
    · have hlt : i < (T.rows h).length := by omega
      rw [Function.update_of_ne (by omega), List.getElem_append_left hlt, getElem_rows hlt]

end PerSyscall

end Draco
