/-
# First-come lists of bounded length

`firstCome cap xs` keeps the first `cap` distinct values of `xs` in the order
in which they arrived: an arriving value is appended unless it is already there
or the list is full (`offer`).  Nothing is ever removed or replaced, so the list
only grows (`firstCome_prefix_append`) and whether a value belongs to it is
settled at that value's first arrival (`mem_firstCome_of_append`).  The closed
form is `firstCome_eq_take`: the distinct values, cut off after `cap`.
-/
import Mathlib.Data.List.Basic
import Mathlib.Data.List.Induction

namespace FirstCome

variable {α : Type*} [BEq α] [LawfulBEq α]

/-- One arrival. -/
def offer (cap : ℕ) (l : List α) (x : α) : List α :=
  if x ∈ l ∨ cap ≤ l.length then l else l ++ [x]

/-- The list after the arrivals `xs`. -/
def firstCome (cap : ℕ) (xs : List α) : List α :=
  xs.foldl (offer cap) []

@[simp] theorem firstCome_nil (cap : ℕ) : firstCome cap ([] : List α) = [] := rfl

/-- The last element is offered to what the others left. -/
theorem firstCome_snoc (cap : ℕ) (xs : List α) (x : α) :
    firstCome cap (xs ++ [x]) = offer cap (firstCome cap xs) x := by
  rw [firstCome, List.foldl_append]
  rfl

/-- What is there is not added again. -/
theorem offer_of_mem {cap : ℕ} {l : List α} {x : α} (h : x ∈ l) : offer cap l x = l :=
  if_pos (Or.inl h)

/-- A full list takes nothing. -/
theorem offer_of_full {cap : ℕ} {l : List α} {x : α} (h : cap ≤ l.length) :
    offer cap l x = l :=
  if_pos (Or.inr h)

/-- A list with room takes what is new. -/
theorem offer_of_new {cap : ℕ} {l : List α} {x : α} (hx : x ∉ l) (h : l.length < cap) :
    offer cap l x = l ++ [x] :=
  if_neg (by rintro (h' | h') <;> [exact hx h'; omega])

/-- An offer removes nothing. -/
theorem prefix_offer (cap : ℕ) (l : List α) (x : α) : l <+: offer cap l x := by
  unfold offer
  split_ifs
  · exact List.prefix_refl l
  · exact List.prefix_append l [x]

/-- There are never more than `cap` elements. -/
theorem length_firstCome_le (cap : ℕ) (xs : List α) : (firstCome cap xs).length ≤ cap := by
  induction xs using List.reverseRecOn with
  | nil => exact Nat.zero_le cap
  | append_singleton xs x ih =>
    rw [firstCome_snoc, offer]
    split_ifs with h
    · exact ih
    · rw [List.length_append, List.length_singleton]
      omega

/-- What came first stays, whatever comes later. -/
theorem firstCome_prefix_append (cap : ℕ) (xs ys : List α) :
    firstCome cap xs <+: firstCome cap (xs ++ ys) := by
  induction ys using List.reverseRecOn with
  | nil => simp
  | append_singleton ys y ih =>
    rw [← List.append_assoc, firstCome_snoc]
    exact ih.trans (prefix_offer cap _ y)

/-! ## Membership -/

/-- Only what was offered is there. -/
theorem mem_of_mem_firstCome {cap : ℕ} {xs : List α} {x : α} (h : x ∈ firstCome cap xs) :
    x ∈ xs := by
  induction xs using List.reverseRecOn with
  | nil => exact h
  | append_singleton xs y ih =>
    rw [firstCome_snoc, offer] at h
    split_ifs at h with hy
    · exact List.mem_append_left _ (ih h)
    · rcases List.mem_append.mp h with h | h
      · exact List.mem_append_left _ (ih h)
      · exact List.mem_append_right _ h

/-- The first value to arrive is on the list. -/
theorem head_mem_firstCome {cap : ℕ} (hcap : 0 < cap) (x : α) (xs : List α) :
    x ∈ firstCome cap (x :: xs) := by
  have hone : firstCome cap [x] = [x] := offer_of_new List.not_mem_nil hcap
  refine (firstCome_prefix_append cap [x] xs).subset ?_
  rw [hone]
  exact List.mem_cons_self

/-- A value that arrived is on the list, or the list is full. -/
theorem mem_firstCome_or_full (cap : ℕ) {xs : List α} {x : α} (h : x ∈ xs) :
    x ∈ firstCome cap xs ∨ cap ≤ (firstCome cap xs).length := by
  induction xs using List.reverseRecOn with
  | nil => exact absurd h List.not_mem_nil
  | append_singleton xs y ih =>
    rw [firstCome_snoc]
    rcases List.mem_append.mp h with h | h
    · rcases ih h with h' | h'
      · exact Or.inl ((prefix_offer cap _ y).subset h')
      · exact Or.inr (Nat.le_trans h' (prefix_offer cap _ y).length_le)
    · rw [List.mem_singleton.mp h, offer]
      split_ifs with hy
      · exact hy
      · exact Or.inl (List.mem_append_right _ List.mem_cons_self)

/-- Later arrivals do not admit a value that has already been turned away. -/
theorem mem_firstCome_of_append {cap : ℕ} {xs ys : List α} {x : α} (hx : x ∈ xs)
    (h : x ∈ firstCome cap (xs ++ ys)) : x ∈ firstCome cap xs := by
  rcases mem_firstCome_or_full cap hx with h' | hfull
  · exact h'
  · have hpre := firstCome_prefix_append cap xs ys
    have hlen := length_firstCome_le cap (xs ++ ys)
    rwa [hpre.eq_of_length (by have := hpre.length_le; omega)]

/-! ## The closed form -/

/-- A last element that occurred before is dropped. -/
theorem eraseDups_snoc (xs : List α) (x : α) :
    (xs ++ [x]).eraseDups = if x ∈ xs then xs.eraseDups else xs.eraseDups ++ [x] := by
  rw [List.eraseDups_append]
  split_ifs with h <;> simp [List.removeAll, List.eraseDups_cons, h]

omit [BEq α] [LawfulBEq α] in
/-- If fewer than `n` elements can be taken, all are. -/
theorem mem_take_of_length_lt {l : List α} {x : α} {n : ℕ} (h : (l.take n).length < n)
    (hx : x ∈ l) : x ∈ l.take n := by
  rw [List.length_take] at h
  rwa [List.take_of_length_le (by omega)]

/-- **The first `cap` distinct values, in order of arrival.** -/
theorem firstCome_eq_take (cap : ℕ) (xs : List α) :
    firstCome cap xs = xs.eraseDups.take cap := by
  induction xs using List.reverseRecOn with
  | nil => simp
  | append_singleton xs x ih =>
    rw [firstCome_snoc, ih, eraseDups_snoc]
    by_cases hx : x ∈ xs
    · rw [if_pos hx]
      by_cases hfull : cap ≤ (xs.eraseDups.take cap).length
      · exact offer_of_full hfull
      · exact offer_of_mem (mem_take_of_length_lt (by omega) (List.mem_eraseDups.mpr hx))
    · rw [if_neg hx, List.take_append]
      by_cases hfull : cap ≤ xs.eraseDups.length
      · rw [offer_of_full (by rw [List.length_take]; omega),
          Nat.sub_eq_zero_of_le hfull, List.take_zero, List.append_nil]
      · have hnew : x ∉ xs.eraseDups.take cap :=
          fun h => hx (List.mem_eraseDups.mp (List.mem_of_mem_take h))
        rw [offer_of_new hnew (by rw [List.length_take]; omega),
          List.take_of_length_le (l := [x]) (by rw [List.length_singleton]; omega)]

end FirstCome
