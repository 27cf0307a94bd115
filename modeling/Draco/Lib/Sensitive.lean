/-
# Coordinates a function is sensitive to

A function of finitely many coordinates is sensitive to coordinate `i` when
changing that coordinate alone can change its value.  Two points that agree on
all such coordinates have the same value (`dependsOn_sensitive`): walk from one to
the other, one coordinate at a time.  `dependsOn_iff` is the form used here, with
a set of coordinates that is meant to cover the sensitive ones.
-/
import Mathlib.Data.Nat.Notation
import Mathlib.Logic.Function.DependsOn

namespace Sensitive

variable {n : ℕ} {α β : Type*}

/-- Changing coordinate `i` alone can change the value of `f`. -/
def SensitiveAt (f : (Fin n → α) → β) (i : Fin n) : Prop :=
  ∃ (x : Fin n → α) (a : α), f (Function.update x i a) ≠ f x

/-- The point that has the first `k` coordinates of `y` and the others of `x`. -/
def hybrid (x y : Fin n → α) (k : ℕ) : Fin n → α :=
  fun i => if i.val < k then y i else x i

/-- No coordinate replaced gives the first tuple. -/
theorem hybrid_zero (x y : Fin n → α) : hybrid x y 0 = x :=
  funext fun i => if_neg (Nat.not_lt_zero i)

/-- All coordinates replaced give the second. -/
theorem hybrid_last (x y : Fin n → α) : hybrid x y n = y :=
  funext fun i => if_pos i.isLt

theorem hybrid_succ (x y : Fin n → α) {k : ℕ} (hk : k < n) :
    hybrid x y (k + 1) = Function.update (hybrid x y k) ⟨k, hk⟩ (y ⟨k, hk⟩) := by
  funext i
  by_cases hi : i = ⟨k, hk⟩
  · subst hi
    rw [Function.update_self]
    exact if_pos (Nat.lt_succ_self k)
  · have hne : i.val ≠ k := fun h => hi (Fin.ext h)
    rw [Function.update_of_ne hi, hybrid, hybrid]
    by_cases hlt : i.val < k
    · rw [if_pos hlt, if_pos (Nat.lt_succ_of_lt hlt)]
    · rw [if_neg hlt, if_neg (by omega)]

/-- A function that is not sensitive outside `s` depends on `s` only. -/
theorem dependsOn_of_not_sensitive {f : (Fin n → α) → β} {s : Set (Fin n)}
    (h : ∀ i ∉ s, ¬ SensitiveAt f i) : DependsOn f s := by
  intro x y hxy
  -- each step of the walk changes a coordinate on which `f` does not depend, or nothing
  have hstep : ∀ k, k ≤ n → f (hybrid x y k) = f x := by
    intro k
    induction k with
    | zero => exact fun _ => by rw [hybrid_zero]
    | succ k ih =>
      intro hk
      rw [← ih (Nat.le_of_succ_le hk), hybrid_succ x y hk]
      by_cases hs : (⟨k, hk⟩ : Fin n) ∈ s
      · have hkeep : hybrid x y k ⟨k, hk⟩ = y ⟨k, hk⟩ :=
          (if_neg (Nat.lt_irrefl k)).trans (hxy _ hs)
        rw [← hkeep, Function.update_eq_self]
      · by_contra hne
        exact h _ hs ⟨_, _, hne⟩
  rw [← hstep n (Nat.le_refl n), hybrid_last]

/-- **A function depends on a set of coordinates exactly when the set contains all
coordinates it is sensitive to.** -/
theorem dependsOn_iff {f : (Fin n → α) → β} {s : Set (Fin n)} :
    DependsOn f s ↔ ∀ i ∉ s, ¬ SensitiveAt f i := by
  refine ⟨fun h i hi hsens => ?_, dependsOn_of_not_sensitive⟩
  obtain ⟨x, a, hne⟩ := hsens
  refine hne (h fun j hj => ?_)
  have hji : j ≠ i := fun hji => hi (by rwa [← hji])
  exact Function.update_of_ne hji a x

/-- A function depends on its sensitive coordinates only: go from one tuple to the other a
coordinate at a time. -/
theorem dependsOn_sensitive (f : (Fin n → α) → β) : DependsOn f {i | SensitiveAt f i} :=
  dependsOn_of_not_sensitive fun _ hi => hi

end Sensitive
