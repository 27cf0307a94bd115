/-
# Linked lists in a memory of nodes

A memory gives the successor of every node.  `IsList next p l` says that the list
which starts at the pointer `p` ends, and consists of the nodes `l` in their order.
There is one such `l` at most (`IsList.unique`), it repeats no node
(`IsList.nodup`), it does not depend on nodes outside of it (`IsList.congr`), and a
fresh node may be put in front of it (`IsList.push`).
-/
import Mathlib.Data.List.Nodup
import Mathlib.Logic.Function.Basic

namespace LinkedList

variable {α : Type*} {next next' : α → Option α} {p : Option α} {a : α} {l l' : List α}

/-- The list from `p` on consists of the nodes `l`. -/
inductive IsList (next : α → Option α) : Option α → List α → Prop
  | nil : IsList next none []
  | cons {a : α} {l : List α} (tail : IsList next (next a) l) : IsList next (some a) (a :: l)

namespace IsList

theorem unique (h : IsList next p l) (h' : IsList next p l') : l = l' := by
  induction h generalizing l' with
  | nil =>
    cases h'
    rfl
  | cons _ ih =>
    cases h' with
    | cons tail => rw [ih tail]

/-- From a node of the list on, the rest of the list follows. -/
theorem suffix {xs ys : List α} (h : IsList next p (xs ++ a :: ys)) :
    IsList next (some a) (a :: ys) := by
  induction xs generalizing p with
  | nil =>
    cases h with
    | cons tail => exact .cons tail
  | cons x xs ih =>
    cases h with
    | cons tail => exact ih tail

/-- A list that ends passes no node twice. -/
theorem nodup (h : IsList next p l) : l.Nodup := by
  induction h with
  | nil => exact List.nodup_nil
  | @cons a l tail ih =>
    refine List.nodup_cons.mpr ⟨fun hmem => ?_, ih⟩
    -- the rest behind a second visit would be as long as the whole list
    obtain ⟨xs, ys, rfl⟩ := List.append_of_mem hmem
    have hsame := congrArg List.length ((IsList.cons tail).unique tail.suffix)
    simp only [List.length_cons, List.length_append] at hsame
    omega

theorem congr (h : IsList next p l) (hagree : ∀ a ∈ l, next' a = next a) :
    IsList next' p l := by
  induction h with
  | nil => exact .nil
  | @cons a l _ ih =>
    have htail := ih fun b hb => hagree b (List.mem_cons_of_mem a hb)
    rw [← hagree a List.mem_cons_self] at htail
    exact .cons htail

/-- A node outside the list is put in front of it. -/
theorem push (h : IsList next p l) (ha : a ∉ l) (hfresh : next' a = p)
    (hagree : ∀ b, b ≠ a → next' b = next b) : IsList next' (some a) (a :: l) := by
  refine .cons ?_
  rw [hfresh]
  exact h.congr fun b hb => hagree b fun hba => ha (hba ▸ hb)

end IsList

end LinkedList
