/-
# Traces of a heap

A program allocates objects, uses them and frees them.  `track` follows the status
of every object through a trace of such events and stops at an event that the
status forbids: an allocation of an object that was allocated before, a use or a
free of an object that is not live.  A trace that `track` accepts has freed the
objects that are freed at its end for good (`freedForGood_of_run`).
-/
import Draco.Lib.Run
import Mathlib.Logic.Function.Basic

namespace HeapTrace

open PartialRun

variable {α : Type*} [DecidableEq α]

/-- An event of the heap. -/
inductive HeapEvent (α : Type*) where
  | kmalloc (o : α)
  | deref (o : α)
  | kfree (o : α)
  deriving DecidableEq, Repr

/-- The object of an event. -/
def HeapEvent.object : HeapEvent α → α
  | .kmalloc o => o
  | .deref o => o
  | .kfree o => o

/-- The status of an object. -/
inductive Status where
  | unused
  | live
  | freed
  deriving DecidableEq, Repr

/-- The statuses after an event, if they allow it. -/
def track (σ : α → Status) : HeapEvent α → Option (α → Status)
  | .kmalloc o => if σ o = .unused then some (Function.update σ o .live) else none
  | .deref o => if σ o = .live then some σ else none
  | .kfree o => if σ o = .live then some (Function.update σ o .freed) else none

/-- The object is freed exactly once, and no event after that is about it. -/
def FreedForGood (tr : List (HeapEvent α)) (o : α) : Prop :=
  ∃ xs ys, tr = xs ++ .kfree o :: ys ∧ .kfree o ∉ xs ∧ ∀ e ∈ ys, e.object ≠ o

variable {σ τ : α → Status} {tr : List (HeapEvent α)} {e : HeapEvent α} {o : α}

/-! ## One event -/

theorem track_kmalloc (h : σ o = .unused) :
    track σ (.kmalloc o) = some (Function.update σ o .live) := if_pos h

theorem track_deref (h : σ o = .live) : track σ (.deref o) = some σ := if_pos h

theorem track_kfree (h : σ o = .live) :
    track σ (.kfree o) = some (Function.update σ o .freed) := if_pos h

/-- An event changes the status of its own object only. -/
theorem track_of_ne (h : track σ e = some τ) (ho : e.object ≠ o) : τ o = σ o := by
  cases e <;> simp only [track] at h <;> split_ifs at h <;> cases h
  · exact Function.update_of_ne (Ne.symm ho) _ _
  · rfl
  · exact Function.update_of_ne (Ne.symm ho) _ _

/-- After an event its object has been in use. -/
theorem track_ne_unused (h : track σ e = some τ) : τ e.object ≠ .unused := by
  cases e with
  | kmalloc o =>
    simp only [track] at h
    split_ifs at h
    cases h
    simp [HeapEvent.object]
  | deref o =>
    simp only [track] at h
    split_ifs at h with hlive
    cases h
    simp [HeapEvent.object, hlive]
  | kfree o =>
    simp only [track] at h
    split_ifs at h
    cases h
    simp [HeapEvent.object]

/-- No event is about an object that has been freed. -/
theorem object_ne_of_freed (h : track σ e = some τ) (ho : σ o = .freed) : e.object ≠ o := by
  rintro rfl
  cases e <;> simp only [track, HeapEvent.object] at h ho <;> rw [ho] at h <;> simp at h

/-- Only a free frees. -/
theorem eq_kfree_of_freed (h : track σ e = some τ) (ho : σ o ≠ .freed) (hfreed : τ o = .freed) :
    e = .kfree o := by
  have hobj : e.object = o := by
    by_contra hne
    exact ho ((track_of_ne h hne).symm.trans hfreed)
  subst hobj
  cases e with
  | kmalloc o =>
    simp only [track] at h
    split_ifs at h
    cases h
    simp [HeapEvent.object] at hfreed
  | deref o =>
    simp only [track] at h
    split_ifs at h
    cases h
    exact absurd hfreed ho
  | kfree o => rfl

/-! ## Whole traces -/

/-- A freed object stays so, and the rest of the trace is not about it. -/
theorem freed_run (h : run track σ tr = some τ) (ho : σ o = .freed) :
    τ o = .freed ∧ ∀ e ∈ tr, e.object ≠ o := by
  induction tr generalizing σ with
  | nil =>
    cases h
    exact ⟨ho, fun e he => absurd he List.not_mem_nil⟩
  | cons e tr ih =>
    obtain ⟨ρ, hρ, hrest⟩ := run_cons_inv h
    have hne := object_ne_of_freed hρ ho
    obtain ⟨hτ, htr⟩ := ih hrest ((track_of_ne hρ hne).trans ho)
    exact ⟨hτ, List.forall_mem_cons.mpr ⟨hne, htr⟩⟩

/-- **What is freed at the end was freed for good.** -/
theorem freedForGood_of_run (h : run track σ tr = some τ) (ho : σ o ≠ .freed)
    (hfreed : τ o = .freed) : FreedForGood tr o := by
  obtain ⟨xs, e, ys, ρ, ρ', rfl, hxs, he, hys, hbefore, hafter⟩ :=
    exists_becoming (P := fun ρ => ρ o = .freed) h ho hfreed
  rw [eq_kfree_of_freed he hbefore hafter]
  refine ⟨xs, ys, rfl, fun hmem => ?_, (freed_run hys hafter).2⟩
  -- a free in front would already have freed the object
  obtain ⟨as, bs, rfl⟩ := List.append_of_mem hmem
  obtain ⟨π, π', -, hπ, hbs⟩ := run_split hxs
  have hfree : π' o = .freed := by
    simp only [track] at hπ
    split_ifs at hπ
    cases hπ
    exact Function.update_self ..
  exact hbefore (freed_run hbs hfree).1

/-- What has been in use stays so. -/
theorem ne_unused_run (h : run track σ tr = some τ) (ho : σ o ≠ .unused) : τ o ≠ .unused := by
  refine run_invariant (I := fun ρ => ρ o ≠ .unused) (fun ρ e ρ' hρ hstep => ?_) ho h
  by_cases hobj : e.object = o
  · exact hobj ▸ track_ne_unused hstep
  · rw [track_of_ne hstep hobj]
    exact hρ

/-- An object with an event in the trace is not unused at its end. -/
theorem ne_unused_of_mem (h : run track σ tr = some τ) (he : e ∈ tr) :
    τ e.object ≠ .unused := by
  obtain ⟨xs, ys, rfl⟩ := List.append_of_mem he
  obtain ⟨ρ, ρ', -, hρ, hys⟩ := run_split h
  exact ne_unused_run hys (track_ne_unused hρ)

end HeapTrace
