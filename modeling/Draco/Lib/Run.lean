/-
# Runs of a partial step function

A system is given by a step function `step : σ → ε → Option σ`; an event with no
successor state ends the run.  This file collects the rules by which facts about
one step become facts about a whole run: splitting a run at an event
(`run_cons_inv`, `run_append`), events under another name (`run_map`), invariants
(`run_invariant`), preorders that every step respects (`run_relation`), simulation by a
total function (`run_simulation`), progress (`run_isSome`), the step at which a property
first became true (`exists_becoming`), and what has to hold of every step for a
property of all steps or of all states reached (`allSteps_iff`, `allStates_iff`).
-/
import Mathlib.Data.List.Basic
import Mathlib.Data.List.Induction
import Mathlib.Data.Option.Basic

namespace PartialRun

variable {σ ε : Type*} (step : σ → ε → Option σ)

/-- The state after the events `es`, if every one of them has a successor. -/
def run : σ → List ε → Option σ
  | s, [] => some s
  | s, e :: es => (step s e).bind fun s' => run s' es

@[simp] theorem run_nil (s : σ) : run step s [] = some s := rfl

theorem run_cons (s : σ) (e : ε) (es : List ε) :
    run step s (e :: es) = (step s e).bind fun s' => run step s' es := rfl

@[simp] theorem run_singleton (s : σ) (e : ε) : run step s [e] = step s e := by
  rw [run_cons]
  cases step s e <;> rfl

/-- A run over two lists goes through the state between them. -/
theorem run_append (s : σ) (xs ys : List ε) :
    run step s (xs ++ ys) = (run step s xs).bind fun s' => run step s' ys := by
  induction xs generalizing s with
  | nil => rfl
  | cons e xs ih =>
    rw [List.cons_append, run_cons, run_cons]
    cases step s e with
    | none => rfl
    | some s' => exact ih s'

variable {step}

theorem run_append_inv {s t : σ} {xs ys : List ε} (h : run step s (xs ++ ys) = some t) :
    ∃ u, run step s xs = some u ∧ run step u ys = some t := by
  rw [run_append] at h
  exact Option.bind_eq_some_iff.mp h

theorem run_append_of {s u t : σ} {xs ys : List ε} (h₁ : run step s xs = some u)
    (h₂ : run step u ys = some t) : run step s (xs ++ ys) = some t := by
  rw [run_append, h₁]
  exact h₂

/-- A run starts with its first step. -/
theorem run_cons_inv {s t : σ} {e : ε} {es : List ε} (h : run step s (e :: es) = some t) :
    ∃ u, step s e = some u ∧ run step u es = some t := by
  rw [run_cons] at h
  exact Option.bind_eq_some_iff.mp h

theorem run_cons_of {s u t : σ} {e : ε} {es : List ε} (h₁ : step s e = some u)
    (h₂ : run step u es = some t) : run step s (e :: es) = some t := by
  rw [run_cons, h₁]
  exact h₂

/-- A run through an event, taken apart at that event. -/
theorem run_split {s t : σ} {xs : List ε} {e : ε} {ys : List ε}
    (h : run step s (xs ++ e :: ys) = some t) :
    ∃ u v, run step s xs = some u ∧ step u e = some v ∧ run step v ys = some t := by
  obtain ⟨u, hu, h'⟩ := run_append_inv h
  obtain ⟨v, hv, ht⟩ := run_cons_inv h'
  exact ⟨u, v, hu, hv, ht⟩

/-- A run whose end passes a test, as an evaluation finds it. -/
theorem exists_run_of_map (step : σ → ε → Option σ) (s : σ) (es : List ε) (p : σ → Bool)
    (h : (run step s es).map p = some true) : ∃ t, run step s es = some t ∧ p t = true := by
  obtain ⟨t, ht, hp⟩ := Option.map_eq_some_iff.mp h
  exact ⟨t, ht, hp⟩

/-- Events that do what others do have the same runs. -/
theorem run_map {δ : Type*} {step' : σ → δ → Option σ} (f : δ → ε)
    (h : ∀ s d, step s (f d) = step' s d) (s : σ) (ds : List δ) :
    run step s (ds.map f) = run step' s ds := by
  induction ds generalizing s with
  | nil => rfl
  | cons d ds ih =>
    rw [List.map_cons, run_cons, run_cons, h]
    cases step' s d with
    | none => rfl
    | some s' => exact ih s'

/-- Where an event stands in a sequence with one more event at its end. -/
theorem snoc_eq_split {es xs ys : List ε} {e d : ε} (h : es ++ [e] = xs ++ d :: ys) :
    (xs = es ∧ d = e ∧ ys = []) ∨ ∃ ys', ys = ys' ++ [e] ∧ es = xs ++ d :: ys' := by
  rcases List.eq_nil_or_concat ys with rfl | ⟨ys, y, rfl⟩
  · obtain ⟨rfl, hd⟩ := List.append_inj' h rfl
    exact Or.inl ⟨rfl, (List.singleton_inj.mp hd).symm, rfl⟩
  · have h' : es ++ [e] = (xs ++ d :: ys) ++ [y] := by simpa using h
    obtain ⟨rfl, hy⟩ := List.append_inj' h' rfl
    exact Or.inr ⟨ys, by rw [List.singleton_inj.mp hy, List.concat_eq_append], rfl⟩

/-! ## Invariants -/

/-- What every step of an event with `P` preserves, every run of such events preserves. -/
theorem run_invariant_of {I : σ → Prop} {P : ε → Prop}
    (hstep : ∀ s e s', P e → I s → step s e = some s' → I s') {s t : σ} {es : List ε}
    (hes : ∀ e ∈ es, P e) (hs : I s) (h : run step s es = some t) : I t := by
  induction es generalizing s with
  | nil =>
    cases h
    exact hs
  | cons e es ih =>
    obtain ⟨u, hu, h'⟩ := run_cons_inv h
    exact ih (fun d hd => hes d (List.mem_cons_of_mem e hd))
      (hstep s e u (hes e List.mem_cons_self) hs hu) h'

/-- What every step preserves, every run preserves. -/
theorem run_invariant {I : σ → Prop} (hstep : ∀ s e s', I s → step s e = some s' → I s')
    {s t : σ} {es : List ε} (hs : I s) (h : run step s es = some t) : I t :=
  run_invariant_of (P := fun _ => True) (fun s e s' _ => hstep s e s') (fun _ _ => trivial) hs h

/-- A preorder on states that every step respects holds between the two ends of
a run; the steps may use an invariant. -/
theorem run_relation {I : σ → Prop} {R : σ → σ → Prop}
    (hI : ∀ s e s', I s → step s e = some s' → I s')
    (hrefl : ∀ s, R s s) (htrans : ∀ a b c, R a b → R b c → R a c)
    (hstep : ∀ s e s', I s → step s e = some s' → R s s')
    {s t : σ} {es : List ε} (hs : I s) (h : run step s es = some t) : R s t := by
  induction es generalizing s with
  | nil =>
    cases h
    exact hrefl _
  | cons e es ih =>
    obtain ⟨u, hu, h'⟩ := run_cons_inv h
    exact htrans s u t (hstep s e u hs hu) (ih (hI s e u hs hu) h')

/-- Simulation: a total function that follows every step of the system follows
its runs. -/
theorem run_simulation {α : Type*} {abstractStep : α → ε → α} {R : σ → α → Prop}
    (hstep : ∀ s e s' a, R s a → step s e = some s' → R s' (abstractStep a e))
    {s t : σ} {a : α} {es : List ε} (hs : R s a) (h : run step s es = some t) :
    R t (es.foldl abstractStep a) := by
  induction es generalizing s a with
  | nil =>
    cases h
    exact hs
  | cons e es ih =>
    obtain ⟨u, hu, h'⟩ := run_cons_inv h
    exact ih (hstep s e u a hs hu) h'

/-- Progress: if every step from the invariant has a successor, every run is
defined.  Only events with `P` need one. -/
theorem run_isSome_of {I : σ → Prop} {P : ε → Prop}
    (hstep : ∀ s e, I s → P e → ∃ s', step s e = some s' ∧ I s') {s : σ} (hs : I s)
    {es : List ε} (hes : ∀ e ∈ es, P e) : ∃ t, run step s es = some t ∧ I t := by
  induction es generalizing s with
  | nil => exact ⟨s, rfl, hs⟩
  | cons e es ih =>
    obtain ⟨u, hu, hI⟩ := hstep s e hs (hes e List.mem_cons_self)
    obtain ⟨t, ht, hIt⟩ := ih hI fun d hd => hes d (List.mem_cons_of_mem _ hd)
    exact ⟨t, run_cons_of hu ht, hIt⟩

/-- With an invariant under which every step succeeds, every run does. -/
theorem run_isSome {I : σ → Prop} (hstep : ∀ s e, I s → ∃ s', step s e = some s' ∧ I s')
    {s : σ} (hs : I s) (es : List ε) : ∃ t, run step s es = some t ∧ I t :=
  run_isSome_of (P := fun _ => True) (fun s e h _ => hstep s e h) hs fun _ _ => trivial

/-! ## The step at which a property became true -/

/-- If `P` fails at the start of a run and holds at its end, some step took a
state without `P` to a state with it. -/
theorem exists_becoming {P : σ → Prop} {s t : σ} {es : List ε}
    (h : run step s es = some t) (hs : ¬ P s) (ht : P t) :
    ∃ xs e ys u v, es = xs ++ e :: ys ∧ run step s xs = some u ∧ step u e = some v ∧
      run step v ys = some t ∧ ¬ P u ∧ P v := by
  induction es generalizing s with
  | nil =>
    cases h
    exact absurd ht hs
  | cons e es ih =>
    obtain ⟨u, hu, h'⟩ := run_cons_inv h
    by_cases hP : P u
    · exact ⟨[], e, es, s, u, rfl, rfl, hu, h', hs, hP⟩
    · obtain ⟨xs, e', ys, v, w, rfl, hv, hw, hrest, hPv, hPw⟩ := ih h' hP
      exact ⟨e :: xs, e', ys, v, w, rfl, run_cons_of hu hv, hw, hrest, hPv, hPw⟩

/-! ## All steps of a run -/

/-- `R` holds of every step that the run takes: the state before, the event and the
state after. -/
def AllSteps (step : σ → ε → Option σ) (R : σ → ε → σ → Prop) : σ → List ε → Prop
  | _, [] => True
  | s, e :: es => ∀ t, step s e = some t → R s e t ∧ AllSteps step R t es

/-- `P` holds of every state that the run passes, its start included. -/
def AllStates (step : σ → ε → Option σ) (P : σ → Prop) : σ → List ε → Prop
  | s, [] => P s
  | s, e :: es => P s ∧ ∀ t, step s e = some t → AllStates step P t es

/-- The states passed are the start and the states after the steps. -/
theorem allStates_iff_allSteps {P : σ → Prop} {s : σ} {es : List ε} :
    AllStates step P s es ↔ P s ∧ AllSteps step (fun _ _ t => P t) s es := by
  induction es generalizing s with
  | nil => exact (and_iff_left trivial).symm
  | cons e es ih =>
    refine and_congr_right fun _ => forall₂_congr fun t _ => ?_
    exact ih

/-- If two properties of a step agree as long as the invariant holds, and every step
with the second one keeps the invariant, then they agree on whole runs. -/
theorem allSteps_iff {I : σ → Prop} {R Q : σ → ε → σ → Prop}
    (hiff : ∀ s e t, I s → step s e = some t → (R s e t ↔ Q s e t))
    (hkeep : ∀ s e t, I s → step s e = some t → Q s e t → I t)
    {s : σ} (hs : I s) (es : List ε) : AllSteps step R s es ↔ AllSteps step Q s es := by
  induction es generalizing s with
  | nil => exact Iff.rfl
  | cons e es ih =>
    refine forall₂_congr fun t ht => ?_
    rw [hiff s e t hs ht]
    exact and_congr_right fun hQ => ih (hkeep s e t hs ht hQ)

/-- The same for a property of states that the invariant implies. -/
theorem allStates_iff {I P : σ → Prop} {Q : σ → ε → σ → Prop} (hP : ∀ s, I s → P s)
    (hneed : ∀ s e t, I s → step s e = some t → P t → Q s e t)
    (hkeep : ∀ s e t, I s → step s e = some t → Q s e t → I t)
    {s : σ} (hs : I s) (es : List ε) : AllStates step P s es ↔ AllSteps step Q s es := by
  rw [allStates_iff_allSteps, and_iff_right (hP s hs)]
  exact allSteps_iff (fun s e t hI ht => ⟨hneed s e t hI ht, fun hQ => hP t (hkeep s e t hI ht hQ)⟩)
    hkeep hs es

end PartialRun
