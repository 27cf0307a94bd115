/-
# A run and the run that keeps some of its events

Two runs of one system are compared: a run, and the run that takes only those of
its events that satisfy a test.  `outputs` is what an observer sees of a run.
`outputs_filter` is the rule for a relation that every kept event preserves on both
sides and every other event on one side, without an output: the observer then sees
related sequences.
-/
import Draco.Lib.Run
import Mathlib.Data.List.Forall2

namespace PartialRun

variable {σ ε α : Type*} (step : σ → ε → Option σ) (out : σ → ε → Option α)

/-- What is observed of a run: the outputs of its events, in order. -/
def outputs : σ → List ε → Option (List α)
  | _, [] => some []
  | s, e :: es =>
    (step s e).bind fun s' => (outputs s' es).map fun l => (out s e).toList ++ l

@[simp] theorem outputs_nil (s : σ) : outputs step out s [] = some [] := rfl

variable {step out}

/-- The outputs of a run are those of its first step and of the rest. -/
theorem outputs_cons_of {s s' : σ} {e : ε} {es : List ε} {l : List α} (h : step s e = some s')
    (hl : outputs step out s' es = some l) :
    outputs step out s (e :: es) = some ((out s e).toList ++ l) := by
  rw [outputs, h, Option.bind_some, hl, Option.map_some]

/-- What the rule asks of one event `e` in related states: both runs take it and put out
related values, or only the first run takes it and puts out nothing. -/
inductive Follows (step : σ → ε → Option σ) (out : σ → ε → Option α) (keep : ε → Bool)
    (R : σ → σ → Prop) (Q : α → α → Prop) (u v : σ) (e : ε) : Prop
  | kept {u' v' : σ} (hkeep : keep e = true) (hu : step u e = some u') (hv : step v e = some v')
      (related : R u' v') (hout : Option.Rel Q (out u e) (out v e))
  | dropped {u' : σ} (hkeep : keep e = false) (hu : step u e = some u') (related : R u' v)
      (hout : out u e = none)

/-- **Two runs.**  The events may use how the first run got to where it is. -/
theorem outputs_filter {keep : ε → Bool} {R : σ → σ → Prop} {Q : α → α → Prop} {i s t : σ}
    {p es : List ε}
    (hstep : ∀ pre e post u v, p ++ es = pre ++ e :: post → run step i pre = some u → R u v →
      Follows step out keep R Q u v e)
    (hs : run step i p = some s) (hR : R s t) :
    ∃ as bs, outputs step out s es = some as ∧
      outputs step out t (es.filter keep) = some bs ∧ List.Forall₂ Q as bs := by
  induction es generalizing p s t with
  | nil => exact ⟨[], [], rfl, rfl, .nil⟩
  | cons e es ih =>
    have hsnoc : ∀ s', step s e = some s' → run step i (p ++ [e]) = some s' := fun s' hs' =>
      run_append_of hs ((run_singleton step s e).trans hs')
    have hstep' : ∀ pre e' post u v, (p ++ [e]) ++ es = pre ++ e' :: post →
        run step i pre = some u → R u v → Follows step out keep R Q u v e' := by
      intro pre e' post u v hsplit
      exact hstep pre e' post u v (by rw [← hsplit, List.append_assoc]; rfl)
    cases hstep p e es s t rfl hs hR with
    | kept hkeep hu hv related hout =>
      obtain ⟨as, bs, has, hbs, hrel⟩ := ih hstep' (hsnoc _ hu) related
      rw [List.filter_cons_of_pos hkeep]
      refine ⟨_, _, outputs_cons_of hu has, outputs_cons_of hv hbs, ?_⟩
      generalize out s e = o, out t e = o' at hout
      cases hout with
      | some h => exact .cons h hrel
      | none => exact hrel
    | dropped hkeep hu related hout =>
      obtain ⟨as, bs, has, hbs, hrel⟩ := ih hstep' (hsnoc _ hu) related
      rw [List.filter_cons_of_neg (by simp [hkeep])]
      refine ⟨_, bs, outputs_cons_of hu has, hbs, ?_⟩
      rw [hout]
      exact hrel

end PartialRun
