import Mathlib

/-!
# Runs of labelled transition systems

A system is given by its step relation `step s e s'`: in the state `s` the event `e` may
happen, and lead to `s'`.  A run is a sequence of steps, and its events are its trace.

A system `step` is simulated by a specification `spec` along a relation `Rel` if every step
can be matched by a step of the specification with the same event.  Then every trace of the
system is a trace of the specification, which is what a refinement means to an observer of
the events.  The predicate `P` restricts the events for which this is asked.
-/

namespace BPTreeDB.Lib.Transitions

variable {σ τ ε : Type*} {step : σ → ε → σ → Prop} {spec : τ → ε → τ → Prop} {s s' s'' : σ}
  {e : ε} {es es' : List ε}

/-! ## Runs -/

/-- A run from a state to a state, with its trace. -/
inductive Run (step : σ → ε → σ → Prop) : σ → List ε → σ → Prop
  | nil (s : σ) : Run step s [] s
  | cons {s s' s'' : σ} {e : ε} {es : List ε} : step s e s' → Run step s' es s'' →
      Run step s (e :: es) s''

theorem Run.single (h : step s e s') : Run step s [e] s' := .cons h (.nil s')

theorem Run.append (h : Run step s es s') (h' : Run step s' es' s'') :
    Run step s (es ++ es') s'' := by
  induction h with
  | nil s => exact h'
  | cons hstep _ ih => exact .cons hstep (ih h')

/-- A run passes through a state wherever its trace is cut. -/
theorem run_append_iff :
    Run step s (es ++ es') s'' ↔ ∃ s', Run step s es s' ∧ Run step s' es' s'' := by
  constructor
  · induction es generalizing s with
    | nil => exact fun h => ⟨s, .nil s, h⟩
    | cons e es ih =>
        intro h
        cases h with
        | cons hstep hrest =>
            obtain ⟨s', hleft, hright⟩ := ih hrest
            exact ⟨s', .cons hstep hleft, hright⟩
  · rintro ⟨s', hleft, hright⟩
    exact hleft.append hright

/-- A run of a system is a run of every system with more steps. -/
theorem Run.mono {step' : σ → ε → σ → Prop} (hstep : ∀ s e s', step s e s' → step' s e s')
    (h : Run step s es s') : Run step' s es s' := by
  induction h with
  | nil s => exact .nil s
  | cons hfirst _ ih => exact .cons (hstep _ _ _ hfirst) ih

/-- A quantity that no step lowers is not lowered by a run. -/
theorem Run.le {α : Type*} [Preorder α] {μ : σ → α} {I : σ → Prop} {P : ε → Prop}
    (hstep : ∀ s e s', P e → I s → step s e s' → I s' ∧ μ s ≤ μ s') (h : Run step s es s')
    (hP : ∀ e ∈ es, P e) (hs : I s) : μ s ≤ μ s' := by
  induction h with
  | nil s => exact le_rfl
  | cons hfirst _ ih =>
      obtain ⟨hs', hle⟩ := hstep _ _ _ (hP _ (List.mem_cons_self ..)) hs hfirst
      exact hle.trans (ih (fun e he => hP e (List.mem_cons_of_mem _ he)) hs')

/-! ## Forward simulation -/

/-- Steps with events in `P` are matched by steps of the specification, along `Rel`. -/
def Simulates (P : ε → Prop) (step : σ → ε → σ → Prop) (spec : τ → ε → τ → Prop)
    (Rel : σ → τ → Prop) : Prop :=
  ∀ s t e s', P e → Rel s t → step s e s' → ∃ t', spec t e t' ∧ Rel s' t'

/-- Every trace of the system is a trace of the specification. -/
theorem Simulates.run {P : ε → Prop} {Rel : σ → τ → Prop} (hsim : Simulates P step spec Rel)
    (h : Run step s es s') (hP : ∀ e ∈ es, P e) {t : τ} (hs : Rel s t) :
    ∃ t', Run spec t es t' ∧ Rel s' t' := by
  induction h generalizing t with
  | nil s => exact ⟨t, .nil t, hs⟩
  | cons hfirst _ ih =>
      obtain ⟨t₁, hspec, hs₁⟩ := hsim _ t _ _ (hP _ (List.mem_cons_self ..)) hs hfirst
      obtain ⟨t', hrun, hs'⟩ := ih (fun e he => hP e (List.mem_cons_of_mem _ he)) hs₁
      exact ⟨t', .cons hspec hrun, hs'⟩

end BPTreeDB.Lib.Transitions
