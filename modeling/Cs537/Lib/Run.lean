import Mathlib.Logic.Relation

/-!
# Runs of labelled transition systems

A transition system is given by its step relation `step s e s'`: event `e` leads from
state `s` to state `s'`. A run is a finite sequence of events, each enabled in the state
the previous one led to. Every prefix of a run is a run, so a statement about the last
state of every run is a statement about every state that any run reaches. A condition on
steps is added with `guarded`, so that "every run whose steps all meet the condition" is
again a set of runs.
-/

namespace Cs537.Lib

variable {σ ε : Type*}

/-- `Run step s es t`: the events `es`, taken in order from `s`, lead to `t`. -/
inductive Run (step : σ → ε → σ → Prop) (s : σ) : List ε → σ → Prop
  | nil : Run step s [] s
  | snoc {es : List ε} {t u : σ} {e : ε} :
      Run step s es t → step t e u → Run step s (es ++ [e]) u

/-- The steps of `step` that meet the condition `C` on their state and event. -/
def guarded (C : σ → ε → Prop) (step : σ → ε → σ → Prop) : σ → ε → σ → Prop :=
  fun s e s' => C s e ∧ step s e s'

/-- The steps of `step` whose outcome satisfies `P`. -/
def outcome (P : σ → ε → σ → Prop) (step : σ → ε → σ → Prop) : σ → ε → σ → Prop :=
  fun s e s' => P s e s' ∧ step s e s'

/-- The steps of a step function that is undefined where an event is not enabled. -/
def stepOf (next : σ → ε → Option σ) : σ → ε → σ → Prop := fun s e s' => next s e = some s'

namespace Run

variable {step step' : σ → ε → σ → Prop} {s t u : σ} {es : List ε}

/-- An invariant that holds initially and is kept by every step holds after every run. -/
theorem invariant (Inv : σ → Prop) (init : Inv s)
    (keep : ∀ t e u, Inv t → step t e u → Inv u) (run : Run step s es t) : Inv t := by
  induction run with
  | nil => exact init
  | snoc _ hstep ih => exact keep _ _ _ ih hstep

/-- Steps of one system are steps of another while an invariant holds. -/
theorem imp (Inv : σ → Prop) (init : Inv s)
    (keep : ∀ t e u, Inv t → step t e u → Inv u ∧ step' t e u) (run : Run step s es t) :
    Inv t ∧ Run step' s es t := by
  induction run with
  | nil => exact ⟨init, .nil⟩
  | snoc _ hstep ih =>
    obtain ⟨hinv, hstep'⟩ := keep _ _ _ ih.1 hstep
    exact ⟨hinv, .snoc ih.2 hstep'⟩

/-- The runs whose steps meet a condition on their start are exactly the runs whose steps
have a given outcome, when the two agree wherever the invariant holds. -/
theorem guarded_iff_outcome {C : σ → ε → Prop} {P : σ → ε → σ → Prop} (Inv : σ → Prop)
    (init : Inv s) (keep : ∀ t e u, Inv t → C t e → step t e u → Inv u)
    (agree : ∀ t e u, Inv t → step t e u → (C t e ↔ P t e u)) :
    Run (guarded C step) s es t ↔ Run (outcome P step) s es t := by
  constructor
  · intro run
    refine (run.imp Inv init ?_).2
    rintro t e u hinv ⟨hc, hstep⟩
    exact ⟨keep t e u hinv hc hstep, (agree t e u hinv hstep).1 hc, hstep⟩
  · intro run
    refine (run.imp Inv init ?_).2
    rintro t e u hinv ⟨hp, hstep⟩
    have hc := (agree t e u hinv hstep).2 hp
    exact ⟨keep t e u hinv hc hstep, hc, hstep⟩

/-- A run is empty or begins with a step. -/
theorem nil_or_cons (run : Run step s es t) :
    (es = [] ∧ t = s) ∨ ∃ e es' u, es = e :: es' ∧ step s e u ∧ Run step u es' t := by
  induction run with
  | nil => exact .inl ⟨rfl, rfl⟩
  | snoc _ hstep ih =>
    right
    rcases ih with ⟨rfl, rfl⟩ | ⟨e, es', u, rfl, hfirst, hrest⟩
    · exact ⟨_, [], _, rfl, hstep, .nil⟩
    · exact ⟨e, _, u, rfl, hfirst, .snoc hrest hstep⟩

/-- Forgetting a condition on the steps. -/
theorem of_guarded {C : σ → ε → Prop} (run : Run (guarded C step) s es t) :
    Run step s es t :=
  (run.imp (fun _ => True) trivial fun _ _ _ _ h => ⟨trivial, h.2⟩).2

end Run

/-- The state after a list of events under a step function. -/
def runOf (next : σ → ε → Option σ) : σ → List ε → Option σ
  | s, [] => some s
  | s, e :: es => (next s e).bind fun s' => runOf next s' es

/-- Two runs in a row. -/
theorem Run.trans {step : σ → ε → σ → Prop} {s t u : σ} {es es' : List ε}
    (first : Run step s es t) (second : Run step t es' u) : Run step s (es ++ es') u := by
  induction second with
  | nil => simpa using first
  | snoc _ hstep ih =>
    rw [← List.append_assoc]
    exact .snoc ih hstep

/-- What a step function computes on a list of events is a run of it. -/
theorem run_of_runOf {next : σ → ε → Option σ} :
    ∀ {es : List ε} {s t : σ}, runOf next s es = some t → Run (stepOf next) s es t := by
  intro es
  induction es with
  | nil =>
    intro s t h
    cases h
    exact .nil
  | cons e es ih =>
    intro s t h
    simp only [runOf, Option.bind_eq_some_iff] at h
    obtain ⟨m, hm, ht⟩ := h
    have first : Run (stepOf next) s [e] m := Run.snoc Run.nil hm
    exact first.trans (ih ht)

/-- What a step function computes when it also tests the condition is a run that meets it. -/
theorem run_guarded_of_runOf {next : σ → ε → Option σ} {C : σ → ε → Prop}
    [∀ s e, Decidable (C s e)] {es : List ε} {s t : σ}
    (h : runOf (fun s e => if C s e then next s e else none) s es = some t) :
    Run (guarded C (stepOf next)) s es t := by
  refine ((run_of_runOf h).imp (fun _ => True) trivial ?_).2
  intro t e u _ hstep
  simp only [stepOf, Option.ite_none_right_eq_some] at hstep
  exact ⟨trivial, hstep⟩

end Cs537.Lib
