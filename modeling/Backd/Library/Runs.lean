import Mathlib.Data.List.Basic

/-!
# Runs of a Partial Machine

A machine answers an input and moves to a next state, or stops (`step s i = none`). Which
inputs a caller may send in a state is a separate predicate, `Admits`: it restricts the
callers, never the machine. A run `M.Run s log s'` is a finite sequence of admitted
inputs, recorded with their answers in `log`.

## Main results

* `Machine.Run.invariant`: what every admitted step preserves holds after every run. The
  steps that count may be limited to those whose log entries lie in a set.
* `Machine.Run.refines`: a relation to an abstract state that every admitted step
  preserves holds after every run, with the abstract state folded over the log.
* `Machine.Run.simulates`: if every admitted step is matched by one of another machine, every
  run is, with the same log.
* `Machine.Run.forall_log`: what every admitted step from a good state answers holds of
  every entry of the log.
* `Machine.Run.restrict`: a run that keeps to some inputs is a run of the machine that
  admits only these.
* `Machine.Run.of_guard`: a run of the machine with stricter callers is a run.
-/

namespace Runs

variable {σ ι ρ τ : Type*}

/-- A machine: the inputs it admits in a state, and what one input does. -/
structure Machine (σ ι ρ : Type*) where
  /-- The inputs a caller may send in a state. -/
  Admits : σ → ι → Prop
  /-- The answer and the next state, or `none` when the machine stops. -/
  step : σ → ι → Option (ρ × σ)

namespace Machine

/-- Finite runs, with the log of inputs and answers. -/
inductive Run (M : Machine σ ι ρ) : σ → List (ι × ρ) → σ → Prop
  | nil {s : σ} : Run M s [] s
  | snoc {s s' s'' : σ} {log : List (ι × ρ)} {i : ι} {r : ρ} :
      Run M s log s' → M.Admits s' i → M.step s' i = some (r, s'') →
      Run M s (log ++ [(i, r)]) s''

variable {M : Machine σ ι ρ}

/-- An invariant of the admitted steps with entries in `H` is an invariant of the runs
whose log keeps to `H`. -/
theorem Run.invariant {I : σ → Prop} {H : ι × ρ → Prop}
    (hstep : ∀ {s i r s'}, I s → H (i, r) → M.Admits s i → M.step s i = some (r, s') → I s')
    {s s' : σ} {log : List (ι × ρ)} (h : M.Run s log s') (hs : I s) (hlog : ∀ e ∈ log, H e) :
    I s' := by
  induction h with
  | nil => exact hs
  | snoc _ hadm hst ih =>
      simp only [List.mem_append, List.mem_singleton] at hlog
      exact hstep (ih fun e he => hlog e (.inl he)) (hlog _ (.inr rfl)) hadm hst

/-- A relation to an abstract state is carried along a run whose log keeps to `H`: the
abstract state follows by folding `next` over the log. -/
theorem Run.refines {R : σ → τ → Prop} {H : ι × ρ → Prop} (next : τ → ι × ρ → τ)
    (hstep : ∀ {s t i r s'}, R s t → H (i, r) → M.Admits s i → M.step s i = some (r, s') →
      R s' (next t (i, r)))
    {s s' : σ} {log : List (ι × ρ)} (h : M.Run s log s') {t : τ} (hs : R s t)
    (hlog : ∀ e ∈ log, H e) : R s' (log.foldl next t) := by
  induction h with
  | nil => exact hs
  | snoc _ hadm hst ih =>
      simp only [List.mem_append, List.mem_singleton] at hlog
      rw [List.foldl_append]
      exact hstep (ih fun e he => hlog e (.inl he)) (hlog _ (.inr rfl)) hadm hst

/-- Forward simulation: when every admitted step is matched by an admitted step of `N` with the
same answer, a run is matched by a run of `N` with the same log. -/
theorem Run.simulates {N : Machine τ ι ρ} {R : σ → τ → Prop}
    (hstep : ∀ {s t i r s'}, R s t → M.Admits s i → M.step s i = some (r, s') →
      ∃ t', N.Admits t i ∧ N.step t i = some (r, t') ∧ R s' t')
    {s s' : σ} {log : List (ι × ρ)} (h : M.Run s log s') {t : τ} (hs : R s t) :
    ∃ t', N.Run t log t' ∧ R s' t' := by
  induction h with
  | nil => exact ⟨t, .nil, hs⟩
  | snoc _ hadm hst ih =>
      obtain ⟨t₁, hrun, hR⟩ := ih
      obtain ⟨t₂, hadm', hst', hR'⟩ := hstep hR hadm hst
      exact ⟨t₂, hrun.snoc hadm' hst', hR'⟩

/-- Every entry of a log that keeps to `H` was answered in a state that satisfies the
invariant. -/
theorem Run.forall_log {I : σ → Prop} {H P : ι × ρ → Prop}
    (hstep : ∀ {s i r s'}, I s → H (i, r) → M.Admits s i → M.step s i = some (r, s') →
      I s' ∧ P (i, r))
    {s s' : σ} {log : List (ι × ρ)} (h : M.Run s log s') (hs : I s) (hlog : ∀ e ∈ log, H e) :
    ∀ e ∈ log, P e := by
  induction h with
  | nil => simp
  | snoc hrun hadm hst ih =>
      simp only [List.mem_append, List.mem_singleton] at hlog
      have hfront : ∀ e ∈ _, H e := fun e he => hlog e (.inl he)
      have hI := hrun.invariant (fun hI hH ha hs => (hstep hI hH ha hs).1) hs hfront
      intro e he
      rcases List.mem_append.mp he with he | he
      · exact ih hfront e he
      · obtain rfl := List.mem_singleton.mp he
        exact (hstep hI (hlog _ (.inr rfl)) hadm hst).2

/-- The machine whose callers keep to the inputs in `P`. -/
def restrict (M : Machine σ ι ρ) (P : ι → Prop) : Machine σ ι ρ where
  Admits s i := M.Admits s i ∧ P i
  step := M.step

/-- A run that keeps to the inputs in `P` is a run of the restricted machine. -/
theorem Run.restrict {P : ι → Prop} {s s' : σ} {log : List (ι × ρ)} (h : M.Run s log s')
    (hP : ∀ e ∈ log, P e.1) : (M.restrict P).Run s log s' := by
  induction h with
  | nil => exact .nil
  | @snoc s' s'' log i r _ hadm hst ih =>
      have hlast : P i := hP (i, r) (by simp)
      exact (ih fun e he => hP e (List.mem_append_left _ he)).snoc ⟨hadm, hlast⟩ hst

/-- The machine whose callers keep, in each state, to what `P` allows there. -/
def guard (M : Machine σ ι ρ) (P : σ → ι → Prop) : Machine σ ι ρ where
  Admits s i := M.Admits s i ∧ P s i
  step := M.step

/-- A run of the guarded machine is a run of the machine. -/
theorem Run.of_guard {P : σ → ι → Prop} {s s' : σ} {log : List (ι × ρ)}
    (h : (M.guard P).Run s log s') : M.Run s log s' := by
  induction h with
  | nil => exact .nil
  | snoc _ hadm hst ih => exact ih.snoc hadm.1 hst

/-- Two runs in sequence are a run. -/
theorem Run.append {s s' s'' : σ} {log log' : List (ι × ρ)} (h : M.Run s log s')
    (h' : M.Run s' log' s'') : M.Run s (log ++ log') s'' := by
  induction h' with
  | nil => simpa using h
  | snoc _ hadm hst ih =>
      rw [← List.append_assoc]
      exact ih.snoc hadm hst

/-- The last step of a run. -/
theorem Run.last {s s'' : σ} {log : List (ι × ρ)} {i : ι} {r : ρ}
    (h : M.Run s (log ++ [(i, r)]) s'') :
    ∃ s', M.Run s log s' ∧ M.Admits s' i ∧ M.step s' i = some (r, s'') := by
  generalize hl : log ++ [(i, r)] = l at h
  cases h with
  | nil => simp at hl
  | snoc hrun hadm hst =>
      obtain ⟨rfl, he⟩ := List.append_inj' hl rfl
      obtain ⟨rfl, rfl⟩ : i = _ ∧ r = _ := by simpa using he
      exact ⟨_, hrun, hadm, hst⟩

end Machine

end Runs
