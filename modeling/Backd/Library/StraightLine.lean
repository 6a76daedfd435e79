import Mathlib.Data.List.Basic

/-!
# Straight-Line Programs

A program is a list of calls, and each call either changes the state or gets stuck
(`step c s = none`). `run` makes all the calls. `trace` lists the calls that are made, each
with the state it is made in, up to the one that gets stuck. A program passes (`Passes`) the
states its calls are made in, and the one it ends in.

## Main results

* `run_append`, `mem_trace_append`: programs in sequence.
* `stuck_of_run_eq_none`: a run without a result got stuck in a call of its trace.
* `forall_trace`, `run_invariant`: what the calls of a program preserve.
* `Passes.invariant`: what the calls preserve holds in every state a program passes.
* `trace_map`, `passes_map`: a program on a part of the state.
-/

namespace StraightLine

variable {ι κ σ τ : Type*} {step : ι → σ → Option σ} {s s' : σ} {cs ds : List ι}

/-- Make the calls, one after the other. -/
def run (step : ι → σ → Option σ) : List ι → σ → Option σ
  | [], s => some s
  | c :: cs, s => (step c s).bind (run step cs)

/-- The calls that are made, each with the state it is made in. -/
def trace (step : ι → σ → Option σ) : List ι → σ → List (ι × σ)
  | [], _ => []
  | c :: cs, s => (c, s) :: (step c s).elim [] (trace step cs)

@[simp] theorem run_nil : run step [] s = some s := rfl

@[simp] theorem run_cons {c : ι} : run step (c :: cs) s = (step c s).bind (run step cs) := rfl

@[simp] theorem trace_nil : trace step [] s = [] := rfl

@[simp] theorem trace_singleton {c : ι} : trace step [c] s = [(c, s)] := by
  rw [trace]
  cases step c s <;> rfl

/-- Two programs in sequence. -/
theorem run_append : run step (cs ++ ds) s = (run step cs s).bind (run step ds) := by
  induction cs generalizing s with
  | nil => rfl
  | cons c cs ih =>
      rw [List.cons_append, run_cons, run_cons, Option.bind_assoc]
      exact congrArg _ (funext fun _ => ih)

/-- A call is made as the first one, or after the first one was made. -/
theorem mem_trace_cons {c : ι} {e : ι × σ} :
    e ∈ trace step (c :: cs) s ↔ e = (c, s) ∨ ∃ s', step c s = some s' ∧ e ∈ trace step cs s' := by
  rw [trace, List.mem_cons]
  cases step c s <;> simp

/-- A call is made by the first program, or by the second once the first has come to its
end. -/
theorem mem_trace_append {e : ι × σ} :
    e ∈ trace step (cs ++ ds) s ↔
      e ∈ trace step cs s ∨ ∃ s', run step cs s = some s' ∧ e ∈ trace step ds s' := by
  induction cs generalizing s with
  | nil => simp
  | cons c cs ih =>
      rw [List.cons_append, mem_trace_cons, mem_trace_cons, run_cons]
      cases step c s with
      | none => simp
      | some s' => simp [ih, or_assoc]

/-- A call is made where the calls in front of it lead. -/
theorem mem_trace_iff {e : ι × σ} :
    e ∈ trace step cs s ↔ ∃ pre post, cs = pre ++ e.1 :: post ∧ run step pre s = some e.2 := by
  constructor
  · intro he
    induction cs generalizing s with
    | nil => simp at he
    | cons c cs ih =>
        rcases mem_trace_cons.mp he with rfl | ⟨s', hfirst, he⟩
        · exact ⟨[], cs, rfl, rfl⟩
        · obtain ⟨pre, post, rfl, hrun⟩ := ih he
          exact ⟨c :: pre, post, rfl, by rw [run_cons, hfirst]; exact hrun⟩
  · rintro ⟨pre, post, rfl, hrun⟩
    exact mem_trace_append.mpr (.inr ⟨e.2, hrun, mem_trace_cons.mpr (.inl rfl)⟩)

/-- A run that comes to its end makes every call. -/
theorem exists_step_of_run {c : ι} {pre post : List ι}
    (h : run step (pre ++ c :: post) s = some s') :
    ∃ s₁ s₂, run step pre s = some s₁ ∧ step c s₁ = some s₂ ∧ run step post s₂ = some s' := by
  rw [run_append] at h
  obtain ⟨s₁, hpre, h⟩ := Option.bind_eq_some_iff.mp h
  obtain ⟨s₂, hstep, hpost⟩ := Option.bind_eq_some_iff.mp h
  exact ⟨s₁, s₂, hpre, hstep, hpost⟩

/-- What is traced behind the first call. -/
theorem trace_subset_cons {c : ι} (h : step c s = some s') :
    trace step cs s' ⊆ trace step (c :: cs) s :=
  fun _ he => mem_trace_cons.mpr (.inr ⟨s', h, he⟩)

/-- What is traced of the first program. -/
theorem trace_subset_left (cs ds : List ι) : trace step cs s ⊆ trace step (cs ++ ds) s :=
  fun _ he => mem_trace_append.mpr (.inl he)

/-- What is traced of the second program. -/
theorem trace_subset_right (ds : List ι) (h : run step cs s = some s') :
    trace step ds s' ⊆ trace step (cs ++ ds) s :=
  fun _ he => mem_trace_append.mpr (.inr ⟨s', h, he⟩)

/-- A run without a result got stuck in a call. -/
theorem stuck_of_run_eq_none (h : run step cs s = none) :
    ∃ e ∈ trace step cs s, step e.1 e.2 = none := by
  induction cs generalizing s with
  | nil => cases h
  | cons c cs ih =>
      rw [run_cons] at h
      cases hstep : step c s with
      | none => exact ⟨(c, s), mem_trace_cons.mpr (.inl rfl), hstep⟩
      | some s' =>
          rw [hstep] at h
          obtain ⟨e, he, hstuck⟩ := ih h
          exact ⟨e, mem_trace_cons.mpr (.inr ⟨s', hstep, he⟩), hstuck⟩

/-- The calls of a trace are calls of the program. -/
theorem mem_of_mem_trace {e : ι × σ} (he : e ∈ trace step cs s) : e.1 ∈ cs := by
  obtain ⟨pre, post, rfl, -⟩ := mem_trace_iff.mp he
  exact List.mem_append_right _ List.mem_cons_self

/-- What the calls that are made preserve holds wherever the program comes to. -/
theorem forall_trace {I : σ → Prop} (hs : I s)
    (hstep : ∀ e ∈ trace step cs s, ∀ s', I e.2 → step e.1 e.2 = some s' → I s') :
    ∀ e ∈ trace step cs s, I e.2 := by
  induction cs generalizing s with
  | nil => simp
  | cons c cs ih =>
      intro e he
      rcases mem_trace_cons.mp he with rfl | ⟨s', hfirst, he⟩
      · exact hs
      · have hnext := hstep (c, s) (mem_trace_cons.mpr (.inl rfl)) s' hs hfirst
        exact ih hnext (fun e he => hstep e (trace_subset_cons hfirst he)) e he

/-- What the calls that are made preserve holds at the end. -/
theorem run_invariant {I : σ → Prop} (hs : I s)
    (hstep : ∀ e ∈ trace step cs s, ∀ s', I e.2 → step e.1 e.2 = some s' → I s')
    (h : run step cs s = some s') : I s' := by
  induction cs generalizing s with
  | nil =>
      cases h
      exact hs
  | cons c cs ih =>
      obtain ⟨s₁, hfirst, h⟩ := Option.bind_eq_some_iff.mp h
      have hnext := hstep (c, s) (mem_trace_cons.mpr (.inl rfl)) s₁ hs hfirst
      exact ih hnext (fun e he => hstep e (trace_subset_cons hfirst he)) h

/-- A program that works on a part of the state. -/
theorem run_map {step' : κ → τ → Option τ} {f : ι → κ} {g : σ → τ}
    (h : ∀ c s, step' (f c) (g s) = (step c s).map g) :
    run step' (cs.map f) (g s) = (run step cs s).map g := by
  induction cs generalizing s with
  | nil => rfl
  | cons c cs ih =>
      rw [List.map_cons, run_cons, run_cons, h]
      cases step c s with
      | none => rfl
      | some s' => exact ih

/-- The trace of a program that works on a part of the state. -/
theorem trace_map {step' : κ → τ → Option τ} {f : ι → κ} {g : σ → τ}
    (h : ∀ c s, step' (f c) (g s) = (step c s).map g) :
    trace step' (cs.map f) (g s) = (trace step cs s).map (Prod.map f g) := by
  induction cs generalizing s with
  | nil => rfl
  | cons c cs ih =>
      rw [List.map_cons, trace, trace, List.map_cons, h]
      cases step c s with
      | none => rfl
      | some s' => exact congrArg _ ih

/-! ### The states a program passes -/

/-- The states a program passes: those its calls are made in, and the one it ends in. -/
def Passes (step : ι → σ → Option σ) (cs : List ι) (s m : σ) : Prop :=
  (∃ c, (c, m) ∈ trace step cs s) ∨ run step cs s = some m

/-- A program with nothing to do stays where it is. -/
theorem passes_nil {m : σ} : Passes step [] s m ↔ m = s := by
  simp [Passes, eq_comm]

/-- A program passes the state it starts in, and what is passed after its first call. -/
theorem passes_cons {c : ι} {m : σ} :
    Passes step (c :: cs) s m ↔ m = s ∨ ∃ s', step c s = some s' ∧ Passes step cs s' m := by
  constructor
  · rintro (⟨d, hd⟩ | hend)
    · rcases mem_trace_cons.mp hd with heq | ⟨s', hfirst, hd⟩
      · exact .inl (congrArg Prod.snd heq)
      · exact .inr ⟨s', hfirst, .inl ⟨d, hd⟩⟩
    · obtain ⟨s', hfirst, hend⟩ := Option.bind_eq_some_iff.mp hend
      exact .inr ⟨s', hfirst, .inr hend⟩
  · rintro (rfl | ⟨s', hfirst, ⟨d, hd⟩ | hend⟩)
    · exact .inl ⟨c, mem_trace_cons.mpr (.inl rfl)⟩
    · exact .inl ⟨d, trace_subset_cons hfirst hd⟩
    · exact .inr (by rw [run_cons, hfirst]; exact hend)

/-- What the calls that are made preserve holds in every state that is passed. -/
theorem Passes.invariant {I : σ → Prop} {m : σ} (h : Passes step cs s m) (hs : I s)
    (hstep : ∀ e ∈ trace step cs s, ∀ s', I e.2 → step e.1 e.2 = some s' → I s') : I m := by
  rcases h with ⟨c, hc⟩ | hend
  · exact forall_trace hs hstep _ hc
  · exact run_invariant hs hstep hend

/-- The states passed by a program that works on a part of the state. -/
theorem passes_map {step' : κ → τ → Option τ} {f : ι → κ} {g : σ → τ} {t : τ}
    (h : ∀ c s, step' (f c) (g s) = (step c s).map g) :
    Passes step' (cs.map f) (g s) t ↔ ∃ m, t = g m ∧ Passes step cs s m := by
  rw [Passes, trace_map h, run_map h]
  constructor
  · rintro (⟨d, hd⟩ | hend)
    · obtain ⟨⟨c, m⟩, hc, heq⟩ := List.mem_map.mp hd
      exact ⟨m, (congrArg Prod.snd heq).symm, .inl ⟨c, hc⟩⟩
    · obtain ⟨m, hm, rfl⟩ := Option.map_eq_some_iff.mp hend
      exact ⟨m, rfl, .inr hm⟩
  · rintro ⟨m, rfl, ⟨c, hc⟩ | hend⟩
    · exact .inl ⟨f c, List.mem_map.mpr ⟨(c, m), hc, rfl⟩⟩
    · exact .inr (by rw [hend, Option.map_some])

end StraightLine
