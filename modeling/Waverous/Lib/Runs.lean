import Mathlib.Logic.Relation

/-! # Labelled runs — invariants and simulations

    A system is a labelled step relation `step : σ → ι → σ → Prop`; a run is the
    list of the labels it took, in order.  Two rules carry every result about
    runs: what one step preserves a whole run preserves (`Run.invariant`), and
    what one step simulates a whole run simulates (`Run.simulation`).  A
    condition on steps is put into the relation itself (`guarded`), so that a run
    of the guarded relation is a run all of whose steps meet the condition. -/

namespace Runs

variable {σ τ ι : Type*}

/-- `Run step s as s'`: the labels `as`, taken in order, lead from `s` to `s'`. -/
inductive Run (step : σ → ι → σ → Prop) : σ → List ι → σ → Prop where
  | nil (s) : Run step s [] s
  | cons {s a s' as s''} : step s a s' → Run step s' as s'' → Run step s (a :: as) s''

/-- The step relation, restricted to steps whose state before and label meet `ok`. -/
def guarded (ok : σ → ι → Prop) (step : σ → ι → σ → Prop) : σ → ι → σ → Prop :=
  fun s a s' => ok s a ∧ step s a s'

/-- The step relation of a step function that may not apply. -/
def ofPart (f : ι → σ → Option σ) : σ → ι → σ → Prop := fun s a s' => f a s = some s'

variable {step : σ → ι → σ → Prop}

/-- Runs compose. -/
theorem Run.append {s s' s'' : σ} {as bs : List ι}
    (h1 : Run step s as s') (h2 : Run step s' bs s'') : Run step s (as ++ bs) s'' := by
  induction h1 with
  | nil s => exact h2
  | cons hstep _ ih => exact .cons hstep (ih h2)

/-- A step-preserved property that holds at the start holds at the end of a run. -/
theorem Run.invariant {Inv : σ → Prop}
    (hstep : ∀ s a s', Inv s → step s a s' → Inv s')
    {s s' : σ} {as : List ι} (hrun : Run step s as s') (h0 : Inv s) : Inv s' := by
  induction hrun with
  | nil s => exact h0
  | cons hs _ ih => exact ih (hstep _ _ _ h0 hs)

/-- A run all of whose labels meet the condition in every state is a run under it. -/
theorem Run.guarded {ok : σ → ι → Prop} {s s' : σ} {as : List ι} (hrun : Run step s as s')
    (hok : ∀ s, ∀ a ∈ as, ok s a) : Run (guarded ok step) s as s' := by
  induction hrun with
  | nil s => exact .nil s
  | cons hs _ ih =>
      exact .cons ⟨hok _ _ List.mem_cons_self, hs⟩
        (ih fun s a ha => hok s a (List.mem_cons_of_mem _ ha))

/-- Under an invariant, equivalent conditions leave the same runs. -/
theorem Run.guarded_iff {Inv : σ → Prop} {ok ok' : σ → ι → Prop}
    (hstep : ∀ s a s', Inv s → step s a s' → Inv s') (hok : ∀ s a, Inv s → (ok s a ↔ ok' s a))
    {s s' : σ} {as : List ι} (h0 : Inv s) :
    Run (Runs.guarded ok step) s as s' ↔ Run (Runs.guarded ok' step) s as s' := by
  constructor
  · intro hrun
    induction hrun with
    | nil s => exact .nil s
    | cons hs _ ih => exact .cons ⟨(hok _ _ h0).mp hs.1, hs.2⟩ (ih (hstep _ _ _ h0 hs.2))
  · intro hrun
    induction hrun with
    | nil s => exact .nil s
    | cons hs _ ih => exact .cons ⟨(hok _ _ h0).mpr hs.1, hs.2⟩ (ih (hstep _ _ _ h0 hs.2))

/-- Where each step can be taken under an invariant, there is a run for any labels. -/
theorem exists_run {Inv : σ → Prop} (hstep : ∀ s a s', Inv s → step s a s' → Inv s')
    (htotal : ∀ s a, Inv s → ∃ s', step s a s') (as : List ι) {s : σ} (h0 : Inv s) :
    ∃ s', Run step s as s' := by
  induction as generalizing s with
  | nil => exact ⟨s, .nil s⟩
  | cons a as ih =>
      obtain ⟨s', hs⟩ := htotal s a h0
      obtain ⟨s'', hrun⟩ := ih (hstep s a s' h0 hs)
      exact ⟨s'', .cons hs hrun⟩

/-- A step-by-step simulation relates the ends of related runs. -/
theorem Run.simulation {stepT : τ → ι → τ → Prop} {R : σ → τ → Prop}
    (hsim : ∀ s a s' t, R s t → step s a s' → ∃ t', stepT t a t' ∧ R s' t')
    {s s' : σ} {as : List ι} (hrun : Run step s as s') {t : τ} (h0 : R s t) :
    ∃ t', Run stepT t as t' ∧ R s' t' := by
  induction hrun generalizing t with
  | nil s => exact ⟨t, .nil t, h0⟩
  | cons hs _ ih =>
      obtain ⟨t', ht, hR⟩ := hsim _ _ _ _ h0 hs
      obtain ⟨t'', hrun', hR'⟩ := ih hR
      exact ⟨t'', .cons ht hrun', hR'⟩

/-- A run of a step function ends where folding it over the labels ends. -/
theorem run_ofPart_iff {f : ι → σ → Option σ} {s s' : σ} {as : List ι} :
    Run (ofPart f) s as s' ↔ as.foldlM (fun s a => f a s) s = some s' := by
  induction as generalizing s with
  | nil =>
      constructor
      · intro h
        cases h
        rfl
      · intro h
        cases h
        exact .nil _
  | cons a as ih =>
      rw [List.foldlM_cons]
      constructor
      · rintro (_ | ⟨hs, hrun⟩)
        have hs : f a s = some _ := hs
        rw [hs]
        exact ih.mp hrun
      · intro h
        obtain ⟨s1, hs, h⟩ := Option.bind_eq_some_iff.mp h
        exact .cons hs (ih.mpr h)

/-- The first step of a step function under a condition is the one it makes. -/
theorem run_guarded_cons_iff {f : ι → σ → Option σ} {ok : σ → ι → Prop} {s s' s'' : σ} {a : ι}
    {as : List ι} (h : f a s = some s') :
    Run (guarded ok (ofPart f)) s (a :: as) s'' ↔
      ok s a ∧ Run (guarded ok (ofPart f)) s' as s'' := by
  constructor
  · rintro (_ | ⟨⟨hok, hs⟩, hrun⟩)
    obtain rfl := Option.some.inj (h.symm.trans hs)
    exact ⟨hok, hrun⟩
  · rintro ⟨hok, hrun⟩
    exact .cons ⟨hok, h⟩ hrun

/-- A run of a step function that checks the condition is a run under it. -/
theorem run_guarded_of_check {f : ι → σ → Option σ} {ok : σ → ι → Prop} [∀ s a, Decidable (ok s a)]
    {s s' : σ} {as : List ι} (hrun : Run (ofPart fun a s => if ok s a then f a s else none) s as s') :
    Run (guarded ok (ofPart f)) s as s' := by
  induction hrun with
  | nil s => exact .nil s
  | cons hs _ ih =>
      obtain ⟨hok, hf⟩ := Option.ite_none_right_eq_some.mp hs
      exact .cons ⟨hok, hf⟩ ih

end Runs
