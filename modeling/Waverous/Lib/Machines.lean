import Mathlib.Data.Option.Basic

/-! # Machines

    A machine has at most one next state.  Two states of which each comes to a common third one
    have the same future, so `Leads` compares states without asking which of them is ahead; it
    counts how many steps more the first one makes, so that a machine that is led on and on never
    halts.  `Follows` is the rule for a computation that may have run out of fuel: if it has not,
    then the machine comes to its result, and if it has, then the machine is still running. -/

namespace Machines

universe u

variable {σ τ υ : Type u} {step : σ → Option σ} {s t v : σ} {k m n : Nat}

/-- So many steps. -/
def steps (step : σ → Option σ) : Nat → σ → Option σ
  | 0, s => some s
  | n + 1, s => (step s).bind (steps step n)

theorem steps_add (m n : Nat) (s : σ) :
    steps step (m + n) s = (steps step m s).bind (steps step n) := by
  induction m generalizing s with
  | zero => rw [Nat.zero_add, steps, Option.bind_some]
  | succ m ih =>
      rw [Nat.add_right_comm, steps, steps]
      cases step s with
      | none => rfl
      | some s' => rw [Option.bind_some, Option.bind_some, ih]

/-- The steps after the first `m`. -/
theorem steps_after (h : steps step m s = some t) (n : Nat) :
    steps step (m + n) s = steps step n t := by
  rw [steps_add, h, Option.bind_some]

theorem steps_one (h : step s = some t) : steps step 1 s = some t := by
  rw [steps, h]
  rfl

/-- Fewer steps can be made, too. -/
theorem steps_fewer (h : steps step n s = some t) (hm : m ≤ n) : ∃ u, steps step m s = some u := by
  obtain ⟨k, rfl⟩ := Nat.exists_eq_add_of_le hm
  rw [steps_add] at h
  obtain ⟨u, hu, -⟩ := Option.bind_eq_some_iff.mp h
  exact ⟨u, hu⟩

/-! ## Leading -/

/-- `s` and `t` come to the same state, and `s` makes at least `k` steps more than `t`. -/
def Leads (step : σ → Option σ) (k : Nat) (s t : σ) : Prop :=
  ∃ i j u, steps step i s = some u ∧ steps step j t = some u ∧ j + k ≤ i

theorem Leads.refl (s : σ) : Leads step 0 s s := ⟨0, 0, s, rfl, rfl, Nat.le_refl 0⟩

theorem Leads.one (h : step s = some t) : Leads step 1 s t :=
  ⟨1, 0, t, steps_one h, rfl, Nat.le_refl 1⟩

/-- States with the same next state. -/
theorem Leads.join (h : step s = some v) (h' : step t = some v) : Leads step 0 s t :=
  ⟨1, 1, v, steps_one h, steps_one h', Nat.le_refl 1⟩

theorem Leads.fewer (h : Leads step k s t) (hm : m ≤ k) : Leads step m s t := by
  obtain ⟨i, j, u, hi, hj, hle⟩ := h
  exact ⟨i, j, u, hi, hj, by omega⟩

theorem Leads.weaken (h : Leads step k s t) : Leads step 0 s t := h.fewer (Nat.zero_le k)

theorem Leads.trans (h : Leads step m s t) (h' : Leads step n t v) : Leads step (m + n) s v := by
  obtain ⟨i, j, u, hi, hj, hle⟩ := h
  obtain ⟨i', j', u', hi', hj', hle'⟩ := h'
  by_cases hahead : j ≤ i'
  · obtain ⟨d, rfl⟩ := Nat.exists_eq_add_of_le hahead
    rw [steps_after hj] at hi'
    exact ⟨i + d, j', u', by rw [steps_after hi, hi'], hj', by omega⟩
  · obtain ⟨d, rfl⟩ := Nat.exists_eq_add_of_le (Nat.le_of_not_le hahead)
    rw [steps_after hi'] at hj
    exact ⟨i, j' + d, u, hi, by rw [steps_after hj', hj], by omega⟩

/-- After one step, what leads on from there. -/
theorem Leads.first (h : step s = some t) (h' : Leads step k t v) : Leads step 0 s v :=
  ((Leads.one h).trans h').weaken

theorem Leads.then (h : Leads step m s t) (h' : Leads step n t v) : Leads step 0 s v :=
  (h.trans h').weaken

/-- What leads there, and then one step. -/
theorem Leads.last (h : Leads step k s t) (h' : step t = some v) : Leads step 0 s v :=
  h.then (.one h')

/-! ## Halting -/

/-- The machine comes from `s` to the last state `t`. -/
def Halts (step : σ → Option σ) (s t : σ) : Prop := (∃ n, steps step n s = some t) ∧ step t = none

/-- The machine can make `n` steps from `s`. -/
def Runs (step : σ → Option σ) (n : Nat) (s : σ) : Prop := ∃ t, steps step n s = some t

/-- A last state is the one to which all others come. -/
theorem steps_last (h : step t = none) (hn : steps step n s = some t) (hm : steps step m s = some v) :
    m ≤ n := by
  by_contra hlt
  obtain ⟨d, rfl⟩ := Nat.exists_eq_add_of_lt (Nat.lt_of_not_le hlt)
  rw [Nat.add_assoc, steps_after hn, steps, h] at hm
  cases hm

/-- A state has the same end as one that it leads to. -/
theorem Leads.halts (h : Leads step k s t) (hv : Halts step t v) : Halts step s v := by
  obtain ⟨i, j, u, hi, hj, -⟩ := h
  obtain ⟨⟨n, hn⟩, hlast⟩ := hv
  obtain ⟨d, rfl⟩ := Nat.exists_eq_add_of_le (steps_last hlast hn hj)
  rw [steps_after hj] at hn
  exact ⟨⟨i + d, by rw [steps_after hi, hn]⟩, hlast⟩

/-- There is one end. -/
theorem Halts.unique (h : Halts step s t) (h' : Halts step s v) : t = v := by
  obtain ⟨⟨n, hn⟩, hlast⟩ := h
  obtain ⟨⟨m, hm⟩, hlast'⟩ := h'
  have heq : m = n := Nat.le_antisymm (steps_last hlast hn hm) (steps_last hlast' hm hn)
  rw [heq, hn] at hm
  exact Option.some.inj hm

theorem Runs.zero (s : σ) : Runs step 0 s := ⟨s, rfl⟩

theorem Leads.runs (h : Leads step k s t) (hn : Runs step n t) : Runs step (n + k) s := by
  obtain ⟨i, j, u, hi, hj, hle⟩ := h
  obtain ⟨v, hv⟩ := hn
  by_cases hfew : n ≤ j
  · exact steps_fewer hi (by omega)
  · obtain ⟨d, rfl⟩ := Nat.exists_eq_add_of_le (Nat.le_of_not_le hfew)
    rw [steps_after hj] at hv
    exact steps_fewer (n := i + d) (by rw [steps_after hi, hv]) (by omega)

theorem Runs.fewer (h : Runs step n s) (hm : m ≤ n) : Runs step m s := by
  obtain ⟨t, ht⟩ := h
  exact steps_fewer ht hm

/-- What can go on for ever does not halt. -/
theorem not_halts_of_runs (h : ∀ n, Runs step n s) : ¬ Halts step s t := by
  rintro ⟨⟨n, hn⟩, hlast⟩
  obtain ⟨u, hu⟩ := h (n + 1)
  exact Nat.not_succ_le_self n (steps_last hlast hn hu)

/-! ## Following a computation -/

/-- If the computation `r` has a result, then `s` leads to a state that stands for it; if it has
    run out of fuel, then `n` steps can be made. -/
def Follows (step : σ → Option σ) (n : Nat) (s : σ) (r : Option τ) (stands : τ → σ → Prop) : Prop :=
  match r with
  | some a => ∃ t, stands a t ∧ Leads step 0 s t
  | none => Runs step n s

section

variable {r : Option τ} {stands : τ → σ → Prop} {stands' : υ → σ → Prop}

theorem Follows.some {a : τ} (ht : stands a t) (h : Leads step k s t) :
    Follows step n s (some a) stands :=
  ⟨t, ht, h.weaken⟩

/-- What leads to the beginning. -/
theorem Follows.before (h : Leads step k s t) (ht : Follows step n t r stands) :
    Follows step n s r stands := by
  cases r with
  | none => exact (h.weaken).runs ht
  | some a =>
      obtain ⟨u, hu, hlead⟩ := ht
      exact ⟨u, hu, h.then hlead⟩

/-- One step has been made. -/
theorem Follows.tick (h : step s = Option.some t) (ht : Follows step (n - 1) t r stands) :
    Follows step n s r stands := by
  cases r with
  | none => exact ((Leads.one h).runs ht).fewer (by omega)
  | some a => exact .before (.one h) (n := n) ht

/-- One computation after the other. -/
theorem Follows.bind {f : τ → Option υ} (h : Follows step n s r stands)
    (hf : ∀ a t, stands a t → Follows step n t (f a) stands') :
    Follows step n s (r.bind f) stands' := by
  cases r with
  | none => exact h
  | some a =>
      obtain ⟨t, ht, hlead⟩ := h
      exact .before hlead (hf a t ht)

/-- From the state that stands for the result it is led on. -/
theorem Follows.onward {stands'' : τ → σ → Prop} (h : Follows step n s r stands)
    (hon : ∀ a t, stands a t → ∃ u, stands'' a u ∧ Leads step 0 t u) : Follows step n s r stands'' := by
  cases r with
  | none => exact h
  | some a =>
      obtain ⟨t, ht, hlead⟩ := h
      obtain ⟨u, hu, hlead'⟩ := hon a t ht
      exact ⟨u, hu, hlead.then hlead'⟩

end

end Machines
