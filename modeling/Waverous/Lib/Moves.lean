import Mathlib.Control.Monad.Basic

/-! # Programs seen through a view of their state

    A program in a state monad that may fail.  What is of interest in the state is its view, and
    `Moves view v m Q v'` says that from a state seen as `v` the program does not fail, that its
    result satisfies `Q`, and that the state is then seen as `v'`.

    `Makes view table N v m Q v'` says what a program has done if it does not fail.  Besides the
    view there is a table that only grows, and `Q` may depend on what the table is in the end. -/

namespace Views

universe u

variable {σ ν α β : Type u}

/-- The program takes the view from `v` to `v'`. -/
def Moves (view : σ → ν) (v : ν) (m : StateT σ Option α) (Q : α → Prop) (v' : ν) : Prop :=
  ∀ s, view s = v → ∃ a s', m s = some (a, s') ∧ Q a ∧ view s' = v'

/-- Whatever the result. -/
def Any (_ : α) : Prop := True

/-- The view is taken from `v` to `v'`, whatever the result. -/
abbrev Goes (view : σ → ν) (v : ν) (m : StateT σ Option α) (v' : ν) : Prop :=
  Moves view v m Any v'

variable {view : σ → ν} {v v' v'' : ν} {m : StateT σ Option α} {f : α → StateT σ Option β}
  {Q : α → Prop} {R : β → Prop}

theorem Moves.run (h : Moves view v m Q v') {s : σ} (hs : view s = v) :
    ∃ a s', m s = some (a, s') ∧ Q a ∧ view s' = v' := h s hs

theorem Moves.pure {a : α} (ha : Q a) : Moves view v (pure a) Q v :=
  fun s hs => ⟨a, s, rfl, ha, hs⟩

/-- One program after the other. -/
theorem Moves.bind (h : Moves view v m Q v') (h' : ∀ a, Q a → Moves view v' (f a) R v'') :
    Moves view v (m >>= f) R v'' := by
  intro s hs
  obtain ⟨a, s', hm, ha, hs'⟩ := h s hs
  obtain ⟨b, s'', hf, hb, hs''⟩ := h' a ha s' hs'
  refine ⟨b, s'', ?_, hb, hs''⟩
  show (m s).bind _ = _
  rw [hm]
  exact hf

/-- One program after the other, when nothing is known of the first result. -/
theorem Moves.seq (h : Moves view v m Q v') (h' : ∀ a, Moves view v' (f a) R v'') :
    Moves view v (m >>= f) R v'' := h.bind fun a _ => h' a

/-- An end that is the same one. -/
theorem Moves.to (h : Moves view v m Q v') (hv : v' = v'') : Moves view v m Q v'' := hv ▸ h

theorem goes_modify {g : σ → σ} (h : ∀ s, view s = v → view (g s) = v') :
    Goes view v (modify g) v' := fun s hs => ⟨_, g s, rfl, trivial, h s hs⟩

theorem moves_get : Moves view v get (fun s => view s = v) v := fun s hs => ⟨s, s, rfl, hs, hs⟩

theorem goes_set {s : σ} (h : view s = v') : Goes view v (set s) v' :=
  fun _ _ => ⟨_, s, rfl, trivial, h⟩

theorem Moves.ite {c : Prop} [Decidable c] {m' : StateT σ Option α} (h : c → Moves view v m Q v')
    (h' : ¬ c → Moves view v m' Q v') : Moves view v (if c then m else m') Q v' := by
  by_cases hc : c
  · rw [if_pos hc]
    exact h hc
  · rw [if_neg hc]
    exact h' hc

/-! ## Programs that may fail, with a table that grows -/

section

variable {ε τ : Type u}

/-- If the program does not fail, then the view goes from `v` to `v'`, the table has not lost
    anything, and for tables that become `N` the result satisfies `Q`. -/
def Makes (view : σ → ν) (table : σ → List τ) (N : List τ) (v : ν) (m : StateT σ (Except ε) α)
    (Q : α → Prop) (v' : ν) : Prop :=
  ∀ s a s', view s = v → m s = .ok (a, s') →
    view s' = v' ∧ table s <+: table s' ∧ (table s' <+: N → Q a)

variable {view : σ → ν} {table : σ → List τ} {N : List τ} {v v' v'' : ν}
  {m : StateT σ (Except ε) α} {f : α → StateT σ (Except ε) β} {Q Q' : α → Prop} {R : β → Prop}

theorem Makes.pure {a : α} (ha : Q a) : Makes view table N v (pure a : StateT σ (Except ε) α) Q v := by
  rintro s b s' hs hm
  cases hm
  exact ⟨hs, List.prefix_rfl, fun _ => ha⟩

/-- One program after the other: what the first result satisfies is known to the second only
    when the table has become `N`. -/
theorem Makes.bind (h : Makes view table N v m Q v')
    (h' : ∀ a, Makes view table N v' (f a) (fun b => Q a → R b) v'') :
    Makes view table N v (m >>= f) R v'' := by
  rintro s b s'' hs hmf
  have hrun : (m s).bind (fun p => f p.1 p.2) = .ok (b, s'') := hmf
  cases hm : m s with
  | error e =>
      rw [hm] at hrun
      cases hrun
  | ok p =>
      obtain ⟨a, s'⟩ := p
      rw [hm] at hrun
      obtain ⟨hs', hgrow, hQ⟩ := h s a s' hs hm
      obtain ⟨hs'', hgrow', hR⟩ := h' a s' b s'' hs' hrun
      exact ⟨hs'', hgrow.trans hgrow', fun hN => hR hN (hQ (hgrow'.trans hN))⟩

theorem makes_throw (e : ε) : Makes view table N v (throw e : StateT σ (Except ε) α) Q v' := by
  rintro s a s' - hm
  cases hm

theorem makes_modify {g : σ → σ} (hview : ∀ s, view s = v → view (g s) = v')
    (htable : ∀ s, table (g s) = table s) :
    Makes view table N v (modify g : StateT σ (Except ε) PUnit) Any v' := by
  rintro s a s' hs hm
  cases hm
  exact ⟨hview s hs, htable s ▸ List.prefix_rfl, fun _ => trivial⟩

theorem makes_get : Makes view table N v (get : StateT σ (Except ε) σ) (fun s => view s = v) v := by
  rintro s a s' hs hm
  cases hm
  exact ⟨hs, List.prefix_rfl, fun _ => hs⟩

theorem Makes.ite {c : Prop} [Decidable c] {m' : StateT σ (Except ε) α}
    (h : c → Makes view table N v m Q v') (h' : ¬ c → Makes view table N v m' Q v') :
    Makes view table N v (if c then m else m') Q v' := by
  by_cases hc : c
  · rw [if_pos hc]
    exact h hc
  · rw [if_neg hc]
    exact h' hc

end

end Views
