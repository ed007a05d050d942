import Mathlib.Control.Monad.Basic

/-! # Pre- and postconditions

    Of programs in a state monad that may fail: `Triple P m Q` says that if the program does not
    fail from a state with `P`, then its result and the state that it leaves satisfy `Q`. -/

namespace Views

universe u

variable {σ α β : Type u}

/-- From a state with `P` the program comes to a result and a state with `Q`, if it does not
    fail. -/
def Triple (P : σ → Prop) (m : StateT σ Option α) (Q : α → σ → Prop) : Prop :=
  ∀ s a s', P s → m s = some (a, s') → Q a s'

variable {P P' : σ → Prop} {m : StateT σ Option α} {f : α → StateT σ Option β}
  {Q Q' : α → σ → Prop} {R : β → σ → Prop}

/-- One program after the other. -/
theorem Triple.bind (h : Triple P m Q) (h' : ∀ a, Triple (Q a) (f a) R) : Triple P (m >>= f) R := by
  intro s b s'' hs hrun
  have hbind : (m s).bind (fun p => f p.1 p.2) = some (b, s'') := hrun
  obtain ⟨⟨a, s'⟩, hm, hf⟩ := Option.bind_eq_some_iff.mp hbind
  exact h' a s' b s'' (h s a s' hs hm) hf

/-- One program after the other, when something is known of the first result. -/
theorem Triple.knowing {p : α → Prop} (h : Triple P m fun a s => p a ∧ Q a s)
    (h' : ∀ a, p a → Triple (Q a) (f a) R) : Triple P (m >>= f) R :=
  h.bind fun a s b s' ⟨ha, hs⟩ hrun => h' a ha s b s' hs hrun

theorem Triple.pure {a : α} (h : ∀ s, P s → Q a s) : Triple P (pure a) Q := by
  intro s b s' hs hrun
  cases hrun
  exact h s hs

/-- What holds before may be stronger. -/
theorem Triple.before (h : Triple P m Q) (hP : ∀ s, P' s → P s) : Triple P' m Q :=
  fun s a s' hs hrun => h s a s' (hP s hs) hrun

/-- What holds afterwards may be weaker. -/
theorem Triple.after (h : Triple P m Q) (hQ : ∀ a s, Q a s → Q' a s) : Triple P m Q' :=
  fun s a s' hs hrun => hQ a s' (h s a s' hs hrun)

theorem Triple.ite {c : Prop} [Decidable c] {m' : StateT σ Option α} (h : c → Triple P m Q)
    (h' : ¬ c → Triple P m' Q) : Triple P (if c then m else m') Q := by
  by_cases hc : c
  · rw [if_pos hc]
    exact h hc
  · rw [if_neg hc]
    exact h' hc

end Views
