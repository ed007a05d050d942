import Mathlib.Control.Monad.Basic

/-! # Reading back what has been written

    A reader takes what it wants from the front of its input, or fails.  `Reads r text a` says
    that `r` takes exactly `text` and makes `a` of it, whatever comes behind; with a predicate,
    only when what comes behind satisfies it. -/

namespace Readers

universe u v

variable {τ : Type u} {α β : Type u}

abbrev Reader (τ : Type u) (α : Type u) := StateT (List τ) Option α

/-- No input is right. -/
def fail : Reader τ α := fun _ => none

/-- Before anything that satisfies `P`, the reader takes the text and returns `a`. -/
def ReadsBefore (P : List τ → Prop) (r : Reader τ α) (text : List τ) (a : α) : Prop :=
  ∀ rest, P rest → r (text ++ rest) = some (a, rest)

/-- Before anything. -/
def Reads (r : Reader τ α) (text : List τ) (a : α) : Prop := ReadsBefore (fun _ => True) r text a

section

variable {P Q : List τ → Prop} {r : Reader τ α} {f : α → Reader τ β} {text text' : List τ} {a : α}
  {b : β}

theorem Reads.before (h : Reads r text a) : ReadsBefore P r text a := fun rest _ => h rest trivial

theorem ReadsBefore.mono (h : ReadsBefore P r text a) (hPQ : ∀ rest, Q rest → P rest) :
    ReadsBefore Q r text a := fun rest hrest => h rest (hPQ rest hrest)

theorem Reads.run (h : Reads r text a) (rest : List τ) : r (text ++ rest) = some (a, rest) :=
  h rest trivial

theorem reads_pure (a : α) : Reads (pure a : Reader τ α) [] a := fun _ _ => rfl

theorem readsBefore_pure (P : List τ → Prop) (a : α) : ReadsBefore P (pure a : Reader τ α) [] a :=
  fun _ _ => rfl

/-- One reader after another. -/
theorem ReadsBefore.bind (h : ReadsBefore P r text a) (h' : ReadsBefore Q (f a) text' b)
    (hP : ∀ rest, Q rest → P (text' ++ rest)) : ReadsBefore Q (r >>= f) (text ++ text') b := by
  intro rest hrest
  show (r (text ++ text' ++ rest)).bind _ = _
  rw [List.append_assoc, h _ (hP rest hrest)]
  exact h' rest hrest

theorem Reads.bind (h : Reads r text a) (h' : ReadsBefore Q (f a) text' b) :
    ReadsBefore Q (r >>= f) (text ++ text') b :=
  ReadsBefore.bind h h' fun _ _ => trivial

/-- The last reader, when what it returns is changed. -/
theorem ReadsBefore.map (h : ReadsBefore P r text a) (g : α → β) :
    ReadsBefore P (g <$> r) text (g a) := by
  intro rest hrest
  show (r (text ++ rest)).bind _ = _
  rw [h rest hrest]
  rfl

end

/-! ## Repetition -/

/-- A reader, so many times. -/
def times (r : Reader τ α) : Nat → Reader τ (List α)
  | 0 => pure []
  | n + 1 => do
      let a ← r
      let as ← times r n
      pure (a :: as)

/-- What is written piece by piece is read piece by piece. -/
theorem Reads.times {γ : Type v} {r : Reader τ α} {write : γ → List τ} {g : γ → α} (cs : List γ)
    (h : ∀ c ∈ cs, Reads r (write c) (g c)) :
    Reads (times r cs.length) (cs.flatMap write) (cs.map g) := by
  induction cs with
  | nil => exact reads_pure []
  | cons c cs ih =>
      obtain ⟨hc, hcs⟩ := List.forall_mem_cons.mp h
      rw [List.flatMap_cons, ← List.append_nil (cs.flatMap write)]
      exact hc.bind (Reads.bind (ih hcs) (reads_pure _))

end Readers
