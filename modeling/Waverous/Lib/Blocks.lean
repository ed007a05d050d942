import Mathlib.Data.Int.Cast.Lemmas
import Mathlib.Data.List.Basic

/-! # Blocks of memory and `int` arithmetic

    What a C function must not do while it fills a block from front to back: compute an `int`
    that is none, read outside what it copies from, write outside the block. -/

namespace Blocks

/-- A step that the language leaves undefined. -/
inductive Fault where
  | overflow | read | write
  deriving DecidableEq, Repr

def intMin : Int := -2147483648

def intMax : Int := 2147483647

/-- A result of `int` arithmetic. -/
def asInt (n : Int) : Except Fault Int :=
  if intMin ≤ n ∧ n ≤ intMax then .ok n else .error .overflow

/-- `(int) n`, of a size. -/
def castInt (n : Nat) : Int :=
  if n % 4294967296 ≤ 2147483647 then (n % 4294967296 : Nat) else (n % 4294967296 : Nat) - 4294967296

@[simp] theorem ok_bind {ε β γ : Type} (b : β) (f : β → Except ε γ) :
    (Except.ok b >>= f) = f b := rfl

theorem asInt_ok {n : Int} (h : intMin ≤ n ∧ n ≤ intMax) : asInt n = .ok n := if_pos h

theorem asInt_eq_ok {n m : Int} (h : asInt n = .ok m) :
    m = n ∧ intMin ≤ n ∧ n ≤ intMax := by
  rw [asInt] at h
  split at h
  · case isTrue hn =>
      injection h with h
      exact ⟨h.symm, hn⟩
  · cases h

theorem asInt_error {n : Int} (h : ¬ (intMin ≤ n ∧ n ≤ intMax)) : asInt n = .error .overflow :=
  if_neg h

-- unfolded, the comparison with `intMax` counts down from it
attribute [irreducible] asInt

theorem castInt_of_le {n : Nat} (h : (n : Int) ≤ intMax) : castInt n = n := by
  rw [intMax] at h
  rw [castInt]
  split <;> omega

theorem castInt_le (n : Nat) : castInt n ≤ n := by
  rw [castInt]
  split <;> omega

theorem castInt_bounds (n : Nat) : intMin ≤ castInt n ∧ castInt n ≤ intMax := by
  rw [castInt, intMin, intMax]
  split <;> omega

/-- A size that is no `int` is converted to something less. -/
theorem castInt_lt {n : Nat} (h : intMax < n) : castInt n < n := by
  have := (castInt_bounds n).2
  omega

variable {α : Type}

/-- A block for so many elements, and those that have been written, which are in front. -/
structure Block (α : Type) where
  room : Int
  data : List α

/-- Write the next element. -/
def Block.put (b : Block α) (a : α) : Except Fault (Block α) :=
  if b.data.length < b.room then .ok { b with data := b.data ++ [a] } else .error .write

/-- `p[i]`, counted from `first`. -/
def readAt (src : List α) (first i : Int) : Except Fault α :=
  if first ≤ i then
    match src[(i - first).toNat]? with
    | some a => .ok a
    | none => .error .read
  else .error .read

/-- So many rounds of `b[offset++] = read(index); index++`. -/
def copyLoop (read : Int → Except Fault α) : Nat → Int → Block α → Except Fault (Block α)
  | 0, _, b => .ok b
  | rounds + 1, index, b => do
      let a ← read index
      let b ← b.put a
      let index ← asInt (index + 1)
      copyLoop read rounds index b

theorem put_ok {b : Block α} (h : (b.data.length : Int) < b.room) (a : α) :
    b.put a = .ok { b with data := b.data ++ [a] } := if_pos h

theorem put_eq_ok {b b' : Block α} {a : α} (h : b.put a = .ok b') :
    (b.data.length : Int) < b.room ∧ b' = { b with data := b.data ++ [a] } := by
  rw [Block.put] at h
  split at h
  · case isTrue hlt =>
      injection h with h
      exact ⟨hlt, h.symm⟩
  · cases h

theorem readAt_ok {src : List α} {first i : Int} {n : Nat} {a : α} (h : src[n]? = some a)
    (hi : i = first + n) : readAt src first i = .ok a := by
  have hn : (i - first).toNat = n := by omega
  rw [readAt, if_pos (by omega), hn, h]

/-- The index itself is computed first. -/
theorem asInt_readAt {src : List α} {first i : Int} {n : Nat} {a : α} (h : src[n]? = some a)
    (hi : i = first + n) (hfirst : 0 ≤ first ∧ first ≤ 1) (hlen : (src.length : Int) < intMax) :
    (asInt i >>= readAt src first) = .ok a := by
  have hlt : n < src.length := by
    by_contra hge
    rw [List.getElem?_eq_none (Nat.le_of_not_lt hge)] at h
    cases h
  rw [asInt_ok ⟨by rw [intMin]; omega, by omega⟩, ok_bind, readAt_ok h hi]

/-- What a bind that ends well went through. -/
theorem bind_eq_ok {ε β γ : Type} {x : Except ε β} {f : β → Except ε γ} {c : γ}
    (h : x >>= f = .ok c) : ∃ b, x = .ok b ∧ f b = .ok c := by
  cases x with
  | error e => cases h
  | ok b => exact ⟨b, rfl, h⟩

/-- A loop that stays inside both blocks copies. -/
theorem copyLoop_ok {read : Int → Except Fault α} :
    ∀ {xs : List α} {index : Int} {b : Block α},
      (∀ (j : Nat) a, xs[j]? = some a → read (index + j) = .ok a) →
      intMin ≤ index → index + xs.length ≤ intMax →
      (b.data.length : Int) + xs.length ≤ b.room →
      copyLoop read xs.length index b = .ok { b with data := b.data ++ xs } := by
  intro xs
  induction xs with
  | nil =>
      intro index b _ _ _ _
      simp [copyLoop]
  | cons x xs ih =>
      intro index b hread hmin hmax hroom
      rw [List.length_cons, Nat.cast_add, Nat.cast_one] at hmax hroom
      have hx : read index = .ok x := by
        have := hread 0 x rfl
        rwa [Nat.cast_zero, Int.add_zero] at this
      have hput : b.put x = .ok { b with data := b.data ++ [x] } := put_ok (by omega) x
      have hindex : asInt (index + 1) = .ok (index + 1) := asInt_ok (by omega)
      have htail : ∀ (j : Nat) a, xs[j]? = some a → read (index + 1 + j) = .ok a := by
        intro j a hj
        have := hread (j + 1) a hj
        rwa [Nat.cast_add, Nat.cast_one, Int.add_comm (j : Int) 1, ← Int.add_assoc] at this
      have hrest := ih (b := { b with data := b.data ++ [x] }) htail (by omega) (by omega)
        (by rw [List.length_append]; simp; omega)
      rw [List.length_cons, copyLoop, hx, ok_bind, hput, ok_bind, hindex, ok_bind, hrest,
        List.append_assoc]
      rfl

/-- A loop that ends well has written one element a round, inside the block. -/
theorem copyLoop_length {read : Int → Except Fault α} :
    ∀ {rounds : Nat} {index : Int} {b b' : Block α}, copyLoop read rounds index b = .ok b' →
      b'.room = b.room ∧ b'.data.length = b.data.length + rounds ∧
        ((b.data.length : Int) ≤ b.room → (b'.data.length : Int) ≤ b'.room) := by
  intro rounds
  induction rounds with
  | zero =>
      intro index b b' h
      rw [copyLoop] at h
      injection h with h
      subst h
      exact ⟨rfl, rfl, id⟩
  | succ rounds ih =>
      intro index b b' h
      rw [copyLoop] at h
      obtain ⟨a, -, h⟩ := bind_eq_ok h
      obtain ⟨b1, hput, h⟩ := bind_eq_ok h
      obtain ⟨i, -, h⟩ := bind_eq_ok h
      obtain ⟨hlt, rfl⟩ := put_eq_ok hput
      obtain ⟨hroom, hlen, hin⟩ := ih h
      rw [List.length_append, List.length_singleton] at hlen hin
      refine ⟨hroom, by omega, fun _ => hin ?_⟩
      show ((b.data.length + 1 : Nat) : Int) ≤ b.room
      omega

end Blocks
