import Mathlib.Data.List.Basic

/-! # Chains of linked entries

    Entries are numbered, and each may link to another one.  `next l` is the link of the entry
    `l`, when there is such an entry.  Entries are only added, and no link ever changes. -/

namespace Links

variable {next next' : Nat → Option (Option Nat)} {R : Nat → Prop} {l n r : Nat}

/-- The chain from `l` ends, and it has no entry of `R`. -/
inductive Off (next : Nat → Option (Option Nat)) (R : Nat → Prop) : Nat → Prop where
  | last {l : Nat} : next l = some none → ¬ R l → Off next R l
  | link {l n : Nat} : next l = some (some n) → ¬ R l → Off next R n → Off next R l

/-- The chain from `l` goes down to `r`. -/
inductive On (next : Nat → Option (Option Nat)) (r : Nat) : Nat → Prop where
  | here : (next r).isSome → On next r r
  | link {l n : Nat} : next l = some (some n) → n < l → On next r n → On next r l

/-- There may be more entries. -/
def Extends (next next' : Nat → Option (Option Nat)) : Prop :=
  ∀ l x, next l = some x → next' l = some x

theorem Off.extends (h : Off next R l) (he : Extends next next') : Off next' R l := by
  induction h with
  | last hl hR => exact .last (he _ _ hl) hR
  | link hl hR _ ih => exact .link (he _ _ hl) hR ih

theorem On.extends (h : On next r l) (he : Extends next next') : On next' r l := by
  induction h with
  | here hr =>
      obtain ⟨x, hx⟩ := Option.isSome_iff_exists.mp hr
      exact .here (Option.isSome_iff_exists.mpr ⟨x, he _ _ hx⟩)
  | link hl hn _ ih => exact .link (he _ _ hl) hn ih

theorem Off.not (h : Off next R l) : ¬ R l := by
  cases h with
  | last _ hR => exact hR
  | link _ hR _ => exact hR

/-- A chain that ends has no entry that is not there. -/
theorem Off.widen {R' : Nat → Prop} (h : Off next R' l) (hR : ∀ r, R r → R' r ∨ next r = none) :
    Off next R l := by
  have hfree : ∀ {l x}, next l = some x → ¬ R' l → ¬ R l := by
    intro l x hl hR' hl'
    rcases hR l hl' with h | h
    · exact hR' h
    · rw [h] at hl
      exact nomatch hl
  induction h with
  | last hl hR' => exact .last hl (hfree hl hR')
  | link hl hR' _ ih => exact .link hl (hfree hl hR') ih

theorem Off.new (h : Off next (fun _ => False) l) (hR : ∀ r, R r → next r = none) :
    Off next R l := h.widen fun r hr => .inr (hR r hr)

theorem On.isSome (h : On next r l) : (next l).isSome := by
  cases h with
  | here hr => exact hr
  | link hl _ _ => exact Option.isSome_iff_exists.mpr ⟨_, hl⟩

/-- A chain that ends keeps its entries. -/
theorem Off.on_iff (h : Off next R l) (he : Extends next next') : On next' r l ↔ On next r l := by
  refine ⟨fun hon => ?_, fun hon => hon.extends he⟩
  induction h with
  | last hl _ =>
      cases hon with
      | here _ => exact .here (Option.isSome_iff_exists.mpr ⟨_, hl⟩)
      | link hl' _ _ =>
          rw [he _ _ hl] at hl'
          cases hl'
  | link hl _ _ ih =>
      cases hon with
      | here _ => exact .here (Option.isSome_iff_exists.mpr ⟨_, hl⟩)
      | link hl' hn hon =>
          rw [he _ _ hl] at hl'
          cases hl'
          exact .link hl hn (ih hon)

/-- Where links go down, a chain that ends is off all that is not on it. -/
theorem Off.of_not_on {R' : Nat → Prop} (h : Off next R' l)
    (hdown : ∀ l n, next l = some (some n) → n < l) (hR : ∀ r, R r → ¬ On next r l) : Off next R l := by
  induction h with
  | @last l hl _ =>
      exact .last hl fun hr => hR l hr (.here (Option.isSome_iff_exists.mpr ⟨_, hl⟩))
  | @link l n hl _ _ ih =>
      exact .link hl (fun hr => hR l hr (.here (Option.isSome_iff_exists.mpr ⟨_, hl⟩)))
        (ih fun r hr hon => hR r hr (.link hl (hdown l n hl) hon))

end Links
