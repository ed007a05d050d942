import Mathlib.Data.List.Nodup
import Mathlib.Data.List.Perm.Subperm

/-! # Hash tables with chains

    A table has the first node of each bucket, and each node has a link to the next one of its
    bucket.  `Table` says which nodes are in which bucket; a node that is nowhere in a table can be
    linked in at the front of its bucket (`Table.push`), and a walk along a bucket comes to all its
    nodes and ends (`Chain.walk`, `Chain.find`). -/

namespace Chains

universe u

variable {α : Type u}

/-- From `p`, the links lead through the nodes `l` and end. -/
def Chain (next : α → Option α) : Option α → List α → Prop
  | p, [] => p = none
  | p, x :: l => p = some x ∧ Chain next (next x) l

/-- The nodes that a walk from `p` comes to; `none` if there are as many as `fuel`. -/
def walk (next : α → Option α) : Nat → Option α → Option (List α)
  | 0, _ => none
  | _ + 1, none => some []
  | fuel + 1, some x => (walk next fuel (next x)).map (x :: ·)

/-- The first node with `p` on a walk. -/
def find (next : α → Option α) (p : α → Bool) : Nat → Option α → Option (Option α)
  | 0, _ => none
  | _ + 1, none => some none
  | fuel + 1, some x => if p x then some (some x) else find next p fuel (next x)

/-- The nodes that walks from all of `heads` come to. -/
def walkAll (next : α → Option α) (fuel : Nat) : List (Option α) → Option (List α)
  | [] => some []
  | p :: heads => do
      let l ← walk next fuel p
      let rest ← walkAll next fuel heads
      some (l ++ rest)

section

variable {next next' : α → Option α} {start : Option α} {l : List α} {fuel : Nat}

theorem Chain.congr (h : Chain next start l) (hnext : ∀ x ∈ l, next' x = next x) :
    Chain next' start l := by
  induction l generalizing start with
  | nil => exact h
  | cons x l ih =>
      refine ⟨h.1, ?_⟩
      rw [hnext x List.mem_cons_self]
      exact ih h.2 fun y hy => hnext y (List.mem_cons_of_mem x hy)

theorem Chain.walk (h : Chain next start l) (hfuel : l.length < fuel) :
    walk next fuel start = some l := by
  induction l generalizing start fuel with
  | nil =>
      obtain ⟨fuel, rfl⟩ := Nat.exists_eq_add_one_of_ne_zero (Nat.ne_zero_of_lt hfuel)
      rw [show start = none from h]
      rfl
  | cons x l ih =>
      obtain ⟨fuel, rfl⟩ := Nat.exists_eq_add_one_of_ne_zero (Nat.ne_zero_of_lt hfuel)
      rw [h.1, Chains.walk, ih h.2 (Nat.lt_of_succ_lt_succ hfuel)]
      rfl

theorem Chain.find (h : Chain next start l) (p : α → Bool) (hfuel : l.length < fuel) :
    find next p fuel start = some (l.find? p) := by
  induction l generalizing start fuel with
  | nil =>
      obtain ⟨fuel, rfl⟩ := Nat.exists_eq_add_one_of_ne_zero (Nat.ne_zero_of_lt hfuel)
      rw [show start = none from h]
      rfl
  | cons x l ih =>
      obtain ⟨fuel, rfl⟩ := Nat.exists_eq_add_one_of_ne_zero (Nat.ne_zero_of_lt hfuel)
      rw [h.1, Chains.find, List.find?_cons]
      by_cases hx : p x = true
      · rw [if_pos hx, hx]
      · rw [if_neg hx, Bool.eq_false_iff.mpr hx]
        exact ih h.2 (Nat.lt_of_succ_lt_succ hfuel)

end

/-! ## Tables -/

/-- The bucket `b` has the nodes `chains b`, each of which belongs there. -/
structure Table (next : α → Option α) (bucket : α → Nat) (heads : List (Option α))
    (chains : Nat → List α) : Prop where
  chain : ∀ b p, heads[b]? = some p → Chain next p (chains b)
  nodup : ∀ b, (chains b).Nodup
  placed : ∀ b, ∀ x ∈ chains b, bucket x = b

namespace Table

variable {next : α → Option α} {bucket : α → Nat} {heads : List (Option α)}
  {chains : Nat → List α} {b : Nat} {x : α}

theorem empty (size : Nat) : Table next bucket (List.replicate size none) fun _ => [] where
  chain := by
    intro b p h
    rw [List.getElem?_replicate] at h
    exact (Option.some.inj (Option.ite_none_right_eq_some.mp h).2).symm
  nodup := fun _ => List.nodup_nil
  placed := fun _ _ h => nomatch h

theorem congr {bucket' : α → Nat} (h : Table next bucket heads chains)
    (hbucket : ∀ b, ∀ x ∈ chains b, bucket' x = bucket x) : Table next bucket' heads chains where
  chain := h.chain
  nodup := h.nodup
  placed := fun b x hx => (hbucket b x hx).trans (h.placed b x hx)

/-- A node is in its own bucket, or in none. -/
theorem mem_iff (h : Table next bucket heads chains) : x ∈ chains b ↔ bucket x = b ∧ x ∈ chains (bucket x) := by
  constructor
  · intro hx
    have hb := h.placed b x hx
    exact ⟨hb, hb ▸ hx⟩
  · rintro ⟨rfl, hx⟩
    exact hx

theorem mem_update_cons {a : Nat} {y : α} :
    y ∈ Function.update chains a (x :: chains a) b ↔ y ∈ chains b ∨ y = x ∧ a = b := by
  by_cases hb : b = a
  · subst hb
    rw [Function.update_self, List.mem_cons, and_iff_left rfl, or_comm]
  · rw [Function.update_of_ne hb]
    exact (or_iff_left fun h => hb h.2.symm).symm

/-- A new node is linked in at the front of its bucket. -/
theorem push [DecidableEq α] (h : Table next bucket heads chains) {p : Option α}
    (hp : heads[bucket x]? = some p) (hx : x ∉ chains (bucket x)) :
    Table (Function.update next x p) bucket (heads.set (bucket x) (some x))
      (Function.update chains (bucket x) (x :: chains (bucket x))) where
  chain := by
    intro b q hq
    have hother : ∀ y ∈ chains b, Function.update next x p y = next y := by
      intro y hy
      have hne : y ≠ x := by
        rintro rfl
        exact hx (h.mem_iff.mp hy).2
      exact Function.update_of_ne hne p next
    by_cases hb : b = bucket x
    · subst hb
      rw [List.getElem?_set_self (List.getElem?_eq_some_iff.mp hp).1] at hq
      rw [Function.update_self]
      refine ⟨(Option.some.inj hq).symm, ?_⟩
      rw [Function.update_self]
      exact (h.chain _ p hp).congr hother
    · rw [List.getElem?_set_ne (Ne.symm hb)] at hq
      rw [Function.update_of_ne hb]
      exact (h.chain b q hq).congr hother
  nodup := by
    intro b
    by_cases hb : b = bucket x
    · subst hb
      rw [Function.update_self]
      exact List.nodup_cons.mpr ⟨hx, h.nodup _⟩
    · rw [Function.update_of_ne hb]
      exact h.nodup b
  placed := by
    intro b y hy
    by_cases hb : b = bucket x
    · subst hb
      rw [Function.update_self] at hy
      rcases List.mem_cons.mp hy with rfl | hy
      · rfl
      · exact h.placed _ y hy
    · rw [Function.update_of_ne hb] at hy
      exact h.placed b y hy

/-- The nodes of a table, bucket by bucket. -/
def nodes (chains : Nat → List α) (size : Nat) : List α := (List.range size).flatMap chains

theorem walkAll {fuel : Nat} (h : Table next bucket heads chains)
    (hfuel : ∀ b, (chains b).length < fuel) :
    walkAll next fuel heads = some (nodes chains heads.length) := by
  have hsuffix : ∀ rest k, heads.drop k = rest →
      Chains.walkAll next fuel rest = some ((List.range' k rest.length).flatMap chains) := by
    intro rest
    induction rest with
    | nil => exact fun _ _ => rfl
    | cons p rest ih =>
        intro k hk
        have hp : heads[k]? = some p := by
          rw [← Nat.add_zero k, ← List.getElem?_drop, hk]
          rfl
        have hrest : heads.drop (k + 1) = rest := by
          rw [← List.drop_drop, hk]
          rfl
        rw [Chains.walkAll, (h.chain k p hp).walk (hfuel k), ih (k + 1) hrest]
        rfl
  have hall := hsuffix heads 0 List.drop_zero
  rwa [← List.range_eq_range'] at hall

theorem mem_nodes {size : Nat} (h : Table next bucket heads chains) :
    x ∈ nodes chains size ↔ bucket x < size ∧ x ∈ chains (bucket x) := by
  rw [nodes, List.mem_flatMap]
  constructor
  · rintro ⟨b, hb, hx⟩
    obtain ⟨rfl, hx⟩ := h.mem_iff.mp hx
    exact ⟨List.mem_range.mp hb, hx⟩
  · rintro ⟨hb, hx⟩
    exact ⟨bucket x, List.mem_range.mpr hb, hx⟩

/-- No node is in a table twice. -/
theorem nodup_nodes (size : Nat) (h : Table next bucket heads chains) :
    (nodes chains size).Nodup := by
  refine List.nodup_flatMap.mpr ⟨fun b _ => h.nodup b, ?_⟩
  refine List.Pairwise.imp_of_mem ?_ (List.nodup_range (n := size))
  intro a b _ _ hab
  show List.Disjoint (chains a) (chains b)
  intro x ha hb
  exact hab ((h.placed a x ha).symm.trans (h.placed b x hb))

end Table

end Chains
