import Mathlib.Data.Finset.Card
import Mathlib.Logic.Function.Iterate
import Waverous.Lib.LinkedForest

/-! # Walks at two speeds

    Of two walks along the same links one goes twice as fast.  If the links lead to the end
    the faster one gets there; if they do not, the slower one is caught before it has passed
    more nodes than there are. -/

namespace LinkedForest

universe u

variable {α : Type u}

/-- Whether the faster walk meets the slower one. -/
def meets [DecidableEq α] (nil : α) (f : α → Option α) : Nat → α → α → Option Bool
  | 0, _, faster => if faster = nil then some false else none
  | fuel + 1, slower, faster =>
      if faster = nil then some false
      else
        (f faster).bind fun faster =>
          if faster = nil then some false
          else
            (f faster).bind fun faster =>
              (f slower).bind fun slower =>
                if faster = slower then some true else meets nil f fuel slower faster

/-- The links from `c` lead to the end. -/
def Terminates (nil : α) (f : α → Option α) (c : α) : Prop := ∃ cs, Seg f c cs nil

/-- From each node there is a link, to a node or to the end. -/
def Closed (nil : α) (f : α → Option α) (nodes : Finset α) : Prop :=
  ∀ x ∈ nodes, ∃ y, f x = some y ∧ (y = nil ∨ y ∈ nodes)

/-- One step; at the end there is none. -/
def hop (nil : α) (f : α → Option α) (x : α) : α := (f x).getD nil

section Hops

variable {nil start : α} {f : α → Option α} {nodes : Finset α}

theorem hop_nil (hnil : f nil = none) : hop nil f nil = nil := by rw [hop, hnil]; rfl

theorem hops_nil (hnil : f nil = none) (k : Nat) : (hop nil f)^[k] nil = nil :=
  Function.iterate_fixed (hop_nil hnil) k

/-- One does not come back from the end. -/
theorem hops_stay (hnil : f nil = none) {i k : Nat} (hi : (hop nil f)^[i] start = nil)
    (hik : i ≤ k) : (hop nil f)^[k] start = nil := by
  obtain ⟨d, rfl⟩ := Nat.exists_eq_add_of_le' hik
  rw [Function.iterate_add_apply, hi, hops_nil hnil]

/-- When the walks meet, there is no end. -/
theorem no_end (hnil : f nil = none) {k : Nat} (hk : (hop nil f)^[2 * k + 1] start ≠ nil)
    (hmeet : (hop nil f)^[2 * (k + 1)] start = (hop nil f)^[k + 1] start) :
    ∀ m, (hop nil f)^[m] start ≠ nil := by
  have hround : ∀ t, (hop nil f)^[(k + 1) * (t + 1)] start = (hop nil f)^[k + 1] start := by
    intro t
    induction t with
    | zero => rw [Nat.mul_one]
    | succ t ih =>
        have hsplit : (k + 1) * (t + 1 + 1) = (k + 1) + (k + 1) * (t + 1) := by
          rw [Nat.mul_succ (k + 1) (t + 1), Nat.add_comm]
        rw [hsplit, Function.iterate_add_apply, ih, ← Function.iterate_add_apply, ← Nat.two_mul,
          hmeet]
  intro m hm
  have hle : m ≤ (k + 1) * (m + 1) := by
    calc m ≤ m + 1 := Nat.le_succ m
      _ ≤ (k + 1) * (m + 1) := Nat.le_mul_of_pos_left (m + 1) (Nat.succ_pos k)
  have hat := hround m
  rw [hops_stay hnil hm hle] at hat
  exact hk (hops_stay hnil hat.symm (by omega))

variable (hclosed : Closed nil f nodes) (hstart : start = nil ∨ start ∈ nodes)
include hclosed

theorem Closed.hop_eq {x : α} (hx : x ∈ nodes) :
    f x = some (hop nil f x) ∧ (hop nil f x = nil ∨ hop nil f x ∈ nodes) := by
  obtain ⟨y, hy, hmem⟩ := hclosed x hx
  rw [hop, hy]
  exact ⟨rfl, hmem⟩

include hstart

theorem Closed.hops_mem (hnil : f nil = none) (k : Nat) :
    (hop nil f)^[k] start = nil ∨ (hop nil f)^[k] start ∈ nodes := by
  induction k with
  | zero => exact hstart
  | succ k ih =>
      rw [Function.iterate_succ_apply']
      rcases ih with hend | hmem
      · exact .inl (by rw [hend, hop_nil hnil])
      · exact (hclosed.hop_eq hmem).2

theorem Closed.terminates_iff (hnil : f nil = none) :
    Terminates nil f start ↔ ∃ k, (hop nil f)^[k] start = nil := by
  constructor
  · rintro ⟨cs, hcs⟩
    clear hstart
    induction cs generalizing start with
    | nil => exact ⟨0, hcs⟩
    | cons x cs ih =>
        obtain ⟨rfl, m, hm, hcs⟩ := hcs
        obtain ⟨k, hk⟩ := ih hcs
        refine ⟨k + 1, ?_⟩
        rw [Function.iterate_succ_apply, hop, hm]
        exact hk
  · rintro ⟨k, hk⟩
    induction k generalizing start with
    | zero => exact ⟨[], hk⟩
    | succ k ih =>
        rcases hstart with rfl | hmem
        · exact ⟨[], rfl⟩
        · obtain ⟨hf, hnext⟩ := hclosed.hop_eq hmem
          obtain ⟨cs, hcs⟩ := ih hnext hk
          exact ⟨start :: cs, rfl, _, hf, hcs⟩

/-- A walk that passes more nodes than there are is caught. -/
theorem Closed.caught (hnil : f nil = none) {k : Nat} (hk : nodes.card ≤ k)
    (hend : (hop nil f)^[2 * k] start ≠ nil) :
    ∃ m, 1 ≤ m ∧ m ≤ k ∧ (hop nil f)^[m] start = (hop nil f)^[2 * m] start := by
  have hmem : ∀ j ∈ Finset.range (nodes.card + 1), (hop nil f)^[j] start ∈ nodes := by
    intro j hj
    refine (hclosed.hops_mem hstart hnil j).resolve_left fun h => ?_
    have := Finset.mem_range.mp hj
    exact hend (hops_stay hnil h (by omega))
  have hcard : nodes.card < (Finset.range (nodes.card + 1)).card := by
    rw [Finset.card_range]
    exact Nat.lt_succ_self _
  have hrepeat : ∃ i j, i < j ∧ j ≤ nodes.card ∧
      (hop nil f)^[i] start = (hop nil f)^[j] start := by
    obtain ⟨i, hi, j, hj, hij, heq⟩ := Finset.exists_ne_map_eq_of_card_lt_of_maps_to hcard hmem
    rw [Finset.mem_range] at hi hj
    rcases Nat.lt_or_gt_of_ne hij with h | h
    · exact ⟨i, j, h, by omega, heq⟩
    · exact ⟨j, i, h, by omega, heq.symm⟩
  obtain ⟨i, j, hij, hj, heq⟩ := hrepeat
  -- the one multiple of the period among `i + 1, …, j`
  have hpos : 0 < j - i := by omega
  have hdiv := Nat.div_add_mod j (j - i)
  have hmod := Nat.mod_lt j hpos
  have hround : ∀ t m, i ≤ m → (hop nil f)^[m + (j - i) * t] start = (hop nil f)^[m] start := by
    intro t m hm
    induction t with
    | zero => rw [Nat.mul_zero, Nat.add_zero]
    | succ t ih =>
        have hsplit : m + (j - i) * (t + 1) = (m - i + (j - i) * t) + j := by
          rw [Nat.mul_succ]
          omega
        have hback : m + (j - i) * t = (m - i + (j - i) * t) + i := by omega
        rw [hsplit, Function.iterate_add_apply, ← heq, ← Function.iterate_add_apply, ← hback, ih]
  refine ⟨(j - i) * (j / (j - i)), by omega, by omega, ?_⟩
  have := hround (j / (j - i)) ((j - i) * (j / (j - i))) (by omega)
  rw [Nat.two_mul, this]

/-- The walks tell whether there is an end. -/
theorem Closed.meets_spec [DecidableEq α] (hnil : f nil = none) {fuel : Nat} (hfuel : nodes.card ≤ fuel) :
    ∃ b, meets nil f fuel start start = some b ∧ (b = false ↔ Terminates nil f start) := by
  have hloop : ∀ fuel k, nodes.card ≤ k + fuel →
      (∀ m, 1 ≤ m → m ≤ k → (hop nil f)^[m] start ≠ (hop nil f)^[2 * m] start) →
      ∃ b, meets nil f fuel ((hop nil f)^[k] start) ((hop nil f)^[2 * k] start) = some b ∧
        (b = false ↔ Terminates nil f start) := by
    intro fuel
    induction fuel with
    | zero =>
        intro k hk hne
        have hend : (hop nil f)^[2 * k] start = nil := by
          by_contra h
          obtain ⟨m, h1, hmk, heq⟩ := hclosed.caught hstart hnil (by omega) h
          exact hne m h1 hmk heq
        refine ⟨false, by rw [meets, if_pos hend], iff_of_true rfl ?_⟩
        exact (hclosed.terminates_iff hstart hnil).mpr ⟨_, hend⟩
    | succ fuel ih =>
        intro k hk hne
        have hends : ∀ {j}, (hop nil f)^[j] start = nil → Terminates nil f start :=
          fun h => (hclosed.terminates_iff hstart hnil).mpr ⟨_, h⟩
        by_cases h0 : (hop nil f)^[2 * k] start = nil
        · exact ⟨false, by rw [meets, if_pos h0], iff_of_true rfl (hends h0)⟩
        · have hgo : ∀ {j}, (hop nil f)^[j] start ≠ nil →
              f ((hop nil f)^[j] start) = some ((hop nil f)^[j + 1] start) := by
            intro j hj
            rw [Function.iterate_succ_apply']
            exact (hclosed.hop_eq ((hclosed.hops_mem hstart hnil j).resolve_left hj)).1
          have hslow : (hop nil f)^[k] start ≠ nil := fun h => h0 (hops_stay hnil h (by omega))
          rw [meets, if_neg h0, hgo h0, Option.bind_some]
          by_cases h1 : (hop nil f)^[2 * k + 1] start = nil
          · exact ⟨false, by rw [if_pos h1], iff_of_true rfl (hends h1)⟩
          · rw [if_neg h1, hgo h1, hgo hslow]
            simp only [Option.bind_some]
            by_cases h2 : (hop nil f)^[2 * k + 1 + 1] start = (hop nil f)^[k + 1] start
            · refine ⟨true, by rw [if_pos h2], ?_⟩
              refine iff_of_false (fun h => nomatch h) fun h => ?_
              obtain ⟨m, hm⟩ := (hclosed.terminates_iff hstart hnil).mp h
              exact no_end hnil h1 h2 m hm
            · rw [if_neg h2]
              refine ih (k + 1) (by omega) fun m hm1 hmk => ?_
              by_cases hmk' : m = k + 1
              · subst hmk'
                exact fun h => h2 h.symm
              · exact hne m hm1 (by omega)
  exact hloop fuel 0 (by omega) fun m h1 h0 => by omega

end Hops

end LinkedForest
