import Waverous.Strings

/-! # Searching strings — `utils.c`, `list.c`

    `strindex`, `strrindex` and `strsub` look at each position of a string in turn.  Characters
    are compared as they are, or after `cmap` when case does not count. -/

namespace Waverous

/-- What two characters are compared by. -/
def caseFold (caseCounts : Bool) (c : UInt8) : UInt8 := if caseCounts then c else cmap c

/-- `!strncmp(s, t, n)` or `!mystrncasecmp(s, t, n)`. -/
def strnEq (caseCounts : Bool) : Str → Str → Nat → Bool
  | _, _, 0 => true
  | [], [], _ => true
  | a :: s, b :: t, n + 1 => caseFold caseCounts a == caseFold caseCounts b && strnEq caseCounts s t n
  | _, _, _ => false

section

variable (caseCounts : Bool) (source what : Str)

/-- The condition of the three loops, at the position `s`. -/
def foundAt (s : Nat) : Bool := strnEq caseCounts (source.drop s) what what.length

/-- `e - source + 1` for `e = source + strlen(source) - lwhat`: how often the loops go round. -/
def positions : Nat := ((source.length : Int) - what.length + 1).toNat

/-- The loop of `strindex`, from the position `s` on. -/
def strindexLoop : Nat → Nat → Nat
  | 0, _ => 0
  | n + 1, s => if foundAt caseCounts source what s then s + 1 else strindexLoop n (s + 1)

/-- `strindex`. -/
def strindex : Nat := strindexLoop caseCounts source what (positions source what) 0

/-- The loop of `strrindex`, down from the position before `n`. -/
def strrindexLoop : Nat → Nat
  | 0 => 0
  | n + 1 => if foundAt caseCounts source what n then n + 1 else strrindexLoop n

/-- `strrindex`. -/
def strrindex : Nat := strrindexLoop caseCounts source what (positions source what)

/-- The loop of `strsub`; `none` if it goes round more often than `fuel` allows. -/
def strsubLoop («with» : Str) : Nat → Str → Option Str
  | 0, _ => none
  | _ + 1, [] => some []
  | fuel + 1, c :: source =>
      if foundAt caseCounts (c :: source) what 0 then
        (strsubLoop «with» fuel ((c :: source).drop what.length)).map («with» ++ ·)
      else (strsubLoop «with» fuel source).map (c :: ·)

/-! ## What is to be found -/

/-- The pattern occurs at the position `p`, counted from 1. -/
def OccursAt (p : Nat) : Prop :=
  1 ≤ p ∧ p ≤ source.length + 1 ∧
    what.map (caseFold caseCounts) <+: (source.drop (p - 1)).map (caseFold caseCounts)

/-- The leftmost occurrence is replaced, and in what is behind it likewise. -/
inductive Replaced («with» : Str) : Str → Str → Prop where
  | none {source : Str} : (∀ p, ¬ OccursAt caseCounts source what p) → Replaced «with» source source
  | first {before found after after' : Str} :
      OccursAt caseCounts (before ++ found ++ after) what (before.length + 1) →
      found.length = what.length →
      (∀ p, OccursAt caseCounts (before ++ found ++ after) what p → before.length + 1 ≤ p) →
      Replaced «with» after after' →
      Replaced «with» (before ++ found ++ after) (before ++ «with» ++ after')

end

variable {caseCounts : Bool} {source what : Str}

theorem strnEq_iff {s t : Str} : strnEq caseCounts s t t.length = true ↔
    t.map (caseFold caseCounts) <+: s.map (caseFold caseCounts) := by
  induction t generalizing s with
  | nil => simp [strnEq]
  | cons b t ih =>
      cases s with
      | nil => simp [strnEq]
      | cons a s =>
          rw [List.length_cons, strnEq, Bool.and_eq_true, beq_iff_eq, ih, List.map_cons, List.map_cons,
            List.cons_prefix_cons]
          exact and_congr_left' eq_comm

theorem foundAt_iff {s : Nat} (hs : s ≤ source.length) :
    foundAt caseCounts source what s = true ↔ OccursAt caseCounts source what (s + 1) := by
  rw [foundAt, strnEq_iff, OccursAt, Nat.add_sub_cancel]
  constructor
  · intro h
    exact ⟨by omega, by omega, h⟩
  · rintro ⟨-, -, h⟩
    exact h

/-- The pattern fits behind the position before. -/
theorem OccursAt.lt {p : Nat} (h : OccursAt caseCounts source what p) : p ≤ positions source what := by
  obtain ⟨hp, hle, hpre⟩ := h
  have hlen := hpre.length_le
  rw [List.length_map, List.length_map, List.length_drop] at hlen
  rw [positions]
  omega

theorem positions_le : positions source what ≤ source.length + 1 := by
  rw [positions]
  omega

/-! ## `strindex` and `strrindex` -/

/-- What has been looked at before `s`, and what the loop still looks at. -/
theorem strindexLoop_spec {n s : Nat} (hn : s + n = positions source what)
    (hbefore : ∀ p, OccursAt caseCounts source what p → s + 1 ≤ p) :
    let r := strindexLoop caseCounts source what n s
    (r = 0 ∧ ∀ p, ¬ OccursAt caseCounts source what p) ∨
      (OccursAt caseCounts source what r ∧ ∀ p, OccursAt caseCounts source what p → r ≤ p) := by
  induction n generalizing s with
  | zero =>
      refine .inl ⟨rfl, fun p hp => ?_⟩
      have := hbefore p hp
      have := hp.lt
      omega
  | succ n ih =>
      have hs : s ≤ source.length := by
        have : positions source what ≤ source.length + 1 := positions_le
        omega
      simp only [strindexLoop]
      by_cases hfound : foundAt caseCounts source what s = true
      · rw [if_pos hfound]
        exact .inr ⟨(foundAt_iff hs).mp hfound, hbefore⟩
      · rw [if_neg hfound]
        refine ih (by omega) fun p hp => ?_
        have hle := hbefore p hp
        have hne : p ≠ s + 1 := by
          rintro rfl
          exact hfound ((foundAt_iff hs).mpr hp)
        omega

/-- `strindex` gives the least position of an occurrence, or 0. -/
theorem strindex_spec (caseCounts : Bool) (source what : Str) :
    (strindex caseCounts source what = 0 ∧ ∀ p, ¬ OccursAt caseCounts source what p) ∨
      (OccursAt caseCounts source what (strindex caseCounts source what) ∧
        ∀ p, OccursAt caseCounts source what p → strindex caseCounts source what ≤ p) :=
  strindexLoop_spec (by omega) fun p hp => by
    have := hp.1
    omega

theorem strrindexLoop_spec {n : Nat} (hn : n ≤ source.length + 1)
    (hbehind : ∀ p, OccursAt caseCounts source what p → p ≤ n) :
    let r := strrindexLoop caseCounts source what n
    (r = 0 ∧ ∀ p, ¬ OccursAt caseCounts source what p) ∨
      (OccursAt caseCounts source what r ∧ ∀ p, OccursAt caseCounts source what p → p ≤ r) := by
  induction n with
  | zero =>
      refine .inl ⟨rfl, fun p hp => ?_⟩
      have := hbehind p hp
      have := hp.1
      omega
  | succ n ih =>
      simp only [strrindexLoop]
      by_cases hfound : foundAt caseCounts source what n = true
      · rw [if_pos hfound]
        exact .inr ⟨(foundAt_iff (by omega)).mp hfound, hbehind⟩
      · rw [if_neg hfound]
        refine ih (by omega) fun p hp => ?_
        have hle := hbehind p hp
        have hne : p ≠ n + 1 := by
          rintro rfl
          exact hfound ((foundAt_iff (by omega)).mpr hp)
        omega

/-- `strrindex` gives the greatest position of an occurrence, or 0. -/
theorem strrindex_spec (caseCounts : Bool) (source what : Str) :
    (strrindex caseCounts source what = 0 ∧ ∀ p, ¬ OccursAt caseCounts source what p) ∨
      (OccursAt caseCounts source what (strrindex caseCounts source what) ∧
        ∀ p, OccursAt caseCounts source what p → p ≤ strrindex caseCounts source what) :=
  strrindexLoop_spec positions_le fun _ hp => hp.lt

/-! ## `strsub` -/

/-- A position further on. -/
theorem occursAt_cons {c : UInt8} {p : Nat} :
    OccursAt caseCounts (c :: source) what (p + 1) ↔ p = 0 ∧ foundAt caseCounts (c :: source) what 0 = true ∨
      OccursAt caseCounts source what p := by
  cases p with
  | zero =>
      rw [← foundAt_iff (Nat.zero_le _)]
      constructor
      · exact fun h => .inl ⟨rfl, h⟩
      · rintro (⟨-, h⟩ | h)
        · exact h
        · exact absurd h.1 (by omega)
  | succ p =>
      rw [OccursAt, OccursAt, Nat.add_sub_cancel, Nat.add_sub_cancel, List.drop_succ_cons,
        List.length_cons]
      constructor
      · rintro ⟨-, hle, hpre⟩
        exact .inr ⟨by omega, by omega, hpre⟩
      · rintro (⟨h, -⟩ | ⟨-, hle, hpre⟩)
        · exact absurd h (by omega)
        · exact ⟨by omega, by omega, hpre⟩

/-- A character at which the pattern does not occur is passed. -/
theorem Replaced.cons {«with» r : Str} {c : UInt8} (hne : foundAt caseCounts (c :: source) what 0 = false)
    (h : Replaced caseCounts what «with» source r) :
    Replaced caseCounts what «with» (c :: source) (c :: r) := by
  have hstep : ∀ {source : Str}, foundAt caseCounts (c :: source) what 0 = false → ∀ p,
      OccursAt caseCounts (c :: source) what p → ∃ q, p = q + 1 ∧ OccursAt caseCounts source what q := by
    intro source hne p hp
    obtain ⟨q, rfl⟩ := Nat.exists_eq_add_of_le' hp.1
    rcases occursAt_cons.mp hp with ⟨-, h⟩ | h
    · rw [hne] at h
      cases h
    · exact ⟨q, rfl, h⟩
  cases h with
  | none hnone =>
      refine .none fun p hp => ?_
      obtain ⟨q, -, hq⟩ := hstep hne p hp
      exact hnone q hq
  | @first before found after after' hocc hlen hleft hrest =>
      have hocc' : OccursAt caseCounts (c :: before ++ found ++ after) what ((c :: before).length + 1) :=
        occursAt_cons.mpr (.inr hocc)
      refine .first hocc' hlen (fun p hp => ?_) hrest
      obtain ⟨q, rfl, hq⟩ := hstep hne p hp
      have := hleft q hq
      rw [List.length_cons]
      omega

theorem startsWith_eq (source what : Str) (caseCounts : Bool) :
    startsWith what source caseCounts = foundAt caseCounts source what 0 := by
  have hfold : ∀ s : Str, s.map (caseFold true) = s := fun s =>
    (List.map_congr_left fun c _ => if_pos rfl).trans (List.map_id s)
  rw [Bool.eq_iff_iff, foundAt, strnEq_iff, startsWith, List.drop_zero]
  cases caseCounts with
  | true => rw [if_pos rfl, List.isPrefixOf_iff_prefix, hfold, hfold]
  | false =>
      rw [if_neg Bool.false_ne_true, List.isPrefixOf_iff_prefix]
      rfl

/-- Passing over the rest of a match. -/
theorem strsub_skip («with» : Str) (skip : Nat) :
    strsub what «with» caseCounts skip source = strsub what «with» caseCounts 0 (source.drop skip) := by
  induction skip generalizing source with
  | zero => rfl
  | succ skip ih =>
      cases source with
      | nil => rfl
      | cons c source => rw [strsub, ih, List.drop_succ_cons]

theorem strsub_found {«with» : Str} {c : UInt8} (hwhat : what ≠ [])
    (hfound : foundAt caseCounts (c :: source) what 0 = true) :
    strsub what «with» caseCounts 0 (c :: source) =
      «with» ++ strsub what «with» caseCounts 0 ((c :: source).drop what.length) := by
  obtain ⟨n, hn⟩ := Nat.exists_eq_add_of_le' (List.length_pos_of_ne_nil hwhat)
  rw [strsub, startsWith_eq, if_pos hfound, strsub_skip, hn, Nat.add_sub_cancel, List.drop_succ_cons]

theorem strsub_other {«with» : Str} {c : UInt8} (hfound : ¬ foundAt caseCounts (c :: source) what 0 = true) :
    strsub what «with» caseCounts 0 (c :: source) = c :: strsub what «with» caseCounts 0 source := by
  rw [strsub, startsWith_eq, if_neg hfound]

/-- The pattern is not found in nothing. -/
theorem not_occursAt_nil (hwhat : what ≠ []) (p : Nat) : ¬ OccursAt caseCounts [] what p := by
  intro hp
  have hpos := List.length_pos_of_ne_nil hwhat
  have hlt := hp.lt
  have := hp.1
  simp only [positions, List.length_nil] at hlt
  omega

/-- What is behind a match is shorter. -/
theorem drop_found {c : UInt8} {fuel : Nat} (hwhat : what ≠ []) (hfuel : source.length < fuel) :
    ((c :: source).drop what.length).length < fuel := by
  have hpos := List.length_pos_of_ne_nil hwhat
  rw [List.length_drop, List.length_cons]
  omega

/-- The loop comes to its end. -/
theorem strsubLoop_eq {«with» : Str} {fuel : Nat} (hwhat : what ≠ []) (hfuel : source.length < fuel) :
    strsubLoop caseCounts what «with» fuel source = some (strsub what «with» caseCounts 0 source) := by
  induction fuel generalizing source with
  | zero => exact absurd hfuel (Nat.not_lt_zero _)
  | succ fuel ih =>
      cases source with
      | nil => rfl
      | cons c source =>
          have htail : source.length < fuel := Nat.lt_of_succ_lt_succ hfuel
          rw [strsubLoop]
          by_cases hfound : foundAt caseCounts (c :: source) what 0 = true
          · rw [if_pos hfound, ih (drop_found hwhat htail), strsub_found hwhat hfound]
            rfl
          · rw [if_neg hfound, ih htail, strsub_other hfound]
            rfl

/-- It has replaced the occurrences. -/
theorem strsub_replaced («with» : Str) (hwhat : what ≠ []) :
    Replaced caseCounts what «with» source (strsub what «with» caseCounts 0 source) := by
  induction hn : source.length using Nat.strongRecOn generalizing source with
  | ind n ih =>
      cases source with
      | nil => exact .none (not_occursAt_nil hwhat)
      | cons c source =>
          have hlen : source.length < n := by
            rw [← hn]
            exact Nat.lt_succ_self _
          by_cases hfound : foundAt caseCounts (c :: source) what 0 = true
          · have hocc := (foundAt_iff (Nat.zero_le _)).mp hfound
            have hlt := hocc.lt
            rw [positions] at hlt
            have hdrop : ((c :: source).drop what.length).length < n := drop_found hwhat hlen
            have hrest := ih _ hdrop rfl
            have hsplit : (c :: source) =
                [] ++ (c :: source).take what.length ++ (c :: source).drop what.length := by
              rw [List.nil_append, List.take_append_drop]
            have hfirst : Replaced caseCounts what «with» (c :: source)
                ([] ++ «with» ++ strsub what «with» caseCounts 0 ((c :: source).drop what.length)) := by
              rw [hsplit] at hocc
              conv => arg 4; rw [hsplit]
              refine .first hocc ?_ (fun p hp => hp.1) hrest
              rw [List.length_take]
              omega
            rw [strsub_found hwhat hfound]
            exact hfirst
          · rw [strsub_other hfound]
            exact (ih _ hlen rfl).cons (Bool.not_eq_true _ ▸ hfound)

/-- There is one result. -/
theorem Replaced.unique {«with» r r' : Str}
    (h : Replaced caseCounts what «with» source r) (h' : Replaced caseCounts what «with» source r') :
    r' = r := by
  induction h generalizing r' with
  | none hnone =>
      cases h' with
      | none => rfl
      | first hocc => exact absurd hocc (hnone _)
  | @first before found after after' hocc hlen hleft hrest ih =>
      generalize hsource : before ++ found ++ after = source at h' hocc hleft
      cases h' with
      | none hnone => exact absurd hocc (hnone _)
      | @first before1 found1 after1 after1' hocc1 hlen1 hleft1 hrest1 =>
          have hle := hleft _ hocc1
          have hle1 := hleft1 _ hocc
          have hbefore : before.length = before1.length := by omega
          rw [List.append_assoc, List.append_assoc] at hsource
          obtain ⟨rfl, hfound⟩ := List.append_inj hsource hbefore
          obtain ⟨rfl, rfl⟩ := List.append_inj hfound (hlen.trans hlen1.symm)
          rw [ih hrest1]

example : strsubLoop false (Str.ofString "aB") (Str.ofString "<ab>") 9 (Str.ofString "xABabA") =
    some (Str.ofString "x<ab><ab>A") := by decide

end Waverous
