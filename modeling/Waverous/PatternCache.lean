import Waverous.Lib.TailedList
import Waverous.Structures
import Mathlib.Data.List.Perm.Basic

/-! # The cache of patterns — `list.c`

    The last patterns that `match` and `rmatch` have asked for are kept in a list, the one asked
    for last at its front.  What compiles a pattern and what it is matched by are given. -/

namespace Waverous.PatternCache

open TailedList

/-- `Match_Result`, with the indices of a match. -/
inductive MatchResult where
  | succeeded (regs : List (Int32 × Int32))
  | failed
  | aborted
  deriving DecidableEq, Repr

/-- `pat_cache_entry`, but for `next`; a pattern without `ptr` is `none`. -/
structure Entry (Pat : Type) where
  string : Option Str
  caseMatters : Bool
  pattern : Option Pat

/-- `pat_cache` and `pat_cache_entries`. -/
structure Cache (Pat : Type) where
  entries : Nat → Entry Pat
  links : Links Nat

variable {Pat : Type} (size : Nat)

/-- `setup_pattern_cache`. -/
def setupPatternCache : Cache Pat where
  entries _ := ⟨none, false, none⟩
  links :=
    { head := some 0
      next := fun i => if i < size - 1 then some (i + 1) else none }

section

variable (newPattern : Str → Bool → Option Pat) (c : Cache Pat) (string : Str) (caseMatters : Bool)

/-- The condition of a hit. -/
def Hit (i : Nat) : Prop :=
  (c.entries i).string = some string ∧ caseMatters = (c.entries i).caseMatters

instance (i : Nat) : Decidable (Hit c string caseMatters i) := inferInstanceAs (Decidable (_ ∧ _))

/-- The `while` of `get_pattern`: where it stops, with `entry_ptr` and `entry`, and whether that is a
    hit; `none` if it goes round more often than `fuel` allows. -/
def searchCache : Nat → Slot Nat → Nat → Option (Slot Nat × Nat × Bool)
  | 0, _, _ => none
  | fuel + 1, entryPtr, entry =>
      if Hit c string caseMatters entry then some (entryPtr, entry, true)
      else
        match c.links.next entry with
        | none => some (entryPtr, entry, false)
        | some next => searchCache fuel (.link entry) next

/-- What an entry is reused for; a pattern that is not compiled leaves no string. -/
def newEntry : Entry Pat where
  string := (newPattern string caseMatters).map fun _ => string
  caseMatters := caseMatters
  pattern := newPattern string caseMatters

/-- The three assignments that move an entry to the front. -/
def moveToFront (links : Links Nat) (entryPtr : Slot Nat) (entry : Nat) : Links Nat :=
  let links := links.set entryPtr (links.next entry)
  let links := links.set (.link entry) links.head
  links.set .head (some entry)

/-- `get_pattern`. -/
def getPattern : Option (Option Pat × Cache Pat) := do
  let entry ← c.links.head
  let (entryPtr, entry, hit) ← searchCache c string caseMatters size .head entry
  let entries :=
    if hit then c.entries
    else Function.update c.entries entry (newEntry newPattern string caseMatters)
  some ((entries entry).pattern, ⟨entries, moveToFront c.links entryPtr entry⟩)

end

/-- What `do_match` makes of the pattern. -/
def matchAnswer (matchPattern : Pat → Str → Bool → MatchResult) (pat : Option Pat) (subject : Str)
    (isReverse : Bool) : Var :=
  match pat with
  | none => .err .eInvarg
  | some pat =>
      match matchPattern pat subject isReverse with
      | .succeeded regs =>
          let pair (i : Nat) : Int32 × Int32 := regs.getD i (0, 0)
          .list [.int (pair 0).1, .int (pair 0).2,
            .list ((List.range 9).map fun i => .list [.int (pair (i + 1)).1, .int (pair (i + 1)).2]),
            .str subject]
      | .failed => .list []
      | .aborted => .err .eQuota

/-- A call of `match`, or of `rmatch` if `isReverse`. -/
structure Call where
  subject : Str
  pattern : Str
  caseMatters : Bool
  isReverse : Bool

variable (newPattern : Str → Bool → Option Pat) (matchPattern : Pat → Str → Bool → MatchResult)

/-- `do_match`. -/
def doMatch (c : Cache Pat) (call : Call) : Option (Var × Cache Pat) := do
  let (pat, c) ← getPattern size newPattern c call.pattern call.caseMatters
  some (matchAnswer matchPattern pat call.subject call.isReverse, c)

/-- Calls one after the other. -/
def doMatches (c : Cache Pat) : List Call → Option (List Var × Cache Pat)
  | [] => some ([], c)
  | call :: calls => do
      let (ans, c) ← doMatch size newPattern matchPattern c call
      let (answers, c) ← doMatches c calls
      some (ans :: answers, c)

/-- The answer of a call when nothing is cached. -/
def uncached (call : Call) : Var :=
  matchAnswer matchPattern (newPattern call.pattern call.caseMatters) call.subject call.isReverse

/-! ## The list of the entries -/

/-- One list that ends, through all entries, each with what its string is compiled to. -/
structure Good (c : Cache Pat) (l : List Nat) : Prop where
  perm : l.Perm (List.range size)
  threaded : Threaded c.links l
  compiled : ∀ i < size, ∀ s, (c.entries i).string = some s →
    (c.entries i).pattern = newPattern s (c.entries i).caseMatters

theorem setup_good (hsize : 0 < size) :
    Good size newPattern (setupPatternCache size) (List.range size) where
  perm := .rfl
  threaded := by
    intro l1 l2 hl
    have hlen := congrArg List.length hl
    rw [List.length_range, List.length_append] at hlen
    have hhead : l2.head? = if l1.length < size then some l1.length else none := by
      have hget : (List.range size)[l1.length]? = l2[0]? := by
        rw [hl, List.getElem?_append_right (Nat.le_refl _), Nat.sub_self]
      rw [List.head?_eq_getElem?, ← hget]
      split
      next hlt => rw [List.getElem?_range hlt]
      next hge => rw [List.getElem?_eq_none (by rw [List.length_range]; omega)]
    have hl1 : l1 = List.range l1.length := by
      have htake := congrArg (List.take l1.length) hl
      rw [List.take_left, List.take_range, Nat.min_eq_left (by omega)] at htake
      exact htake.symm
    rw [hhead]
    cases hk : l1.length with
    | zero =>
        rw [hk] at hl1
        rw [hl1, if_pos hsize]
        rfl
    | succ k =>
        rw [hk, List.range_succ] at hl1
        rw [hl1, slotAfter_concat]
        show (if k < size - 1 then some (k + 1) else none) = _
        by_cases hlt : k + 1 < size
        · rw [if_pos hlt, if_pos (by omega)]
        · rw [if_neg hlt, if_neg (by omega)]
  compiled := by
    rintro i - s h
    exact nomatch h

variable {size newPattern} {c : Cache Pat} {l d e : List Nat} {string : Str} {caseMatters : Bool}

/-- The search comes to an entry of the list, by the slot before it. -/
theorem searchCache_spec {a fuel : Nat} (h : Threaded c.links (d ++ a :: e)) (hfuel : e.length < fuel) :
    ∃ d' b e' hit, searchCache c string caseMatters fuel (slotAfter d) a = some (slotAfter d', b, hit) ∧
      d ++ a :: e = d' ++ b :: e' ∧ (hit = true → Hit c string caseMatters b) := by
  induction fuel generalizing d a e with
  | zero => omega
  | succ fuel ih =>
      rw [searchCache]
      by_cases hhit : Hit c string caseMatters a
      · rw [if_pos hhit]
        exact ⟨d, a, e, true, rfl, rfl, fun _ => hhit⟩
      · rw [if_neg hhit, h.next]
        cases e with
        | nil => exact ⟨d, a, [], false, rfl, rfl, fun h => nomatch h⟩
        | cons b e =>
            rw [List.append_cons] at h ⊢
            have hrun := ih h (Nat.lt_of_succ_lt_succ hfuel)
            rw [slotAfter_concat] at hrun
            exact hrun

theorem moveToFront_threaded {links : Links Nat} {b : Nat} (h : Threaded links (d ++ b :: e))
    (hnodup : (d ++ b :: e).Nodup) : Threaded (moveToFront links (slotAfter d) b) (b :: (d ++ e)) := by
  have hperm : (b :: (d ++ e)).Nodup := List.nodup_middle.mp hnodup
  exact (h.erase hnodup).cons (List.nodup_cons.mp hperm).1 (List.nodup_cons.mp hperm).2

/-- The pattern is the one that is compiled from the string, and the list stays one. -/
theorem getPattern_spec (h : Good size newPattern c l) (hsize : 0 < size) (string : Str)
    (caseMatters : Bool) : ∃ c' l', getPattern size newPattern c string caseMatters =
      some (newPattern string caseMatters, c') ∧ Good size newPattern c' l' := by
  have hlen : l.length = size := h.perm.length_eq.trans List.length_range
  obtain ⟨a, e, rfl⟩ : ∃ a e, l = a :: e := List.exists_cons_of_length_pos (hlen ▸ hsize)
  have hhead : c.links.head = some a := h.threaded.head
  have hthread : Threaded c.links ([] ++ a :: e) := h.threaded
  obtain ⟨d, b, e', hit, hrun, hl, hhit⟩ :=
    @searchCache_spec Pat c [] e string caseMatters a size hthread (by
      rw [List.length_cons] at hlen
      omega)
  rw [List.nil_append] at hl
  have hnodup : (d ++ b :: e').Nodup := hl ▸ h.perm.nodup_iff.mpr List.nodup_range
  have hthreaded := moveToFront_threaded (hl ▸ h.threaded) hnodup
  have hperm : (b :: (d ++ e')).Perm (List.range size) :=
    List.perm_middle.symm.trans (hl ▸ h.perm)
  have hb : b < size := List.mem_range.mp (hperm.mem_iff.mp List.mem_cons_self)
  cases hit with
  | true =>
      obtain ⟨hstring, hcase⟩ := hhit rfl
      have hpat : (c.entries b).pattern = newPattern string caseMatters := by
        rw [h.compiled b hb string hstring, hcase]
      refine ⟨⟨c.entries, moveToFront c.links (slotAfter d) b⟩, b :: (d ++ e'), ?_, hperm, hthreaded,
        h.compiled⟩
      rw [← hpat, getPattern, hhead]
      simp only [Option.bind_eq_bind, Option.bind_some]
      rw [slotAfter_nil] at hrun
      rw [hrun]
      rfl
  | false =>
      refine ⟨⟨Function.update c.entries b (newEntry newPattern string caseMatters),
        moveToFront c.links (slotAfter d) b⟩, b :: (d ++ e'), ?_, hperm, hthreaded, ?_⟩
      · rw [getPattern, hhead]
        simp only [Option.bind_eq_bind, Option.bind_some]
        rw [slotAfter_nil] at hrun
        rw [hrun]
        simp [newEntry]
      · intro i hi s hs
        show (Function.update c.entries b _ i).pattern = _
        by_cases hib : i = b
        · subst hib
          simp only [Function.update_self, newEntry] at hs ⊢
          cases hnew : newPattern string caseMatters with
          | none => rw [hnew] at hs; exact nomatch hs
          | some p =>
              rw [hnew] at hs
              cases hs
              rw [hnew]
        · simp only [Function.update_of_ne hib] at hs ⊢
          exact h.compiled i hi s hs

variable {matchPattern : Pat → Str → Bool → MatchResult}

theorem doMatch_spec (h : Good size newPattern c l) (hsize : 0 < size) (call : Call) :
    ∃ c' l', doMatch size newPattern matchPattern c call =
      some (uncached newPattern matchPattern call, c') ∧ Good size newPattern c' l' := by
  obtain ⟨c', l', hrun, hgood⟩ := getPattern_spec h hsize call.pattern call.caseMatters
  refine ⟨c', l', ?_, hgood⟩
  rw [doMatch, hrun]
  rfl

theorem doMatches_spec (h : Good size newPattern c l) (hsize : 0 < size) (calls : List Call) :
    ∃ c' l', doMatches size newPattern matchPattern c calls =
      some (calls.map (uncached newPattern matchPattern), c') ∧ Good size newPattern c' l' := by
  induction calls generalizing c l with
  | nil => exact ⟨c, l, rfl, h⟩
  | cons call calls ih =>
      obtain ⟨c1, l1, hrun, h1⟩ := @doMatch_spec Pat size newPattern c l matchPattern h hsize call
      obtain ⟨c2, l2, hruns, h2⟩ := ih h1
      refine ⟨c2, l2, ?_, h2⟩
      rw [doMatches, hrun]
      simp only [Option.bind_eq_bind, Option.bind_some]
      rw [hruns]
      rfl

/-- Whatever is matched, the answers are those that are given when nothing is cached, and the
    entries are on one list that ends. -/
theorem cache_transparent (size : Nat) (hsize : 0 < size) (newPattern : Str → Bool → Option Pat)
    (matchPattern : Pat → Str → Bool → MatchResult) (calls : List Call) :
    ∃ c, doMatches size newPattern matchPattern (setupPatternCache size) calls =
        some (calls.map (uncached newPattern matchPattern), c) ∧
      ∃ l, l.Perm (List.range size) ∧ Threaded c.links l := by
  obtain ⟨c, l, hrun, hgood⟩ := doMatches_spec (setup_good size newPattern hsize) hsize calls
  exact ⟨c, hrun, l, hgood.perm, hgood.threaded⟩

/-- PATTERN_CACHE_SIZE. -/
def patternCacheSize : Nat := 20

/-- The first pattern is asked for again, after one that is not compiled. -/
theorem cache_transparent_sample : ∃ c, doMatches patternCacheSize
    (fun s m => if s = [37] then none else some (s, m)) (fun _ _ _ => .failed)
    (setupPatternCache patternCacheSize)
    [⟨[97], [97], true, false⟩, ⟨[97], [37], true, false⟩, ⟨[97], [97], true, true⟩] =
      some ([.list [], .err .eInvarg, .list []], c) ∧
    ∃ l, l.Perm (List.range patternCacheSize) ∧ Threaded c.links l :=
  cache_transparent patternCacheSize (by decide) _ _ _

end Waverous.PatternCache
