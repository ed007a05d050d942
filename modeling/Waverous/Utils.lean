import Waverous.Structures

/-! # Comparing values — `utils.c`, `numbers.c`, `list.c` -/

namespace Waverous

/-- `cmap`: ASCII upper case to lower case, every other byte to itself. -/
def cmap (c : UInt8) : UInt8 := if 65 ≤ c ∧ c ≤ 90 then c + 32 else c

/-- `!mystrcasecmp(s, t)`. -/
def strcaseEq (s t : Str) : Bool := s.map cmap == t.map cmap

theorem strcaseEq_iff {a b : Str} : strcaseEq a b = true ↔ a.map cmap = b.map cmap := by
  rw [strcaseEq, beq_iff_eq]

theorem strcaseEq_refl (a : Str) : strcaseEq a a = true := strcaseEq_iff.mpr rfl

theorem strcaseEq_comm (a b : Str) : strcaseEq a b = strcaseEq b a := by
  rw [Bool.eq_iff_iff, strcaseEq_iff, strcaseEq_iff]
  exact eq_comm

/-- Names that differ in case only are the same to every comparison. -/
theorem strcaseEq_congr {a b : Str} (h : strcaseEq a b = true) (c : Str) :
    strcaseEq a c = strcaseEq b c := by
  rw [strcaseEq_iff] at h
  rw [Bool.eq_iff_iff, strcaseEq_iff, strcaseEq_iff, h]

/-- `str_hash`. -/
def strHash (s : Str) : UInt32 :=
  s.foldl (fun ans c => (ans <<< 3) + (ans >>> 28) + (cmap c).toUInt32) 0

/-- The double with these bits is not a number. -/
def isNaN (bits : UInt64) : Bool := 0x7FF0000000000000 < bits &&& 0x7FFFFFFFFFFFFFFF

/-- `==` on doubles: the two zeros are equal, and a NaN equals nothing. -/
def floatEq (a b : UInt64) : Bool :=
  !isNaN a && !isNaN b && (a == b || ((a ||| b) &&& 0x7FFFFFFFFFFFFFFF) == 0)

mutual
/-- `equality`.  The last case is reached by two values of different types; of
    two equal markers the code panics, but a marker is no MOO value. -/
def equality (caseMatters : Bool) : Var → Var → Bool
  | .float a, .float b => floatEq a b
  | .int a, .int b => a == b
  | .obj a, .obj b => a == b
  | .err a, .err b => a == b
  | .str a, .str b => if caseMatters then a == b else strcaseEq a b
  | .list a, .list b => equalityList caseMatters a b
  | _, _ => false

def equalityList (caseMatters : Bool) : List Var → List Var → Bool
  | [], [] => true
  | a :: as, b :: bs => equality caseMatters a b && equalityList caseMatters as bs
  | _, _ => false
end

/-- `is_true`. -/
def isTrue : Var → Bool
  | .int n => n != 0
  | .float bits => !floatEq bits 0
  | .str s => s != []
  | .list l => !l.isEmpty
  | _ => false

/-- `ismember`: the index of the first equal element, counted from 1, or 0. -/
def ismember (lhs : Var) (rhs : List Var) (caseMatters : Bool) : Nat :=
  match rhs.findIdx? fun v => equality caseMatters lhs v with
  | some i => i + 1
  | none => 0

/-! ## Names of verbs -/

/-- The `star` of `verbcasecmp`. -/
inductive Star where
  | none | inner | «end»
  deriving DecidableEq, Repr

/-- `!*v || *v == ' '`: the end of one of the names. -/
def nameEnds : Str → Bool
  | [] => true
  | c :: _ => c == 32

/-- `while (*v == '*')`. -/
def skipStars : Str → Star → Str × Star
  | 42 :: v, _ => skipStars v (if nameEnds v then .end else .inner)
  | v, star => (v, star)

/-- The inner loop of `verbcasecmp`, up to its `break`: the rest of the names, whether the
    word has come to its end, and `star`. -/
def matchName : Str → Str → Star → Str × Bool × Star
  | v, [], star =>
      let (v, star) := skipStars v star
      (v, true, star)
  | v, w :: word, star =>
      let (v, star) := skipStars v star
      match v with
      | [] => ([], false, star)
      | c :: v' => if c = 32 ∨ cmap w ≠ cmap c then (v, false, star) else matchName v' word star

/-- The outer loop; each round takes at least one character from the names. -/
def matchNames (word : Str) : Nat → Str → Bool
  | 0, _ => false
  | _, [] => false
  | fuel + 1, v =>
      let (v, wordEnds, star) := matchName v word .none
      if (if wordEnds then star != .none || nameEnds v else star == .end) then true
      else matchNames word fuel ((v.dropWhile (· != 32)).dropWhile (· == 32))

/-- `verbcasecmp`, when the two strings are different ones. -/
def verbcasecmp (verb word : Str) : Bool := matchNames word verb.length verb

example : verbcasecmp (Str.ofString "foo*bar  get*") (Str.ofString "FOOB") = true := by decide

example : verbcasecmp (Str.ofString "foo*bar") (Str.ofString "foo*bar") = false := by decide

end Waverous
