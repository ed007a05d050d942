import Waverous.Utils
import Waverous.CodeGen
import Mathlib.Tactic.Ring
import Mathlib.Algebra.Order.Ring.Int

/-! # Arithmetic — `numbers.c`

    Sums and products of integers wrap around.  A division is the one instruction that may trap:
    its result has to be a 32-bit number.  What floating-point operations give is not computed. -/

namespace Waverous

/-- The operations on doubles that the machine and the library have; `pow` also returns
    `errno != 0`. -/
structure FloatOps where
  add : UInt64 → UInt64 → UInt64
  subtract : UInt64 → UInt64 → UInt64
  multiply : UInt64 → UInt64 → UInt64
  divide : UInt64 → UInt64 → UInt64
  fmod : UInt64 → UInt64 → UInt64
  pow : UInt64 → UInt64 → UInt64 × Bool
  ofInt : Int32 → UInt64

/-- `IS_REAL`: neither infinite nor not a number. -/
def isReal (bits : UInt64) : Bool := bits &&& 0x7FF0000000000000 != 0x7FF0000000000000

/-- A result that is real, or E_FLOAT. -/
def newReal (d : UInt64) : Var := if isReal d then .float d else .err .eFloat

/-! ## Integers and the machine -/

/-- The signed division of the machine: `none` is a trap. -/
def machineDiv (a b : Int32) : Option Int32 :=
  if b = 0 ∨ (a = Int32.minValue ∧ b = -1) then none else some (a / b)

/-- The remainder, for which the machine divides. -/
def machineMod (a b : Int32) : Option Int32 :=
  if b = 0 ∨ (a = Int32.minValue ∧ b = -1) then none else some (a % b)

/-! ## The operations -/

/-- `SIMPLE_BINARY`. -/
def simpleBinary (iop : Int32 → Int32 → Int32) (fop : UInt64 → UInt64 → UInt64) : Var → Var → Var
  | .int a, .int b => .int (iop a b)
  | .float a, .float b => newReal (fop a b)
  | _, _ => .err .eType

/-- `DIVISION_OP`; `none` is a trap. -/
def divisionOp (iop : Int32 → Int32 → Option Int32) (fop : UInt64 → UInt64 → UInt64) :
    Var → Var → Option Var
  | .int a, .int b => if b ≠ 0 then (iop a b).map .int else some (.err .eDiv)
  | .float a, .float b => some (if floatEq b 0 then .err .eDiv else newReal (fop a b))
  | a, b => some (.err (if sameType a b then .eDiv else .eType))

section

variable (fl : FloatOps)

/-- `do_add`. -/
def doAdd : Var → Var → Var := simpleBinary (· + ·) fl.add

/-- `do_subtract`. -/
def doSubtract : Var → Var → Var := simpleBinary (· - ·) fl.subtract

/-- `do_multiply`. -/
def doMultiply : Var → Var → Var := simpleBinary (· * ·) fl.multiply

/-- `do_divide`. -/
def doDivide : Var → Var → Option Var := divisionOp machineDiv fl.divide

/-- `do_modulus`. -/
def doModulus : Var → Var → Option Var := divisionOp machineMod fl.fmod

/-- The loop of `do_power`, for so many rounds at most: `none` if it has not come to its end. -/
def powerLoop : Nat → Int32 → Int32 → Int32 → Option Int32
  | 0, _, b, r => if b ≠ 0 then none else some r
  | rounds + 1, a, b, r =>
      if b ≠ 0 then powerLoop rounds (a * a) (b >>> 1) (if b % 2 ≠ 0 then r * a else r) else some r

/-- Integer exponentiation, with so many rounds of the loop. -/
def intPower (rounds : Nat) (a b : Int32) : Option Var :=
  if b < 0 then
    if a = -1 then some (.int (if b % 2 = 0 then 1 else -1))
    else if a = 0 then some (.err .eDiv)
    else if a = 1 then some (.int 1)
    else some (.int 0)
  else (powerLoop rounds a b 1).map .int

/-- A floating-point power, or E_FLOAT. -/
def floatPower (a d : UInt64) : Var :=
  let (p, failed) := fl.pow a d
  if failed then .err .eFloat else newReal p

/-- `do_power`, with so many rounds of its loop. -/
def doPower (rounds : Nat) (lhs rhs : Var) : Option Var :=
  match lhs, rhs with
  | .int a, .int b => intPower rounds a b
  | .float a, .int b => some (floatPower fl a (fl.ofInt b))
  | .float a, .float b => some (floatPower fl a b)
  | _, _ => some (.err .eType)

end

/-! ## Division -/

/-- The machine divides, and rounds toward zero, wherever the quotient is a 32-bit number. -/
theorem machineDiv_eq {a b : Int32} (hb : b ≠ 0) (hab : ¬ (a = Int32.minValue ∧ b = -1)) :
    ∃ q r, machineDiv a b = some q ∧ machineMod a b = some r ∧
      q.toInt = a.toInt.tdiv b.toInt ∧ r.toInt = a.toInt.tmod b.toInt := by
  have hno : ¬ (b = 0 ∨ (a = Int32.minValue ∧ b = -1)) := fun h => h.elim hb hab
  refine ⟨a / b, a % b, by unfold machineDiv; rw [if_neg hno], by unfold machineMod; rw [if_neg hno],
    ?_, Int32.toInt_mod a b⟩
  by_cases ha : a = Int32.minValue
  · exact Int32.toInt_div_of_ne_right a b fun h => hab ⟨ha, h⟩
  · exact Int32.toInt_div_of_ne_left a b ha

theorem toInt_ne_zero {b : Int32} (hb : b ≠ 0) : b.toInt ≠ 0 :=
  fun h => hb (Int32.toInt.inj (h.trans Int32.toInt_zero.symm))

/-- The remainder is less than the divisor. -/
theorem natAbs_tmod_lt (a : Int) {b : Int} (hb : b ≠ 0) : (a.tmod b).natAbs < b.natAbs := by
  rw [Int.natAbs_tmod]
  exact Nat.mod_lt _ (Int.natAbs_pos.mpr hb)

/-- Quotient and remainder, modulo 2^32. -/
theorem quotient_remainder {a b q r : Int32} (hq : q.toInt = a.toInt.tdiv b.toInt)
    (hr : r.toInt = a.toInt.tmod b.toInt) : a = q * b + r := by
  have hsum : q.toInt * b.toInt + r.toInt = a.toInt := by
    rw [hq, hr]
    exact Int.tdiv_mul_add_tmod a.toInt b.toInt
  rw [← Int32.ofInt_toInt a, ← hsum, Int32.ofInt_add, Int32.ofInt_mul, Int32.ofInt_toInt,
    Int32.ofInt_toInt, Int32.ofInt_toInt]

/-! ## Powers -/

/-- The power modulo 2^32 depends on the base modulo 2^32. -/
theorem ofInt_pow_congr {x y : Int} (h : Int32.ofInt x = Int32.ofInt y) (k : Nat) :
    Int32.ofInt (x ^ k) = Int32.ofInt (y ^ k) := by
  induction k with
  | zero => rw [pow_zero, pow_zero]
  | succ k ih => rw [pow_succ, pow_succ, Int32.ofInt_mul, Int32.ofInt_mul, ih, h]

/-- The square of the base takes half of the exponent. -/
theorem ofInt_square_pow (a : Int32) (k : Nat) :
    Int32.ofInt ((a * a).toInt ^ k) = Int32.ofInt (a.toInt ^ (2 * k)) := by
  have hsquare : Int32.ofInt (a * a).toInt = Int32.ofInt (a.toInt * a.toInt) := by
    rw [Int32.ofInt_toInt, Int32.ofInt_mul, Int32.ofInt_toInt]
  rw [ofInt_pow_congr hsquare, pow_mul, pow_two]

theorem toInt_shiftRight_one (b : Int32) : (b >>> 1).toInt = b.toInt / 2 := by
  have h : (b >>> 1).toInt = b.toInt >>> (1 : Nat) := BitVec.toInt_sshiftRight'
  rw [h, Int.shiftRight_eq_div_pow]
  rfl

/-- An exponent is odd or even, and half of it is left. -/
theorem toNat_exponent {b : Int32} (h : 0 ≤ b.toInt) :
    b.toInt.toNat = 2 * (b >>> 1).toInt.toNat + if b % 2 ≠ 0 then 1 else 0 := by
  have hmod : (b % 2).toInt = b.toInt % 2 := by
    rw [Int32.toInt_mod, show (2 : Int32).toInt = 2 from rfl, Int.tmod_eq_emod_of_nonneg h]
  have hodd : b % 2 ≠ 0 ↔ b.toInt % 2 ≠ 0 := by
    rw [← hmod]
    exact ⟨toInt_ne_zero, fun hne heq => hne (heq ▸ Int32.toInt_zero)⟩
  rw [toInt_shiftRight_one]
  by_cases hb : b % 2 ≠ 0
  · rw [if_pos hb]
    have := hodd.mp hb
    omega
  · rw [if_neg hb]
    have := mt hodd.mpr hb
    omega

/-- The invariant of the loop: what is left to multiply is the power to the exponent that is left.
    So it ends, after one round for each bit of the exponent. -/
theorem powerLoop_eq (rounds : Nat) : ∀ a b r : Int32, 0 ≤ b.toInt → b.toInt < 2 ^ rounds →
    powerLoop rounds a b r = some (r * Int32.ofInt (a.toInt ^ b.toInt.toNat)) := by
  have hdone : ∀ a r : Int32, r = r * Int32.ofInt (a.toInt ^ (0 : Int32).toInt.toNat) := by
    intro a r
    show r = r * Int32.ofInt (a.toInt ^ 0)
    rw [pow_zero, show Int32.ofInt 1 = 1 from rfl, Int32.mul_one]
  induction rounds with
  | zero =>
      intro a b r h0 hlt
      have hb : b = 0 := by
        refine Int32.toInt.inj (Int32.toInt_zero ▸ ?_)
        rw [pow_zero] at hlt
        omega
      subst hb
      exact congrArg some (hdone a r)
  | succ rounds ih =>
      intro a b r h0 hlt
      by_cases hb : b = 0
      · subst hb
        exact congrArg some (hdone a r)
      have hhalf := toInt_shiftRight_one b
      have hround : powerLoop (rounds + 1) a b r =
          powerLoop rounds (a * a) (b >>> 1) (if b % 2 ≠ 0 then r * a else r) := by
        rw [powerLoop, if_pos hb]
      rw [hround, ih (a * a) (b >>> 1) _ (by omega) (by rw [pow_succ] at hlt; omega), ofInt_square_pow,
        toNat_exponent h0]
      congr 1
      split
      · rw [pow_succ, Int32.ofInt_mul, Int32.ofInt_toInt, Int32.mul_assoc, Int32.mul_comm a]
      · rfl

/-- What an integer power is to be. -/
def powerValue (a b : Int32) : Var :=
  if 0 ≤ b.toInt then .int (Int32.ofInt (a.toInt ^ b.toInt.toNat))
  else if a.toInt = 0 then .err .eDiv
  else if a.toInt = 1 then .int 1
  else if a.toInt = -1 then .int (if b.toInt % 2 = 0 then 1 else -1)
  else .int 0

theorem emod_two_iff (b : Int32) : b % 2 = 0 ↔ b.toInt % 2 = 0 := by
  have hmod : (b % 2).toInt = b.toInt.tmod 2 := Int32.toInt_mod b 2
  rw [← Int.dvd_iff_emod_eq_zero, Int.dvd_iff_tmod_eq_zero, ← hmod]
  exact ⟨fun h => h ▸ Int32.toInt_zero, fun h => Int32.toInt.inj (h.trans Int32.toInt_zero.symm)⟩

/-- `do_power` of integers, whose loop ends after at most 31 rounds. -/
theorem doPower_int (fl : FloatOps) (more : Nat) (a b : Int32) :
    doPower fl (31 + more) (.int a) (.int b) = some (powerValue a b) := by
  show intPower (31 + more) a b = _
  unfold intPower powerValue
  by_cases hb : b < 0
  · have hneg : b.toInt < 0 := Int32.lt_iff_toInt_lt.mp hb
    rw [if_pos hb, if_neg (show ¬ 0 ≤ b.toInt by omega)]
    by_cases hm : a = -1
    · subst hm
      rw [if_pos rfl, if_neg (show ¬ (-1 : Int32).toInt = 0 by decide),
        if_neg (show ¬ (-1 : Int32).toInt = 1 by decide), if_pos (show (-1 : Int32).toInt = -1 by decide)]
      simp only [emod_two_iff]
    rw [if_neg hm]
    by_cases h0 : a = 0
    · subst h0
      rw [if_pos rfl, if_pos (by decide)]
    rw [if_neg h0, if_neg (toInt_ne_zero h0)]
    by_cases h1 : a = 1
    · subst h1
      rw [if_pos rfl, if_pos (by decide)]
    rw [if_neg h1, if_neg fun h => h1 (Int32.toInt.inj (h.trans rfl)),
      if_neg fun h => hm (Int32.toInt.inj (h.trans rfl))]
  · have h0 : 0 ≤ b.toInt := by
      have := mt Int32.lt_iff_toInt_lt.mpr hb
      rw [Int32.toInt_zero] at this
      omega
    have hlt : b.toInt < 2 ^ (31 + more) :=
      Int.lt_of_lt_of_le b.toInt_lt (pow_le_pow_right₀ (by decide) (Nat.le_add_right 31 more))
    rw [if_neg hb, if_pos h0, powerLoop_eq (31 + more) a b 1 h0 hlt, Int32.one_mul]
    rfl

end Waverous
