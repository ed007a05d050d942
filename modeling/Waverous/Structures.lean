import Mathlib.Algebra.GroupWithZero.Nat
import Mathlib.Data.List.Basic

/-! # Values — `structures.h`

    Object numbers, error values and the tagged union `Var`.  Integers are the
    code's 32-bit signed ones; object numbers are unbounded here (the object
    table never reaches 2^31 entries), strings are their bytes without the final
    NUL, and a floating-point number is the 64 bits of its double. -/

namespace Waverous

/-- `Objid`. -/
abbrev Objid := Int

/-- A MOO string: its bytes up to the NUL. -/
abbrev Str := List UInt8

/-- The bytes of an ASCII literal. -/
def Str.ofString (s : String) : Str := s.toList.map fun c => UInt8.ofNat c.toNat

/-- `SYSTEM_OBJECT`. -/
def systemObject : Objid := 0

/-- `NOTHING`. -/
def nothing : Objid := -1

/-- `enum error`; the order is the numeric value. -/
inductive Error where
  | eNone | eType | eDiv | ePerm | ePropnf | eVerbnf | eVarnf | eInvind
  | eRecmove | eMaxrec | eRange | eArgs | eNacc | eInvarg | eQuota | eFloat
  deriving DecidableEq, Repr, Inhabited

/-- `Var`: one constructor for each `var_type`.  `catch` and `finally` are the
    markers of handlers on the run-time stack, `none` an unset variable and
    `clear` a property slot that takes its ancestor's value. -/
inductive Var where
  | int (num : Int32)
  | obj (oid : Objid)
  | str (s : Str)
  | err (e : Error)
  | list (l : List Var)
  | clear
  | none
  | catch (num : Nat)
  | finally (pc : Nat)
  | float (bits : UInt64)
  deriving Repr, Inhabited

/-- `zero`. -/
def zero : Var := .int 0

mutual
/-- Structural equality of values, as a test. -/
def Var.beq : Var → Var → Bool
  | .int a, .int b => a == b
  | .obj a, .obj b => a == b
  | .str a, .str b => a == b
  | .err a, .err b => a == b
  | .list a, .list b => Var.beqList a b
  | .clear, .clear => true
  | .none, .none => true
  | .catch a, .catch b => a == b
  | .finally a, .finally b => a == b
  | .float a, .float b => a == b
  | _, _ => false

def Var.beqList : List Var → List Var → Bool
  | [], [] => true
  | a :: as, b :: bs => Var.beq a b && Var.beqList as bs
  | _, _ => false
end

mutual
theorem Var.beq_iff : ∀ a b : Var, Var.beq a b = true ↔ a = b
  | .list a, b => by cases b <;> simp [Var.beq, Var.beqList_iff a]
  | .int _, b | .obj _, b | .str _, b | .err _, b | .clear, b | .none, b
  | .catch _, b | .finally _, b | .float _, b => by cases b <;> simp [Var.beq]

theorem Var.beqList_iff : ∀ a b : List Var, Var.beqList a b = true ↔ a = b
  | [], b => by cases b <;> simp [Var.beqList]
  | a :: as, b => by cases b <;> simp [Var.beqList, Var.beq_iff a, Var.beqList_iff as]
end

instance : DecidableEq Var := fun a b => decidable_of_iff _ (Var.beq_iff a b)

end Waverous
