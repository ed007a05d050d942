import Waverous.Run
import Waverous.Hashing
import Waverous.DbIo

/-! # Operators — `execute.c`, `numbers.c`

    What each opcode that takes its operands from the stack gives for them: a value, an error for
    `PUSH_ERROR`, or a trap of the machine.  What C leaves undefined is a trap, too. -/

namespace Waverous

open Blocks (castInt Fault)

/-- What is made of the operands. -/
inductive Answer where
  | value (v : Var)
  | error (e : Error)
  | trap
  deriving DecidableEq

/-- `if (ans.type == TYPE_ERR) PUSH_ERROR(ans.v.err); else PUSH(ans);`. -/
def Answer.ofVar : Var → Answer
  | .err e => .error e
  | v => .value v

/-- The same, where the machine may trap. -/
def Answer.ofOption : Option Var → Answer
  | some v => .ofVar v
  | none => .trap

/-- The result of a function that may do something undefined. -/
def Answer.ofFault : Except Fault Var → Answer
  | .ok v => .value v
  | .error _ => .trap

/-- An integer that is a truth value. -/
def truth (b : Bool) : Var := .int (if b then 1 else 0)

/-! ## Comparisons -/

/-- `OP_EQ`. -/
def eqAnswer (lhs rhs : Var) : Answer := .value (truth (equality false rhs lhs))

/-- `OP_NE`. -/
def neAnswer (lhs rhs : Var) : Answer := .value (truth (!equality false rhs lhs))

/-- `compare_integers`. -/
def compareIntegers (a b : Int) : Int := if a < b then -1 else if a = b then 0 else 1

/-- The order of doubles that are numbers: the first bit is the sign. -/
def floatOrder (bits : UInt64) : Int :=
  let size : Int := (bits &&& 0x7FFFFFFFFFFFFFFF).toNat
  if bits &&& 0x8000000000000000 = 0 then size else -size

/-- `<` on doubles. -/
def floatLt (a b : UInt64) : Bool := !isNaN a && !isNaN b && decide (floatOrder a < floatOrder b)

/-- `compare_numbers`. -/
def compareNumbers : Var → Var → Except Error Int
  | .int a, .int b => .ok (compareIntegers a.toInt b.toInt)
  | .float a, .float b => .ok (if floatLt a b then -1 else if floatEq a b then 0 else 1)
  | _, _ => .error .eType

/-- What the four comparisons share; `signed` tells whether `char` is, and the last case is that of
    an impossible type. -/
def compareVars (signed : Bool) (lhs rhs : Var) : Except Error Int :=
  if isNumber lhs && isNumber rhs then compareNumbers lhs rhs
  else
    match lhs, rhs with
    | .list _, .list _ => .error .eType
    | .obj a, .obj b => .ok (compareIntegers a b)
    | .err a, .err b => .ok ((errorNum a).toInt - (errorNum b).toInt)
    | .str a, .str b => .ok (mystrcasecmpLoop signed a b)
    | .clear, .clear | .none, .none | .catch _, .catch _ | .finally _, .finally _ => .ok 0
    | _, _ => .error .eType

/-- `finish_comparison`. -/
def compareAnswer (signed : Bool) (holds : Int → Bool) (lhs rhs : Var) : Answer :=
  match compareVars signed lhs rhs with
  | .ok comparison => .value (truth (holds comparison))
  | .error e => .error e

/-- `OP_LT`. -/
def ltAnswer (signed : Bool) : Var → Var → Answer := compareAnswer signed fun c => decide (c < 0)

/-- `OP_LE`. -/
def leAnswer (signed : Bool) : Var → Var → Answer := compareAnswer signed fun c => decide (c ≤ 0)

/-- `OP_GT`. -/
def gtAnswer (signed : Bool) : Var → Var → Answer := compareAnswer signed fun c => decide (0 < c)

/-- `OP_GE`. -/
def geAnswer (signed : Bool) : Var → Var → Answer := compareAnswer signed fun c => decide (0 ≤ c)

/-- `OP_IN`. -/
def inAnswer (lhs rhs : Var) : Answer :=
  match rhs with
  | .list l => .value (.int (Int32.ofNat (ismember lhs l false)))
  | _ => .error .eType

/-! ## Arithmetic -/

section

variable (fl : FloatOps)

/-- `OP_MULT`, `OP_MINUS`, `OP_DIV` and `OP_MOD`. -/
def arithAnswer (op : ArithOp) (lhs rhs : Var) : Answer :=
  .ofOption (if isNumber lhs && isNumber rhs then op.apply fl lhs rhs else some (.err .eType))

/-- `OP_ADD`. -/
def addAnswer (lhs rhs : Var) : Answer :=
  if isNumber lhs && isNumber rhs then .ofVar (doAdd fl lhs rhs)
  else
    match lhs, rhs with
    | .str a, .str b => .value (.str (a ++ b))
    | _, _ => .error .eType

/-- `EOP_EXP`; 32 rounds of the loop of `do_power` are enough. -/
def expAnswer (lhs rhs : Var) : Answer := .ofOption (doPower fl 32 lhs rhs)

end

/-- `OP_NOT`. -/
def notAnswer (arg : Var) : Answer := .value (truth (!isTrue arg))

/-- `OP_UNARY_MINUS`. -/
def unaryMinusAnswer : Var → Answer
  | .int num => .value (.int (-num))
  | .float bits => .value (.float (bits ^^^ 0x8000000000000000))
  | _ => .error .eType

/-! ## Lists and strings -/

/-- `OP_MAKE_SINGLETON_LIST`. -/
def singletonAnswer (v : Var) : Answer := .value (.list [v])

/-- `OP_LIST_ADD_TAIL`. -/
def addTailAnswer (list tail : Var) : Answer :=
  match list with
  | .list l => .value (.list (l ++ [tail]))
  | _ => .error .eType

/-- `OP_LIST_APPEND`. -/
def appendAnswer (list tail : Var) : Answer :=
  match list, tail with
  | .list l, .list t => .value (.list (l ++ t))
  | _, _ => .error .eType

/-- `OP_CHECK_LIST_FOR_SPLICE`. -/
def spliceAnswer : Var → Answer
  | .list l => .value (.list l)
  | _ => .error .eType

/-- `OP_REF`. -/
def refAnswer (list index : Var) : Answer :=
  match list, index with
  | .list l, .int i =>
      if 0 < i.toInt then
        match l[i.toInt.toNat - 1]? with
        | some v => .value v
        | none => .error .eRange
      else .error .eRange
  | .str s, .int i =>
      if 0 < i.toInt then
        match s[i.toInt.toNat - 1]? with
        | some c => .value (.str [c])
        | none => .error .eRange
      else .error .eRange
  | _, _ => .error .eType

/-- `OP_PUSH_REF`, which is for lists only. -/
def pushRefAnswer (list index : Var) : Answer :=
  match list with
  | .list l => refAnswer (.list l) index
  | _ => .error .eType

/-- `OP_RANGE_REF` once the types are those of a range. -/
def withinAnswer (len «from» «to» : Int) (ans : Except Fault Var) : Answer :=
  if «from» ≤ «to» ∧ («from» ≤ 0 ∨ «from» > len ∨ «to» ≤ 0 ∨ «to» > len) then .error .eRange
  else .ofFault ans

/-- `OP_RANGE_REF`. -/
def rangeRefAnswer : Var → Var → Var → Answer
  | .list base, .int «from», .int «to» =>
      withinAnswer (castInt base.length) «from».toInt «to».toInt
        (.list <$> Ranges.sublist base «from».toInt «to».toInt)
  | .str base, .int «from», .int «to» =>
      withinAnswer (castInt base.length) «from».toInt «to».toInt
        (.str <$> Ranges.substr base «from».toInt «to».toInt)
  | _, _, _ => .error .eType

/-- `EOP_RANGESET` once the types are those of a range. -/
def replaceAnswer (len «from» «to» : Int) (ans : Except Fault Var) : Answer :=
  match Ranges.rangesetCheck len «from» «to» with
  | .error _ => .trap
  | .ok true => .error .eRange
  | .ok false => .ofFault ans

/-- `EOP_RANGESET`. -/
def rangesetAnswer : Var → Var → Var → Var → Answer
  | .list base, .int «from», .int «to», .list value =>
      replaceAnswer (castInt base.length) «from».toInt «to».toInt
        (.list <$> Ranges.listrangeset base «from».toInt «to».toInt value)
  | .str base, .int «from», .int «to», .str value =>
      replaceAnswer (castInt base.length) «from».toInt «to».toInt
        (.str <$> Ranges.strrangeset base «from».toInt «to».toInt value)
  | _, _, _, _ => .error .eType

/-- `OP_INDEXSET`. -/
def indexsetAnswer (list index value : Var) : Answer :=
  match list, index, value with
  | .list l, .int i, v =>
      if i.toInt < 1 ∨ i.toInt > l.length then .error .eRange
      else .value (.list (l.set (i.toInt.toNat - 1) v))
  | .str s, .int i, .str v =>
      if i.toInt < 1 ∨ i.toInt > s.length then .error .eRange
      else
        match v with
        | [c] => .value (.str (s.set (i.toInt.toNat - 1) c))
        | _ => .error .eInvarg
  | _, _, _ => .error .eType

/-- `EOP_LENGTH`. -/
def lengthAnswer : Var → Answer
  | .str s => .value (.int (Int32.ofNat s.length))
  | .list l => .value (.int (Int32.ofNat l.length))
  | _ => .error .eType

/-! ## On the stack -/

section

variable (debug : Bool)

/-- The answer is pushed. -/
def Answer.push (ans : Answer) (frame : RunFrame) : Next :=
  match ans with
  | .value v => .opcode (frame.push v)
  | .error e => pushError debug e frame
  | .trap => .trap

/-- An operator with one operand. -/
def operate1 (f : Var → Answer) (frame : RunFrame) : Option Next :=
  match frame.rts with
  | arg :: rts => some ((f arg).push debug { frame with rts := rts })
  | _ => none

/-- An operator with two operands. -/
def operate2 (f : Var → Var → Answer) (frame : RunFrame) : Option Next :=
  match frame.rts with
  | rhs :: lhs :: rts => some ((f lhs rhs).push debug { frame with rts := rts })
  | _ => none

/-- An operator with three operands. -/
def operate3 (f : Var → Var → Var → Answer) (frame : RunFrame) : Option Next :=
  match frame.rts with
  | v3 :: v2 :: v1 :: rts => some ((f v1 v2 v3).push debug { frame with rts := rts })
  | _ => none

/-- The opcodes of ranges, which may do something undefined. -/
def ofFault : Except Fault Next → Next
  | .ok next => next
  | .error _ => .trap

end

/-! ### The opcodes that are there already -/

section

variable {debug : Bool} {fl : FloatOps} {v lhs rhs base v1 v2 v3 : Var} {pc : Nat} {rts rtEnv : List Var}

theorem pushAnswer_eq (ans : Option Var) (frame : RunFrame) :
    pushAnswer debug ans frame = (Answer.ofOption ans).push debug frame := by
  cases ans with
  | none => rfl
  | some v => cases v <;> rfl

theorem opArith_eq (op : ArithOp) : opArith debug fl op ⟨pc, rhs :: lhs :: rts, rtEnv⟩ =
    some ((arithAnswer fl op lhs rhs).push debug ⟨pc, rts, rtEnv⟩) := by
  rw [opArith, arithAnswer, ← pushAnswer_eq]

theorem opUnaryMinus_eq : opUnaryMinus debug ⟨pc, v :: rts, rtEnv⟩ =
    some ((unaryMinusAnswer v).push debug ⟨pc, rts, rtEnv⟩) := by
  cases v <;> rfl

theorem opMakeSingletonList_eq : opMakeSingletonList ⟨pc, v :: rts, rtEnv⟩ =
    some ((singletonAnswer v).push debug ⟨pc, rts, rtEnv⟩) := rfl

theorem opListAddTail_eq : opListAddTail debug ⟨pc, rhs :: lhs :: rts, rtEnv⟩ =
    some ((addTailAnswer lhs rhs).push debug ⟨pc, rts, rtEnv⟩) := by
  cases lhs <;> rfl

/-- A value, or a fault. -/
theorem pushed_eq (ans : Except Fault Var) (frame : RunFrame) :
    ofFault (Ranges.pushed frame ans) = (Answer.ofFault ans).push debug frame := by
  cases ans <;> rfl

theorem rangeRef_eq (len i j : Int) (ans : Except Fault Var) (frame : RunFrame) :
    ofFault (Ranges.rangeRef debug len i j ans frame) = (withinAnswer len i j ans).push debug frame := by
  rw [Ranges.rangeRef, withinAnswer]
  split
  · rfl
  · exact pushed_eq ans frame

theorem opRangeRef_eq :
    (Ranges.opRangeRef debug ⟨pc, v2 :: v1 :: base :: rts, rtEnv⟩).map ofFault =
      some ((rangeRefAnswer base v1 v2).push debug ⟨pc, rts, rtEnv⟩) := by
  cases base with
  | list l =>
      cases v1 with
      | int i =>
          cases v2 with
          | int j => exact congrArg some (rangeRef_eq _ _ _ _ _)
          | _ => rfl
      | _ => rfl
  | str str =>
      cases v1 with
      | int i =>
          cases v2 with
          | int j => exact congrArg some (rangeRef_eq _ _ _ _ _)
          | _ => rfl
      | _ => rfl
  | _ => rfl

theorem rangeset_eq (len i j : Int) (ans : Except Fault Var) (frame : RunFrame) :
    ofFault (Ranges.rangeset debug len i j ans frame) = (replaceAnswer len i j ans).push debug frame := by
  rw [Ranges.rangeset, replaceAnswer]
  cases Ranges.rangesetCheck len i j with
  | error _ => rfl
  | ok refused =>
      cases refused with
      | true => rfl
      | false => exact pushed_eq ans frame

theorem eopRangeset_eq :
    (Ranges.eopRangeset debug ⟨pc, v3 :: v2 :: v1 :: base :: rts, rtEnv⟩).map ofFault =
      some ((rangesetAnswer base v1 v2 v3).push debug ⟨pc, rts, rtEnv⟩) := by
  cases base with
  | list l =>
      cases v1 with
      | int i =>
          cases v2 with
          | int j =>
              cases v3 with
              | list value => exact congrArg some (rangeset_eq _ _ _ _ _)
              | _ => rfl
          | _ => rfl
      | _ => rfl
  | str str =>
      cases v1 with
      | int i =>
          cases v2 with
          | int j =>
              cases v3 with
              | str value => exact congrArg some (rangeset_eq _ _ _ _ _)
              | _ => rfl
          | _ => rfl
      | _ => rfl
  | _ => rfl

end

end Waverous
