import Waverous.Numbers

/-! # Opcodes of the interpreter — `execute.c`

    What `run` does with the frame on top of the activation stack, one opcode at a time.  An error
    is raised in a frame with the debug flag; in one without, it is a value like others. -/

namespace Waverous

/-- The state variables of `run` and the variables of the frame.  The top of the stack comes
    first. -/
structure RunFrame where
  pc : Nat
  rts : List Var
  rtEnv : List Var
  deriving DecidableEq

/-- What is to be done after an opcode. -/
inductive Next where
  /-- the next opcode -/
  | opcode (frame : RunFrame)
  /-- `raise_error`, with the state variables stored -/
  | raise (e : Error) (frame : RunFrame)
  /-- the machine has trapped -/
  | trap
  deriving DecidableEq

section

variable (debug : Bool)

/-- `PUSH`. -/
def RunFrame.push (frame : RunFrame) (v : Var) : RunFrame := { frame with rts := v :: frame.rts }

/-- `PUSH_ERROR`. -/
def pushError (e : Error) (frame : RunFrame) : Next :=
  if debug then .raise e frame else .opcode (frame.push (.err e))

/-- `if (ans.type == TYPE_ERR) PUSH_ERROR(ans.v.err); else PUSH(ans);`; no answer is a trap. -/
def pushAnswer (ans : Option Var) (frame : RunFrame) : Next :=
  match ans with
  | none => .trap
  | some (.err e) => pushError debug e frame
  | some v => .opcode (frame.push v)

/-- `lhs.type == TYPE_INT || lhs.type == TYPE_FLOAT`. -/
def isNumber : Var → Bool
  | .int _ | .float _ => true
  | _ => false

/-- The operators that OP_MULT, OP_MINUS, OP_DIV and OP_MOD share their code for. -/
inductive ArithOp where
  | mult | minus | div | mod
  deriving DecidableEq

variable (fl : FloatOps)

/-- `switch (op)`, on numbers. -/
def ArithOp.apply : ArithOp → Var → Var → Option Var
  | .mult, lhs, rhs => some (doMultiply fl lhs rhs)
  | .minus, lhs, rhs => some (doSubtract fl lhs rhs)
  | .div, lhs, rhs => doDivide fl lhs rhs
  | .mod, lhs, rhs => doModulus fl lhs rhs

/-- OP_MULT, OP_MINUS, OP_DIV and OP_MOD; `none` if there are no two values on the stack. -/
def opArith (op : ArithOp) (frame : RunFrame) : Option Next :=
  match frame.rts with
  | rhs :: lhs :: rts =>
      some (pushAnswer debug
        (if isNumber lhs && isNumber rhs then op.apply fl lhs rhs else some (.err .eType))
        { frame with rts := rts })
  | _ => none

/-! ## Integer division -/

/-- What OP_DIV and OP_MOD are to do with two integers on the stack: E_DIV for a divisor of 0, and
    else a quotient rounded toward zero and a remainder that is less than the divisor. -/
def DividesRight (a b : Int32) (frame : RunFrame) : Prop :=
  let operands := { frame with rts := .int b :: .int a :: frame.rts }
  if b = 0 then
    opArith debug fl .div operands = some (pushError debug .eDiv frame) ∧
      opArith debug fl .mod operands = some (pushError debug .eDiv frame)
  else
    ∃ q r : Int32, opArith debug fl .div operands = some (.opcode (frame.push (.int q))) ∧
      opArith debug fl .mod operands = some (.opcode (frame.push (.int r))) ∧
      q.toInt = a.toInt.tdiv b.toInt ∧ a = q * b + r ∧ r.toInt.natAbs < b.toInt.natAbs

/-- Division is right but for the least integer and -1, where the machine traps. -/
theorem divides_right_iff (a b : Int32) (frame : RunFrame) :
    DividesRight debug fl a b frame ↔ ¬ (a = Int32.minValue ∧ b = -1) := by
  by_cases hb : b = 0
  · subst hb
    constructor
    · rintro - ⟨-, h⟩
      exact absurd h (by decide)
    · intro _
      unfold DividesRight
      rw [if_pos rfl]
      exact ⟨rfl, rfl⟩
  · unfold DividesRight
    rw [if_neg hb]
    have hop : ∀ (op : ArithOp) (ans : Option Var), op.apply fl (.int a) (.int b) = ans →
        opArith debug fl op { frame with rts := .int b :: .int a :: frame.rts } =
          some (pushAnswer debug ans frame) := by
      rintro op ans rfl
      rfl
    constructor
    · rintro ⟨q, r, hdiv, -⟩ ⟨rfl, rfl⟩
      rw [hop .div none rfl] at hdiv
      cases hdiv
    · intro hab
      obtain ⟨q, r, hq, hr, hquot, hrem⟩ := machineDiv_eq hb hab
      have hdiv : doDivide fl (.int a) (.int b) = some (.int q) := by
        show (if b ≠ 0 then _ else _) = _
        rw [if_pos hb, hq]
        rfl
      have hmod : doModulus fl (.int a) (.int b) = some (.int r) := by
        show (if b ≠ 0 then _ else _) = _
        rw [if_pos hb, hr]
        rfl
      refine ⟨q, r, hop .div _ hdiv, hop .mod _ hmod, hquot, quotient_remainder hquot hrem, ?_⟩
      rw [hrem]
      exact natAbs_tmod_lt a.toInt (toInt_ne_zero hb)

end

/-- Doubles of which nothing is asked. -/
def noFloats : FloatOps where
  add _ _ := 0
  subtract _ _ := 0
  multiply _ _ := 0
  divide _ _ := 0
  fmod _ _ := 0
  pow _ _ := (0, false)
  ofInt _ := 0

/-- `-2147483648 / -1` traps. -/
theorem divides_right_fails : ¬ DividesRight true noFloats Int32.minValue (-1) ⟨0, [], []⟩ := by
  unfold DividesRight
  rw [if_neg (by decide)]
  rintro ⟨q, r, hdiv, -⟩
  have htrap : opArith true noFloats .div ⟨0, [.int (-1), .int Int32.minValue], []⟩ = some .trap := rfl
  rw [htrap] at hdiv
  cases hdiv

end Waverous
