import Waverous.CodeVector
import Waverous.Ranges

/-! # Code of the interpreter — `execute.c`

    The rounds of the loop of `run` for a vector of code: jumps, `for` over a range, literals and
    lists, assignments and scattering ones.  `none` is for an opcode that is not among these, and
    for what C leaves undefined.  Ticks are not counted. -/

namespace Waverous

/-- What comes after an opcode. -/
inductive Outcome where
  | next (next : Next)
  /-- the frame returns -/
  | returned (v : Var)
  deriving DecidableEq

/-- `READ_BYTES(bv, nb)`. -/
def readOperand (bc : Bytecodes) (nb : Nat) (frame : RunFrame) : Option (Nat × RunFrame) :=
  (readBytes bc.vector frame.pc nb).map fun value => (value, { frame with pc := frame.pc + nb })

/-- `JUMP`. -/
def RunFrame.jump (frame : RunFrame) (label : Nat) : RunFrame := { frame with pc := label }

/-- `RUN_ACTIV.rt_env[id] = v`. -/
def RunFrame.assign (frame : RunFrame) (id : Nat) (v : Var) : RunFrame :=
  { frame with rtEnv := frame.rtEnv.set id v }

/-- `v.obj++`, which wraps around as `v.num++` does. -/
def nextObj (oid : Objid) : Objid := (Int32.ofInt oid + 1).toInt

section

variable (debug : Bool) (bc : Bytecodes)

/-- `OP_JUMP`. -/
def opJump (frame : RunFrame) : Option Next := do
  let (lab, frame) ← readOperand bc bc.numbytesLabel frame
  some (.opcode (frame.jump lab))

/-- The comparison of `OP_FOR_RANGE`, and the next value. -/
def rangeNext : Var → Var → Option (Bool × Var)
  | .int «from», .int «to» => some (decide («from» > «to»), .int («from» + 1))
  | .obj «from», .obj «to» => some (decide («from» > «to»), .obj (nextObj «from»))
  | _, _ => none

/-- `OP_FOR_RANGE`, when it has read its operands. -/
def forRange (id lab : Nat) (frame : RunFrame) : Option Next :=
  match frame.rts with
  | «to» :: «from» :: rts =>
      match rangeNext «from» «to» with
      | none => some (if debug then .raise .eType frame else .opcode { frame with pc := lab, rts := rts })
      | some (true, _) => some (.opcode { frame with pc := lab, rts := rts })
      | some (false, next) => some (.opcode { frame.assign id «from» with rts := «to» :: next :: rts })
  | _ => none

/-- `OP_FOR_RANGE`. -/
def opForRange (frame : RunFrame) : Option Next := do
  let (id, frame) ← readOperand bc bc.numbytesVarName frame
  let (lab, frame) ← readOperand bc bc.numbytesLabel frame
  forRange debug id lab frame

/-- `OP_POP`. -/
def opPop (frame : RunFrame) : Option Next :=
  match frame.rts with
  | _ :: rts => some (.opcode { frame with rts := rts })
  | [] => none

/-- `OP_G_PUT`. -/
def opGPut (frame : RunFrame) : Option Next := do
  let (id, frame) ← readOperand bc bc.numbytesVarName frame
  match frame.rts with
  | v :: _ => some (.opcode (frame.assign id v))
  | [] => none

/-- `OP_PUT + n`, with the `OP_POP` that may follow it. -/
def opPut (n : Nat) (frame : RunFrame) : Option Next := do
  let op ← bc.vector[frame.pc]?
  match frame.rts with
  | v :: rts =>
      if op = Opcode.pop.byte then
        some (.opcode { frame.assign n v with pc := frame.pc + 1, rts := rts })
      else some (.opcode (frame.assign n v))
  | [] => none

/-! ## Literals and lists -/

/-- `OP_IMM`, with the `OP_POP` that may follow it. -/
def opImm (literals : List Var) (frame : RunFrame) : Option Next := do
  let op ← bc.vector[frame.pc + bc.numbytesLiteral]?
  if op = Opcode.pop.byte then
    some (.opcode (frame.jump (frame.pc + bc.numbytesLiteral + 1)))
  else do
    let (slot, frame) ← readOperand bc bc.numbytesLiteral frame
    let v ← literals[slot]?
    some (.opcode (frame.push v))

/-- `OP_MAKE_SINGLETON_LIST`. -/
def opMakeSingletonList (frame : RunFrame) : Option Next :=
  match frame.rts with
  | v :: rts => some (.opcode ({ frame with rts := rts }.push (.list [v])))
  | [] => none

/-- `OP_LIST_ADD_TAIL`. -/
def opListAddTail (frame : RunFrame) : Option Next :=
  match frame.rts with
  | tail :: list :: rts =>
      match list with
      | .list l => some (.opcode ({ frame with rts := rts }.push (.list (l ++ [tail]))))
      | _ => some (pushError debug .eType { frame with rts := rts })
  | _ => none

/-- `OP_UNARY_MINUS`; the sign of a double is the first of its bits. -/
def opUnaryMinus (frame : RunFrame) : Option Next :=
  match frame.rts with
  | arg :: rts =>
      match arg with
      | .int num => some (.opcode ({ frame with rts := rts }.push (.int (-num))))
      | .float bits => some (.opcode ({ frame with rts := rts }.push (.float (bits ^^^ 0x8000000000000000))))
      | _ => some (pushError debug .eType { frame with rts := rts })
  | [] => none

/-! ## Scattering assignment -/

/-- The variables of the loop over the targets. -/
structure ScatterLoop where
  i : Int
  offset : Int
  noptAvail : Int
  «where» : Nat
  frame : RunFrame

/-- One target. -/
def scatterTarget (list : List Var) (rest nrest : Int) (st : ScatterLoop) : Option ScatterLoop := do
  let (id, frame) ← readOperand bc bc.numbytesVarName st.frame
  let (label, frame) ← readOperand bc bc.numbytesLabel frame
  if st.i = rest then
    match Ranges.sublist list st.i (st.i + nrest - 1) with
    | .ok l =>
        some { st with i := st.i + 1, offset := st.offset + (nrest - 1), frame := frame.assign id (.list l) }
    | .error _ => none
  else if label = 0 then
    match Ranges.listElement list (st.i + st.offset) with
    | .ok v => some { st with i := st.i + 1, frame := frame.assign id v }
    | .error _ => none
  else if st.noptAvail > 0 then
    match Ranges.listElement list (st.i + st.offset) with
    | .ok v => some { st with i := st.i + 1, noptAvail := st.noptAvail - 1, frame := frame.assign id v }
    | .error _ => none
  else
    some
      { st with
        i := st.i + 1
        offset := st.offset - 1
        «where» := if st.where = 0 ∧ label ≠ 1 then label else st.where
        frame := frame }

/-- The loop over `n` targets. -/
def scatterTargets (list : List Var) (rest nrest : Int) : Nat → ScatterLoop → Option ScatterLoop
  | 0, st => some st
  | n + 1, st => do
      let st ← scatterTarget bc list rest nrest st
      scatterTargets list rest nrest n st

/-- `done = READ_BYTES(..)`, and the jump. -/
def scatterJump («where» : Nat) (frame : RunFrame) : Option RunFrame := do
  let (done, frame) ← readOperand bc bc.numbytesLabel frame
  some (frame.jump (if «where» = 0 then done else «where»))

/-- The error of a scattering assignment, if there is one. -/
def scatterError (nargs nreq : Int) (haveRest : Bool) : Var → Option Error
  | .list list =>
      if (list.length : Int) < nreq ∨ (haveRest = false ∧ (list.length : Int) > nargs) then some .eArgs
      else none
  | _ => some .eType

/-- The variables are assigned. -/
def scatterList (nargs nreq rest : Nat) (haveRest : Bool) (list : List Var) (frame : RunFrame) :
    Option Next := do
  let len : Int := list.length
  let nrest : Int := if haveRest ∧ len ≥ nargs then len - nargs + 1 else 0
  let st ← scatterTargets bc list rest nrest nargs ⟨1, 0, len - nreq, 0, frame⟩
  let frame ← scatterJump bc st.where st.frame
  some (.opcode frame)

/-- An error is put in place of the list, and the targets are skipped. -/
def scatterFails (nargs : Nat) (e : Error) (frame : RunFrame) : Option Next :=
  match frame.rts with
  | _ :: rts =>
      match pushError debug e { frame with rts := rts } with
      | .opcode frame => do
          let frame ← scatterJump bc 0
            { frame with pc := frame.pc + nargs * (bc.numbytesVarName + bc.numbytesLabel) }
          some (.opcode frame)
      | next => some next
  | [] => none

/-- `EOP_SCATTER`. -/
def eopScatter (frame : RunFrame) : Option Next := do
  let (nargs, frame) ← readOperand bc 1 frame
  let (nreq, frame) ← readOperand bc 1 frame
  let (rest, frame) ← readOperand bc 1 frame
  let haveRest := decide (¬ rest > nargs)
  let list ← frame.rts.head?
  match scatterError nargs nreq haveRest list, list with
  | some e, _ => scatterFails debug bc nargs e frame
  | none, .list l => scatterList bc nargs nreq rest haveRest l frame
  | none, _ => none

/-! ## One round -/

/-- `case OP_EXTENDED`. -/
def opExtended (frame : RunFrame) : Option Next := do
  let eop ← bc.vector[frame.pc]?
  if eop = ExtendedOpcode.scatter.byte then eopScatter debug bc { frame with pc := frame.pc + 1 }
  else none

/-- The opcode, which has been read. -/
def runOp (literals : List Var) (op : UInt8) (frame : RunFrame) : Option Outcome :=
  if op = Opcode.jump.byte then (opJump bc frame).map .next
  else if op = Opcode.forRange.byte then (opForRange debug bc frame).map .next
  else if op = Opcode.pop.byte then (opPop frame).map .next
  else if op = Opcode.imm.byte then (opImm bc literals frame).map .next
  else if op = Opcode.makeEmptyList.byte then some (.next (.opcode (frame.push (.list []))))
  else if op = Opcode.listAddTail.byte then (opListAddTail debug frame).map .next
  else if op = Opcode.makeSingletonList.byte then (opMakeSingletonList frame).map .next
  else if op = Opcode.unaryMinus.byte then (opUnaryMinus debug frame).map .next
  else if op = Opcode.gPut.byte then (opGPut bc frame).map .next
  else if op = Opcode.return.byte then frame.rts.head?.map .returned
  else if op = Opcode.return0.byte ∨ op = Opcode.done.byte then some (.returned zero)
  else if op = Opcode.extended.byte then (opExtended debug bc frame).map .next
  else if Opcode.put.byte ≤ op ∧ op < Opcode.gPut.byte then
    (opPut bc (op - Opcode.put.byte).toNat frame).map .next
  else if Opcode.optimNumStart.byte ≤ op then
    some (.next (.opcode (frame.push (.int (Int32.ofInt (op.toNat - 113 + optimNumLow))))))
  else none

/-- `op = *bv++`, and the `switch`. -/
def runOpcode (literals : List Var) (frame : RunFrame) : Option Outcome := do
  let op ← bc.vector[frame.pc]?
  runOp debug bc literals op { frame with pc := frame.pc + 1 }

end

/-! ## Which opcode it is -/

section

variable {debug : Bool} {bc : Bytecodes} {literals : List Var} {frame : RunFrame}

theorem runOpcode_jump (h : bc.vector[frame.pc]? = some Opcode.jump.byte) :
    runOpcode debug bc literals frame = (opJump bc { frame with pc := frame.pc + 1 }).map .next := by
  rw [runOpcode, h]
  rfl

theorem runOpcode_forRange (h : bc.vector[frame.pc]? = some Opcode.forRange.byte) :
    runOpcode debug bc literals frame =
      (opForRange debug bc { frame with pc := frame.pc + 1 }).map .next := by
  rw [runOpcode, h]
  rfl

end

end Waverous
