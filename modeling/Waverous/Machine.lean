import Waverous.Operators
import Waverous.ActivStack
import Waverous.Strings

/-! # The interpreter in one frame — `execute.c`

    Every opcode of `run` but those of `fork`, with the handlers that `unwind_stack` finds in the
    frame.  What lies outside the frame, the database, the built-in functions and the verbs that
    are called, is a `Host`, whose state each of its functions may change; a call is one step here,
    whatever is run until it comes back.  Ticks are not counted.  `none` is for what a vector that
    the generator has made does not do. -/

namespace Waverous

open ActivStack (Reason popHandlers hasHandler codeOf)

/-! ## Outside the frame -/

/-- `p.u.raise`. -/
structure Raise where
  code : Var
  msg : Str
  value : Var
  deriving DecidableEq

/-- `make_error_pack`. -/
def Raise.ofError (e : Error) : Raise := ⟨.err e, unparseError e, zero⟩

/-- How a call comes back to the frame. -/
inductive Reply where
  /-- with a value for the stack -/
  | value (v : Var)
  /-- with an error for `PUSH_ERROR` -/
  | error (e : Error)
  /-- `BI_RAISE` -/
  | raise (r : Raise)
  /-- with an exception from a frame above, which is being unwound -/
  | unwound (r : Raise)
  /-- `BI_KILL` -/
  | killed
  deriving DecidableEq

/-- What the interpreter rests on. -/
structure Host (W : Type) where
  /-- the operations of the machine on doubles -/
  floats : FloatOps
  /-- whether `char` is signed -/
  signed : Bool
  /-- `RUN_ACTIV.debug` -/
  debug : Bool
  /-- whether a frame below this one has a handler for the code -/
  outer : Var → Bool
  /-- `make_stack_list` -/
  traceback : W → Var × W
  /-- `valid` -/
  valid : W → Objid → Bool
  /-- `db_find_property`, with the test of permission to read -/
  getProp : W → Objid → Str → Except Error Var
  /-- the tests of `OP_PUT_PROP` for a valid object, and `db_set_property_value` -/
  putProp : W → Objid → Str → Var → Except Error Unit × W
  /-- `call_verb2` -/
  callVerb : W → Objid → Str → List Var → Reply × W
  /-- `call_bi_func` -/
  callBiFunc : W → Nat → List Var → Reply × W

section

variable {W : Type} (host : Host W)

/-- `OP_GET_PROP` and `OP_PUSH_GET_PROP`. -/
def getPropAnswer (w : W) (obj propname : Var) : Answer :=
  match obj, propname with
  | .obj oid, .str name =>
      if host.valid w oid then
        match host.getProp w oid name with
        | .ok prop => .value prop
        | .error e => .error e
      else .error .eInvind
  | _, _ => .error .eType

/-- `OP_PUT_PROP`. -/
def putPropAnswer (w : W) (obj propname rhs : Var) : Answer × W :=
  match obj, propname with
  | .obj oid, .str name =>
      if host.valid w oid then
        match host.putProp w oid name rhs with
        | (.ok _, w) => (.value rhs, w)
        | (.error e, w) => (.error e, w)
      else (.error .eInvind, w)
  | _, _ => (.error .eType, w)

/-- `OP_CALL_VERB`. -/
def callVerbReply (w : W) (obj verb args : Var) : Reply × W :=
  match obj, verb, args with
  | .obj oid, .str name, .list l =>
      if host.valid w oid then host.callVerb w oid name l else (.error .eInvind, w)
  | _, _, _ => (.error .eType, w)

/-- `OP_BI_FUNC_CALL`. -/
def callBiFuncReply (w : W) (funcId : Nat) (args : Var) : Reply × W :=
  match args with
  | .list l => host.callBiFunc w funcId l
  | _ => (.error .eType, w)

/-! ## States -/

/-- The state variables of `run`, with `RUN_ACTIV.temp` and all that is outside the frame. -/
structure Machine (W : Type) where
  frame : RunFrame
  temp : Var
  world : W

/-- What the interpreter is doing. -/
inductive Config (W : Type) where
  /-- the next opcode -/
  | run (m : Machine W)
  /-- `unwind_stack` -/
  | unwind (why : Reason) (value : Var) (m : Machine W)
  /-- the frame has been left, with these variables -/
  | left (why : Reason) (value : Var) (rtEnv : List Var) (w : W)
  /-- the machine has trapped -/
  | trapped

/-- `raise_error`. -/
def Machine.raise (m : Machine W) (r : Raise) : Config W :=
  let (list, w) := host.traceback m.world
  let m := { m with world := w }
  if hasHandler r.code 0 m.frame.rts || host.outer r.code then
    .unwind .raise (.list [r.code, .str r.msg, r.value, list]) m
  else .unwind .uncaught zero m

/-- An opcode is done with. -/
def Machine.next (m : Machine W) : Next → Config W
  | .opcode frame => .run { m with frame := frame }
  | .raise e frame => { m with frame := frame }.raise host (.ofError e)
  | .trap => .trapped

/-- A call has come back. -/
def Machine.reply (m : Machine W) : Reply → Config W
  | .value v => .run { m with frame := m.frame.push v }
  | .error e => m.next host (pushError host.debug e m.frame)
  | .raise r => if host.debug then m.raise host r else .run { m with frame := m.frame.push r.code }
  | .unwound r => m.raise host r
  | .killed => .unwind .abort zero m

/-- An opcode that changes the stack and the variables only. -/
def Machine.plain (op : RunFrame → Option Next) (m : Machine W) : Option (Config W) :=
  (op m.frame).map (m.next host)

end

/-! ## Opcodes -/

section

variable (debug : Bool) (bc : Bytecodes)

/-- `do_test`. -/
def doTestOp (frame : RunFrame) : Option Next :=
  match frame.rts with
  | cond :: rts => do
      let (lab, frame) ← readOperand bc bc.numbytesLabel { frame with rts := rts }
      some (.opcode (if isTrue cond then frame else frame.jump lab))
  | [] => none

/-- `OP_FOR_LIST`, when it has read its operands. -/
def forList (id lab : Nat) (frame : RunFrame) : Option Next :=
  match frame.rts with
  | .int count :: list :: rts =>
      match list with
      | .list l =>
          if count.toInt > l.length then some (.opcode { frame with pc := lab, rts := rts })
          else if 0 < count.toInt then
            match l[count.toInt.toNat - 1]? with
            | some v =>
                some (.opcode { frame.assign id v with rts := .int (count + 1) :: list :: rts })
            | none => some .trap
          -- `list[0]` is the length, and what is before it is not the list's
          else some .trap
      | _ => some (if debug then .raise .eType frame else .opcode { frame with pc := lab, rts := rts })
  | _ => none

/-- `OP_FOR_LIST`. -/
def opForList (frame : RunFrame) : Option Next := do
  let (id, frame) ← readOperand bc bc.numbytesVarName frame
  let (lab, frame) ← readOperand bc bc.numbytesLabel frame
  forList debug id lab frame

/-- `OP_AND` and `OP_OR`, which jump if the value on the stack is `stop`. -/
def opShort (stop : Bool) (frame : RunFrame) : Option Next := do
  let (lab, frame) ← readOperand bc bc.numbytesLabel frame
  match frame.rts with
  | lhs :: rts => some (.opcode (if isTrue lhs = stop then frame.jump lab else { frame with rts := rts }))
  | [] => none

/-- `OP_PUSH_REF`. -/
def opPushRef (frame : RunFrame) : Option Next :=
  match frame.rts with
  | index :: list :: _ => some ((pushRefAnswer list index).push debug frame)
  | _ => none

/-- `OP_PUSH + n`, and `OP_G_PUSH` when it has read its operand. -/
def pushVar (id : Nat) (frame : RunFrame) : Next :=
  match frame.rtEnv[id]? with
  | some .none => pushError debug .eVarnf frame
  | some value => .opcode (frame.push value)
  | none => .trap

/-- `OP_G_PUSH`. -/
def opGPush (frame : RunFrame) : Option Next := do
  let (id, frame) ← readOperand bc bc.numbytesVarName frame
  some (pushVar debug id frame)

/-- `EOP_LENGTH`; the stack has its bottom last. -/
def eopLength (frame : RunFrame) : Option Next := do
  let (i, frame) ← readOperand bc bc.numbytesStack frame
  match frame.rts.reverse[i]? with
  | some item => some ((lengthAnswer item).push debug frame)
  | none => none

/-- `EOP_PUSH_LABEL` and `EOP_TRY_FINALLY`, with the value that is made of the label. -/
def eopPushLabel (make : Nat → Var) (frame : RunFrame) : Option Next := do
  let (lab, frame) ← readOperand bc bc.numbytesLabel frame
  some (.opcode (frame.push (make lab)))

/-- `EOP_TRY_EXCEPT`. -/
def eopTryExcept (frame : RunFrame) : Option Next := do
  let (num, frame) ← readOperand bc 1 frame
  some (.opcode (frame.push (.catch num)))

/-- The end of `EOP_END_CATCH` and `EOP_END_EXCEPT`: the marker and the handlers are popped, and
    `kept` is pushed again. -/
def endHandlers (kept : List Var) (frame : RunFrame) : Option Next :=
  match frame.rts with
  | .catch num :: rts => do
      let (lab, frame) ← readOperand bc bc.numbytesLabel { frame with rts := kept ++ rts.drop (2 * num) }
      some (.opcode (frame.jump lab))
  | _ => none

/-- `EOP_END_CATCH`. -/
def eopEndCatch (frame : RunFrame) : Option Next :=
  match frame.rts with
  | v :: rts => endHandlers bc [v] { frame with rts := rts }
  | [] => none

/-- `EOP_END_FINALLY`. -/
def eopEndFinally (frame : RunFrame) : Option Next :=
  match frame.rts with
  | .finally _ :: rts => some (.opcode { frame with rts := zero :: .int Reason.fallThru.num :: rts })
  | _ => none

/-- `EOP_WHILE_ID`. -/
def eopWhileId (frame : RunFrame) : Option Next := do
  let (id, frame) ← readOperand bc bc.numbytesVarName frame
  match frame.rts with
  | v :: _ => doTestOp bc (frame.assign id v)
  | [] => none

end

section

variable {W : Type} (host : Host W)

/-- `OP_PUT_TEMP`. -/
def opPutTemp (m : Machine W) : Option (Config W) :=
  match m.frame.rts with
  | v :: _ => some (.run { m with temp := v })
  | [] => none

/-- `OP_PUSH_TEMP`. -/
def opPushTemp (m : Machine W) : Option (Config W) :=
  some (.run { m with frame := m.frame.push m.temp, temp := .none })

/-- `OP_PUSH_GET_PROP`. -/
def opPushGetProp (m : Machine W) : Option (Config W) :=
  match m.frame.rts with
  | propname :: obj :: _ =>
      some (m.next host ((getPropAnswer host m.world obj propname).push host.debug m.frame))
  | _ => none

/-- `OP_PUT_PROP`. -/
def opPutProp (m : Machine W) : Option (Config W) :=
  match m.frame.rts with
  | rhs :: propname :: obj :: rts =>
      let (ans, w) := putPropAnswer host m.world obj propname rhs
      some ({ m with world := w }.next host (ans.push host.debug { m.frame with rts := rts }))
  | _ => none

/-- `OP_CALL_VERB`. -/
def opCallVerb (m : Machine W) : Option (Config W) :=
  match m.frame.rts with
  | args :: verb :: obj :: rts =>
      let (reply, w) := callVerbReply host m.world obj verb args
      some ({ m with frame := { m.frame with rts := rts }, world := w }.reply host reply)
  | _ => none

/-- `OP_BI_FUNC_CALL`. -/
def opBiFuncCall (bc : Bytecodes) (m : Machine W) : Option (Config W) := do
  let (funcId, frame) ← readOperand bc 1 m.frame
  match frame.rts with
  | args :: rts =>
      let (reply, w) := callBiFuncReply host m.world funcId args
      some ({ m with frame := { frame with rts := rts }, world := w }.reply host reply)
  | [] => none

/-- `OP_RETURN`. -/
def opReturn (m : Machine W) : Option (Config W) :=
  match m.frame.rts with
  | v :: rts => some (.unwind .return v { m with frame := { m.frame with rts := rts } })
  | [] => none

/-- The reason with which `EOP_CONTINUE` goes on; `none` is for one at which it panics. -/
def reasonOf (num : Int32) : Option Reason :=
  [Reason.fallThru, .raise, .uncaught, .return, .exit].find? fun why => why.num = num

/-- `EOP_CONTINUE`. -/
def eopContinue (m : Machine W) : Option (Config W) :=
  match m.frame.rts with
  | v :: .int num :: rts =>
      let m := { m with frame := { m.frame with rts := rts } }
      (reasonOf num).map fun why => if why = .fallThru then .run m else .unwind why v m
  | _ => none

/-- `EOP_EXIT`. -/
def eopExit (bc : Bytecodes) (m : Machine W) : Option (Config W) := do
  let (depth, frame) ← readOperand bc bc.numbytesStack m.frame
  let (lab, frame) ← readOperand bc bc.numbytesLabel frame
  some (.unwind .exit (.list [.int (Int32.ofNat depth), .int (Int32.ofNat lab)]) { m with frame := frame })

/-- `EOP_EXIT_ID`. -/
def eopExitId (bc : Bytecodes) (m : Machine W) : Option (Config W) :=
  -- the name of the loop is for the decompiler
  eopExit bc { m with frame := { m.frame with pc := m.frame.pc + bc.numbytesVarName } }

end

/-! ## Which opcode it is -/

/-- All opcodes. -/
def opcodes : List Opcode :=
  [.if, .while, .eif, .fork, .forkWithId, .forList, .forRange, .indexset, .pushGetProp, .getProp,
    .callVerb, .putProp, .biFuncCall, .ifQues, .ref, .rangeRef, .makeSingletonList,
    .checkListForSplice, .mult, .div, .mod, .add, .minus, .eq, .ne, .lt, .le, .gt, .ge, .in, .and,
    .or, .unaryMinus, .not, .put, .gPut, .push, .gPush, .imm, .makeEmptyList, .listAddTail,
    .listAppend, .pushRef, .putTemp, .pushTemp, .jump, .return, .return0, .done, .pop, .extended,
    .optimNumStart]

def extendedOpcodes : List ExtendedOpcode :=
  [.rangeset, .length, .pushLabel, .endCatch, .endExcept, .endFinally, .continue, .catch, .tryExcept,
    .tryFinally, .whileId, .exit, .exitId, .scatter, .exp]

/-- The opcode of a byte, with the distance from `OP_PUT`, `OP_PUSH` or `OPTIM_NUM_START`. -/
def opcodeOf (b : UInt8) : Option (Opcode × Nat) :=
  if Opcode.optimNumStart.byte ≤ b then some (.optimNumStart, (b - Opcode.optimNumStart.byte).toNat)
  else if Opcode.push.byte ≤ b ∧ b < Opcode.gPush.byte then some (.push, (b - Opcode.push.byte).toNat)
  else if Opcode.put.byte ≤ b ∧ b < Opcode.gPut.byte then some (.put, (b - Opcode.put.byte).toNat)
  else (opcodes.find? fun op => op.byte = b).map fun op => (op, 0)

/-- `(enum Extended_Opcode) *bv`. -/
def extendedOf (b : UInt8) : Option ExtendedOpcode := extendedOpcodes.find? fun eop => eop.byte = b

section

variable {W : Type} (host : Host W) (bc : Bytecodes) (literals : List Var)

/-- `switch (eop)`. -/
def runExtendedOp (m : Machine W) : ExtendedOpcode → Option (Config W)
  | .rangeset => m.plain host fun frame => (Ranges.eopRangeset host.debug frame).map ofFault
  | .length => m.plain host (eopLength host.debug bc)
  | .exp => m.plain host (operate2 host.debug (expAnswer host.floats))
  | .scatter => m.plain host fun frame => some ((eopScatter host.debug bc frame).getD .trap)
  | .pushLabel => m.plain host (eopPushLabel bc fun lab => .int (Int32.ofNat lab))
  | .tryFinally => m.plain host (eopPushLabel bc .finally)
  | .catch => m.plain host fun frame => some (.opcode (frame.push (.catch 1)))
  | .tryExcept => m.plain host (eopTryExcept bc)
  | .endCatch => m.plain host (eopEndCatch bc)
  | .endExcept => m.plain host (endHandlers bc [])
  | .endFinally => m.plain host eopEndFinally
  | .continue => eopContinue m
  | .whileId => m.plain host (eopWhileId bc)
  | .exit => eopExit bc m
  | .exitId => eopExitId bc m

/-- `case OP_EXTENDED`. -/
def runExtendedByte (m : Machine W) : Option (Config W) := do
  let b ← bc.vector[m.frame.pc]?
  let eop ← extendedOf b
  runExtendedOp host bc { m with frame := { m.frame with pc := m.frame.pc + 1 } } eop

/-- `switch (op)`, for an opcode and its distance from the first of its kind. -/
def runOpcodeOf (m : Machine W) : Opcode → Nat → Option (Config W)
  | .ifQues, _ | .if, _ | .while, _ | .eif, _ => m.plain host (doTestOp bc)
  | .jump, _ => m.plain host (opJump bc)
  | .forList, _ => m.plain host (opForList host.debug bc)
  | .forRange, _ => m.plain host (opForRange host.debug bc)
  | .pop, _ => m.plain host opPop
  | .imm, _ => m.plain host (opImm bc literals)
  | .makeEmptyList, _ => m.plain host fun frame => some (.opcode (frame.push (.list [])))
  | .listAddTail, _ => m.plain host (opListAddTail host.debug)
  | .listAppend, _ => m.plain host (operate2 host.debug appendAnswer)
  | .indexset, _ => m.plain host (operate3 host.debug indexsetAnswer)
  | .makeSingletonList, _ => m.plain host opMakeSingletonList
  | .checkListForSplice, _ => m.plain host (operate1 host.debug spliceAnswer)
  | .putTemp, _ => opPutTemp m
  | .pushTemp, _ => opPushTemp m
  | .eq, _ => m.plain host (operate2 host.debug eqAnswer)
  | .ne, _ => m.plain host (operate2 host.debug neAnswer)
  | .gt, _ => m.plain host (operate2 host.debug (gtAnswer host.signed))
  | .lt, _ => m.plain host (operate2 host.debug (ltAnswer host.signed))
  | .ge, _ => m.plain host (operate2 host.debug (geAnswer host.signed))
  | .le, _ => m.plain host (operate2 host.debug (leAnswer host.signed))
  | .in, _ => m.plain host (operate2 host.debug inAnswer)
  | .mult, _ => m.plain host (opArith host.debug host.floats .mult)
  | .minus, _ => m.plain host (opArith host.debug host.floats .minus)
  | .div, _ => m.plain host (opArith host.debug host.floats .div)
  | .mod, _ => m.plain host (opArith host.debug host.floats .mod)
  | .add, _ => m.plain host (operate2 host.debug (addAnswer host.floats))
  | .and, _ => m.plain host (opShort bc false)
  | .or, _ => m.plain host (opShort bc true)
  | .not, _ => m.plain host (operate1 host.debug notAnswer)
  | .unaryMinus, _ => m.plain host (opUnaryMinus host.debug)
  | .ref, _ => m.plain host (operate2 host.debug refAnswer)
  | .pushRef, _ => m.plain host (opPushRef host.debug)
  | .rangeRef, _ => m.plain host fun frame => (Ranges.opRangeRef host.debug frame).map ofFault
  | .gPut, _ => m.plain host (opGPut bc)
  | .gPush, _ => m.plain host (opGPush host.debug bc)
  | .getProp, _ => m.plain host (operate2 host.debug (getPropAnswer host m.world))
  | .pushGetProp, _ => opPushGetProp host m
  | .putProp, _ => opPutProp host m
  | .callVerb, _ => opCallVerb host m
  | .return, _ => opReturn m
  | .return0, _ | .done, _ => some (.unwind .return zero m)
  | .biFuncCall, _ => opBiFuncCall host bc m
  | .extended, _ => runExtendedByte host bc m
  | .push, n => m.plain host fun frame => some (pushVar host.debug n frame)
  | .put, n => m.plain host (opPut bc n)
  | .optimNumStart, n =>
      m.plain host fun frame => some (.opcode (frame.push (.int (Int32.ofInt (n + optimNumLow)))))
  | .fork, _ | .forkWithId, _ => none

/-- One round of the loop of `run`. -/
def Machine.round (m : Machine W) : Option (Config W) := do
  let b ← bc.vector[m.frame.pc]?
  let (op, n) ← opcodeOf b
  runOpcodeOf host bc literals { m with frame := { m.frame with pc := m.frame.pc + 1 } } op n

end

/-! ## Unwinding -/

section

variable {W : Type}

/-- The run-time stack of `FIN_EXIT` down to its goal. -/
def unwindExit (depth lab : Int32) (value : Var) (m : Machine W) : Config W :=
  -- the stack has its top first: what is above the goal is what an exit has to pop
  let above := m.frame.rts.length - depth.toInt.toNat
  let rest := m.frame.rts.drop above
  match popHandlers .exit zero value 0 (m.frame.rts.take above) with
  | some (pc, rts) => .run { m with frame := { m.frame with pc := pc, rts := rts ++ rest } }
  | none => .run { m with frame := { m.frame with pc := lab.toUInt32.toNat, rts := rest } }

/-- The loop of `unwind_stack`, in this frame. -/
def unwindFrame (why : Reason) (value : Var) (m : Machine W) : Option (Config W) :=
  match why, value with
  | .exit, .list [.int depth, .int lab] => some (unwindExit depth lab value m)
  -- the value of `FIN_EXIT` is made by `EOP_EXIT` only
  | .exit, _ => none
  | why, value =>
      match popHandlers why (codeOf why value) value 0 m.frame.rts with
      | some (pc, rts) => some (.run { m with frame := { m.frame with pc := pc, rts := rts } })
      | none => some (.left why value m.frame.rtEnv m.world)

variable (host : Host W) (bc : Bytecodes) (literals : List Var)

/-- One step of the interpreter. -/
def Config.step : Config W → Option (Config W)
  | .run m => m.round host bc literals
  | .unwind why value m => unwindFrame why value m
  | .left _ _ _ _ | .trapped => none

end

end Waverous
