import Waverous.Ast
import Waverous.Utils

/-! # The code generator — `code_gen.c`

    Without `BYTECODE_REDUCE_REF`.  A call of `panic` ends the run with `none`.  The counts of
    bytes, fixups and stack cells are unbounded; -1 stands for `UINT_MAX` as the saved stack and
    for no label. -/

namespace Waverous

/-- `enum fixup_kind`. -/
inductive FixupKind where
  | literal | fork | label | varRef | stack
  deriving DecidableEq, Repr

/-- `Fixup`. -/
structure Fixup where
  kind : FixupKind
  pc : Nat
  value : Nat
  prevLiterals : Nat
  prevForks : Nat
  prevVarRefs : Nat
  prevLabels : Nat
  prevStacks : Nat
  next : Option Nat
  deriving DecidableEq, Repr

/-- `GState`. -/
structure GState where
  totalVarRefs : Nat
  literals : List Var
  forkVectors : List Bytecodes

/-- `Loop`. -/
structure Loop where
  id : Int
  topLabel : Fixup
  topStack : Int
  bottomLabel : Option Nat
  bottomStack : Int

/-- `State`; the innermost loop is the first. -/
structure GenState where
  maxLiteral : Nat
  maxFork : Nat
  maxVarRef : Nat
  numLiterals : Nat
  numForks : Nat
  numVarRefs : Nat
  numLabels : Nat
  numStacks : Nat
  fixups : List Fixup
  bytes : List UInt8
  curStack : Int
  maxStack : Int
  savedStack : Int
  loops : List Loop
  gstate : GState

/-- A function of the generator; `none` is a panic. -/
abbrev Gen := StateT GenState Option

/-- `panic`. -/
def panic {α : Type} : Gen α := fun _ => none

/-- `init_gstate`. -/
def initGstate : GState := ⟨0, [], []⟩

/-- `init_state`. -/
def initState (gstate : GState) : GenState where
  maxLiteral := 0
  maxFork := 0
  maxVarRef := 0
  numLiterals := 0
  numForks := 0
  numVarRefs := 0
  numLabels := 0
  numStacks := 0
  fixups := []
  bytes := []
  curStack := 0
  maxStack := 0
  savedStack := -1
  loops := []
  gstate := gstate

/-! ## Bytes and fixups -/

/-- `emit_byte`. -/
def emitByte (b : UInt8) : Gen Unit := modify fun st => { st with bytes := st.bytes ++ [b] }

/-- `emit_byte`, of an opcode. -/
def emitOp (op : Opcode) : Gen Unit := emitByte op.byte

/-- `emit_extended_byte`. -/
def emitExtended (op : ExtendedOpcode) : Gen Unit := do
  emitOp .extended
  emitByte op.byte

/-- `add_known_fixup`: the fixup is put at the next byte, for which there is a placeholder. -/
def addKnownFixup (f : Fixup) : Gen Nat := do
  let st ← get
  set { st with fixups := st.fixups ++ [{ f with pc := st.bytes.length }] }
  emitByte 0
  pure st.fixups.length

/-- `add_linked_fixup`. -/
def addLinkedFixup (kind : FixupKind) (value : Nat) (next : Option Nat) : Gen Nat := do
  let st ← get
  addKnownFixup
    { kind := kind
      pc := 0
      value := value
      prevLiterals := st.numLiterals
      prevForks := st.numForks
      prevVarRefs := st.numVarRefs
      prevLabels := st.numLabels
      prevStacks := st.numStacks
      next := next }

/-- `add_fixup`. -/
def addFixup (kind : FixupKind) (value : Nat) : Gen Nat := addLinkedFixup kind value none

/-- `v.type == w.type`, for the types of literals. -/
def sameType : Var → Var → Bool
  | .int _, .int _ | .obj _, .obj _ | .str _, .str _ | .err _, .err _ | .list _, .list _
  | .float _, .float _ => true
  | _, _ => false

/-- Where a literal is found, or is to be put. -/
def literalIndex (v : Var) (literals : List Var) : Nat :=
  (literals.findIdx? fun lit => sameType v lit && equality true v lit).getD literals.length

/-- The literals with `v` among them. -/
def internLiteral (v : Var) (literals : List Var) : List Var :=
  if literalIndex v literals = literals.length then literals ++ [v] else literals

/-- `add_literal`. -/
def addLiteral (v : Var) : Gen Unit := do
  let st ← get
  let i := literalIndex v st.gstate.literals
  modify fun st => { st with gstate := { st.gstate with literals := internLiteral v st.gstate.literals } }
  let _ ← addFixup .literal i
  modify fun st =>
    { st with numLiterals := st.numLiterals + 1, maxLiteral := max st.maxLiteral i }

/-- `add_fork`. -/
def addFork (b : Bytecodes) : Gen Unit := do
  let st ← get
  let i := st.gstate.forkVectors.length
  modify fun st => { st with gstate := { st.gstate with forkVectors := st.gstate.forkVectors ++ [b] } }
  let _ ← addFixup .fork i
  modify fun st => { st with numForks := st.numForks + 1, maxFork := max st.maxFork i }

/-- `add_var_ref`. -/
def addVarRef (slot : Nat) : Gen Unit := do
  let _ ← addFixup .varRef slot
  modify fun st =>
    { st with
      numVarRefs := st.numVarRefs + 1
      maxVarRef := max st.maxVarRef slot
      gstate := { st.gstate with totalVarRefs := st.gstate.totalVarRefs + 1 } }

/-! ### Labels -/

/-- `num_labels++`. -/
def countLabel : Gen Unit := modify fun st => { st with numLabels := st.numLabels + 1 }

/-- `add_linked_label`. -/
def addLinkedLabel (next : Option Nat) : Gen Nat := do
  let label ← addLinkedFixup .label 0 next
  countLabel
  pure label

/-- `add_label`. -/
def addLabel : Gen Nat := addLinkedLabel none

/-- `add_pseudo_label`. -/
def addPseudoLabel (value : Nat) : Gen Unit := do
  let _ ← addKnownFixup
    { kind := .label
      pc := 0
      value := value
      prevLiterals := 0
      prevForks := 0
      prevVarRefs := 0
      prevLabels := 0
      prevStacks := 0
      next := none }
  countLabel

/-- `add_known_label`. -/
def addKnownLabel (f : Fixup) : Gen Nat := do
  let label ← addKnownFixup f
  countLabel
  pure label

/-- What a label at the next byte is given. -/
def GenState.here (st : GenState) (f : Fixup) : Fixup :=
  { f with
    value := st.bytes.length
    prevLiterals := st.numLiterals
    prevForks := st.numForks
    prevVarRefs := st.numVarRefs
    prevLabels := st.numLabels
    prevStacks := st.numStacks }

/-- `capture_label`. -/
def captureLabel : Gen Fixup := do
  let st ← get
  pure (st.here
    { kind := .label
      pc := 0
      value := 0
      prevLiterals := 0
      prevForks := 0
      prevVarRefs := 0
      prevLabels := 0
      prevStacks := 0
      next := none })

/-- The loop of `define_label`; a chain has at most as many labels as there are fixups. -/
def defineChain (st : GenState) : Nat → Option Nat → List Fixup → List Fixup
  | fuel + 1, some label, fixups =>
      defineChain st fuel (fixups[label]?.bind Fixup.next) (fixups.modify label st.here)
  | _, _, fixups => fixups

/-- `define_label`. -/
def defineLabel (label : Option Nat) : Gen Unit :=
  modify fun st => { st with fixups := defineChain st st.fixups.length label st.fixups }

/-! ### The run-time stack -/

/-- `add_stack_ref`. -/
def addStackRef (index : Int) : Gen Unit := do
  let _ ← addFixup .stack index.toNat
  pure ()

/-- `push_stack`. -/
def pushStack (n : Nat) : Gen Unit :=
  modify fun st =>
    { st with curStack := st.curStack + n, maxStack := max st.maxStack (st.curStack + n) }

/-- `pop_stack`. -/
def popStack (n : Nat) : Gen Unit := modify fun st => { st with curStack := st.curStack - n }

/-- `save_stack_top`. -/
def saveStackTop : Gen Int := do
  let st ← get
  set { st with savedStack := st.curStack - 1 }
  pure st.savedStack

/-- `saved_stack_top`. -/
def savedStackTop : Gen Int := do
  let st ← get
  pure st.savedStack

/-- `restore_stack_top`. -/
def restoreStackTop (old : Int) : Gen Unit := modify fun st => { st with savedStack := old }

/-- `state->cur_stack`. -/
def curStackNow : Gen Int := do
  let st ← get
  pure st.curStack

/-! ### Loops -/

/-- `enter_loop`. -/
def enterLoop (id : Int) (topLabel : Fixup) (topStack : Int) (bottomLabel : Option Nat)
    (bottomStack : Int) : Gen Unit :=
  modify fun st => { st with loops := ⟨id, topLabel, topStack, bottomLabel, bottomStack⟩ :: st.loops }

/-- `exit_loop`; the label is that of the loop that is left. -/
def exitLoop : Gen (Option Nat) := fun st =>
  match st.loops with
  | loop :: loops => some (loop.bottomLabel, { st with loops := loops })
  | [] => none

/-! ## Expressions -/

/-- `emit_var_op`. -/
def emitVarOp (op : Opcode) (slot : Nat) : Gen Unit :=
  if numReadyVars ≤ slot then do
    emitByte (op.byte + UInt8.ofNat numReadyVars)
    addVarRef slot
  else emitByte (op.byte + UInt8.ofNat slot)

/-- What is emitted for an operator. -/
def BinaryKind.emit : BinaryKind → Gen Unit
  | .plus => emitOp .add
  | .minus => emitOp .minus
  | .times => emitOp .mult
  | .divide => emitOp .div
  | .mod => emitOp .mod
  | .exp => emitExtended .exp
  | .eq => emitOp .eq
  | .ne => emitOp .ne
  | .lt => emitOp .lt
  | .le => emitOp .le
  | .gt => emitOp .gt
  | .ge => emitOp .ge
  | .in => emitOp .in

/-- `case EXPR_VAR`. -/
def generateVar (v : Var) : Gen Unit := do
  emitVar v
  pushStack 1
where
  emitVar : Var → Gen Unit
    | .int num =>
        if inOptimNumRange num.toInt then emitByte (optimNumToOpcode num.toInt)
        else do
          emitOp .imm
          addLiteral (.int num)
    | v => do
        emitOp .imm
        addLiteral v

/-- The operators of an argument: the first makes a list, the others add to it. -/
def emitArg (first : Bool) : ArgKind → Gen Unit
  | .normal => emitOp (if first then .makeSingletonList else .listAddTail)
  | .splice => emitOp (if first then .checkListForSplice else .listAppend)

/-- The loop at the end of an assignment, which puts the value into the target. -/
def putLvalue : Expr → Gen Unit
  | .range base _ _ => do
      emitExtended .rangeset
      popStack 3
      putLvalue base
  | .index lhs _ => do
      emitOp .indexset
      popStack 2
      putLvalue lhs
  | .id id => emitVarOp .put id
  | .prop _ _ => do
      emitOp .putProp
      popStack 2
  | _ => panic

/-- `if (e->kind == EXPR_RANGE || e->kind == EXPR_INDEX)`, which is `is_indexed` afterwards. -/
def whenIndexed : Expr → Gen Unit → Gen Unit
  | .range _ _ _, emit | .index _ _, emit => emit
  | _, _ => pure ()

/-- `nargs`. -/
def Scatter.nargs : Scatter → Nat
  | .nil => 0
  | .cons _ _ _ next => next.nargs + 1

/-- `nreq`. -/
def Scatter.nreq : Scatter → Nat
  | .nil => 0
  | .cons kind _ _ next => next.nreq + if kind = .required then 1 else 0

/-- `rest`, the place of the last `SCAT_REST`. -/
def Scatter.rest : Scatter → Nat → Option Nat → Option Nat
  | .nil, _, rest => rest
  | .cons kind _ _ next, nargs, rest =>
      next.rest (nargs + 1) (if kind = .rest then some (nargs + 1) else rest)

/-- The targets of a scattering assignment; the labels of those with a default, in order. -/
def emitTargets : Scatter → Gen (List Nat)
  | .nil => pure []
  | .cons kind id expr next => do
      addVarRef id
      match kind, expr with
      | .optional, some _ => do
          let label ← addLabel
          let labels ← emitTargets next
          pure (label :: labels)
      | .optional, none => do
          addPseudoLabel 1
          emitTargets next
      | _, _ => do
          addPseudoLabel 0
          emitTargets next

/-- `EOP_SCATTER` with its operands. -/
def emitScatter (sc : Scatter) : Gen (List Nat) := do
  emitExtended .scatter
  emitByte (UInt8.ofNat sc.nargs)
  emitByte (UInt8.ofNat sc.nreq)
  emitByte (UInt8.ofNat ((sc.rest 0 none).getD (sc.nargs + 1)))
  emitTargets sc

/-- `generate_codes`, with what `generate_arg_list` emits. -/
def emitCodes (codes : ArgList) (argList : Gen Unit) : Gen Unit :=
  match codes with
  | .nil => do
      emitByte (optimNumToOpcode 0)
      pushStack 1
  | .cons _ _ _ => argList

/-- `case EXPR_LENGTH`. -/
def generateLength : Gen Unit := do
  let saved ← savedStackTop
  if saved = -1 then panic
  else do
    emitExtended .length
    addStackRef saved
    pushStack 1

mutual

/-- `generate_expr`. -/
def generateExpr : Expr → Gen Unit
  | .var v => generateVar v
  | .id id => do
      emitVarOp .push id
      pushStack 1
  | .and lhs rhs => do
      generateExpr lhs
      emitOp .and
      let endLabel ← addLabel
      popStack 1
      generateExpr rhs
      defineLabel (some endLabel)
  | .or lhs rhs => do
      generateExpr lhs
      emitOp .or
      let endLabel ← addLabel
      popStack 1
      generateExpr rhs
      defineLabel (some endLabel)
  | .negate expr => do
      generateExpr expr
      emitOp .unaryMinus
  | .not expr => do
      generateExpr expr
      emitOp .not
  | .binary kind lhs rhs => do
      generateExpr lhs
      generateExpr rhs
      kind.emit
      popStack 1
  | .prop lhs rhs => do
      generateExpr lhs
      generateExpr rhs
      emitOp .getProp
      popStack 1
  | .index lhs rhs => do
      generateExpr lhs
      let old ← saveStackTop
      generateExpr rhs
      restoreStackTop old
      emitOp .ref
      popStack 1
  | .range base «from» «to» => do
      generateExpr base
      let old ← saveStackTop
      generateExpr «from»
      generateExpr «to»
      restoreStackTop old
      emitOp .rangeRef
      popStack 2
  | .length => generateLength
  | .list list => generateArgList list true
  | .call func args => do
      generateArgList args true
      emitOp .biFuncCall
      emitByte (UInt8.ofNat func)
  | .verb obj verb args => do
      generateExpr obj
      generateExpr verb
      generateArgList args true
      emitOp .callVerb
      popStack 2
  | .cond condition consequent alternate => do
      generateExpr condition
      emitOp .ifQues
      let elseLabel ← addLabel
      popStack 1
      generateExpr consequent
      emitOp .jump
      let endLabel ← addLabel
      popStack 1
      defineLabel (some elseLabel)
      generateExpr alternate
      defineLabel (some endLabel)
  | .asgn (.scatter sc) rhs => do
      generateExpr rhs
      let labels ← emitScatter sc
      let done ← addLabel
      generateDefaults sc labels
      defineLabel (some done)
  | .asgn e rhs => do
      pushLvalue e false
      generateExpr rhs
      whenIndexed e (emitOp .putTemp)
      putLvalue e
      whenIndexed e (do emitOp .pop; emitOp .pushTemp)
  | .catch «try» codes except => do
      emitCodes codes (generateArgList codes true)
      emitExtended .pushLabel
      let handlerLabel ← addLabel
      pushStack 1
      emitExtended .catch
      pushStack 1
      generateExpr «try»
      emitExtended .endCatch
      let endLabel ← addLabel
      popStack 3
      defineLabel (some handlerLabel)
      generateExcept except
      defineLabel (some endLabel)
  | .scatter _ => panic

/-- The handler of `case EXPR_CATCH`. -/
def generateExcept : Option Expr → Gen Unit
  | some except => do
      emitOp .pop
      popStack 1
      generateExpr except
  | none => do
      emitByte (optimNumToOpcode 1)
      emitOp .ref

/-- `push_lvalue`. -/
def pushLvalue : Expr → Bool → Gen Unit
  | .range base «from» «to», _ => do
      pushLvalue base true
      let old ← saveStackTop
      generateExpr «from»
      generateExpr «to»
      restoreStackTop old
  | .index lhs rhs, indexedAbove => do
      pushLvalue lhs true
      let old ← saveStackTop
      generateExpr rhs
      restoreStackTop old
      if indexedAbove then do
        emitOp .pushRef
        pushStack 1
  | .id id, indexedAbove =>
      if indexedAbove then do
        emitVarOp .push id
        pushStack 1
      else pure ()
  | .prop lhs rhs, indexedAbove => do
      generateExpr lhs
      generateExpr rhs
      if indexedAbove then do
        emitOp .pushGetProp
        pushStack 1
  | _, _ => panic

/-- `generate_arg_list`; `first` before the first round of its loop. -/
def generateArgList : ArgList → Bool → Gen Unit
  | .nil, first =>
      if first then do
        emitOp .makeEmptyList
        pushStack 1
      else pure ()
  | .cons kind expr next, first => do
      generateExpr expr
      emitArg first kind
      popStack (if first then 0 else 1)
      generateArgList next false

/-- The defaults of a scattering assignment, at their labels. -/
def generateDefaults : Scatter → List Nat → Gen Unit
  | .nil, _ => pure ()
  | .cons .optional id (some expr) next, labels => do
      defineLabel labels.head?
      generateExpr expr
      emitVarOp .put id
      emitOp .pop
      popStack 1
      generateDefaults next labels.tail
  | .cons _ _ _ next, labels => generateDefaults next labels

end

/-- `generate_codes`. -/
def generateCodes (codes : ArgList) : Gen Unit := emitCodes codes (generateArgList codes true)

/-! ## Statements -/

/-- The bytes of an operand of `size` bytes. -/
def operandBytes (size value : Nat) : Option (List UInt8) :=
  match size with
  | 4 => some [UInt8.ofNat (value / 2 ^ 24), UInt8.ofNat (value / 2 ^ 16), UInt8.ofNat (value / 2 ^ 8),
      UInt8.ofNat value]
  | 2 => some [UInt8.ofNat (value / 2 ^ 8), UInt8.ofNat value]
  | 1 => some [UInt8.ofNat value]
  | _ => none

/-- `ref_size`. -/
def refSize (max : Nat) : Nat := if max ≤ 256 then 1 else if max ≤ 256 * 256 then 2 else 4

/-- `bc.numbytes_label`, from `bc.size` without labels. -/
def labelSize (size numLabels : Nat) : Nat :=
  if size ≤ 256 then 1 else if size + numLabels ≤ 256 * 256 then 2 else 4

/-- The size of the operand of a fixup. -/
def Bytecodes.operandSize (bc : Bytecodes) : FixupKind → Nat
  | .literal => bc.numbytesLiteral
  | .fork => bc.numbytesFork
  | .varRef => bc.numbytesVarName
  | .stack => bc.numbytesStack
  | .label => bc.numbytesLabel

/-- The value of the operand of a fixup: a label moves behind the operands before it. -/
def Bytecodes.operandValue (bc : Bytecodes) (f : Fixup) : Nat :=
  match f.kind with
  | .label =>
      f.value + f.prevLiterals * (bc.numbytesLiteral - 1) + f.prevForks * (bc.numbytesFork - 1) +
        f.prevVarRefs * (bc.numbytesVarName - 1) + f.prevLabels * (bc.numbytesLabel - 1) +
        f.prevStacks * (bc.numbytesStack - 1)
  | _ => f.value

/-- The loop that fills `bc.vector`, from the byte `oldI` on. -/
def relocate (bc : Bytecodes) : Nat → List UInt8 → List Fixup → Option (List UInt8)
  | _, [], _ => some []
  | oldI, b :: bytes, [] => do
      let vector ← relocate bc (oldI + 1) bytes []
      some (b :: vector)
  | oldI, b :: bytes, fixup :: fixups =>
      if fixup.pc = oldI then do
        let operand ← operandBytes (bc.operandSize fixup.kind) (bc.operandValue fixup)
        let vector ← relocate bc (oldI + 1) bytes fixups
        some (operand ++ vector)
      else do
        let vector ← relocate bc (oldI + 1) bytes (fixup :: fixups)
        some (b :: vector)

/-- The sizes that `stmt_to_code` computes; the vector is filled afterwards. -/
def vectorSizes (st : GenState) : Bytecodes :=
  let numbytesLiteral := refSize (max st.maxLiteral st.gstate.literals.length)
  let numbytesFork := refSize (max st.maxFork st.gstate.forkVectors.length)
  let numbytesVarName := refSize (max st.maxVarRef st.gstate.totalVarRefs)
  let size := st.bytes.length + (numbytesLiteral - 1) * st.numLiterals +
    (numbytesFork - 1) * st.numForks + (numbytesVarName - 1) * st.numVarRefs
  { numbytesLabel := labelSize size st.numLabels
    numbytesLiteral := numbytesLiteral
    numbytesFork := numbytesFork
    numbytesVarName := numbytesVarName
    numbytesStack := refSize st.maxStack.toNat
    vector := []
    maxStack := st.maxStack.toNat }

/-- What `stmt_to_code` makes of the state at the end of a vector. -/
def finishVector (st : GenState) : Option Bytecodes :=
  if st.curStack ≠ 0 then none
  else if st.savedStack ≠ -1 then none
  else do
    let bc := vectorSizes st
    let vector ← relocate bc 0 st.bytes st.fixups
    some { bc with vector := vector }

/-- `stmt_to_code`, with what `generate_stmt` emits. -/
def emitVector (body : Gen Unit) (gstate : GState) : Option (Bytecodes × GState) := do
  let (_, st) ← (do body; emitOp .done : Gen Unit) (initState gstate)
  let bc ← finishVector st
  some (bc, st.gstate)

/-- `stmt_to_code(stmt->s.fork.body, state->gstate)`. -/
def forkVector (body : Gen Unit) : Gen Bytecodes := fun st => do
  let (bc, gstate) ← emitVector body st.gstate
  some (bc, { st with gstate := gstate })

/-- The loop that a `break` or `continue` leaves, counted from the innermost one. -/
def exitedLoop (exit : Int) (loops : List Loop) : Option Nat :=
  if exit = -1 then (if loops.isEmpty then none else some 0)
  else loops.findIdx? fun loop => loop.id = exit

/-- The operators of `while`, with and without an identifier. -/
def emitWhile (id : Int) : Gen Unit :=
  if id = -1 then emitOp .while
  else do
    emitExtended .whileId
    addVarRef id.toNat

/-- The operators of `break` and `continue`, with and without an identifier. -/
def emitExit (exit : Int) : Gen Unit :=
  if exit = -1 then emitExtended .exit
  else do
    emitExtended .exitId
    addVarRef exit.toNat

/-- `case STMT_BREAK` and `case STMT_CONTINUE`, up to the loop that is left. -/
def findExit (exit : Int) : Gen (Nat × Loop) := do
  emitExit exit
  let st ← get
  match exitedLoop exit st.loops with
  | none => panic
  | some i =>
      match st.loops[i]? with
      | none => panic
      | some loop => pure (i, loop)

/-- `emit_var_op` or `add_var_ref` of an identifier that may be none. -/
def whenId (id : Int) (emit : Nat → Gen Unit) : Gen Unit := if 0 ≤ id then emit id.toNat else pure ()

/-- `if (ex->next)`: a handler that is not the last one jumps to the end. -/
def jumpToEnd (next : ExceptArm) (endLabel : Option Nat) : Gen (Option Nat) :=
  match next with
  | .nil => pure endLabel
  | .cons _ _ _ _ => do
      emitOp .jump
      let label ← addLinkedLabel endLabel
      pure (some label)

mutual

/-- `generate_stmt`, one statement. -/
def generateStmt : Stmt → Gen Unit
  | .cond arms otherwise => do
      let endLabel ← generateArms arms .if none
      generateStmts otherwise
      defineLabel endLabel
  | .list id expr body => do
      generateExpr expr
      emitByte (optimNumToOpcode 1)
      pushStack 1
      let loopTop ← captureLabel
      emitOp .forList
      addVarRef id
      let endLabel ← addLabel
      let cur ← curStackNow
      enterLoop id loopTop cur (some endLabel) (cur - 2)
      generateStmts body
      let endLabel ← exitLoop
      emitOp .jump
      let _ ← addKnownLabel loopTop
      defineLabel endLabel
      popStack 2
  | .range id «from» «to» body => do
      generateExpr «from»
      generateExpr «to»
      let loopTop ← captureLabel
      emitOp .forRange
      addVarRef id
      let endLabel ← addLabel
      let cur ← curStackNow
      enterLoop id loopTop cur (some endLabel) (cur - 2)
      generateStmts body
      let endLabel ← exitLoop
      emitOp .jump
      let _ ← addKnownLabel loopTop
      defineLabel endLabel
      popStack 2
  | .while id condition body => do
      let loopTop ← captureLabel
      generateExpr condition
      emitWhile id
      let endLabel ← addLabel
      popStack 1
      let cur ← curStackNow
      enterLoop id loopTop cur (some endLabel) cur
      generateStmts body
      let endLabel ← exitLoop
      emitOp .jump
      let _ ← addKnownLabel loopTop
      defineLabel endLabel
  | .fork id time body => do
      generateExpr time
      emitOp (if 0 ≤ id then .forkWithId else .fork)
      let bc ← forkVector (generateStmts body)
      addFork bc
      whenId id addVarRef
      popStack 1
  | .expr expr => do
      generateExpr expr
      emitOp .pop
      popStack 1
  | .return (some expr) => do
      generateExpr expr
      emitOp .return
      popStack 1
  | .return none => emitOp .return0
  | .tryExcept body excepts => do
      let labels ← generateHandlerCodes excepts
      emitExtended .tryExcept
      emitByte (UInt8.ofNat labels.length)
      pushStack 1
      generateStmts body
      emitExtended .endExcept
      let endLabel ← addLabel
      popStack (2 * labels.length + 1)
      let endLabel ← generateHandlers excepts labels (some endLabel)
      defineLabel endLabel
  | .tryFinally body handler => do
      emitExtended .tryFinally
      let handlerLabel ← addLabel
      pushStack 1
      generateStmts body
      emitExtended .endFinally
      popStack 1
      defineLabel (some handlerLabel)
      pushStack 2
      generateStmts handler
      emitExtended .continue
      popStack 2
  | .continue exit => do
      let (_, loop) ← findExit exit
      addStackRef loop.topStack
      let _ ← addKnownLabel loop.topLabel
      pure ()
  | .break exit => do
      let (i, loop) ← findExit exit
      addStackRef loop.bottomStack
      let label ← addLinkedLabel loop.bottomLabel
      modify fun st =>
        { st with loops := st.loops.modify i fun loop => { loop with bottomLabel := some label } }

/-- `generate_stmt`. -/
def generateStmts : StmtList → Gen Unit
  | .nil => pure ()
  | .cons stmt next => do
      generateStmt stmt
      generateStmts next

/-- The arms of a condition; the label is that of its end. -/
def generateArms : CondArm → Opcode → Option Nat → Gen (Option Nat)
  | .nil, _, endLabel => pure endLabel
  | .cons condition stmt next, ifOp, endLabel => do
      generateExpr condition
      emitOp ifOp
      let elseLabel ← addLabel
      popStack 1
      generateStmts stmt
      emitOp .jump
      let endLabel ← addLinkedLabel endLabel
      defineLabel (some elseLabel)
      generateArms next .eif (some endLabel)

/-- The codes of handlers, with the label of each. -/
def generateHandlerCodes : ExceptArm → Gen (List Nat)
  | .nil => pure []
  | .cons _ codes _ next => do
      generateCodes codes
      emitExtended .pushLabel
      let label ← addLabel
      pushStack 1
      let labels ← generateHandlerCodes next
      pure (label :: labels)

/-- The handlers, each at its label; all but the last jump to the end. -/
def generateHandlers : ExceptArm → List Nat → Option Nat → Gen (Option Nat)
  | .nil, _, endLabel => pure endLabel
  | .cons id _ stmt next, labels, endLabel => do
      defineLabel labels.head?
      pushStack 1
      whenId id (emitVarOp .put)
      emitOp .pop
      popStack 1
      generateStmts stmt
      let endLabel ← jumpToEnd next endLabel
      generateHandlers next labels.tail endLabel

end

/-- `stmt_to_code`. -/
def stmtToCode (stmt : StmtList) (gstate : GState) : Option (Bytecodes × GState) :=
  emitVector (generateStmts stmt) gstate

/-- `generate_code`, with the names that `parse_program` gives the program. -/
def generateCode (stmt : StmtList) (version : Nat) (varNames : List Str) : Option Program := do
  let (mainVector, gstate) ← stmtToCode stmt initGstate
  some
    { version := version
      mainVector := mainVector
      literals := gstate.literals
      forkVectors := gstate.forkVectors
      varNames := varNames }

end Waverous
