import Waverous.CodeVector
import Waverous.CodeGenProofs

/-! # Where the code of a program stands — `code_gen.c`

    For each expression and statement, what its code is from one place of a vector to another:
    the opcodes with their operands, where labels are the places that they lead to.  The depth of the
    stack before the code is known, and so is the cell of the value that `$` belongs to, or -1. -/

namespace Waverous

/-- A stretch of code, from its place to the place behind it. -/
abbrev Stretch := Nat → Nat → Prop

/-- One stretch after the other. -/
def Stretch.all : List Stretch → Stretch
  | [] => fun pc pc' => pc' = pc
  | c :: cs => fun pc pc' => ∃ p, c pc p ∧ Stretch.all cs p pc'

/-- No code. -/
abbrev noCode : Stretch := fun pc pc' => pc' = pc

/-- This is the place. -/
def here (place : Nat) : Stretch := fun pc pc' => pc = place ∧ pc' = pc

/-- A stretch that is there if the condition holds. -/
def Stretch.when (c : Prop) [Decidable c] (code : Stretch) : Stretch := if c then code else noCode

/-- A loop around a statement: where its `continue` and its `break` go, and how deep the stack is
    there. -/
structure LoopPlace where
  id : Int
  top : Nat
  topDepth : Int
  exit : Nat
  exitDepth : Int

/-- The loop that a `break` or `continue` leaves. -/
def leftLoop (exit : Int) (loops : List LoopPlace) : Option LoopPlace :=
  if exit = -1 then loops.head? else loops.find? fun loop => loop.id = exit

section

variable (bc : Bytecodes) (lits : List Var)

/-! ## Instructions -/

/-- A byte. -/
def byteAt (b : UInt8) : Stretch := fun pc pc' => bc.vector[pc]? = some b ∧ pc' = pc + 1

/-- An opcode. -/
abbrev opAt (op : Opcode) : Stretch := byteAt bc op.byte

/-- An extended opcode. -/
def extendedAt (eop : ExtendedOpcode) : Stretch := .all [opAt bc .extended, byteAt bc eop.byte]

/-- A number that is an opcode. -/
abbrev numberAt (n : Int) : Stretch := byteAt bc (optimNumToOpcode n)

/-- An operand, of so many bytes. -/
def operandAt (size value : Nat) : Stretch := fun pc pc' =>
  readBytes bc.vector pc size = some value ∧ pc' = pc + size

/-- The slot of a variable. -/
abbrev varRefAt (slot : Nat) : Stretch := operandAt bc bc.numbytesVarName slot

/-- A label, which leads to the place `target`. -/
abbrev labelAt (target : Nat) : Stretch := operandAt bc bc.numbytesLabel target

/-- A cell of the stack. -/
abbrev stackAt (index : Int) : Stretch := operandAt bc bc.numbytesStack index.toNat

/-- The slot of a literal. -/
def literalAt (v : Var) : Stretch := fun pc pc' =>
  ∃ slot, lits[slot]? = some v ∧ operandAt bc bc.numbytesLiteral slot pc pc'

/-- `OP_PUSH` or `OP_PUT`, of a variable. -/
def varOpAt (op : Opcode) (slot : Nat) : Stretch :=
  if numReadyVars ≤ slot then .all [byteAt bc (op.byte + UInt8.ofNat numReadyVars), varRefAt bc slot]
  else byteAt bc (op.byte + UInt8.ofNat slot)

/-- The operator. -/
def BinaryKind.codeAt : BinaryKind → Stretch
  | .plus => opAt bc .add
  | .minus => opAt bc .minus
  | .times => opAt bc .mult
  | .divide => opAt bc .div
  | .mod => opAt bc .mod
  | .exp => extendedAt bc .exp
  | .eq => opAt bc .eq
  | .ne => opAt bc .ne
  | .lt => opAt bc .lt
  | .le => opAt bc .le
  | .gt => opAt bc .gt
  | .ge => opAt bc .ge
  | .in => opAt bc .in

/-- A literal. -/
def literalCode : Var → Stretch
  | .int num =>
      if inOptimNumRange num.toInt then numberAt bc num.toInt
      else .all [opAt bc .imm, literalAt bc lits (.int num)]
  | v => .all [opAt bc .imm, literalAt bc lits v]

/-- An argument, when it has been evaluated. -/
def argCode (first : Bool) : ArgKind → Stretch
  | .normal => opAt bc (if first then .makeSingletonList else .listAddTail)
  | .splice => opAt bc (if first then .checkListForSplice else .listAppend)

/-- What is put into a target. -/
def putCode : Expr → Stretch
  | .range base _ _ => .all [extendedAt bc .rangeset, putCode base]
  | .index lhs _ => .all [opAt bc .indexset, putCode lhs]
  | .id id => varOpAt bc .put id
  | .prop _ _ => opAt bc .putProp
  | _ => fun _ _ => False

/-- `is_indexed`. -/
def Expr.isIndexed : Expr → Bool
  | .range _ _ _ | .index _ _ => true
  | _ => false

/-- The targets of `EOP_SCATTER`, with the places of the defaults. -/
def targetsCode : Scatter → List Nat → Stretch
  | .cons .optional id (some _) next, place :: places =>
      .all [varRefAt bc id, labelAt bc place, targetsCode next places]
  | .cons .optional id none next, places => .all [varRefAt bc id, labelAt bc 1, targetsCode next places]
  | .cons .required id _ next, places | .cons .rest id _ next, places =>
      .all [varRefAt bc id, labelAt bc 0, targetsCode next places]
  | .cons .optional _ (some _) _, [] => fun _ _ => False
  | .nil, _ => noCode

/-- `EOP_SCATTER` with its operands, and the place behind the defaults. -/
def scatterCode (sc : Scatter) (places : List Nat) (done : Nat) : Stretch :=
  .all
    [extendedAt bc .scatter, byteAt bc (UInt8.ofNat sc.nargs), byteAt bc (UInt8.ofNat sc.nreq),
      byteAt bc (UInt8.ofNat ((sc.rest 0 none).getD (sc.nargs + 1))), targetsCode bc sc places,
      labelAt bc done]

/-! ## Expressions -/

mutual

/-- An expression, with `$` for the cell `saved` and so many cells on the stack. -/
def Expr.stands : Expr → Int → Int → Stretch
  | .var v, _, _ => literalCode bc lits v
  | .id id, _, _ => varOpAt bc .push id
  | .and lhs rhs, saved, depth => fun pc pc' => Stretch.all
      [lhs.stands saved depth, opAt bc .and, labelAt bc pc', rhs.stands saved depth] pc pc'
  | .or lhs rhs, saved, depth => fun pc pc' => Stretch.all
      [lhs.stands saved depth, opAt bc .or, labelAt bc pc', rhs.stands saved depth] pc pc'
  | .negate expr, saved, depth => .all [expr.stands saved depth, opAt bc .unaryMinus]
  | .not expr, saved, depth => .all [expr.stands saved depth, opAt bc .not]
  | .binary kind lhs rhs, saved, depth =>
      .all [lhs.stands saved depth, rhs.stands saved (depth + 1), kind.codeAt bc]
  | .prop lhs rhs, saved, depth =>
      .all [lhs.stands saved depth, rhs.stands saved (depth + 1), opAt bc .getProp]
  | .index lhs rhs, saved, depth =>
      .all [lhs.stands saved depth, rhs.stands depth (depth + 1), opAt bc .ref]
  | .range base «from» «to», saved, depth =>
      .all [base.stands saved depth, «from».stands depth (depth + 1), «to».stands depth (depth + 2),
        opAt bc .rangeRef]
  | .length, saved, _ => .all [extendedAt bc .length, stackAt bc saved]
  | .list list, saved, depth => list.stands true saved depth
  | .call func args, saved, depth =>
      .all [args.stands true saved depth, opAt bc .biFuncCall, byteAt bc (UInt8.ofNat func)]
  | .verb obj verb args, saved, depth =>
      .all [obj.stands saved depth, verb.stands saved (depth + 1), args.stands true saved (depth + 2),
        opAt bc .callVerb]
  | .cond condition consequent alternate, saved, depth => fun pc pc' => ∃ otherwise, Stretch.all
      [condition.stands saved depth, opAt bc .ifQues, labelAt bc otherwise, consequent.stands saved depth,
        opAt bc .jump, labelAt bc pc', here otherwise, alternate.stands saved depth] pc pc'
  | .asgn (.scatter sc) rhs, saved, depth => fun pc pc' => ∃ places, Stretch.all
      [rhs.stands saved depth, scatterCode bc sc places pc', sc.stands places saved (depth + 1)] pc pc'
  | .asgn lhs rhs, saved, depth => .all
      [lhs.targetStands false saved depth, rhs.stands saved (depth + lhs.cells),
        .when (lhs.isIndexed = true) (opAt bc .putTemp), putCode bc lhs,
        .when (lhs.isIndexed = true) (.all [opAt bc .pop, opAt bc .pushTemp])]
  | .catch «try» codes except, saved, depth => fun pc pc' => ∃ handler, Stretch.all
      [codes.handlerStands saved depth, extendedAt bc .pushLabel, labelAt bc handler, extendedAt bc .catch,
        «try».stands saved (depth + 3), extendedAt bc .endCatch, labelAt bc pc', here handler,
        exceptStands except saved depth] pc pc'
  | .scatter _, _, _ => fun _ _ => False

/-- What is done with an error that has been caught. -/
def exceptStands : Option Expr → Int → Int → Stretch
  | some except, saved, depth => .all [opAt bc .pop, except.stands saved depth]
  | none, _, _ => .all [numberAt bc 1, opAt bc .ref]

/-- The parts of a target, and its value if `above`. -/
def Expr.targetStands : Expr → Bool → Int → Int → Stretch
  | .range base «from» «to», _, saved, depth => .all
      [base.targetStands true saved depth, «from».stands (depth + base.cells) (depth + base.cells + 1),
        «to».stands (depth + base.cells) (depth + base.cells + 2)]
  | .index lhs rhs, above, saved, depth => .all
      [lhs.targetStands true saved depth, rhs.stands (depth + lhs.cells) (depth + lhs.cells + 1),
        .when (above = true) (opAt bc .pushRef)]
  | .id id, above, _, _ => .when (above = true) (varOpAt bc .push id)
  | .prop lhs rhs, above, saved, depth => .all
      [lhs.stands saved depth, rhs.stands saved (depth + 1), .when (above = true) (opAt bc .pushGetProp)]
  | _, _, _, _ => fun _ _ => False

/-- Arguments; `first` if there are none before them. -/
def ArgList.stands : ArgList → Bool → Int → Int → Stretch
  | .nil, first, _, _ => .when (first = true) (opAt bc .makeEmptyList)
  | .cons kind expr next, first, saved, depth => .all
      [expr.stands saved (depth + if first then 0 else 1), argCode bc first kind, next.stands false saved depth]

/-- The codes of a handler. -/
def ArgList.handlerStands : ArgList → Int → Int → Stretch
  | .nil, _, _ => numberAt bc 0
  | .cons kind expr next, saved, depth => .all
      [expr.stands saved depth, argCode bc true kind, next.stands false saved depth]

/-- The defaults of a scattering assignment, at their places. -/
def Scatter.stands : Scatter → List Nat → Int → Int → Stretch
  | .nil, _, _, _ => noCode
  | .cons .optional id (some expr) next, places, saved, depth => .all
      [fun pc pc' => places.head? = some pc ∧ pc' = pc, expr.stands saved depth, varOpAt bc .put id,
        opAt bc .pop, next.stands places.tail saved depth]
  | .cons _ _ _ next, places, saved, depth => next.stands places saved depth

end

/-! ## Statements -/

/-- `EOP_EXIT`, with an identifier or without one. -/
def exitCode (exit : Int) : Stretch :=
  if exit = -1 then extendedAt bc .exit else .all [extendedAt bc .exitId, varRefAt bc exit.toNat]

/-- `OP_WHILE`, with an identifier or without one. -/
def whileCode (id : Int) : Stretch :=
  if id = -1 then opAt bc .while else .all [extendedAt bc .whileId, varRefAt bc id.toNat]

/-- The codes of handlers, which stay on the stack with the places of the handlers. -/
def ExceptArm.codesStand : ExceptArm → List Nat → Int → Stretch
  | .cons _ codes _ next, place :: places, depth => .all
      [codes.handlerStands bc lits (-1) depth, extendedAt bc .pushLabel, labelAt bc place,
        next.codesStand places (depth + 2)]
  | .nil, [], _ => noCode
  | _, _, _ => fun _ _ => False

/-- The jump behind a handler that is not the last one. -/
def jumpCode (next : ExceptArm) (stop : Nat) : Stretch :=
  match next with
  | .nil => noCode
  | .cons _ _ _ _ => .all [opAt bc .jump, labelAt bc stop]

mutual

/-- A statement in some loops, with so many cells on the stack. -/
def Stmt.stands : Stmt → List LoopPlace → Int → Stretch
  | .cond arms otherwise, loops, depth => fun pc pc' => Stretch.all
      [arms.stands .if pc' loops depth, otherwise.stands loops depth] pc pc'
  | .list id expr body, loops, depth => fun pc pc' => ∃ top, Stretch.all
      [expr.stands bc lits (-1) depth, numberAt bc 1, here top, opAt bc .forList, varRefAt bc id, labelAt bc pc',
        body.stands (⟨id, top, depth + 2, pc', depth⟩ :: loops) (depth + 2), opAt bc .jump,
        labelAt bc top] pc pc'
  | .range id «from» «to» body, loops, depth => fun pc pc' => ∃ top, Stretch.all
      [«from».stands bc lits (-1) depth, «to».stands bc lits (-1) (depth + 1), here top, opAt bc .forRange,
        varRefAt bc id, labelAt bc pc',
        body.stands (⟨id, top, depth + 2, pc', depth⟩ :: loops) (depth + 2), opAt bc .jump,
        labelAt bc top] pc pc'
  | .while id condition body, loops, depth => fun pc pc' => ∃ top, Stretch.all
      [here top, condition.stands bc lits (-1) depth, whileCode bc id, labelAt bc pc',
        body.stands (⟨id, top, depth, pc', depth⟩ :: loops) depth, opAt bc .jump, labelAt bc top] pc pc'
  | .fork _ _ _, _, _ => fun _ _ => True
  | .expr expr, _, depth => .all [expr.stands bc lits (-1) depth, opAt bc .pop]
  | .return (some expr), _, depth => .all [expr.stands bc lits (-1) depth, opAt bc .return]
  | .return none, _, _ => opAt bc .return0
  | .tryExcept body excepts, loops, depth => fun pc pc' => ∃ places : List Nat, Stretch.all
      [excepts.codesStand bc lits places depth, extendedAt bc .tryExcept, byteAt bc (UInt8.ofNat places.length),
        body.stands loops (depth + 2 * places.length + 1), extendedAt bc .endExcept, labelAt bc pc',
        excepts.stands places pc' loops depth] pc pc'
  | .tryFinally body handler, loops, depth => fun pc pc' => ∃ place, Stretch.all
      [extendedAt bc .tryFinally, labelAt bc place, body.stands loops (depth + 1), extendedAt bc .endFinally,
        here place, handler.stands loops (depth + 2), extendedAt bc .continue] pc pc'
  | .continue exit, loops, _ => fun pc pc' => ∃ loop, leftLoop exit loops = some loop ∧
      Stretch.all [exitCode bc exit, stackAt bc loop.topDepth, labelAt bc loop.top] pc pc'
  | .break exit, loops, _ => fun pc pc' => ∃ loop, leftLoop exit loops = some loop ∧
      Stretch.all [exitCode bc exit, stackAt bc loop.exitDepth, labelAt bc loop.exit] pc pc'

/-- Statements, one after the other. -/
def StmtList.stands : StmtList → List LoopPlace → Int → Stretch
  | .nil, _, _ => noCode
  | .cons stmt next, loops, depth => .all [stmt.stands loops depth, next.stands loops depth]

/-- The arms of a condition, behind each of which there is a jump to `stop`. -/
def CondArm.stands : CondArm → Opcode → Nat → List LoopPlace → Int → Stretch
  | .nil, _, _, _, _ => noCode
  | .cons condition stmt next, op, stop, loops, depth => fun pc pc' => ∃ otherwise, Stretch.all
      [condition.stands bc lits (-1) depth, opAt bc op, labelAt bc otherwise, stmt.stands loops depth,
        opAt bc .jump, labelAt bc stop, here otherwise, next.stands .eif stop loops depth] pc pc'

/-- The handlers, at their places; behind each but the last there is a jump to `stop`. -/
def ExceptArm.stands : ExceptArm → List Nat → Nat → List LoopPlace → Int → Stretch
  | .nil, _, _, _, _ => noCode
  | .cons id _ stmt next, places, stop, loops, depth => .all
      [fun pc pc' => places.head? = some pc ∧ pc' = pc, .when (0 ≤ id) (varOpAt bc .put id.toNat),
        opAt bc .pop, stmt.stands loops depth, jumpCode bc next stop,
        next.stands places.tail stop loops depth]

end

end

end Waverous
