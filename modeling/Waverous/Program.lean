import Waverous.Structures

/-! # Programs and their code — `program.h`, `opcode.h`

    The opcodes with the numbers that `enum Opcode` and `enum Extended_Opcode` give them, without
    `BYTECODE_REDUCE_REF`.  The first variables have opcodes of their own, and so have small
    numbers. -/

namespace Waverous

/-- `NUM_READY_VARS`. -/
def numReadyVars : Nat := 32

/-- `enum Opcode`. -/
inductive Opcode where
  | «if» | while | eif | fork | forkWithId | forList | forRange
  | indexset | pushGetProp | getProp | callVerb | putProp | biFuncCall | ifQues | ref | rangeRef
  | makeSingletonList | checkListForSplice
  | mult | div | mod | add | minus
  | eq | ne | lt | le | gt | ge | «in»
  | and | or
  | unaryMinus | not
  | put | gPut
  | push | gPush
  | imm | makeEmptyList | listAddTail | listAppend | pushRef | putTemp | pushTemp
  | jump | «return» | return0 | done | pop
  | extended
  | optimNumStart
  deriving DecidableEq, Repr

/-- The byte of an opcode. -/
def Opcode.byte : Opcode → UInt8
  | .if => 0 | .while => 1 | .eif => 2 | .fork => 3 | .forkWithId => 4 | .forList => 5
  | .forRange => 6 | .indexset => 7 | .pushGetProp => 8 | .getProp => 9 | .callVerb => 10
  | .putProp => 11 | .biFuncCall => 12 | .ifQues => 13 | .ref => 14 | .rangeRef => 15
  | .makeSingletonList => 16 | .checkListForSplice => 17 | .mult => 18 | .div => 19 | .mod => 20
  | .add => 21 | .minus => 22 | .eq => 23 | .ne => 24 | .lt => 25 | .le => 26 | .gt => 27 | .ge => 28
  | .in => 29 | .and => 30 | .or => 31 | .unaryMinus => 32 | .not => 33 | .put => 34 | .gPut => 66
  | .push => 67 | .gPush => 99 | .imm => 100 | .makeEmptyList => 101 | .listAddTail => 102
  | .listAppend => 103 | .pushRef => 104 | .putTemp => 105 | .pushTemp => 106 | .jump => 107
  | .return => 108 | .return0 => 109 | .done => 110 | .pop => 111 | .extended => 112
  | .optimNumStart => 113

/-- `enum Extended_Opcode`. -/
inductive ExtendedOpcode where
  | rangeset | length | pushLabel | endCatch | endExcept | endFinally | continue
  | catch | tryExcept | tryFinally | whileId | exit | exitId | scatter | exp
  deriving DecidableEq, Repr

/-- The byte of an extended opcode. -/
def ExtendedOpcode.byte : ExtendedOpcode → UInt8
  | .rangeset => 0 | .length => 1 | .pushLabel => 2 | .endCatch => 3 | .endExcept => 4
  | .endFinally => 5 | .continue => 6 | .catch => 7 | .tryExcept => 8 | .tryFinally => 9
  | .whileId => 10 | .exit => 11 | .exitId => 12 | .scatter => 13 | .exp => 14

/-- `OPTIM_NUM_LOW`. -/
def optimNumLow : Int := -10

/-- `OPTIM_NUM_HI`. -/
def optimNumHi : Int := 255 - 113 + optimNumLow

/-- `IN_OPTIM_NUM_RANGE`. -/
def inOptimNumRange (i : Int) : Bool := optimNumLow ≤ i ∧ i ≤ optimNumHi

/-- `OPTIM_NUM_TO_OPCODE`. -/
def optimNumToOpcode (i : Int) : UInt8 := UInt8.ofNat (113 + i - optimNumLow).toNat

/-- `Bytecodes`; `size` is the length of the vector. -/
structure Bytecodes where
  numbytesLabel : Nat
  numbytesLiteral : Nat
  numbytesFork : Nat
  numbytesVarName : Nat
  numbytesStack : Nat
  vector : List UInt8
  maxStack : Nat
  deriving DecidableEq, Repr

/-- `Program`. -/
structure Program where
  version : Nat
  mainVector : Bytecodes
  literals : List Var
  forkVectors : List Bytecodes
  varNames : List Str
  deriving DecidableEq

/-- `MAIN_VECTOR`. -/
def mainVectorIndex : Int := -1

/-- `prog->main_vector` or one of `prog->fork_vectors`. -/
def Program.bytecodes (p : Program) (which : Int) : Option Bytecodes :=
  if which = mainVectorIndex then some p.mainVector
  else if which < 0 then none
  else p.forkVectors[which.toNat]?

end Waverous
