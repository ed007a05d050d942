import Waverous.Run
import Mathlib.Data.List.Forall2

/-! # Two readers of code — `disassemble.c`, `execute.c`

    The disassembler goes through a vector from its beginning.  Of `run` only what it does with
    `bv` is kept here: which operands it reads or skips, and where it goes on.  What the values on
    the stack decide is left to a choice. -/

namespace Waverous

/-- What stands behind an opcode. -/
inductive Slot where
  | byte
  | operand (kind : FixupKind)
  deriving DecidableEq

/-- How many bytes it has. -/
def Bytecodes.width (bc : Bytecodes) : Slot → Nat
  | .byte => 1
  | .operand kind => bc.operandSize kind

/-- A reader at a place of a vector. -/
abbrev Scan := StateT Nat Option

/-- The next byte. -/
def nextByte (bc : Bytecodes) : Scan UInt8 := fun pc => bc.vector[pc]?.map fun b => (b, pc + 1)

/-! ## `disassemble` -/

/-- `add_bytes`. -/
def addBytes (vector : List UInt8) : Nat → Nat → Nat → Option Nat
  | _, 0, arg => some arg
  | pc, length + 1, arg => do
      let b ← vector[pc]?
      addBytes vector (pc + 1) length (arg * 2 ^ 8 + b.toNat)

/-- `ADD_BYTES`. -/
def Bytecodes.addBytes (bc : Bytecodes) (n : Nat) : Scan Nat := fun pc =>
  (Waverous.addBytes bc.vector pc n 0).map fun arg => (arg, pc + n)

/-- `ADD_BYTES`, one after the other. -/
def addOperands (bc : Bytecodes) : List Slot → Scan (List Nat)
  | [] => pure []
  | slot :: slots => do
      let a ← bc.addBytes (bc.width slot)
      let as ← addOperands bc slots
      pure (a :: as)

/-- `switch ((Opcode) b)`. -/
def opcodeSlots (b : UInt8) : List Slot :=
  if b ∈ [Opcode.if.byte, Opcode.ifQues.byte, Opcode.eif.byte, Opcode.and.byte, Opcode.or.byte,
      Opcode.jump.byte, Opcode.while.byte] then [.operand .label]
  else if b = Opcode.fork.byte then [.operand .fork]
  else if b = Opcode.forkWithId.byte then [.operand .fork, .operand .varRef]
  else if b ∈ [Opcode.forList.byte, Opcode.forRange.byte] then [.operand .varRef, .operand .label]
  else if b ∈ [Opcode.gPush.byte, Opcode.gPut.byte] then [.operand .varRef]
  else if b = Opcode.imm.byte then [.operand .literal]
  else if b = Opcode.biFuncCall.byte then [.byte]
  else []

/-- The targets of `EOP_SCATTER`. -/
def targetSlots : Nat → List Slot
  | 0 => []
  | nargs + 1 => .operand .varRef :: .operand .label :: targetSlots nargs

/-- `switch ((Extended_Opcode) b)`, but for `EOP_SCATTER`. -/
def extendedSlots (b : UInt8) : List Slot :=
  if b = ExtendedOpcode.whileId.byte then [.operand .varRef, .operand .label]
  else if b = ExtendedOpcode.exitId.byte then [.operand .varRef, .operand .stack, .operand .label]
  else if b = ExtendedOpcode.exit.byte then [.operand .stack, .operand .label]
  else if b ∈ [ExtendedOpcode.pushLabel.byte, ExtendedOpcode.endCatch.byte,
      ExtendedOpcode.endExcept.byte, ExtendedOpcode.tryFinally.byte] then [.operand .label]
  else if b = ExtendedOpcode.tryExcept.byte then [.byte]
  else if b = ExtendedOpcode.length.byte then [.operand .stack]
  else []

/-- An instruction: its opcode, the extended one, and the values of its operands. -/
structure Insn where
  op : UInt8
  eop : Option UInt8
  args : List Nat
  deriving DecidableEq

/-- `case EOP_SCATTER`. -/
def addScatter (bc : Bytecodes) : Scan (List Nat) := do
  let nargs ← bc.addBytes 1
  let a1 ← bc.addBytes 1
  let a2 ← bc.addBytes 1
  let targets ← addOperands bc (targetSlots nargs)
  let done ← bc.addBytes bc.numbytesLabel
  pure (nargs :: a1 :: a2 :: (targets ++ [done]))

/-- The case of `OP_EXTENDED`. -/
def addExtended (bc : Bytecodes) (eop : UInt8) : Scan (List Nat) :=
  if eop = ExtendedOpcode.scatter.byte then addScatter bc else addOperands bc (extendedSlots eop)

/-- The body of the loop over `pc`. -/
def disassembleInsn (bc : Bytecodes) : Scan Insn := do
  let b ← nextByte bc
  if Opcode.optimNumStart.byte ≤ b ∨ Opcode.push.byte ≤ b ∧ b < Opcode.gPush.byte ∨
      Opcode.put.byte ≤ b ∧ b < Opcode.gPut.byte then
    pure ⟨b, none, []⟩
  else if b = Opcode.extended.byte then do
    let eop ← nextByte bc
    let args ← addExtended bc eop
    pure ⟨b, some eop, args⟩
  else do
    let args ← addOperands bc (opcodeSlots b)
    pure ⟨b, none, args⟩

/-- A line of the disassembler: an instruction from `pc` to `next`. -/
structure Line where
  pc : Nat
  insn : Insn
  next : Nat
  deriving DecidableEq

/-- The loop over `pc`, and where it ends. -/
def disassembleLoop (bc : Bytecodes) (size : Nat) : Nat → Nat → Option (List Line × Nat)
  | 0, pc => if pc < size then none else some ([], pc)
  | fuel + 1, pc =>
      if pc < size then do
        let (insn, next) ← disassembleInsn bc pc
        let (lines, last) ← disassembleLoop bc size fuel next
        some (⟨pc, insn, next⟩ :: lines, last)
      else some ([], pc)

/-- `disassemble`, of a vector of `size` bytes; each instruction has one byte at least. -/
def disassemble (bc : Bytecodes) (size : Nat) : Option (List Line × Nat) :=
  disassembleLoop bc size size 0

/-! ## `run` -/

/-- `READ_BYTES`. -/
def Bytecodes.readBytes (bc : Bytecodes) (nb : Nat) : Scan Nat := fun pc =>
  (Waverous.readBytes bc.vector pc nb).map fun value => (value, pc + nb)

/-- `SKIP_BYTES`. -/
def skipBytes (nb : Nat) : Scan PUnit := fun pc => some (⟨⟩, pc + nb)

/-- `bv[i]`. -/
def peekByte (bc : Bytecodes) (i : Nat) : Scan UInt8 := fun pc =>
  bc.vector[pc + i]?.map fun b => (b, pc)

/-- What a case of `run` does with `bv`: the operands, with `none` for those that are skipped, and
    the label that it jumps to, if it does. -/
structure Moved where
  operands : List (Option Nat)
  jump : Option Nat
  deriving DecidableEq

section

variable (bc : Bytecodes) (choice : Nat)

/-- `do_test`. -/
def doTest : Scan Moved :=
  if choice = 0 then do
    let lab ← bc.readBytes bc.numbytesLabel
    pure ⟨[some lab], some lab⟩
  else do
    skipBytes bc.numbytesLabel
    pure ⟨[none], none⟩

/-- The cases of `switch (op)`, but for `OP_EXTENDED`. -/
def runCase (op : UInt8) : Scan Moved :=
  if op ∈ [Opcode.ifQues.byte, Opcode.if.byte, Opcode.while.byte, Opcode.eif.byte] then
    doTest bc choice
  else if op = Opcode.jump.byte then do
    let lab ← bc.readBytes bc.numbytesLabel
    pure ⟨[some lab], some lab⟩
  else if op ∈ [Opcode.forList.byte, Opcode.forRange.byte] then do
    let id ← bc.readBytes bc.numbytesVarName
    let lab ← bc.readBytes bc.numbytesLabel
    pure ⟨[some id, some lab], if choice = 0 then some lab else none⟩
  else if op = Opcode.imm.byte then do
    let b ← peekByte bc bc.numbytesLiteral
    if b = Opcode.pop.byte then do
      skipBytes (bc.numbytesLiteral + 1)
      pure ⟨[none], none⟩
    else do
      let slot ← bc.readBytes bc.numbytesLiteral
      pure ⟨[some slot], none⟩
  else if op ∈ [Opcode.and.byte, Opcode.or.byte] then do
    let lab ← bc.readBytes bc.numbytesLabel
    pure ⟨[some lab], if choice = 0 then some lab else none⟩
  else if op ∈ [Opcode.gPut.byte, Opcode.gPush.byte] then do
    let id ← bc.readBytes bc.numbytesVarName
    pure ⟨[some id], none⟩
  else if op = Opcode.fork.byte then do
    let fIndex ← bc.readBytes bc.numbytesFork
    pure ⟨[some fIndex], none⟩
  else if op = Opcode.forkWithId.byte then do
    let fIndex ← bc.readBytes bc.numbytesFork
    let id ← bc.readBytes bc.numbytesVarName
    pure ⟨[some fIndex, some id], none⟩
  else if op = Opcode.biFuncCall.byte then do
    let funcId ← bc.readBytes 1
    pure ⟨[some funcId], none⟩
  else if Opcode.put.byte ≤ op ∧ op < Opcode.gPut.byte then do
    let b ← peekByte bc 0
    if b = Opcode.pop.byte then do
      skipBytes 1
      pure ⟨[], none⟩
    else pure ⟨[], none⟩
  else pure ⟨[], none⟩

/-- The operands of the targets are skipped after an error. -/
def skipTargets : Nat → Scan (List (Option Nat))
  | 0 => pure []
  | nargs + 1 => do
      skipBytes bc.numbytesVarName
      skipBytes bc.numbytesLabel
      let operands ← skipTargets nargs
      pure (none :: none :: operands)

/-- The operands of the targets, and the labels among them that can become `where`. -/
def readTargets : Nat → Scan (List (Option Nat) × List Nat)
  | 0 => pure ([], [])
  | nargs + 1 => do
      let id ← bc.readBytes bc.numbytesVarName
      let label ← bc.readBytes bc.numbytesLabel
      let (operands, labels) ← readTargets nargs
      pure (some id :: some label :: operands,
        if label = 0 ∨ label = 1 then labels else label :: labels)

/-- An error, or an assignment. -/
def takeTargets (nargs : Nat) : Scan (List (Option Nat) × List Nat) :=
  if choice = 0 then do
    let operands ← skipTargets bc nargs
    pure (operands, [])
  else readTargets bc nargs

/-- `case EOP_SCATTER`, which goes to one of the labels or to the end. -/
def runScatter : Scan Moved := do
  let nargs ← bc.readBytes 1
  let nreq ← bc.readBytes 1
  let rest ← bc.readBytes 1
  let (operands, labels) ← takeTargets bc choice nargs
  let done ← bc.readBytes bc.numbytesLabel
  pure ⟨some nargs :: some nreq :: some rest :: (operands ++ [some done]),
    some (labels[choice - 1]?.getD done)⟩

/-- The cases of `switch (eop)`; an unknown opcode is a panic. -/
def runExtended (eop : UInt8) : Scan Moved :=
  if eop ∈ [ExtendedOpcode.rangeset.byte, ExtendedOpcode.exp.byte, ExtendedOpcode.catch.byte,
      ExtendedOpcode.endFinally.byte, ExtendedOpcode.continue.byte] then pure ⟨[], none⟩
  else if eop = ExtendedOpcode.length.byte then do
    let i ← bc.readBytes bc.numbytesStack
    pure ⟨[some i], none⟩
  else if eop = ExtendedOpcode.scatter.byte then runScatter bc choice
  else if eop ∈ [ExtendedOpcode.pushLabel.byte, ExtendedOpcode.tryFinally.byte] then do
    let label ← bc.readBytes bc.numbytesLabel
    pure ⟨[some label], none⟩
  else if eop = ExtendedOpcode.tryExcept.byte then do
    let count ← bc.readBytes 1
    pure ⟨[some count], none⟩
  else if eop ∈ [ExtendedOpcode.endCatch.byte, ExtendedOpcode.endExcept.byte] then do
    let lab ← bc.readBytes bc.numbytesLabel
    pure ⟨[some lab], some lab⟩
  else if eop = ExtendedOpcode.whileId.byte then do
    let id ← bc.readBytes bc.numbytesVarName
    let test ← doTest bc choice
    pure ⟨some id :: test.operands, test.jump⟩
  else if eop = ExtendedOpcode.exitId.byte then do
    skipBytes bc.numbytesVarName
    let stack ← bc.readBytes bc.numbytesStack
    let lab ← bc.readBytes bc.numbytesLabel
    pure ⟨[none, some stack, some lab], some lab⟩
  else if eop = ExtendedOpcode.exit.byte then do
    let stack ← bc.readBytes bc.numbytesStack
    let lab ← bc.readBytes bc.numbytesLabel
    pure ⟨[some stack, some lab], some lab⟩
  else failure

/-- A round of `run`, from the opcode to the next one of the same vector: the extended opcode, and
    what is done with `bv`. -/
def runRound : Scan (UInt8 × Option UInt8 × Moved) := do
  let op ← nextByte bc
  if op = Opcode.extended.byte then do
    let eop ← nextByte bc
    let moved ← runExtended bc choice eop
    pure (op, some eop, moved)
  else do
    let moved ← runCase bc choice op
    pure (op, none, moved)

end

/-! ## Both read the same -/

/-- The operands of a vector have one, two or four bytes. -/
def Bytecodes.Sized (bc : Bytecodes) : Prop :=
  ∀ kind, bc.operandSize kind = 1 ∨ bc.operandSize kind = 2 ∨ bc.operandSize kind = 4

section

variable {bc : Bytecodes} {pc pc' next : Nat} {α β : Type}

theorem Scan.bind_eq {x : Scan α} {a : α} (h : x pc = some (a, pc')) (f : α → Scan β) :
    (x >>= f) pc = f a pc' := by
  show (x pc).bind _ = _
  rw [h]
  rfl

theorem Scan.of_bind {x : Scan α} {f : α → Scan β} {b : β} (h : (x >>= f) pc = some (b, next)) :
    ∃ a pc', x pc = some (a, pc') ∧ f a pc' = some (b, next) := by
  have hrun : (x pc).bind (fun p => f p.1 p.2) = some (b, next) := h
  obtain ⟨⟨a, pc'⟩, hx, hf⟩ := Option.bind_eq_some_iff.mp hrun
  exact ⟨a, pc', hx, hf⟩

/-- `add_bytes` and `READ_BYTES` make the same number of the bytes. -/
theorem addBytes_eq {nb : Nat} (hnb : nb = 1 ∨ nb = 2 ∨ nb = 4) (pc : Nat) :
    bc.addBytes nb pc = bc.readBytes nb pc := by
  have h : Waverous.addBytes bc.vector pc nb 0 = Waverous.readBytes bc.vector pc nb := by
    rcases hnb with rfl | rfl | rfl
    · cases h0 : bc.vector[pc]? <;> simp [Waverous.addBytes, Waverous.readBytes, h0]
    · cases h1 : bc.vector[pc]? with
      | none => simp [Waverous.addBytes, Waverous.readBytes, h1]
      | some b1 =>
          cases h0 : bc.vector[pc + 1]? <;> simp [Waverous.addBytes, Waverous.readBytes, h0, h1]
    · cases h3 : bc.vector[pc]? with
      | none => simp [Waverous.addBytes, Waverous.readBytes, h3]
      | some b3 =>
          cases h2 : bc.vector[pc + 1]? with
          | none => simp [Waverous.addBytes, Waverous.readBytes, h2, h3]
          | some b2 =>
              cases h1 : bc.vector[pc + 2]? with
              | none => simp [Waverous.addBytes, Waverous.readBytes, h1, h2, h3]
              | some b1 =>
                  cases h0 : bc.vector[pc + 3]? with
                  | none => simp [Waverous.addBytes, Waverous.readBytes, h0, h1, h2, h3]
                  | some b0 =>
                      simp only [Waverous.addBytes, Waverous.readBytes, h0, h1, h2, h3,
                        Option.bind_eq_bind, Option.bind_some]
                      exact congrArg some (by ring)
  rw [Bytecodes.addBytes, Bytecodes.readBytes, h]

theorem Bytecodes.Sized.width (h : bc.Sized) (slot : Slot) :
    bc.width slot = 1 ∨ bc.width slot = 2 ∨ bc.width slot = 4 := by
  cases slot with
  | byte => exact .inl rfl
  | operand kind => exact h kind

theorem addOperands_cons (hsized : bc.Sized) {slot : Slot} {slots : List Slot} {args : List Nat}
    (h : addOperands bc (slot :: slots) pc = some (args, next)) :
    ∃ a as, bc.readBytes (bc.width slot) pc = some (a, pc + bc.width slot) ∧
      addOperands bc slots (pc + bc.width slot) = some (as, next) ∧ args = a :: as := by
  obtain ⟨a, pc', ha, h⟩ := Scan.of_bind h
  obtain ⟨as, pc'', has, h⟩ := Scan.of_bind h
  cases h
  rw [addBytes_eq (hsized.width slot)] at ha
  obtain ⟨value, hvalue, heq⟩ := Option.map_eq_some_iff.mp ha
  cases heq
  refine ⟨a, as, ?_, has, rfl⟩
  rw [Bytecodes.readBytes, hvalue]
  rfl

theorem addOperands_nil {args : List Nat} (h : addOperands bc [] pc = some (args, next)) :
    args = [] ∧ next = pc := by
  cases h
  exact ⟨rfl, rfl⟩

end

/-- What the interpreter does not skip is what the disassembler shows. -/
def Shows (operands : List (Option Nat)) (args : List Nat) : Prop :=
  List.Forall₂ (fun v a => ∀ x, v = some x → x = a) operands args

/-- The interpreter reads the operands of an instruction, and goes on behind it, or behind the
    `OP_POP` there, or at one of its labels. -/
structure SameInsn (bc : Bytecodes) (args : List Nat) (next : Nat) (moved : Moved) (bv : Nat) :
    Prop where
  operands : Shows moved.operands args
  place : bv = next ∨ bc.vector[next]? = some Opcode.pop.byte ∧ bv = next + 1
  jump : ∀ lab, moved.jump = some lab → lab ∈ args

/-- A case of the interpreter takes what the disassembler has taken from `pc` to `next`. -/
def Takes (bc : Bytecodes) (pc : Nat) (args : List Nat) (next : Nat) (m : Scan Moved) : Prop :=
  ∃ moved bv, m pc = some (moved, bv) ∧ SameInsn bc args next moved bv

section

variable {bc : Bytecodes} {pc next choice : Nat} {op : UInt8} {args : List Nat}

theorem Shows.nil : Shows [] [] := List.Forall₂.nil

theorem Shows.read {operands : List (Option Nat)} (a : Nat) (h : Shows operands args) :
    Shows (some a :: operands) (a :: args) :=
  List.Forall₂.cons (fun _ hx => (Option.some.inj hx).symm) h

theorem Shows.skip {operands : List (Option Nat)} (a : Nat) (h : Shows operands args) :
    Shows (none :: operands) (a :: args) := List.Forall₂.cons nofun h

theorem doTest_takes (hsized : bc.Sized)
    (h : addOperands bc [.operand .label] pc = some (args, next)) :
    Takes bc pc args next (doTest bc choice) := by
  obtain ⟨lab, as, hlab, hend, rfl⟩ := addOperands_cons hsized h
  obtain ⟨rfl, rfl⟩ := addOperands_nil hend
  unfold doTest
  split
  · refine ⟨⟨[some lab], some lab⟩, _, (Scan.bind_eq hlab _).trans rfl, .read _ .nil, .inl rfl, ?_⟩
    rintro _ ⟨⟩
    exact List.mem_singleton_self _
  · exact ⟨⟨[none], none⟩, _, rfl, .skip _ .nil, .inl rfl, nofun⟩

/-- One operand, with a jump to it or without. -/
theorem takes_one {slot : Slot} {jump : Nat → Option Nat} (hsized : bc.Sized)
    (h : addOperands bc [slot] pc = some (args, next))
    (hjump : ∀ a lab, jump a = some lab → lab = a) :
    Takes bc pc args next (do
      let a ← bc.readBytes (bc.width slot)
      pure ⟨[some a], jump a⟩) := by
  obtain ⟨a, as, ha, hend, rfl⟩ := addOperands_cons hsized h
  obtain ⟨rfl, rfl⟩ := addOperands_nil hend
  refine ⟨⟨[some a], jump a⟩, _, (Scan.bind_eq ha _).trans rfl, .read _ .nil, .inl rfl, ?_⟩
  intro lab hlab
  rw [hjump a lab hlab]
  exact List.mem_singleton_self a

/-- Two operands, with a jump to the second or without. -/
theorem takes_two {slot slot' : Slot} {jump : Nat → Option Nat} (hsized : bc.Sized)
    (h : addOperands bc [slot, slot'] pc = some (args, next))
    (hjump : ∀ b lab, jump b = some lab → lab = b) :
    Takes bc pc args next (do
      let a ← bc.readBytes (bc.width slot)
      let b ← bc.readBytes (bc.width slot')
      pure ⟨[some a, some b], jump b⟩) := by
  obtain ⟨a, as, ha, hrest, rfl⟩ := addOperands_cons hsized h
  obtain ⟨b, as, hb, hend, rfl⟩ := addOperands_cons hsized hrest
  obtain ⟨rfl, rfl⟩ := addOperands_nil hend
  refine ⟨⟨[some a, some b], jump b⟩, _, ?_, .read _ (.read _ .nil), .inl rfl, ?_⟩
  · rw [Scan.bind_eq ha, Scan.bind_eq hb]
    rfl
  · intro lab hlab
    rw [hjump b lab hlab]
    exact List.mem_cons_of_mem _ (List.mem_singleton_self b)

theorem imm_takes (hsized : bc.Sized) (hbyte : ∃ b, bc.vector[next]? = some b)
    (h : addOperands bc [.operand .literal] pc = some (args, next)) :
    Takes bc pc args next (runCase bc choice Opcode.imm.byte) := by
  obtain ⟨slot, as, hslot, hend, rfl⟩ := addOperands_cons hsized h
  obtain ⟨rfl, rfl⟩ := addOperands_nil hend
  obtain ⟨b, hb⟩ := hbyte
  have hpeek : peekByte bc bc.numbytesLiteral pc = some (b, pc) := by
    rw [peekByte]
    exact congrArg (Option.map _) hb
  show Takes bc pc _ _ (do
    let b ← peekByte bc bc.numbytesLiteral
    if b = Opcode.pop.byte then do
      skipBytes (bc.numbytesLiteral + 1)
      pure ⟨[none], none⟩
    else do
      let slot ← bc.readBytes bc.numbytesLiteral
      pure ⟨[some slot], none⟩)
  by_cases hpop : b = Opcode.pop.byte
  · refine ⟨⟨[none], none⟩, pc + (bc.numbytesLiteral + 1), ?_, .skip _ .nil, .inr ⟨?_, rfl⟩, nofun⟩
    · rw [Scan.bind_eq hpeek, if_pos hpop]
      rfl
    · rw [hb, hpop]
  · refine ⟨⟨[some slot], none⟩, _, ?_, .read _ .nil, .inl rfl, nofun⟩
    rw [Scan.bind_eq hpeek, if_neg hpop]
    exact Scan.bind_eq hslot _

/-- The opcodes with operands. -/
def operandOps : List UInt8 :=
  [Opcode.if.byte, Opcode.ifQues.byte, Opcode.eif.byte, Opcode.while.byte, Opcode.and.byte,
    Opcode.or.byte, Opcode.jump.byte, Opcode.fork.byte, Opcode.forkWithId.byte,
    Opcode.forList.byte, Opcode.forRange.byte, Opcode.gPush.byte, Opcode.gPut.byte,
    Opcode.imm.byte, Opcode.biFuncCall.byte]

theorem opcodeSlots_nil (h : op ∉ operandOps) : opcodeSlots op = [] := by
  simp only [operandOps, List.mem_cons, List.not_mem_nil, not_or] at h
  simp [opcodeSlots, h]

theorem runCase_none (h : op ∉ operandOps) : runCase bc choice op =
    if Opcode.put.byte ≤ op ∧ op < Opcode.gPut.byte then do
      let b ← peekByte bc 0
      if b = Opcode.pop.byte then do
        skipBytes 1
        pure ⟨[], none⟩
      else pure ⟨[], none⟩
    else pure ⟨[], none⟩ := by
  simp only [operandOps, List.mem_cons, List.not_mem_nil, not_or] at h
  simp [runCase, h]

theorem runCase_takes (hsized : bc.Sized)
    (hbyte : op = Opcode.imm.byte ∨ Opcode.put.byte ≤ op ∧ op < Opcode.gPut.byte →
      ∃ b, bc.vector[next]? = some b)
    (h : addOperands bc (opcodeSlots op) pc = some (args, next)) :
    Takes bc pc args next (runCase bc choice op) := by
  have hnone : ∀ a lab : Nat, none = some lab → lab = a := fun _ _ h => nomatch h
  have hsome : ∀ a lab : Nat, some a = some lab → lab = a := fun _ _ h => (Option.some.inj h).symm
  have hwhen : ∀ a lab : Nat, (if choice = 0 then some a else none) = some lab → lab = a := by
    intro a lab h
    split at h
    · exact (Option.some.inj h).symm
    · exact nomatch h
  by_cases hmem : op ∈ operandOps
  · simp only [operandOps, List.mem_cons, List.not_mem_nil, or_false] at hmem
    rcases hmem with rfl | rfl | rfl | rfl | rfl | rfl | rfl | rfl | rfl | rfl | rfl | rfl | rfl |
      rfl | rfl
    · exact doTest_takes hsized h
    · exact doTest_takes hsized h
    · exact doTest_takes hsized h
    · exact doTest_takes hsized h
    · exact takes_one hsized h hwhen
    · exact takes_one hsized h hwhen
    · exact takes_one hsized h hsome
    · exact takes_one hsized h hnone
    · exact takes_two hsized h hnone
    · exact takes_two hsized h hwhen
    · exact takes_two hsized h hwhen
    · exact takes_one hsized h hnone
    · exact takes_one hsized h hnone
    · exact imm_takes hsized (hbyte (.inl rfl)) h
    · exact takes_one hsized (show addOperands bc [.byte] pc = _ from h) hnone
  · rw [opcodeSlots_nil hmem] at h
    obtain ⟨rfl, rfl⟩ := addOperands_nil h
    rw [runCase_none hmem]
    split
    next hput =>
      obtain ⟨b, hb⟩ := hbyte (.inr hput)
      have hpeek : peekByte bc 0 next = some (b, next) := by
        rw [peekByte]
        exact congrArg (Option.map _) hb
      by_cases hpop : b = Opcode.pop.byte
      · refine ⟨⟨[], none⟩, next + 1, ?_, .nil, .inr ⟨hpop ▸ hb, rfl⟩, nofun⟩
        rw [Scan.bind_eq hpeek, if_pos hpop]
        rfl
      · refine ⟨⟨[], none⟩, next, ?_, .nil, .inl rfl, nofun⟩
        rw [Scan.bind_eq hpeek, if_neg hpop]
        rfl
    next => exact ⟨⟨[], none⟩, next, rfl, .nil, .inl rfl, nofun⟩

/-! ### Extended opcodes -/

theorem Shows.append {operands operands' : List (Option Nat)} {args' : List Nat}
    (h : Shows operands args) (h' : Shows operands' args') :
    Shows (operands ++ operands') (args ++ args') := List.rel_append h h'

theorem skipTargets_takes (hsized : bc.Sized) (nargs : Nat)
    (h : addOperands bc (targetSlots nargs) pc = some (args, next)) :
    ∃ operands, skipTargets bc nargs pc = some (operands, next) ∧ Shows operands args := by
  induction nargs generalizing pc args with
  | zero =>
      obtain ⟨rfl, rfl⟩ := addOperands_nil h
      exact ⟨[], rfl, .nil⟩
  | succ nargs ih =>
      obtain ⟨id, as, -, hlabel, rfl⟩ := addOperands_cons hsized h
      obtain ⟨label, as, -, hrest, rfl⟩ := addOperands_cons hsized hlabel
      obtain ⟨operands, hskip, hshows⟩ := ih hrest
      refine ⟨none :: none :: operands, ?_, .skip _ (.skip _ hshows)⟩
      refine (Scan.bind_eq rfl _).trans ((Scan.bind_eq rfl _).trans ?_)
      exact Scan.bind_eq hskip _

theorem readTargets_takes (hsized : bc.Sized) (nargs : Nat)
    (h : addOperands bc (targetSlots nargs) pc = some (args, next)) :
    ∃ operands labels, readTargets bc nargs pc = some ((operands, labels), next) ∧
      Shows operands args ∧ ∀ lab ∈ labels, lab ∈ args := by
  induction nargs generalizing pc args with
  | zero =>
      obtain ⟨rfl, rfl⟩ := addOperands_nil h
      exact ⟨[], [], rfl, .nil, nofun⟩
  | succ nargs ih =>
      obtain ⟨id, as, hid, hlabel, rfl⟩ := addOperands_cons hsized h
      obtain ⟨label, as, hlab, hrest, rfl⟩ := addOperands_cons hsized hlabel
      obtain ⟨operands, labels, hread, hshows, hmem⟩ := ih hrest
      refine ⟨some id :: some label :: operands,
        if label = 0 ∨ label = 1 then labels else label :: labels, ?_, .read _ (.read _ hshows), ?_⟩
      · refine (Scan.bind_eq hid _).trans ((Scan.bind_eq hlab _).trans ?_)
        exact Scan.bind_eq hread _
      · intro lab hlab
        split at hlab
        · exact List.mem_cons_of_mem _ (List.mem_cons_of_mem _ (hmem lab hlab))
        · rcases List.mem_cons.mp hlab with rfl | hlab
          · exact List.mem_cons_of_mem _ List.mem_cons_self
          · exact List.mem_cons_of_mem _ (List.mem_cons_of_mem _ (hmem lab hlab))

/-- `EOP_SCATTER`: whichever label it goes to, it is one of the operands. -/
theorem runScatter_takes (hsized : bc.Sized) (h : addScatter bc pc = some (args, next)) :
    Takes bc pc args next (runScatter bc choice) := by
  have hbyte : ∀ {pc a pc' : Nat}, bc.addBytes 1 pc = some (a, pc') →
      bc.readBytes 1 pc = some (a, pc') := fun h => addBytes_eq (.inl rfl) _ ▸ h
  obtain ⟨nargs, pc1, hnargs, h⟩ := Scan.of_bind h
  obtain ⟨nreq, pc2, hnreq, h⟩ := Scan.of_bind h
  obtain ⟨rest, pc3, hrest, h⟩ := Scan.of_bind h
  obtain ⟨targets, pc4, htargets, h⟩ := Scan.of_bind h
  obtain ⟨done, pc5, hdone, h⟩ := Scan.of_bind h
  cases h
  have hlabel : bc.readBytes bc.numbytesLabel pc4 = some (done, next) :=
    (addBytes_eq (hsized .label) pc4).symm.trans hdone
  obtain ⟨operands, labels, hread, hshows, hmem⟩ : ∃ operands labels,
      takeTargets bc choice nargs pc3 = some ((operands, labels), pc4) ∧
      Shows operands targets ∧ ∀ lab ∈ labels, lab ∈ targets := by
    unfold takeTargets
    split
    · obtain ⟨operands, hskip, hshows⟩ := skipTargets_takes hsized nargs htargets
      exact ⟨operands, [], Scan.bind_eq hskip _, hshows, nofun⟩
    · exact readTargets_takes hsized nargs htargets
  refine ⟨⟨some nargs :: some nreq :: some rest :: (operands ++ [some done]),
    some (labels[choice - 1]?.getD done)⟩, next, ?_,
    .read _ (.read _ (.read _ (hshows.append (.read _ .nil)))), .inl rfl, ?_⟩
  · unfold runScatter
    rw [Scan.bind_eq (hbyte hnargs), Scan.bind_eq (hbyte hnreq), Scan.bind_eq (hbyte hrest),
      Scan.bind_eq hread]
    exact Scan.bind_eq hlabel _
  · rintro _ ⟨⟩
    refine List.mem_cons_of_mem _ (List.mem_cons_of_mem _ (List.mem_cons_of_mem _ ?_))
    cases hlab : labels[choice - 1]? with
    | none => exact List.mem_append_right _ (List.mem_singleton_self _)
    | some lab => exact List.mem_append_left _ (hmem lab (List.mem_of_getElem? hlab))

theorem whileId_takes (hsized : bc.Sized)
    (h : addOperands bc [.operand .varRef, .operand .label] pc = some (args, next)) :
    Takes bc pc args next (runExtended bc choice ExtendedOpcode.whileId.byte) := by
  obtain ⟨id, as, hid, htest, rfl⟩ := addOperands_cons hsized h
  obtain ⟨moved, bv, hrun, hsame⟩ : Takes bc _ as next (doTest bc choice) := doTest_takes hsized htest
  refine ⟨⟨some id :: moved.operands, moved.jump⟩, bv, ?_, hsame.operands.read id, hsame.place,
    fun lab hlab => List.mem_cons_of_mem _ (hsame.jump lab hlab)⟩
  exact (Scan.bind_eq hid _).trans (Scan.bind_eq hrun _)

theorem exitId_takes (hsized : bc.Sized)
    (h : addOperands bc [.operand .varRef, .operand .stack, .operand .label] pc =
      some (args, next)) :
    Takes bc pc args next (runExtended bc choice ExtendedOpcode.exitId.byte) := by
  obtain ⟨id, as, -, hrest, rfl⟩ := addOperands_cons hsized h
  obtain ⟨stack, as, hstack, hlabel, rfl⟩ := addOperands_cons hsized hrest
  obtain ⟨lab, as, hlab, hend, rfl⟩ := addOperands_cons hsized hlabel
  obtain ⟨rfl, rfl⟩ := addOperands_nil hend
  refine ⟨⟨[none, some stack, some lab], some lab⟩, _, ?_, .skip _ (.read _ (.read _ .nil)),
    .inl rfl, ?_⟩
  · refine (Scan.bind_eq rfl _).trans ?_
    exact (Scan.bind_eq hstack _).trans (Scan.bind_eq hlab _)
  · rintro _ ⟨⟩
    exact List.mem_cons_of_mem _ (List.mem_cons_of_mem _ (List.mem_singleton_self lab))

/-- The members of `enum Extended_Opcode`. -/
def extendedOps : List UInt8 :=
  [ExtendedOpcode.rangeset.byte, ExtendedOpcode.length.byte, ExtendedOpcode.pushLabel.byte,
    ExtendedOpcode.endCatch.byte, ExtendedOpcode.endExcept.byte, ExtendedOpcode.endFinally.byte,
    ExtendedOpcode.continue.byte, ExtendedOpcode.catch.byte, ExtendedOpcode.tryExcept.byte,
    ExtendedOpcode.tryFinally.byte, ExtendedOpcode.whileId.byte, ExtendedOpcode.exit.byte,
    ExtendedOpcode.exitId.byte, ExtendedOpcode.scatter.byte, ExtendedOpcode.exp.byte]

theorem runExtended_takes {eop : UInt8} (hsized : bc.Sized) (hknown : eop ∈ extendedOps)
    (h : addExtended bc eop pc = some (args, next)) :
    Takes bc pc args next (runExtended bc choice eop) := by
  have hnone : ∀ a lab : Nat, none = some lab → lab = a := fun _ _ h => nomatch h
  have hsome : ∀ a lab : Nat, some a = some lab → lab = a := fun _ _ h => (Option.some.inj h).symm
  simp only [extendedOps, List.mem_cons, List.not_mem_nil, or_false] at hknown
  have hempty : ∀ {eop}, addOperands bc [] pc = some (args, next) →
      runExtended bc choice eop = pure ⟨[], none⟩ →
      Takes bc pc args next (runExtended bc choice eop) := by
    intro eop h heq
    obtain ⟨rfl, rfl⟩ := addOperands_nil h
    exact ⟨⟨[], none⟩, next, by rw [heq]; rfl, .nil, .inl rfl, nofun⟩
  rcases hknown with rfl | rfl | rfl | rfl | rfl | rfl | rfl | rfl | rfl | rfl | rfl | rfl | rfl |
    rfl | rfl
  · exact hempty h rfl
  · exact takes_one hsized h hnone
  · exact takes_one hsized h hnone
  · exact takes_one hsized h hsome
  · exact takes_one hsized h hsome
  · exact hempty h rfl
  · exact hempty h rfl
  · exact hempty h rfl
  · exact takes_one hsized (show addOperands bc [.byte] pc = _ from h) hnone
  · exact takes_one hsized h hnone
  · exact whileId_takes hsized h
  · exact takes_two hsized h hsome
  · exact exitId_takes hsized h
  · exact runScatter_takes hsized h
  · exact hempty h rfl

/-! ### Instructions -/

/-- What the disassembler takes as an instruction. -/
inductive IsInsn (bc : Bytecodes) (pc : Nat) : Insn → Nat → Prop where
  | plain {op : UInt8} {args : List Nat} {next : Nat} : bc.vector[pc]? = some op →
      op ≠ Opcode.extended.byte → addOperands bc (opcodeSlots op) (pc + 1) = some (args, next) →
      IsInsn bc pc ⟨op, none, args⟩ next
  | extended {eop : UInt8} {args : List Nat} {next : Nat} :
      bc.vector[pc]? = some Opcode.extended.byte → bc.vector[pc + 1]? = some eop →
      addExtended bc eop (pc + 2) = some (args, next) →
      IsInsn bc pc ⟨Opcode.extended.byte, some eop, args⟩ next

/-- The opcodes that are shown by their number have no operands. -/
theorem not_operandOps (h : Opcode.optimNumStart.byte ≤ op ∨
    Opcode.push.byte ≤ op ∧ op < Opcode.gPush.byte ∨ Opcode.put.byte ≤ op ∧ op < Opcode.gPut.byte) :
    op ∉ operandOps ∧ op ≠ Opcode.extended.byte := by
  constructor
  · intro hmem
    simp only [operandOps, List.mem_cons, List.not_mem_nil, or_false] at hmem
    rcases hmem with rfl | rfl | rfl | rfl | rfl | rfl | rfl | rfl | rfl | rfl | rfl | rfl | rfl |
      rfl | rfl
    all_goals exact absurd h (by decide)
  · rintro rfl
    exact absurd h (by decide)

theorem nextByte_eq {b : UInt8} (h : bc.vector[pc]? = some b) :
    nextByte bc pc = some (b, pc + 1) := by
  rw [nextByte, h]
  rfl

theorem disassembleInsn_some {insn : Insn} (h : disassembleInsn bc pc = some (insn, next)) :
    IsInsn bc pc insn next := by
  obtain ⟨op, pc', hop, hrest⟩ := Scan.of_bind h
  obtain ⟨b, hb, heq⟩ := Option.map_eq_some_iff.mp hop
  cases heq
  split at hrest
  next hquick =>
    obtain ⟨hmem, hext⟩ := not_operandOps hquick
    cases hrest
    exact .plain hb hext (by rw [opcodeSlots_nil hmem]; rfl)
  next =>
    split at hrest
    next hext =>
      subst hext
      obtain ⟨eop, pc', heop, hrest⟩ := Scan.of_bind hrest
      obtain ⟨e, he, heq⟩ := Option.map_eq_some_iff.mp heop
      cases heq
      obtain ⟨args, pc', hargs, hrest⟩ := Scan.of_bind hrest
      cases hrest
      exact .extended hb he hargs
    next hext =>
      obtain ⟨args, pc', hargs, hrest⟩ := Scan.of_bind hrest
      cases hrest
      exact .plain hb hext hargs

theorem IsInsn.disassemble {insn : Insn} (h : IsInsn bc pc insn next) :
    disassembleInsn bc pc = some (insn, next) := by
  unfold disassembleInsn
  cases h with
  | @plain op args _ hop hext hargs =>
      rw [Scan.bind_eq (nextByte_eq hop)]
      split
      next hquick =>
        rw [opcodeSlots_nil (not_operandOps hquick).1] at hargs
        obtain ⟨rfl, rfl⟩ := addOperands_nil hargs
        rfl
      next => exact Scan.bind_eq hargs _
  | extended hop heop hargs =>
      rw [Scan.bind_eq (nextByte_eq hop), if_neg (by decide), if_pos rfl]
      exact (Scan.bind_eq (nextByte_eq heop) _).trans (Scan.bind_eq hargs _)

/-- The interpreter takes what the disassembler does, whatever is on the stack. -/
theorem IsInsn.run {insn : Insn} (hsized : bc.Sized) (h : IsInsn bc pc insn next)
    (hknown : ∀ eop, insn.eop = some eop → eop ∈ extendedOps)
    (hbyte : insn.op = Opcode.imm.byte ∨ Opcode.put.byte ≤ insn.op ∧ insn.op < Opcode.gPut.byte →
      ∃ b, bc.vector[next]? = some b) (choice : Nat) :
    ∃ moved bv, runRound bc choice pc = some ((insn.op, insn.eop, moved), bv) ∧
      SameInsn bc insn.args next moved bv := by
  unfold runRound
  cases h with
  | plain hop hext hargs =>
      obtain ⟨moved, bv, hrun, hsame⟩ : Takes bc _ _ next (runCase bc choice _) :=
        runCase_takes hsized hbyte hargs
      refine ⟨moved, bv, ?_, hsame⟩
      rw [Scan.bind_eq (nextByte_eq hop), if_neg hext]
      exact Scan.bind_eq hrun _
  | extended hop heop hargs =>
      obtain ⟨moved, bv, hrun, hsame⟩ : Takes bc _ _ next (runExtended bc choice _) :=
        runExtended_takes hsized (hknown _ rfl) hargs
      refine ⟨moved, bv, ?_, hsame⟩
      rw [Scan.bind_eq (nextByte_eq hop), if_pos rfl]
      exact (Scan.bind_eq (nextByte_eq heop) _).trans (Scan.bind_eq hrun _)

end

end Waverous
