import Waverous.BiFuncData
import Waverous.Program

/-! # Suspended tasks in the database file — `execute.c`, `eval_vm.c`

    The frames of a virtual machine are written one after another and read back.  The text of a
    frame's program is what `unparse_program` prints, which is a parameter like the parser that
    reads it: what is said here holds when the text of every program gives its code again. -/

namespace Waverous.VmFile

open Readers

/-! ## Programs -/

/-- The vector that the `i`-th frame executes. -/
def vectorOf (root : Int) (i : Nat) : Int := if i = 0 then root else mainVectorIndex

/-- `unparse_program`, line by line, and `parse_program`. -/
structure Language where
  unparse : Program → List Str
  parse : Nat → Str → Option Program

/-- `dbio_write_program`. -/
def dbioWriteProgram (lang : Language) (p : Program) : Str :=
  (lang.unparse p).flatMap (fun line => line ++ [newline]) ++ Str.ofString ".\n"

/-- What `my_getc` returns until it returns EOF; `start` at the start of a line. -/
def programText (start : Bool) : Str → Option (Str × Str)
  | [] => none
  | c :: rest =>
      if start ∧ c = 46 then some ([], rest.tail)
      else do
        let (text, rest) ← programText (c = newline) rest
        some (c :: text, rest)

/-- `dbio_read_program`. -/
def dbioReadProgram (lang : Language) (version : Nat) : FileReader Program := fun input => do
  let (text, rest) ← programText true input
  let p ← lang.parse version text
  some (p, rest)

/-! ## Frames -/

/-- `activation`. -/
structure Activation where
  prog : Program
  rtEnv : List Var
  /-- the run-time stack, from its base -/
  rtStack : List Var
  pc : Nat
  biFuncPc : Nat
  errorPc : Nat
  biFuncId : Nat
  biFuncData : BiFuncData
  temp : Var
  self : Objid
  player : Objid
  progr : Objid
  vloc : Objid
  verb : Str
  verbname : Str
  debug : Int

/-- `vmstruct`; the top frame is the last one. -/
structure Vm where
  activStack : List Activation
  maxStackSize : Nat
  rootActivVector : Int
  funcId : Nat

/-- `current_version` and the ones before it. -/
def checkVersion (version : Nat) : Bool := version < 5

variable (lang : Language) (ft : FloatText) (t : BfTable)

/-! ## Writing -/

/-- `write_activ_as_pi`. -/
def writeActivAsPi (a : Activation) : Str :=
  dbioWriteVar ft (.int (-111)) ++
  (dbioPrintf (Directive.format "%d %d %d %d %d %d %d %d %d\n")
    [a.self, -7, -8, a.player, -9, a.progr, a.vloc, -10, a.debug] ++
  (dbioWriteString (Str.ofString "No") ++ (dbioWriteString (Str.ofString "More") ++
  (dbioWriteString (Str.ofString "Parse") ++ (dbioWriteString (Str.ofString "Infos") ++
  (dbioWriteString a.verb ++ dbioWriteString a.verbname))))))

/-- `write_rt_env`. -/
def writeRtEnv (varNames : List Str) (rtEnv : List Var) : Str :=
  dbioPrintf (Directive.format "%d variables\n") [(varNames.length : Int)] ++
    (varNames.zip rtEnv).flatMap fun (name, v) => dbioWriteString name ++ dbioWriteVar ft v

/-- The end of `write_activ`: the state of a built-in function. -/
def writePending (a : Activation) : Option Str :=
  if a.biFuncPc = 0 then some []
  else do
    let text ← t.writeBiFuncData a.biFuncData a.biFuncId
    some (dbioWriteString (t.nameFuncByNum a.biFuncId) ++ text)

/-- `write_activ`. -/
def writeActiv (a : Activation) : Option Str := do
  let pending ← writePending t a
  some (dbioPrintf (Directive.format "language version %u\n") [(a.prog.version : Int)] ++
    (dbioWriteProgram lang a.prog ++ (writeRtEnv ft a.prog.varNames a.rtEnv ++
    (dbioPrintf (Directive.format "%d rt_stack slots in use\n") [(a.rtStack.length : Int)] ++
    (a.rtStack.flatMap (dbioWriteVar ft) ++ (writeActivAsPi ft a ++ (dbioWriteVar ft a.temp ++
    (dbioPrintf (Directive.format "%u %u %u\n") [(a.pc : Int), (a.biFuncPc : Int), (a.errorPc : Int)] ++
      pending))))))))

/-- `write_vm`. -/
def writeVm (vm : Vm) : Option Str := do
  let texts ← vm.activStack.mapM (writeActiv lang ft t)
  some (dbioPrintf (Directive.format "%u %d %u %u\n")
    [(vm.activStack.length : Int) - 1, vm.rootActivVector, (vm.funcId : Int), (vm.maxStackSize : Int)] ++
    texts.flatten)

/-! ## Reading -/

/-- What `read_activ_as_pi` reads. -/
structure ActivAsPi where
  self : Objid
  player : Objid
  progr : Objid
  vloc : Objid
  debug : Int
  verb : Str
  verbname : Str

/-- `read_activ_as_pi`. -/
def readActivAsPi : FileReader ActivAsPi := do
  let _dummy ← dbioReadVar ft
  match ← dbioScanf (Directive.format "%d %d %d %d %d %d %d %d %d%c") with
  | [self, _, _, player, _, progr, vloc, _, debug, c] =>
      if c ≠ 10 then fail
      else do
        let _argstr ← dbioReadString
        let _dobjstr ← dbioReadString
        let _iobjstr ← dbioReadString
        let _prepstr ← dbioReadString
        let verb ← dbioReadString
        let verbname ← dbioReadString
        pure { self, player, progr, vloc, debug, verb, verbname }
  | _ => fail

/-- `read_rt_env`. -/
def readRtEnv : FileReader (List (Str × Var)) := do
  match ← dbioScanf (Directive.format "%d variables\n") with
  | [size] =>
      if size < 0 then fail
      else times (do
        let name ← dbioReadString
        let v ← dbioReadVar ft
        pure (name, v)) size.toNat
  | _ => fail

/-- The value of the first slot with the name. -/
def slotValue (old : List (Str × Var)) (name : Str) : Var :=
  match old.find? fun nv => strcaseEq nv.1 name with
  | none => .none
  | some nv => nv.2

/-- `reorder_rt_env`. -/
def reorderRtEnv (old : List (Str × Var)) (prog : Program) : List Var :=
  prog.varNames.map (slotValue old)

/-- `check_pc_validity`. -/
def checkPcValidity (prog : Program) (whichVector : Int) (pc : Nat) : Bool :=
  match prog.bytecodes whichVector with
  | none => false
  | some bc =>
      pc < bc.vector.length ∧
        (1 ≤ pc ∧ bc.vector[pc - 1]? = some Opcode.callVerb.byte ∨
          2 ≤ pc ∧ bc.vector[pc - 2]? = some Opcode.biFuncCall.byte)

/-- The end of `read_activ`: the state of a built-in function. -/
def readPending (biFuncPc : Nat) : FileReader (Nat × BiFuncData) :=
  if biFuncPc = 0 then pure (0, .null)
  else do
    let funcName ← dbioReadString
    match t.numberFuncByName funcName with
    | none => fail
    | some biFuncId => fun input => do
        let (data, rest) ← t.readBiFuncData (input.length + 1) biFuncId input
        some ((biFuncId, data), rest)

/-- The middle of `read_activ`: the program counters. -/
def readPcs : FileReader (Nat × Nat × Nat) := do
  match ← dbioScanf (Directive.format "%u %u%c") with
  | [pc, biFuncPc, c] =>
      if c = 10 then pure (pc.toNat, biFuncPc.toNat % 256, pc.toNat)
      else do
        match ← dbioScanf (Directive.format "%u\n") with
        | [errorPc] => pure (pc.toNat, biFuncPc.toNat % 256, errorPc.toNat)
        | _ => fail
  | _ => fail

/-- `read_activ`. -/
def readActiv (whichVector : Int) : FileReader Activation := do
  match ← dbioScanf (Directive.format "language version %u\n") with
  | [version] =>
      if checkVersion version.toNat = false then fail
      else do
        let prog ← dbioReadProgram lang version.toNat
        let old ← readRtEnv ft
        match ← dbioScanf (Directive.format "%d rt_stack slots in use\n") with
        | [stackInUse] =>
            match prog.bytecodes whichVector with
            | none => fail
            | some bc =>
                if stackInUse < 0 ∨ (bc.maxStack : Int) < stackInUse then fail
                else do
                  let rtStack ← times (dbioReadVar ft) stackInUse.toNat
                  let pi ← readActivAsPi ft
                  let temp ← dbioReadVar ft
                  let (pc, biFuncPc, errorPc) ← readPcs
                  if checkPcValidity prog whichVector pc = false then fail
                  else do
                    let (biFuncId, biFuncData) ← readPending t biFuncPc
                    pure
                      { prog, rtEnv := reorderRtEnv old prog, rtStack, pc, biFuncPc, errorPc, biFuncId
                        biFuncData, temp, self := pi.self, player := pi.player, progr := pi.progr
                        vloc := pi.vloc, verb := pi.verb, verbname := pi.verbname, debug := pi.debug }
        | _ => fail
  | _ => fail

/-- The loop of `read_vm`: the frames from the `i`-th on. -/
def readActivs (vector : Int) : Nat → Nat → FileReader (List Activation)
  | _, 0 => pure []
  | i, n + 1 => do
      let a ← readActiv lang ft t (vectorOf vector i)
      let as ← readActivs vector (i + 1) n
      pure (a :: as)

/-- `DEFAULT_MAX_STACK_DEPTH`. -/
def defaultMaxStackDepth : Nat := 50

/-- The header that `read_vm` reads: `max_stack_size` may be missing. -/
def readMax (c : Int) : FileReader Nat :=
  if c = 32 then do
    match ← dbioScanf (Directive.format "%u%c") with
    | [max, c] => if c = 10 then pure max.toNat else fail
    | _ => fail
  else if c = 10 then pure defaultMaxStackDepth
  else fail

/-- `read_vm`. -/
def readVm : FileReader Vm := do
  match ← dbioScanf (Directive.format "%u %d %u%c") with
  | [top, vector, funcId, c] => do
      let max ← readMax c
      let activStack ← readActivs lang ft t vector 0 (top.toNat + 1)
      pure { activStack, maxStackSize := max, rootActivVector := vector, funcId := funcId.toNat }
  | _ => fail

/-! ## Where a frame can be suspended -/

/-- An instruction: an opcode and the bytes of its operands. -/
structure Instr where
  op : UInt8
  operands : List UInt8

def Instr.bytes (i : Instr) : List UInt8 := i.op :: i.operands

/-- OP_CALL_VERB, or OP_BI_FUNC_CALL with the number of a function. -/
inductive Instr.IsCall : Instr → Prop
  | callVerb : IsCall ⟨Opcode.callVerb.byte, []⟩
  | biFuncCall (id : UInt8) : IsCall ⟨Opcode.biFuncCall.byte, [id]⟩

/-- The interpreter stores this `pc` when the instruction it executes is a call; the code of a
    vector ends with OP_DONE. -/
inductive SuspendedAt (bc : Bytecodes) : Nat → Prop
  | behind (before after : List Instr) (call : Instr) (hcall : call.IsCall)
      (hvector : bc.vector = (before ++ call :: after).flatMap Instr.bytes ++ [Opcode.done.byte]) :
      SuspendedAt bc ((before.flatMap Instr.bytes).length + call.bytes.length)

/-- **`check_pc_validity` accepts every place where a frame can be suspended.** -/
theorem checkPcValidity_of_suspended {p : Program} {which : Int} {bc : Bytecodes} {pc : Nat}
    (hbc : p.bytecodes which = some bc) (h : SuspendedAt bc pc) : checkPcValidity p which pc = true := by
  obtain ⟨before, after, call, hcall, hvector⟩ := h
  have hbytes : bc.vector = before.flatMap Instr.bytes ++
      (call.bytes ++ (after.flatMap Instr.bytes ++ [Opcode.done.byte])) := by
    rw [hvector, List.flatMap_append, List.flatMap_cons, List.append_assoc, List.append_assoc]
  have hlen : (before.flatMap Instr.bytes).length + call.bytes.length < bc.vector.length := by
    rw [hbytes, List.length_append, List.length_append, List.length_append, List.length_singleton]
    omega
  have hget : bc.vector[(before.flatMap Instr.bytes).length]? = some call.op := by
    rw [hbytes, List.getElem?_append_right (Nat.le_refl _), Nat.sub_self]
    rfl
  rw [checkPcValidity, hbc]
  refine decide_eq_true ⟨hlen, ?_⟩
  cases hcall with
  | callVerb => exact .inl ⟨Nat.le_add_left 1 _, hget⟩
  | biFuncCall id => exact .inr ⟨Nat.le_add_left 2 _, hget⟩

/-! ## The text of a program -/

/-- The text of a program gives a program with the same code: the lines are lines of a file of
    programs, the first one not indented, and the parser makes the same vectors of them, with a
    table of the same names. -/
structure Reparses (p p' : Program) : Prop where
  lines : ∀ line ∈ lang.unparse p, newline ∉ line ∧ line.head? ≠ some 46
  start : NoBlank (dbioWriteProgram lang p)
  parse : lang.parse p.version ((lang.unparse p).flatMap fun line => line ++ [newline]) = some p'
  code : p'.mainVector = p.mainVector ∧ p'.forkVectors = p.forkVectors
  names : p'.varNames.Perm p.varNames

variable {lang ft t}

theorem programText_line {line rest : Str} {start : Bool} (hline : newline ∉ line)
    (hstart : start = true → line.head? ≠ some 46) :
    programText start (line ++ newline :: rest) =
      (programText true rest).map fun (text, rest) => (line ++ newline :: text, rest) := by
  induction line generalizing start with
  | nil =>
      have hne : ¬ (start = true ∧ newline = 46) := fun h => absurd h.2 (by decide)
      rw [List.nil_append, programText, if_neg hne, decide_eq_true rfl]
      cases programText true rest <;> rfl
  | cons c line ih =>
      rw [List.mem_cons, not_or] at hline
      have hne : ¬ (start = true ∧ c = 46) := fun h => hstart h.1 (congrArg some h.2)
      have hc : decide (c = newline) = false := decide_eq_false (Ne.symm hline.1)
      have htail : programText false (line ++ newline :: rest) =
          (programText true rest).map fun (text, rest) => (line ++ newline :: text, rest) :=
        ih hline.2 fun h => by cases h
      rw [List.cons_append, programText, if_neg hne, hc, htail]
      cases programText true rest <;> rfl

theorem programText_lines {lines : List Str}
    (hlines : ∀ line ∈ lines, newline ∉ line ∧ line.head? ≠ some 46) (rest : Str) :
    programText true (lines.flatMap (fun line => line ++ [newline]) ++ (Str.ofString ".\n" ++ rest)) =
      some (lines.flatMap fun line => line ++ [newline], rest) := by
  induction lines with
  | nil => rfl
  | cons line lines ih =>
      obtain ⟨⟨hline, hdot⟩, hlines⟩ := List.forall_mem_cons.mp hlines
      rw [List.flatMap_cons, List.append_assoc, List.append_assoc, List.singleton_append,
        programText_line hline fun _ => hdot, ih hlines, Option.map_some, List.append_assoc,
        List.singleton_append]

theorem reads_program {p p' : Program} (h : Reparses lang p p') :
    Reads (dbioReadProgram lang p.version) (dbioWriteProgram lang p) p' := by
  intro rest _
  rw [dbioReadProgram, dbioWriteProgram, List.append_assoc, programText_lines h.lines]
  show (lang.parse _ _).bind _ = _
  rw [h.parse]
  rfl

/-! ## Frames are read back -/

/-- A suspended frame whose code is `bc`. -/
structure FrameSuspended (t : BfTable) (bc : Bytecodes) (a : Activation) : Prop where
  version : checkVersion a.prog.version = true
  pc : SuspendedAt bc a.pc
  names : a.prog.varNames.Pairwise fun m n => strcaseEq m n = false
  /-- a name is an identifier -/
  identifiers : ∀ n ∈ a.prog.varNames, newline ∉ n ∧ ∃ c, n.head? = some c ∧ isspace c = false
  envLength : a.rtEnv.length = a.prog.varNames.length
  envCount : a.rtEnv.length ≤ 2147483647
  env : ∀ v ∈ a.rtEnv, Storable v
  stackLength : a.rtStack.length ≤ bc.maxStack ∧ a.rtStack.length ≤ 2147483647
  stack : ∀ v ∈ a.rtStack, Storable v
  temp : Storable a.temp
  counters : a.pc ≤ 4294967295 ∧ a.biFuncPc < 256 ∧ a.errorPc ≤ 4294967295
  pending : a.biFuncPc ≠ 0 → t.Pending a.biFuncData a.biFuncId
  objects : FitsInt a.self ∧ FitsInt a.player ∧ FitsInt a.progr ∧ FitsInt a.vloc ∧ FitsInt a.debug
  strings : newline ∉ a.verb ∧ newline ∉ a.verbname

/-- The same frame, with a program of the same code: each variable has its value, and what a
    built-in function keeps counts when it is to go on. -/
structure SameActivation (a a' : Activation) : Prop where
  code : a'.prog.mainVector = a.prog.mainVector ∧ a'.prog.forkVectors = a.prog.forkVectors
  environment : (a'.prog.varNames.zip a'.rtEnv).Perm (a.prog.varNames.zip a.rtEnv)
  rtStack : a'.rtStack = a.rtStack
  pcs : a'.pc = a.pc ∧ a'.errorPc = a.errorPc ∧ a'.biFuncPc = a.biFuncPc
  pending : a.biFuncPc ≠ 0 → a'.biFuncId = a.biFuncId ∧ a'.biFuncData = a.biFuncData
  temp : a'.temp = a.temp
  verb : a'.verb = a.verb ∧ a'.verbname = a.verbname ∧ a'.vloc = a.vloc ∧ a'.self = a.self
  permissions : a'.player = a.player ∧ a'.progr = a.progr ∧ a'.debug = a.debug

section

variable {a : Activation}

theorem printf_activAsPi (args : List Int) (h : args.length = 9) :
    dbioPrintf (Directive.format "%d %d %d %d %d %d %d %d %d\n") args =
      dbioPrintf (Directive.format "%d %d %d %d %d %d %d %d %d%c") (args ++ [10]) := by
  have hwrite : Directive.format "%d %d %d %d %d %d %d %d %d\n" =
      Directive.format "%d %d %d %d %d %d %d %d %d" ++ [.space newline] := by decide +kernel
  have hread : Directive.format "%d %d %d %d %d %d %d %d %d%c" =
      Directive.format "%d %d %d %d %d %d %d %d %d" ++ [.char] := by decide +kernel
  have harity : arity (Directive.format "%d %d %d %d %d %d %d %d %d") = 9 := by decide +kernel
  have hleft := dbioPrintf_append (h.trans harity.symm) [.space newline] []
  have hright := dbioPrintf_append (h.trans harity.symm) [.char] [10]
  rw [List.append_nil] at hleft
  rw [hwrite, hread]
  exact hleft.trans hright.symm

theorem reads_activAsPi (bc : Bytecodes) (h : FrameSuspended t bc a) :
    Reads (readActivAsPi ft) (writeActivAsPi ft a)
      { self := a.self, player := a.player, progr := a.progr, vloc := a.vloc, debug := a.debug
        verb := a.verb, verbname := a.verbname } := by
  obtain ⟨hself, hplayer, hprogr, hvloc, hdebug⟩ := h.objects
  have hnums : Reads (dbioScanf (Directive.format "%d %d %d %d %d %d %d %d %d%c"))
      (dbioPrintf (Directive.format "%d %d %d %d %d %d %d %d %d%c")
        [a.self, -7, -8, a.player, -9, a.progr, a.vloc, -10, a.debug, 10])
      [a.self, -7, -8, a.player, -9, a.progr, a.vloc, -10, a.debug, 10] :=
    reads_char_format (by decide +kernel) (by decide +kernel)
      ⟨hself, by decide, by decide, hplayer, by decide, hprogr, hvloc, by decide, hdebug, .inr rfl, rfl⟩
  rw [writeActivAsPi, printf_activAsPi _ rfl, ← List.append_nil (dbioWriteString a.verbname)]
  refine (reads_dbioReadVar (v := .int (-111)) trivial).bind (hnums.bind ?_)
  dsimp only [List.cons_append, List.nil_append]
  rw [if_neg fun hne => hne rfl]
  exact (reads_string (by decide)).bind ((reads_string (by decide)).bind
    ((reads_string (by decide)).bind ((reads_string (by decide)).bind
    ((reads_string h.strings.1).bind ((reads_string h.strings.2).bind (reads_pure _))))))

/-- A line with one number, before something that does not begin with a blank. -/
theorem reads_line_format {ds : List Directive} {args : List Int} {c : UInt8} {α : Type}
    {f : List Int → FileReader α} {text : Str} {b : α} {P : Str → Prop} (hds : Readable ds = true)
    (hlast : ds.getLast? = some (.space c)) (hargs : Fits ds args)
    (htext : ∀ rest, P rest → NoBlank (text ++ rest)) (h : ReadsBefore P (f args) text b) :
    ReadsBefore P (dbioScanf ds >>= f) (dbioPrintf ds args ++ text) b :=
  (reads_format ds args hds hlast hargs).bind h htext

theorem reads_rtEnv (bc : Bytecodes) (h : FrameSuspended t bc a) :
    ReadsBefore NoBlank (readRtEnv ft) (writeRtEnv ft a.prog.varNames a.rtEnv)
      (a.prog.varNames.zip a.rtEnv) := by
  have hlen : (a.prog.varNames.zip a.rtEnv).length = a.prog.varNames.length := by
    rw [List.length_zip, h.envLength, Nat.min_self]
  have hcount : a.prog.varNames.length ≤ 2147483647 := h.envLength ▸ h.envCount
  have hpair : ∀ nv ∈ a.prog.varNames.zip a.rtEnv,
      Reads (do let name ← dbioReadString; let v ← dbioReadVar ft; pure (name, v))
        (dbioWriteString nv.1 ++ dbioWriteVar ft nv.2) nv := by
    rintro ⟨n, v⟩ hmem
    have hmem' := List.of_mem_zip hmem
    rw [← List.append_nil (dbioWriteVar ft v)]
    exact (reads_string (h.identifiers n hmem'.1).1).bind
      ((reads_dbioReadVar (h.env v hmem'.2)).bind (reads_pure _))
  have hpairs := Reads.times (a.prog.varNames.zip a.rtEnv) hpair
  rw [List.map_id', hlen] at hpairs
  refine reads_line_format (by decide +kernel) (c := newline) (by decide +kernel)
    ⟨⟨by omega, by omega⟩, rfl⟩ (fun rest hrest => ?_) ?_
  · -- the first name, or what comes behind
    cases hzip : a.prog.varNames.zip a.rtEnv with
    | nil => exact hrest
    | cons nv rest' =>
        obtain ⟨-, c, hc, hblank⟩ := h.identifiers nv.1
          (List.of_mem_zip (hzip ▸ List.mem_cons_self : nv ∈ a.prog.varNames.zip a.rtEnv)).1
        intro b hb
        have htext : (((nv :: rest').flatMap fun (name, v) => dbioWriteString name ++ dbioWriteVar ft v) ++
            rest).head? = some c := by
          show ((nv.1 ++ [newline] ++ dbioWriteVar ft nv.2 ++ _) ++ rest).head? = some c
          simp only [List.head?_append, hc, Option.some_or]
        rw [htext] at hb
        cases hb
        exact hblank
  · dsimp only
    rw [if_neg (by omega), Int.toNat_natCast]
    exact hpairs.before

/-- A name is found in its place. -/
theorem find_name {names : List Str} {env : List Var} {n : Str} {v : Var}
    (hnames : names.Pairwise fun m n => strcaseEq m n = false) (h : (n, v) ∈ names.zip env) :
    ((names.zip env).find? fun nv => strcaseEq nv.1 n) = some (n, v) := by
  induction names generalizing env with
  | nil => cases h
  | cons m names ih =>
      cases env with
      | nil => cases h
      | cons w env =>
          rw [List.zip_cons_cons] at h ⊢
          obtain ⟨hm, hnames⟩ := List.pairwise_cons.mp hnames
          cases h with
          | head =>
              have heq : strcaseEq n n = true := by rw [strcaseEq, beq_iff_eq]
              exact List.find?_cons_of_pos (p := fun nv : Str × Var => strcaseEq nv.1 n) heq
          | tail _ h =>
              have hne : ¬ strcaseEq m n = true := by
                rw [hm n (List.of_mem_zip h).1]
                exact Bool.false_ne_true
              exact (List.find?_cons_of_neg (p := fun nv : Str × Var => strcaseEq nv.1 n) hne).trans
                (ih hnames h)

/-- The variables have their values, whatever the order of the new table of names. -/
theorem reorderRtEnv_perm {names : List Str} {env : List Var} {p : Program}
    (hnames : names.Pairwise fun m n => strcaseEq m n = false) (hlen : env.length = names.length)
    (hperm : p.varNames.Perm names) :
    (p.varNames.zip (reorderRtEnv (names.zip env) p)).Perm (names.zip env) := by
  have hnames' : names = (names.zip env).map Prod.fst :=
    (List.map_fst_zip (Nat.le_of_eq hlen.symm)).symm
  have hself : (names.map fun n => (n, slotValue (names.zip env) n)) = names.zip env := by
    conv => lhs; arg 2; rw [hnames']
    rw [List.map_map]
    refine (List.map_congr_left fun nv hnv => ?_).trans (List.map_id _)
    show (nv.1, slotValue (names.zip env) nv.1) = nv
    rw [slotValue, find_name hnames hnv]
  have hmap := hperm.map fun n => (n, slotValue (names.zip env) n)
  rw [hself] at hmap
  rw [reorderRtEnv, ← List.map_prod_left_eq_zip]
  exact hmap

theorem noBlank_formatInt (n : Int) (text : Str) : NoBlank (formatInt n ++ text) :=
  before_formatInt n text 32

theorem noBlank_var (v : Var) (text : Str) : NoBlank (dbioWriteVar ft v ++ text) := by
  have hnum : ∀ (n : Int32) (text : Str), NoBlank (dbioWriteNum n ++ text) := fun n text => by
    rw [dbioWriteNum, List.append_assoc]
    exact noBlank_formatInt _ _
  cases v with
  | clear => exact hnum 5 _
  | none => exact hnum 6 _
  | _ =>
      rw [dbioWriteVar, List.append_assoc]
      exact hnum _ _

theorem noBlank_append {text : Str} (h : NoBlank text) (hne : text ≠ []) (rest : Str) :
    NoBlank (text ++ rest) := by
  obtain ⟨c, text, rfl⟩ := List.exists_cons_of_ne_nil hne
  exact h

theorem printf_pcs (pc biFuncPc errorPc : Int) :
    dbioPrintf (Directive.format "%u %u %u\n") [pc, biFuncPc, errorPc] =
      dbioPrintf (Directive.format "%u %u%c") [pc, biFuncPc, 32] ++
        dbioPrintf (Directive.format "%u\n") [errorPc] := by
  have hsplit : Directive.format "%u %u %u\n" =
      Directive.format "%u %u" ++ (.space 32 :: Directive.format "%u\n") := by decide +kernel
  have hread : Directive.format "%u %u%c" = Directive.format "%u %u" ++ [.char] := by decide +kernel
  have harity : 2 = arity (Directive.format "%u %u") := by decide +kernel
  have hargs : [pc, biFuncPc].length = arity (Directive.format "%u %u") := harity
  have hleft := dbioPrintf_append hargs (.space 32 :: Directive.format "%u\n") [errorPc]
  have hright := dbioPrintf_append hargs [.char] [32]
  rw [hsplit, hread]
  refine hleft.trans ?_
  show _ = dbioPrintf (_ ++ [.char]) ([pc, biFuncPc] ++ [32]) ++ _
  rw [hright, List.append_assoc]
  rfl

theorem reads_pcs (bc : Bytecodes) (h : FrameSuspended t bc a) :
    ReadsBefore NoBlank readPcs
      (dbioPrintf (Directive.format "%u %u %u\n") [(a.pc : Int), (a.biFuncPc : Int), (a.errorPc : Int)])
      (a.pc, a.biFuncPc, a.errorPc) := by
  obtain ⟨hpc, hbi, herror⟩ := h.counters
  have hfirst : Reads (dbioScanf (Directive.format "%u %u%c"))
      (dbioPrintf (Directive.format "%u %u%c") [(a.pc : Int), (a.biFuncPc : Int), 32])
      [(a.pc : Int), (a.biFuncPc : Int), 32] :=
    reads_char_format (by decide +kernel) (by decide +kernel)
      ⟨⟨by omega, by omega⟩, ⟨by omega, by omega⟩, .inl rfl, rfl⟩
  rw [printf_pcs, ← List.append_nil (dbioPrintf (Directive.format "%u\n") _)]
  refine hfirst.bind ?_
  dsimp only
  rw [if_neg (by decide)]
  refine reads_line_format (by decide +kernel) (c := newline) (by decide +kernel)
    ⟨⟨by omega, by omega⟩, rfl⟩ (fun rest hrest => hrest) ?_
  dsimp only
  rw [Int.toNat_natCast, Int.toNat_natCast, Int.toNat_natCast, Nat.mod_eq_of_lt hbi]
  exact readsBefore_pure _ _

/-- What is written for a built-in function does not begin with a blank. -/
theorem noBlank_pending {text rest : Str} (h : writePending t a = some text) (hrest : NoBlank rest) :
    NoBlank (text ++ rest) := by
  rw [writePending] at h
  split at h
  · cases h
    exact hrest
  · obtain ⟨data, -, hdata⟩ := Option.bind_eq_some_iff.mp h
    cases hdata
    obtain ⟨-, c, hc, hblank⟩ := BfTable.nameFuncByNum_identifier (t := t) a.biFuncId
    intro b hb
    rw [dbioWriteString, List.append_assoc, List.append_assoc, List.head?_append, hc] at hb
    cases hb
    exact hblank

theorem reads_pending (bc : Bytecodes) (h : FrameSuspended t bc a) :
    ∃ text pending, writePending t a = some text ∧
      ReadsBefore NoBlank (readPending t a.biFuncPc) text pending ∧
      (a.biFuncPc ≠ 0 → pending = (a.biFuncId, a.biFuncData)) := by
  by_cases hbi : a.biFuncPc = 0
  · refine ⟨[], (0, .null), if_pos hbi, ?_, fun hne => absurd hbi hne⟩
    rw [readPending, if_pos hbi]
    exact readsBefore_pure _ _
  · obtain ⟨text, htext, hread⟩ := BfTable.reads_biFuncData (h.pending hbi)
    refine ⟨dbioWriteString (t.nameFuncByNum a.biFuncId) ++ text, (a.biFuncId, a.biFuncData), ?_, ?_,
      fun _ => rfl⟩
    · rw [writePending, if_neg hbi, htext]
      rfl
    · rw [readPending, if_neg hbi]
      refine (reads_string (BfTable.nameFuncByNum_identifier _).1).bind ?_
      rw [BfTable.numberFuncByName_nameFuncByNum (h.pending hbi).lt]
      intro rest hrest
      have hlen : text.length ≤ (text ++ rest).length := by
        rw [List.length_append]
        omega
      dsimp only
      rw [hread hlen rest hrest]
      rfl

/-- A frame is read back, with a program of the same code. -/
theorem reads_activ (ft : FloatText) {which : Int} {bc : Bytecodes} {p' : Program} (hbc : a.prog.bytecodes which = some bc)
    (h : FrameSuspended t bc a) (hre : Reparses lang a.prog p') :
    ∃ text a', writeActiv lang ft t a = some text ∧
      ReadsBefore NoBlank (readActiv lang ft t which) text a' ∧ SameActivation a a' := by
  obtain ⟨pendingText, ⟨biFuncId, biFuncData⟩, hwrite, hpending, hsame⟩ := reads_pending bc h
  refine ⟨_, ⟨p', reorderRtEnv (a.prog.varNames.zip a.rtEnv) p', a.rtStack, a.pc, a.biFuncPc, a.errorPc,
    biFuncId, biFuncData, a.temp, a.self, a.player, a.progr, a.vloc, a.verb, a.verbname, a.debug⟩,
    by rw [writeActiv, hwrite]; rfl, ?_, ?_⟩
  · obtain ⟨hmax, hcount⟩ := h.stackLength
    have hversion : checkVersion ((a.prog.version : Int)).toNat = true := h.version
    have hversionLe : a.prog.version < 5 := of_decide_eq_true h.version
    have hbc' : p'.bytecodes which = some bc := by
      rw [Program.bytecodes, hre.code.1, hre.code.2]
      exact hbc
    have hstack : Reads (times (dbioReadVar ft) a.rtStack.length) (a.rtStack.flatMap (dbioWriteVar ft))
        (a.rtStack.map id) := Reads.times a.rtStack fun v hv => reads_dbioReadVar (h.stack v hv)
    rw [List.map_id] at hstack
    refine reads_line_format (by decide +kernel) (c := newline) (by decide +kernel)
      ⟨⟨by omega, by omega⟩, rfl⟩ ?_ ?_
    · intro rest _
      rw [List.append_assoc]
      refine noBlank_append hre.start ?_ _
      rw [dbioWriteProgram]
      exact List.append_ne_nil_of_right_ne_nil _ (by decide)
    dsimp only
    rw [hversion, if_neg (by decide), Int.toNat_natCast]
    refine (reads_program hre).bind ?_
    refine (reads_rtEnv bc h).bind ?_ ?_
    · refine reads_line_format (by decide +kernel) (c := newline) (by decide +kernel)
        ⟨⟨by omega, by omega⟩, rfl⟩ ?_ ?_
      · intro rest _
        cases hvalues : a.rtStack with
        | nil =>
            rw [List.flatMap_nil, List.nil_append, writeActivAsPi, List.append_assoc, List.append_assoc]
            exact noBlank_var _ _
        | cons v vs =>
            rw [List.flatMap_cons, List.append_assoc, List.append_assoc]
            exact noBlank_var _ _
      dsimp only
      rw [hbc']
      dsimp only
      rw [if_neg (by omega), Int.toNat_natCast]
      refine hstack.bind ((reads_activAsPi bc h).bind ((reads_dbioReadVar h.temp).bind ?_))
      refine (reads_pcs bc h).bind ?_ ?_
      · dsimp only
        rw [checkPcValidity_of_suspended hbc' h.pc, if_neg (by decide),
          ← List.append_nil pendingText]
        exact hpending.bind (readsBefore_pure _ _) fun _ hrest => hrest
      · exact fun rest hrest => noBlank_pending hwrite hrest
    · intro rest _
      have hformat : Directive.format "%d rt_stack slots in use\n" =
          .int :: Directive.format " rt_stack slots in use\n" := by decide +kernel
      rw [hformat, dbioPrintf, List.append_assoc, List.append_assoc]
      exact noBlank_formatInt _ _
  · exact
      { code := hre.code
        environment := reorderRtEnv_perm h.names h.envLength hre.names
        rtStack := rfl
        pcs := ⟨rfl, rfl, rfl⟩
        pending := fun hne => Prod.mk.inj (hsame hne)
        temp := rfl
        verb := ⟨rfl, rfl, rfl, rfl⟩
        permissions := ⟨rfl, rfl, rfl⟩ }

end

/-! ## The virtual machine is read back -/

/-- A virtual machine whose task can be suspended. -/
structure VmSuspended (t : BfTable) (vm : Vm) : Prop where
  nonempty : vm.activStack ≠ []
  frames : ∀ i a, vm.activStack[i]? = some a →
    ∃ bc, a.prog.bytecodes (vectorOf vm.rootActivVector i) = some bc ∧ FrameSuspended t bc a
  count : vm.activStack.length ≤ 4294967295
  root : FitsInt vm.rootActivVector
  numbers : vm.funcId ≤ 4294967295 ∧ vm.maxStackSize ≤ 4294967295

/-- The same frames in order, and the same numbers. -/
structure SameVm (vm vm' : Vm) : Prop where
  frames : List.Forall₂ SameActivation vm.activStack vm'.activStack
  root : vm'.rootActivVector = vm.rootActivVector
  numbers : vm'.funcId = vm.funcId ∧ vm'.maxStackSize = vm.maxStackSize

theorem noBlank_activ {a : Activation} {text : Str} (h : writeActiv lang ft t a = some text)
    (rest : Str) : NoBlank (text ++ rest) := by
  obtain ⟨pending, -, htext⟩ := Option.bind_eq_some_iff.mp h
  have hformat : Directive.format "language version %u\n" =
      .lit 108 :: Directive.format "anguage version %u\n" := by decide +kernel
  cases htext
  rw [hformat]
  intro c hc
  cases hc
  decide

/-- The frames from the `i`-th on. -/
theorem reads_activs (ft : FloatText) {root : Int} {as : List Activation} (i : Nat)
    (hframes : ∀ j a, as[j]? = some a →
      ∃ bc, a.prog.bytecodes (vectorOf root (i + j)) = some bc ∧ FrameSuspended t bc a)
    (hre : ∀ a ∈ as, ∃ p', Reparses lang a.prog p') :
    ∃ texts as', as.mapM (writeActiv lang ft t) = some texts ∧
      ReadsBefore NoBlank (readActivs lang ft t root i as.length) texts.flatten as' ∧
      List.Forall₂ SameActivation as as' := by
  induction as generalizing i with
  | nil => exact ⟨[], [], rfl, readsBefore_pure _ _, .nil⟩
  | cons a as ih =>
      obtain ⟨bc, hbc, ha⟩ := hframes 0 a rfl
      obtain ⟨p', hp'⟩ := hre a List.mem_cons_self
      obtain ⟨text, a', htext, hread, hsame⟩ := reads_activ ft hbc ha hp'
      obtain ⟨texts, as', htexts, hreads, hsames⟩ := ih (i + 1)
        (fun j b hb => by
          rw [Nat.add_right_comm]
          exact hframes (j + 1) b hb)
        fun b hb => hre b (List.mem_cons_of_mem _ hb)
      refine ⟨text :: texts, a' :: as', ?_, ?_, .cons hsame hsames⟩
      · rw [List.mapM_cons, htext, htexts]
        rfl
      · rw [List.flatten_cons, ← List.append_nil texts.flatten]
        refine hread.bind (hreads.bind (readsBefore_pure _ _) fun _ hrest => hrest) ?_
        intro rest hrest
        rw [List.append_nil]
        cases as with
        | nil =>
            cases htexts
            exact hrest
        | cons b bs =>
            rw [List.mapM_cons] at htexts
            obtain ⟨text', htext', htexts⟩ := Option.bind_eq_some_iff.mp htexts
            obtain ⟨texts', -, htexts⟩ := Option.bind_eq_some_iff.mp htexts
            cases htexts
            rw [List.flatten_cons, List.append_assoc]
            exact noBlank_activ htext' _

theorem printf_vm (top vector funcId max : Int) :
    dbioPrintf (Directive.format "%u %d %u %u\n") [top, vector, funcId, max] =
      dbioPrintf (Directive.format "%u %d %u%c") [top, vector, funcId, 32] ++
        dbioPrintf (Directive.format "%u%c") [max, 10] := by
  have hsplit : Directive.format "%u %d %u %u\n" =
      Directive.format "%u %d %u" ++ [.space 32, .unsigned, .space newline] := by decide +kernel
  have hread : Directive.format "%u %d %u%c" = Directive.format "%u %d %u" ++ [.char] := by
    decide +kernel
  have hmax : Directive.format "%u%c" = [.unsigned, .char] := by decide +kernel
  have harity : 3 = arity (Directive.format "%u %d %u") := by decide +kernel
  have hargs : [top, vector, funcId].length = arity (Directive.format "%u %d %u") := harity
  have hleft := dbioPrintf_append hargs [.space 32, .unsigned, .space newline] [max]
  have hright := dbioPrintf_append hargs [.char] [32]
  rw [hsplit, hread, hmax]
  refine hleft.trans ?_
  show _ = dbioPrintf (_ ++ [.char]) ([top, vector, funcId] ++ [32]) ++ _
  rw [hright, List.append_assoc]
  rfl

/-- **`read_vm` gives back what `write_vm` wrote.**  When the text of each program gives its code
    again, every suspended virtual machine is written, and read back as an equivalent one, up to
    the end of its text; each frame's program counter passes `check_pc_validity`. -/
theorem vm_roundtrip (ft : FloatText) {vm : Vm} (hvm : VmSuspended t vm)
    (hre : ∀ a ∈ vm.activStack, ∃ p', Reparses lang a.prog p') :
    (∀ i a, vm.activStack[i]? = some a →
      checkPcValidity a.prog (vectorOf vm.rootActivVector i) a.pc = true) ∧
    ∃ text vm', writeVm lang ft t vm = some text ∧
      (∀ rest, NoBlank rest → readVm lang ft t (text ++ rest) = some (vm', rest)) ∧ SameVm vm vm' := by
  refine ⟨fun i a ha => ?_, ?_⟩
  · obtain ⟨bc, hbc, hframe⟩ := hvm.frames i a ha
    exact checkPcValidity_of_suspended hbc hframe.pc
  obtain ⟨texts, as', htexts, hreads, hsame⟩ := reads_activs ft 0
    (fun j a ha => by rw [Nat.zero_add]; exact hvm.frames j a ha) hre
  have hpos : 0 < vm.activStack.length := List.length_pos_of_ne_nil hvm.nonempty
  have hcount := hvm.count
  obtain ⟨hfunc, hmax⟩ := hvm.numbers
  refine ⟨_, ⟨as', vm.maxStackSize, vm.rootActivVector, vm.funcId⟩, by rw [writeVm, htexts]; rfl, ?_,
    ⟨hsame, rfl, rfl, rfl⟩⟩
  have hheader : Reads (dbioScanf (Directive.format "%u %d %u%c"))
      (dbioPrintf (Directive.format "%u %d %u%c")
        [(vm.activStack.length : Int) - 1, vm.rootActivVector, (vm.funcId : Int), 32])
      [(vm.activStack.length : Int) - 1, vm.rootActivVector, (vm.funcId : Int), 32] :=
    reads_char_format (by decide +kernel) (by decide +kernel)
      ⟨⟨by omega, by omega⟩, hvm.root, ⟨by omega, by omega⟩, .inl rfl, rfl⟩
  have hrest : Reads (dbioScanf (Directive.format "%u%c"))
      (dbioPrintf (Directive.format "%u%c") [(vm.maxStackSize : Int), 10]) [(vm.maxStackSize : Int), 10] :=
    reads_char_format (by decide +kernel) (by decide +kernel) ⟨⟨by omega, by omega⟩, .inr rfl, rfl⟩
  have hmaxRead : Reads (readMax 32) (dbioPrintf (Directive.format "%u%c") [(vm.maxStackSize : Int), 10])
      vm.maxStackSize := by
    rw [readMax, if_pos rfl, ← List.append_nil (dbioPrintf _ _)]
    refine hrest.bind ?_
    dsimp only
    rw [if_pos rfl, Int.toNat_natCast]
    exact reads_pure _
  have htop : ((vm.activStack.length : Int) - 1).toNat + 1 = vm.activStack.length := by omega
  have hread : ReadsBefore NoBlank (readVm lang ft t)
      (dbioPrintf (Directive.format "%u %d %u%c")
        [(vm.activStack.length : Int) - 1, vm.rootActivVector, (vm.funcId : Int), 32] ++
        (dbioPrintf (Directive.format "%u%c") [(vm.maxStackSize : Int), 10] ++ (texts.flatten ++ [])))
      ⟨as', vm.maxStackSize, vm.rootActivVector, vm.funcId⟩ := by
    refine hheader.bind ?_
    dsimp only
    refine hmaxRead.bind ?_
    rw [htop]
    refine hreads.bind (readsBefore_pure _ _) fun _ hrest => hrest
  intro rest hblank
  rw [printf_vm, List.append_assoc (dbioPrintf _ _)]
  rw [List.append_nil] at hread
  exact hread rest hblank

/-! ## A task suspended in a verb that `create` has called -/

/-- Some of the functions. -/
def sampleTable : BfTable where
  entries := [⟨Str.ofString "call_function", .callFunction⟩, ⟨Str.ofString "suspend", .none⟩,
    ⟨Str.ofString "create", .create⟩, ⟨Str.ofString "recycle", .recycle⟩,
    ⟨Str.ofString "move", .move⟩, ⟨Str.ofString "eval", .none⟩]
  size := by decide
  names := by decide +kernel
  identifiers := by decide +kernel

def builtinNames : List Str :=
  ["NUM", "OBJ", "STR", "LIST", "ERR", "player", "this", "caller", "verb", "args", "argstr", "dobj",
    "dobjstr", "prepstr", "iobj", "iobjstr", "INT", "FLOAT"].map Str.ofString

/-- `create(#1);` -/
def createProgram : Program where
  version := 4
  mainVector := ⟨1, 1, 1, 1, 1, [100, 0, 16, 12, 2, 111, 110], 1⟩
  literals := [.obj 1]
  forkVectors := []
  varNames := builtinNames

/-- `suspend();` -/
def suspendProgram : Program where
  version := 4
  mainVector := ⟨1, 1, 1, 1, 1, [101, 12, 1, 111, 110], 1⟩
  literals := []
  forkVectors := []
  varNames := builtinNames

def sampleLanguage : Language where
  unparse p :=
    if p = createProgram then [Str.ofString "create(#1);"]
    else if p = suspendProgram then [Str.ofString "suspend();"]
    else []
  parse _ text :=
    if text = Str.ofString "create(#1);\n" then some createProgram
    else if text = Str.ofString "suspend();\n" then some suspendProgram
    else none

def sampleActivation (p : Program) (pc biFuncPc : Nat) (verb : String) : Activation where
  prog := p
  rtEnv := builtinNames.map fun _ => .list [.int 3, .str (Str.ofString "me")]
  rtStack := []
  pc := pc
  biFuncPc := biFuncPc
  errorPc := pc - 2
  biFuncId := 2
  biFuncData := .oid 97
  temp := .none
  self := 97
  player := 2
  progr := 2
  vloc := 1
  verb := Str.ofString verb
  verbname := Str.ofString verb
  debug := 1

def sampleVm : Vm where
  activStack := [sampleActivation createProgram 5 0 "make", sampleActivation suspendProgram 3 2 "initialize"]
  maxStackSize := 50
  rootActivVector := mainVectorIndex
  funcId := 0

theorem sampleActivation_suspended {p : Program} {pc biFuncPc : Nat} {verb : String}
    (hp : p = createProgram ∨ p = suspendProgram) (hpc : SuspendedAt p.mainVector pc) (hle : pc ≤ 5)
    (hbi : biFuncPc < 256) (hverb : newline ∉ Str.ofString verb) :
    FrameSuspended sampleTable p.mainVector (sampleActivation p pc biFuncPc verb) := by
  have hprog : p.varNames = builtinNames ∧ checkVersion p.version = true := by
    rcases hp with rfl | rfl
    · exact ⟨rfl, rfl⟩
    · exact ⟨rfl, rfl⟩
  have hvalue : ∀ v ∈ builtinNames.map fun _ => Var.list [.int 3, .str (Str.ofString "me")],
      Storable v := by decide +kernel
  constructor
  case version => exact hprog.2
  case pc => exact hpc
  case names => exact hprog.1 ▸ (by decide +kernel)
  case identifiers => exact hprog.1 ▸ (by decide +kernel)
  case envLength => exact hprog.1 ▸ rfl
  case envCount => exact Nat.le_trans (Nat.le_of_eq (List.length_map _)) (by decide +kernel)
  case env => exact hvalue
  case stackLength => exact ⟨Nat.zero_le _, Nat.zero_le _⟩
  case stack => exact fun v hv => nomatch hv
  case temp => trivial
  case counters =>
      refine ⟨?_, hbi, ?_⟩
      · exact Nat.le_trans hle (by decide)
      · exact Nat.le_trans (Nat.sub_le _ _) (Nat.le_trans hle (by decide))
  case pending => exact fun _ => ⟨.inl rfl, by decide⟩
  case objects =>
      have hfits : FitsInt 97 ∧ FitsInt 2 ∧ FitsInt 2 ∧ FitsInt 1 ∧ FitsInt 1 := by decide
      exact hfits
  case strings => exact ⟨hverb, hverb⟩

/-- The frame of `create(#1)` and the one of the verb it has called are read back. -/
theorem vm_roundtrip_create : ∃ text vm',
    writeVm sampleLanguage ⟨fun _ => [], fun _ => 0⟩ sampleTable sampleVm = some text ∧
      readVm sampleLanguage ⟨fun _ => [], fun _ => 0⟩ sampleTable text = some (vm', []) ∧
      SameVm sampleVm vm' := by
  have hcreate : SuspendedAt createProgram.mainVector 5 :=
    .behind [⟨100, [0]⟩, ⟨16, []⟩] [⟨111, []⟩] ⟨Opcode.biFuncCall.byte, [2]⟩ (.biFuncCall 2) rfl
  have hsuspend : SuspendedAt suspendProgram.mainVector 3 :=
    .behind [⟨101, []⟩] [⟨111, []⟩] ⟨Opcode.biFuncCall.byte, [1]⟩ (.biFuncCall 1) rfl
  have hvm : VmSuspended sampleTable sampleVm := by
    constructor
    case nonempty => exact List.cons_ne_nil _ _
    case frames =>
        rintro (_ | _ | i) a ha
        · cases ha
          exact ⟨_, rfl, sampleActivation_suspended (.inl rfl) hcreate (by decide) (by decide) (by decide)⟩
        · cases ha
          exact ⟨_, rfl, sampleActivation_suspended (.inr rfl) hsuspend (by decide) (by decide) (by decide)⟩
        · cases ha
    case count => decide
    case root => decide
    case numbers => decide
  have hre : ∀ a ∈ sampleVm.activStack, ∃ p', Reparses sampleLanguage a.prog p' := by
    intro a ha
    have hprog : a.prog = createProgram ∨ a.prog = suspendProgram := by
      rcases List.mem_cons.mp ha with rfl | ha
      · exact .inl rfl
      · obtain rfl := List.mem_singleton.mp ha
        exact .inr rfl
    rcases hprog with hprog | hprog
    · rw [hprog]
      exact ⟨createProgram, by decide +kernel, by decide +kernel, by decide +kernel, ⟨rfl, rfl⟩, .refl _⟩
    · rw [hprog]
      exact ⟨suspendProgram, by decide +kernel, by decide +kernel, by decide +kernel, ⟨rfl, rfl⟩, .refl _⟩
  obtain ⟨text, vm', hwrite, hread, hsame⟩ :=
    (vm_roundtrip ⟨fun _ => [], fun _ => 0⟩ hvm hre).2
  have hempty := hread [] nofun
  rw [List.append_nil] at hempty
  exact ⟨text, vm', hwrite, hempty, hsame⟩

end Waverous.VmFile
