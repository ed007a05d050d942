import Mathlib.Logic.Function.Basic
import Waverous.Utils

/-! # The activation stack — `execute.c`

    Frames, handlers and the unwinding of the activation stack through pending
    built-in functions.  `activ_stack` is an array that popping leaves as it was:
    the slot above `top_activ_stack` still holds the frame that was popped last,
    until another one is pushed over it.  The built-in functions are the
    environment: a `Reply` is what a call of one returns, and when that is a
    request to call a verb, what the built-in does when it is continued.
    The opcodes of `run` that stay inside the top frame are one step, `exec`. -/

namespace Waverous.ActivStack

/-- `Finally_Reason`; the order is the numeric value. -/
inductive Reason where
  | fallThru | raise | uncaught | return | abort | exit
  deriving DecidableEq, Repr

/-- The number a FINALLY handler finds on the stack. -/
def Reason.num : Reason → Int32
  | .fallThru => 0
  | .raise => 1
  | .uncaught => 2
  | .return => 3
  | .abort => 4
  | .exit => 5

/-- `activation`.  The run-time stack has its top first.  `biFuncPc`, when it is
    not 0, says that a built-in function called this frame's verb and is to be
    continued when the frame is left; `biFuncCaller` is history: the index of
    the frame that called that built-in. -/
structure Activation where
  rtStack : List Var := []
  self : Objid := nothing
  player : Objid := nothing
  progr : Objid
  vloc : Objid := nothing
  verb : Str := []
  debug : Bool := true
  pc : Nat := 0
  errorPc : Nat := 0
  biFuncPc : Nat := 0
  biFuncId : Nat := 0
  biFuncData : Var := zero
  biFuncCaller : Nat := 0
  deriving DecidableEq, Repr, Inhabited

/-- The package of one call of a built-in function.  The `next` of a `call` is
    the package of the call that continues it. -/
inductive Reply where
  | return (ret : Var)
  | raise (code : Var) (msg : Str) (value : Var)
  | call (callee : Activation) (pc : Nat) (data : Var) (next : Reply)
  /-- `BI_SUSPEND`, with what `suspend_task` returns -/
  | suspend (e : Error)
  | kill
  deriving Repr

/-- A call that continues a built-in function: the frame that called the
    built-in, that frame's programmer, and the programmer the call is made with. -/
structure Continued where
  caller : Nat
  callerProgr : Objid
  progr : Objid
  deriving DecidableEq, Repr

/-- `enum outcome`: how `run` has finished. -/
inductive Outcome where
  | done | aborted | blocked
  deriving DecidableEq, Repr

/-- The interpreter.  `top` is `top_activ_stack`, `running` tells whether a task
    is being run, `outcome` what the last one has finished with, and `suspended`
    holds the frames of the suspended ones.  `log` is history: every call that has
    continued a built-in function. -/
structure Vm where
  slots : Nat → Activation
  top : Nat
  running : Bool
  outcome : Option Outcome
  suspended : List (List Activation)
  log : List Continued

/-- The interpreter before its first task. -/
def Vm.init : Vm where
  slots := fun _ => { progr := nothing }
  top := 0
  running := false
  outcome := none
  suspended := []
  log := []

/-- Store into one slot of `activ_stack`. -/
def Vm.modify (s : Vm) (i : Nat) (f : Activation → Activation) : Vm :=
  { s with slots := Function.update s.slots i (f (s.slots i)) }

/-- Push a value on the run-time stack of frame `i`. -/
def Vm.push (s : Vm) (i : Nat) (v : Var) : Vm :=
  s.modify i fun a => { a with rtStack := v :: a.rtStack }

/-! ## Handlers -/

/-- Whether the codes of a handler, a list or ANY, include `code`. -/
def handles (code : Var) : Var → Bool
  | .list l => ismember code l false ≠ 0
  | _ => true

/-- The label of the first of the (codes, label) pairs below a CATCH marker that
    handles `code`, in the order they were pushed.  Every label is an integer. -/
def handlerPc (code : Var) : List Var → Option Nat
  | codes :: label :: rest =>
      if handles code codes then
        match label with
        | .int pc => some pc.toInt.toNat
        | _ => none
      else handlerPc code rest
  | _ => none

/-- The loop of `unwind_stack` over one run-time stack: the pc of the handler that
    takes over, and the stack it starts with.  `skip` counts the entries that
    belong to a CATCH marker that did not handle the code. -/
def popHandlers (why : Reason) (code value : Var) : Nat → List Var → Option (Nat × List Var)
  | _, [] => none
  | skip + 1, _ :: rest => popHandlers why code value skip rest
  | 0, .finally pc :: rest =>
      if why ≠ .abort then some (pc, value :: .int why.num :: rest)
      else popHandlers why code value 0 rest
  | 0, .catch n :: rest =>
      if why = .raise then
        match handlerPc code (rest.take (2 * n)).reverse with
        | some pc => some (pc, value :: rest.drop (2 * n))
        | none => popHandlers why code value (2 * n) rest
      else popHandlers why code value 0 rest
  | 0, _ :: rest => popHandlers why code value 0 rest

/-- Whether one of the (codes, label) pairs handles `code`. -/
def anyHandles (code : Var) : List Var → Bool
  | codes :: _ :: rest => handles code codes || anyHandles code rest
  | _ => false

/-- The scan of one run-time stack by `find_handler_activ`. -/
def hasHandler (code : Var) : Nat → List Var → Bool
  | _, [] => false
  | skip + 1, _ :: rest => hasHandler code skip rest
  | 0, .catch n :: rest =>
      anyHandles code (rest.take (2 * n)).reverse || hasHandler code (2 * n) rest
  | 0, _ :: rest => hasHandler code 0 rest

/-- `find_handler_activ`, looking from frame `i` down. -/
def findHandlerActiv (code : Var) (slots : Nat → Activation) : Nat → Option Nat
  | 0 => if hasHandler code 0 (slots 0).rtStack then some 0 else none
  | i + 1 =>
      if hasHandler code 0 (slots (i + 1)).rtStack then some (i + 1)
      else findHandlerActiv code slots i

/-- What a handler gets as `code` out of the value of an exception. -/
def codeOf (why : Reason) (value : Var) : Var :=
  match why, value with
  | .raise, .list (code :: _) => code
  | _, _ => zero

/-! ## Tracebacks -/

section Tracebacks

-- `find_line_number` of a frame's `error_pc`, and `name_func_by_num`
variable (lineNumber : Activation → Int32) (funcName : Nat → Str)

/-- The entries of one frame in `make_stack_list`; the frame at `start` does not
    show the built-in function that called it. -/
def stackEntries (a : Activation) (isStart : Bool) : List Var :=
  .list [.obj a.self, .str a.verb, .obj a.progr, .obj a.vloc, .obj a.player,
      .int (lineNumber a)] ::
    if !isStart && a.biFuncPc ≠ 0 then
      [.list [.obj nothing, .str (funcName a.biFuncId), .obj nothing, .obj nothing,
        .obj a.player, .int (Int32.ofNat a.biFuncPc)]]
    else []

/-- `make_stack_list(slots, start, start + n, 1, …, 1)`. -/
def makeStackList (slots : Nat → Activation) (start : Nat) : Nat → List Var
  | 0 => stackEntries lineNumber funcName (slots start) true
  | n + 1 =>
      stackEntries lineNumber funcName (slots (start + n + 1)) false
        ++ makeStackList slots start n

/-- The reason and the value with which `raise_error` unwinds the stack. -/
def raised (code : Var) (msg : Str) (value : Var) (slots : Nat → Activation) (top : Nat) :
    Reason × Var :=
  match findHandlerActiv code slots top with
  | some h =>
      (.raise, .list [code, .str msg, value,
        .list (makeStackList lineNumber funcName slots h (top - h))])
  | none => (.uncaught, zero)

end Tracebacks

/-! ## Unwinding -/

/-- `call_bi_func` on a pending built-in function, for the record. -/
def Vm.continueBiFunc (s : Vm) (caller : Nat) (progr : Objid) : Vm :=
  { s with log := s.log ++ [⟨caller, (s.slots caller).progr, progr⟩] }

/-- The `do … while` of `unwind_stack` for everything but a return: the built-in
    is continued with `a->progr` until it no longer calls a verb.  `a` is still
    the slot of the frame that was freed, which is also the slot where the verb
    calls of the built-in push their frames. -/
def shortCircuit (caller a top : Nat) : Reply → Vm → Vm
  | .call callee pc _ next, s =>
      let s := s.continueBiFunc caller (s.slots a).progr
      -- the callee is pushed and freed at once
      let s := s.modify (top + 1) fun _ => callee
      if pc ≠ 0 then shortCircuit caller a top next s else s
  | _, s => s.continueBiFunc caller (s.slots a).progr

/-- Record the call of a pending built-in in the frame of the verb it called. -/
def Vm.setPending (s : Vm) (caller id pc : Nat) (data : Var) : Vm :=
  s.modify s.top fun a =>
    { a with biFuncId := id, biFuncPc := pc, biFuncData := data, biFuncCaller := caller }

/-- `push_activation` and the filling in of the new frame. -/
def Vm.pushActivation (s : Vm) (a : Activation) : Vm :=
  { s.modify (s.top + 1) fun _ => a with top := s.top + 1 }

/-- `suspend_task`, when it succeeds. -/
def Vm.suspendTask (s : Vm) : Vm :=
  { s with
    suspended := s.suspended ++ [(List.range (s.top + 1)).map s.slots]
    running := false
    outcome := some .blocked }

/-- The whole stack has been unwound. -/
def Vm.finish (s : Vm) (why : Reason) : Vm :=
  { s with running := false, outcome := some (if why = .return then .done else .aborted) }

section Unwinding

variable (lineNumber : Activation → Int32) (funcName : Nat → Str)

/-- `unwind_stack` from frame `top` down.  `replies k` is what the built-in
    function pending on frame `k` does if it is continued. -/
def unwindStack (replies : Nat → Reply) : Nat → Reason → Var → Vm → Vm
  | 0, why, value, s =>
      let s := { s with top := 0 }
      match popHandlers why (codeOf why value) value 0 (s.slots 0).rtStack with
      | some (pc, rt) => s.modify 0 fun a => { a with pc, rtStack := rt }
      | none => s.finish why
  | top + 1, why, value, s =>
      let s := { s with top := top + 1 }
      match popHandlers why (codeOf why value) value 0 (s.slots (top + 1)).rtStack with
      | some (pc, rt) => s.modify (top + 1) fun a => { a with pc, rtStack := rt }
      | none =>
          let freed := s.slots (top + 1)
          let s := { s with top }
          if freed.biFuncPc ≠ 0 then
            if why = .return then
              let s := s.continueBiFunc freed.biFuncCaller (s.slots top).progr
              match replies (top + 1) with
              | .return ret => s.push top ret
              | .raise code msg value =>
                  if (s.slots top).debug then
                    let (why, value) := raised lineNumber funcName code msg value s.slots top
                    unwindStack replies top why value s
                  else s.push top code
              | .suspend e =>
                  if e = .eNone then s.suspendTask
                  else unwindStack replies top .raise (.err e) s
              | .call callee pc data _ =>
                  (s.pushActivation callee).setPending top freed.biFuncId pc data
              | .kill => unwindStack replies top .abort zero s
            else
              let s := shortCircuit freed.biFuncCaller (top + 1) top (replies (top + 1)) s
              unwindStack replies top why value s
          else if why = .return then s.push top value
          else unwindStack replies top why value s

/-- `raise_error`. -/
def raiseError (replies : Nat → Reply) (code : Var) (msg : Str) (value : Var) (s : Vm) : Vm :=
  let (why, value) := raised lineNumber funcName code msg value s.slots s.top
  unwindStack lineNumber funcName replies s.top why value s

/-! ## Steps -/

/-- The case OP_BI_FUNC_CALL of `run`: the first call of a built-in function. -/
def biFuncCall (id : Nat) (reply : Reply) (replies : Nat → Reply) (s : Vm) : Vm :=
  match reply with
  | .return ret => s.push s.top ret
  | .raise code msg value =>
      if (s.slots s.top).debug then raiseError lineNumber funcName replies code msg value s
      else s.push s.top code
  | .call callee pc data _ => (s.pushActivation callee).setPending s.top id pc data
  | .suspend e =>
      if e = .eNone then s.suspendTask
      else if (s.slots s.top).debug then
        raiseError lineNumber funcName replies (.err e) [] zero s
      else s.push s.top (.err e)
  | .kill => unwindStack lineNumber funcName replies s.top .abort zero s

/-- `resume_from_previous_vm`, up to the call of `run`. -/
def resumeFromPreviousVm (frames : List Activation) (v : Var) (s : Vm) : Vm :=
  let s := { s with
    slots := fun i => frames.getD i (s.slots i)
    top := frames.length - 1
    running := true
    outcome := none }
  match v with
  | .err _ => s
  | v => s.push s.top v

/-- What the interpreter does next. -/
inductive Action where
  /-- a new task -/
  | doTask (root : Activation)
  /-- an opcode that stays in the top frame -/
  | exec (rtStack : List Var) (pc errorPc : Nat)
  /-- OP_CALL_VERB, when it succeeds -/
  | callVerb (callee : Activation)
  /-- OP_BI_FUNC_CALL -/
  | biFuncCall (id : Nat) (reply : Reply) (replies : Nat → Reply)
  /-- `bf_set_task_perms` -/
  | setTaskPerms (progr : Objid)
  /-- `RAISE_ERROR` with the debug flag on -/
  | raiseError (code : Var) (msg : Str) (value : Var) (replies : Nat → Reply)
  /-- OP_RETURN, OP_RETURN0 and OP_DONE, and EOP_CONTINUE with a reason to go on -/
  | unwind (why : Reason) (value : Var) (replies : Nat → Reply)
  /-- `abort_task` -/
  | abortTask (replies : Nat → Reply)
  /-- a suspended task goes on -/
  | resume (frames : List Activation) (v : Var)

/-- One step.  A frame is pushed with no built-in pending on it, and `why` is a
    reason with which EOP_CONTINUE unwinds the stack. -/
inductive Step : Vm → Action → Vm → Prop where
  | doTask (s root) : s.running = false → root.biFuncPc = 0 →
      Step s (.doTask root)
        { s.modify 0 (fun _ => root) with top := 0, running := true, outcome := none }
  | exec (s rtStack pc errorPc) : s.running = true →
      Step s (.exec rtStack pc errorPc)
        (s.modify s.top fun a => { a with rtStack, pc, errorPc })
  | callVerb (s callee) : s.running = true → callee.biFuncPc = 0 →
      Step s (.callVerb callee) (s.pushActivation callee)
  | biFuncCall (s id reply replies) : s.running = true →
      Step s (.biFuncCall id reply replies)
        (biFuncCall lineNumber funcName id reply replies s)
  | setTaskPerms (s progr) : s.running = true →
      Step s (.setTaskPerms progr) (s.modify s.top fun a => { a with progr })
  | raiseError (s code msg value replies) : s.running = true →
      Step s (.raiseError code msg value replies)
        (raiseError lineNumber funcName replies code msg value s)
  | unwind (s why value replies) : s.running = true →
      why = .raise ∨ why = .uncaught ∨ why = .return →
      Step s (.unwind why value replies)
        (unwindStack lineNumber funcName replies s.top why value s)
  | abortTask (s replies) : s.running = true →
      Step s (.abortTask replies)
        (unwindStack lineNumber funcName replies s.top .abort zero s)
  | resume (s frames v) : s.running = false → frames ∈ s.suspended →
      Step s (.resume frames v)
        (resumeFromPreviousVm frames v { s with suspended := s.suspended.erase frames })

end Unwinding

end Waverous.ActivStack
