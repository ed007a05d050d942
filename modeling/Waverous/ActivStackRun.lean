import Waverous.ActivStackHandlers
import Waverous.Lib.Runs

/-! # The result of a run — `execute.c`

    `run` goes on until the stack is unwound or the task is suspended, and then says how it
    has finished; when its caller has passed a place for the result, OP_RETURN, OP_RETURN0
    and OP_DONE store there.  What the other opcodes leave on the stack is up to the
    program, so a program is any sequence of opcodes here.  EOP_CONTINUE takes a return up
    again behind a FINALLY body, and stores nothing. -/

namespace Waverous.ActivStack

/-- The opcodes, as far as they touch the stack. -/
inductive Opcode where
  /-- an opcode that takes `n` values off the stack and leaves others, and may jump -/
  | plain (n : Nat) (push : List Var) (pc errorPc : Nat)
  | tryFinally (label : Nat)
  /-- EOP_TRY_EXCEPT, and with 1 EOP_CATCH -/
  | tryExcept (n : Nat)
  | endCatch (label : Nat)
  | endExcept (label : Nat)
  | endFinally
  | continue
  | exit (height label : Int32)
  | return
  | return0
  | done
  /-- OP_CALL_VERB, when it succeeds -/
  | callVerb (callee : Activation)
  | biFuncCall (id : Nat) (reply : Reply)
  /-- `RAISE_ERROR` in any of them, with the debug flag on -/
  | raiseError (code : Var) (msg : Str) (value : Var)
  /-- no ticks or no seconds are left -/
  | abort

/-- `run`, with the task it runs and what has been stored through `result`.  `returned` is
    history: the value with which the outermost activation has last returned, at a return
    statement, at its end with 0, or behind a FINALLY body. -/
structure RunState where
  vm : Vm
  result : Option Var
  returned : Option Var

/-- `run` is called. -/
def RunState.start (vm : Vm) : RunState where
  vm := vm
  result := none
  returned := none

/-- The top frame's run-time stack, the top first. -/
def Vm.rts (s : Vm) : List Var := (s.slots s.top).rtStack

/-- Store the run-time stack of the top frame. -/
def Vm.setRts (s : Vm) (rtStack : List Var) : Vm := s.modify s.top fun a => { a with rtStack }

/-- JUMP, with the run-time stack. -/
def Vm.jump (s : Vm) (rtStack : List Var) (label : Nat) : Vm :=
  s.modify s.top fun a => { a with rtStack, pc := label }

/-- `unwind_stack` for leaving a loop; `value` is the list of height and label.  It stays in
    the top frame. -/
def unwindExit (height label : Int32) (value : Var) (s : Vm) : Vm :=
  let n := s.rts.length - height.toInt.toNat
  match popHandlers .exit zero value 0 (s.rts.take n) with
  | some (pc, rt) => s.jump (rt ++ s.rts.drop n) pc
  | none => s.jump (s.rts.drop n) label.toInt.toNat

/-- The pairs of the CATCH marker on top are popped with it. -/
def popCatch : List Var → Option (List Var)
  | .catch n :: rest => if 2 * n ≤ rest.length then some (rest.drop (2 * n)) else none
  | _ => none

section Run

variable (lineNumber : Activation → Int32) (funcName : Nat → Str)

/-- OP_RETURN, OP_RETURN0 and OP_DONE, with the value popped. -/
def RunState.returns (replies : Nat → Reply) (value : Var) (s : RunState) : RunState :=
  let vm := unwindStack lineNumber funcName replies s.vm.top .return value s.vm
  { vm
    result := if vm.outcome = some .done then some value else s.result
    returned := if s.vm.top = 0 then some value else s.returned }

/-- EOP_CONTINUE, with the value and the reason popped. -/
def Vm.continues (replies : Nat → Reply) (value why : Var) (s : Vm) : Option Vm :=
  if why = .int Reason.fallThru.num then some s
  else if why = .int Reason.exit.num then
    match value with
    | .list [.int height, .int label] => some (unwindExit height label value s)
    | _ => none
  else if why = .int Reason.raise.num then
    some (unwindStack lineNumber funcName replies s.top .raise value s)
  else if why = .int Reason.return.num then
    some (unwindStack lineNumber funcName replies s.top .return value s)
  else if why = .int Reason.uncaught.num then
    some (unwindStack lineNumber funcName replies s.top .uncaught value s)
  else none

/-- One opcode; `none` is a panic, or a read below the stack.  `replies k` is what the
    built-in function pending on frame `k` does if it is continued. -/
def RunState.opcode (replies : Nat → Reply) (op : Opcode) (s : RunState) : Option RunState :=
  match op with
  | .plain n push pc errorPc =>
      if n ≤ s.vm.rts.length then
        some { s with vm := s.vm.modify s.vm.top fun a =>
          { a with rtStack := push ++ a.rtStack.drop n, pc, errorPc } }
      else none
  | .tryFinally label => some { s with vm := s.vm.push s.vm.top (.finally label) }
  | .tryExcept n => some { s with vm := s.vm.push s.vm.top (.catch n) }
  | .endCatch label =>
      match s.vm.rts with
      | v :: rest => (popCatch rest).map fun rest => { s with vm := s.vm.jump (v :: rest) label }
      | [] => none
  | .endExcept label => (popCatch s.vm.rts).map fun rest => { s with vm := s.vm.jump rest label }
  | .endFinally =>
      match s.vm.rts with
      | .finally _ :: rest =>
          some { s with vm := s.vm.setRts (zero :: .int Reason.fallThru.num :: rest) }
      | _ => none
  | .continue =>
      match s.vm.rts with
      | value :: why :: rest =>
          ((s.vm.setRts rest).continues lineNumber funcName replies value why).map fun vm =>
            { s with
              vm
              returned :=
                if s.vm.top = 0 ∧ why = .int Reason.return.num then some value else s.returned }
      | _ => none
  | .exit height label =>
      some { s with vm := unwindExit height label (.list [.int height, .int label]) s.vm }
  | .return =>
      match s.vm.rts with
      | value :: rest =>
          some (RunState.returns lineNumber funcName replies value { s with vm := s.vm.setRts rest })
      | [] => none
  | .return0 => some (s.returns lineNumber funcName replies zero)
  | .done => some (s.returns lineNumber funcName replies zero)
  | .callVerb callee =>
      if callee.biFuncPc = 0 then some { s with vm := s.vm.pushActivation callee } else none
  | .biFuncCall id reply =>
      some { s with vm := biFuncCall lineNumber funcName id reply replies s.vm }
  | .raiseError code msg value =>
      some { s with vm := raiseError lineNumber funcName replies code msg value s.vm }
  | .abort =>
      some { s with vm := unwindStack lineNumber funcName replies s.vm.top .abort zero s.vm }

/-- One turn of the loop of `run`, which goes on until there is an outcome. -/
def RunState.step (x : Opcode × (Nat → Reply)) (s : RunState) : Option RunState :=
  if s.vm.outcome = none then s.opcode lineNumber funcName x.2 x.1 else none

end Run

/-! ## The opcodes are steps of the interpreter -/

section Steps

open Runs

variable {lineNumber : Activation → Int32} {funcName : Nat → Str} {replies : Nat → Reply}
  {s s' : Vm} {value : Var}

/-- A task without an outcome is being run. -/
def Going (s : Vm) : Prop := s.outcome = none → s.running = true

theorem unwindStack_going (top : Nat) (why : Reason) (hs : s.running = true) :
    Going (unwindStack lineNumber funcName replies top why value s) := by
  induction top generalizing s why value with
  | zero =>
      simp only [unwindStack]
      split
      · exact fun _ => hs
      · intro h
        cases h
  | succ top ih =>
      simp only [unwindStack]
      split
      · exact fun _ => hs
      split
      · split
        · cases replies (top + 1) with
          | «return» ret => exact fun _ => hs
          | raise code msg value' =>
              simp only []
              split
              · exact ih _ hs
              · exact fun _ => hs
          | call callee pc data next => exact fun _ => hs
          | suspend e =>
              simp only []
              split
              · intro h
                cases h
              · exact ih _ hs
          | kill => exact ih _ hs
        · exact ih _ ((shortCircuit_goes_on _ _ _ _ _).1.trans hs)
      · split
        · exact fun _ => hs
        · exact ih _ hs

theorem biFuncCall_going (id : Nat) (reply : Reply) (hs : s.running = true) :
    Going (biFuncCall lineNumber funcName id reply replies s) := by
  cases reply with
  | «return» ret => exact fun _ => hs
  | raise code msg value' =>
      simp only [biFuncCall]
      split
      · exact unwindStack_going _ _ hs
      · exact fun _ => hs
  | call callee pc data next => exact fun _ => hs
  | suspend e =>
      simp only [biFuncCall]
      split
      · intro h
        cases h
      · split
        · exact unwindStack_going _ _ hs
        · exact fun _ => hs
  | kill => exact unwindStack_going _ _ hs

theorem Step.going {a : Action} (h : Step lineNumber funcName s a s') (hs : Going s) :
    Going s' := by
  cases h with
  | doTask => exact fun _ => rfl
  | exec | callVerb | setTaskPerms => exact hs
  | biFuncCall id reply replies hrun => exact biFuncCall_going _ _ hrun
  | raiseError code msg value replies hrun => exact unwindStack_going _ _ hrun
  | unwind why value replies hrun => exact unwindStack_going _ _ hrun
  | abortTask replies hrun => exact unwindStack_going _ _ hrun
  | resume frames v =>
      intro _
      simp only [resumeFromPreviousVm]
      split <;> rfl

/-- What an opcode may do to the top frame is a step. -/
theorem steps_modify (hs : s.running = true) {f : Activation → Activation}
    (hf : ∀ a, f a =
      { a with rtStack := (f a).rtStack, pc := (f a).pc, errorPc := (f a).errorPc }) :
    ∃ as, Run (Step lineNumber funcName) s as (s.modify s.top f) := by
  refine ⟨[.exec (f (s.slots s.top)).rtStack (f (s.slots s.top)).pc
    (f (s.slots s.top)).errorPc], .cons ?_ (.nil _)⟩
  have hmod : s.modify s.top f = s.modify s.top fun a =>
      { a with
        rtStack := (f (s.slots s.top)).rtStack
        pc := (f (s.slots s.top)).pc
        errorPc := (f (s.slots s.top)).errorPc } := by
    rw [Vm.modify, Vm.modify, ← hf]
  rw [hmod]
  exact .exec _ _ _ _ hs

theorem steps_unwindExit (hs : s.running = true) (height label : Int32) :
    ∃ as, Run (Step lineNumber funcName) s as (unwindExit height label value s) := by
  simp only [unwindExit]
  split
  · exact steps_modify hs (by intro; rfl)
  · exact steps_modify hs (by intro; rfl)

/-- A value is popped, and the stack is unwound with it. -/
theorem steps_unwind (hs : s.running = true) (rts : List Var) {why : Reason}
    (hwhy : why = .raise ∨ why = .uncaught ∨ why = .return) :
    ∃ as, Run (Step lineNumber funcName) s as
      (unwindStack lineNumber funcName replies s.top why value (s.setRts rts)) := by
  obtain ⟨as, hpop⟩ : ∃ as, Run (Step lineNumber funcName) s as (s.setRts rts) :=
    steps_modify hs (by intro; rfl)
  exact ⟨_, hpop.append (.cons (.unwind (s.setRts rts) why value replies hs hwhy) (.nil _))⟩

theorem continues_steps (hs : s.running = true) {why : Var} {rts : List Var}
    (h : (s.setRts rts).continues lineNumber funcName replies value why = some s') :
    ∃ as, Run (Step lineNumber funcName) s as s' := by
  have hpop : ∃ as, Run (Step lineNumber funcName) s as (s.setRts rts) :=
    steps_modify hs (by intro; rfl)
  simp only [Vm.continues] at h
  split at h
  · obtain rfl := Option.some.inj h
    exact hpop
  split at h
  · split at h
    · obtain rfl := Option.some.inj h
      obtain ⟨as, hpop⟩ := hpop
      obtain ⟨bs, hexit⟩ := steps_unwindExit (s := s.setRts rts) hs _ _
      exact ⟨_, hpop.append hexit⟩
    · exact nomatch h
  split at h
  · obtain rfl := Option.some.inj h
    exact steps_unwind hs rts (.inl rfl)
  split at h
  · obtain rfl := Option.some.inj h
    exact steps_unwind hs rts (.inr (.inr rfl))
  split at h
  · obtain rfl := Option.some.inj h
    exact steps_unwind hs rts (.inr (.inl rfl))
  · exact nomatch h

variable {t t' : RunState} {op : Opcode}

theorem opcode_steps (ht : t.vm.running = true)
    (h : t.opcode lineNumber funcName replies op = some t') :
    ∃ as, Run (Step lineNumber funcName) t.vm as t'.vm := by
  cases op with
  | plain n push pc errorPc =>
      obtain ⟨-, h⟩ := Option.ite_none_right_eq_some.mp h
      obtain rfl := Option.some.inj h
      dsimp only
      exact steps_modify ht (by intro; rfl)
  | tryFinally | tryExcept =>
      obtain rfl := Option.some.inj h
      dsimp only
      exact steps_modify ht (by intro; rfl)
  | endCatch label =>
      simp only [RunState.opcode] at h
      split at h
      · obtain ⟨rest, -, rfl⟩ := Option.map_eq_some_iff.mp h
        dsimp only
        exact steps_modify ht (by intro; rfl)
      · exact nomatch h
  | endExcept label =>
      obtain ⟨rest, -, rfl⟩ := Option.map_eq_some_iff.mp h
      dsimp only
      exact steps_modify ht (by intro; rfl)
  | endFinally =>
      simp only [RunState.opcode] at h
      split at h
      · obtain rfl := Option.some.inj h
        dsimp only
        exact steps_modify ht (by intro; rfl)
      · exact nomatch h
  | «continue» =>
      simp only [RunState.opcode] at h
      split at h
      · obtain ⟨vm, hvm, rfl⟩ := Option.map_eq_some_iff.mp h
        exact continues_steps ht hvm
      · exact nomatch h
  | exit height label =>
      obtain rfl := Option.some.inj h
      exact steps_unwindExit ht height label
  | «return» =>
      simp only [RunState.opcode] at h
      split at h
      · obtain rfl := Option.some.inj h
        exact steps_unwind ht _ (.inr (.inr rfl))
      · exact nomatch h
  | return0 | done =>
      obtain rfl := Option.some.inj h
      exact ⟨_, .cons (.unwind t.vm .return zero replies ht (.inr (.inr rfl))) (.nil _)⟩
  | callVerb callee =>
      obtain ⟨hcallee, h⟩ := Option.ite_none_right_eq_some.mp h
      obtain rfl := Option.some.inj h
      exact ⟨_, .cons (.callVerb t.vm callee ht hcallee) (.nil _)⟩
  | biFuncCall id reply =>
      obtain rfl := Option.some.inj h
      exact ⟨_, .cons (.biFuncCall t.vm id reply replies ht) (.nil _)⟩
  | raiseError code msg value =>
      obtain rfl := Option.some.inj h
      exact ⟨_, .cons (.raiseError t.vm code msg value replies ht) (.nil _)⟩
  | abort =>
      obtain rfl := Option.some.inj h
      exact ⟨_, .cons (.abortTask t.vm replies ht) (.nil _)⟩

/-- With an outcome the loop has been left. -/
theorem step_outcome {x : Opcode × (Nat → Reply)}
    (h : RunState.step lineNumber funcName x t = some t') :
    t.vm.outcome = none ∧ t.opcode lineNumber funcName x.2 x.1 = some t' :=
  Option.ite_none_right_eq_some.mp h

/-- What a run does to the activation stack, the interpreter does step by step. -/
theorem run_steps {xs : List (Opcode × (Nat → Reply))} (ht : Going t.vm)
    (hrun : Run (ofPart (RunState.step lineNumber funcName)) t xs t') :
    ∃ as, Run (Step lineNumber funcName) t.vm as t'.vm := by
  induction hrun with
  | nil t => exact ⟨[], .nil _⟩
  | cons hstep _ ih =>
      obtain ⟨hnone, hop⟩ := step_outcome hstep
      obtain ⟨as, hsteps⟩ := opcode_steps (ht hnone) hop
      obtain ⟨bs, hrest⟩ := ih (hsteps.invariant (fun _ _ _ hs h => h.going hs) ht)
      exact ⟨as ++ bs, hsteps.append hrest⟩

end Steps

end Waverous.ActivStack
