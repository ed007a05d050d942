import Mathlib.Algebra.Order.Ring.Int
import Waverous.Lib.TailedList
import Waverous.Tasks

/-! # The input queue and its links — `tasks.c`

    The lines of a queue are threaded along their `next` fields, and the last ones of the
    runs of out-of-band and of other lines along their `next_itail` fields; `last_input`
    and `last_itail` are addresses of such fields, or of `first_input` and `first_itail`.
    A function that would follow a null pointer gives `none`. -/

namespace Waverous.Tasks

open TailedList

/-- The address of an input task. -/
abbrev TaskPtr := Nat

/-- The input fields of a `tqueue`, and the fields of its input tasks by address: `input`
    is `first_input` and every `next`, `itail` is `first_itail` and every `next_itail`. -/
structure InputQueue where
  kind : TaskPtr → InputKind
  string : TaskPtr → Str
  length : TaskPtr → Int
  input : Links TaskPtr
  itail : Links TaskPtr
  /-- the next address that the allocator gives -/
  nextTask : TaskPtr
  lastInput : Slot TaskPtr
  lastItail : Slot TaskPtr
  totalInputLength : Int
  connected : Bool
  inputSuspended : Bool
  disableOob : Bool

namespace InputQueue

/-- `find_tqueue(player, 1)` on the input fields, whatever there is in memory. -/
def create (mem : InputQueue) : InputQueue :=
  { mem with
    input := { mem.input with head := none }
    itail := { mem.itail with head := none }
    lastInput := .head
    lastItail := .head
    totalInputLength := 0
    connected := false
    inputSuspended := false
    disableOob := false }

/-- `t->kind == TASK_OOB`. -/
def isOob (iq : InputQueue) (t : TaskPtr) : Bool := decide (iq.kind t = .oob)

/-- The line of a task. -/
def line (iq : InputQueue) (t : TaskPtr) : InputTask := { kind := iq.kind t, string := iq.string t }

/-! ## `dequeue_input_task` -/

/-- The values of `dequeue_how`, which are compared with a truth value. -/
def howCode : DequeueHow → Int
  | .first => -1
  | .oob => 0
  | .inband => 1

/-- The task is taken out of the slot. -/
def unlinkInput (t : TaskPtr) (pt : Slot TaskPtr) (iq : InputQueue) : InputQueue :=
  let next := iq.input.next t
  let input := iq.input.set pt next
  match next with
  | none => { iq with input, lastInput := pt }
  | some _ => { iq with input := input.set (.link t) none }

/-- The task that is taken out ended a run. -/
def unlinkItail (t : TaskPtr) (pitail : Slot TaskPtr) (iq : InputQueue) : InputQueue :=
  let itail := iq.itail.set pitail none
  let itail := match itail.next t with
    | none => itail
    | some e => (itail.set .head (some e)).set (.link t) none
  { iq with
    itail
    lastItail := if itail.get iq.lastItail = none then .head else iq.lastItail }

/-- The input is less by a task. -/
def account (t : TaskPtr) (iq : InputQueue) : InputQueue :=
  let total := iq.totalInputLength - iq.length t
  let resume := iq.inputSuspended && iq.connected && total < inputLowat
  { iq with totalInputLength := total, inputSuspended := iq.inputSuspended && !resume }

/-- The kind and the string that a task leaves with. -/
def handOver (t : TaskPtr) (iq : InputQueue) : InputQueue :=
  match iq.kind t with
  | .oob =>
      if iq.disableOob then { iq with kind := Function.update iq.kind t .inband } else iq
  | .quoted =>
      let string :=
        if iq.disableOob then iq.string
        else Function.update iq.string t ((iq.string t).drop oobQuotePrefix.length)
      { iq with string, kind := Function.update iq.kind t .inband }
  | _ => iq

/-- Take the task out that the slot `pt` holds. -/
def unlink (pt pitail : Slot TaskPtr) (iq : InputQueue) : Option TaskPtr × InputQueue :=
  match iq.input.get pt with
  | none => (none, iq)
  | some t =>
      let iq := unlinkInput t pt iq
      let iq := if iq.itail.get pitail = some t then unlinkItail t pitail iq else iq
      (some t, handOver t (account t iq))

/-- `dequeue_input_task`. -/
def dequeue (how : DequeueHow) (iq : InputQueue) : Option (Option TaskPtr × InputQueue) :=
  if iq.disableOob && how = .oob then some (none, iq)
  else
    let how := if iq.disableOob then .first else how
    match iq.input.head with
    | none => some (none, iq)
    | some first =>
        if howCode how = (if iq.isOob first then 1 else 0) then
          match iq.itail.head with
          | none => none
          | some e => some (unlink (.link e) (.link e) iq)
        else some (unlink .head .head iq)

/-! ## `enqueue_input_task` -/

/-- A new task, with its line. -/
def newInput (input : Str) (binary : Bool) (iq : InputQueue) : InputQueue :=
  let t := iq.nextTask
  { iq with
    nextTask := t + 1
    kind := Function.update iq.kind t (inputKind input binary)
    string := Function.update iq.string t input
    length := Function.update iq.length t input.length
    totalInputLength := iq.totalInputLength + input.length
    itail := iq.itail.set (.link t) none }

/-- The task comes before `first`. -/
def linkFront (t first : TaskPtr) (iq : InputQueue) : InputQueue :=
  let iq :=
    if iq.isOob first ≠ iq.isOob t then
      { iq with
        itail := (iq.itail.set (.link t) iq.itail.head).set .head (some t)
        lastItail := if iq.lastItail = .head then .link t else iq.lastItail }
    else iq
  { iq with input := (iq.input.set (.link t) iq.input.head).set .head (some t) }

/-- The task comes last: the slot for it among the ends of runs. -/
def rearItail (t : TaskPtr) (iq : InputQueue) : Option (Slot TaskPtr) :=
  match iq.input.head with
  | none => some iq.lastItail
  | some _ =>
      match iq.itail.get iq.lastItail with
      | none => none
      | some e => some (if iq.isOob e ≠ iq.isOob t then .link e else iq.lastItail)

/-- The task comes last. -/
def linkRear (t : TaskPtr) (iq : InputQueue) : Option InputQueue :=
  (rearItail t iq).map fun lastItail =>
    { iq with
      lastItail
      itail := iq.itail.set lastItail (some t)
      input := (iq.input.set iq.lastInput (some t)).set (.link t) none
      lastInput := .link t }

/-- `enqueue_input_task`, but for waking the queue. -/
def enqueue (input : Str) (atFront binary : Bool) (iq : InputQueue) : Option InputQueue :=
  let t := iq.nextTask
  let iq := newInput input binary iq
  let linked := match atFront, iq.input.head with
    | true, some first => some (linkFront t first iq)
    | _, _ => linkRear t iq
  linked.map fun iq =>
    { iq with
      inputSuspended :=
        iq.inputSuspended || (iq.connected && inputHiwat < iq.totalInputLength) }

/-- `first_itail->next || first_input->kind == TASK_OOB`, which the `disable-oob` option
    asks of a queue with input. -/
def someOob (iq : InputQueue) : Option Bool :=
  match iq.input.head, iq.itail.head with
  | none, _ => some false
  | some first, some e => some ((iq.input.next e).isSome || iq.isOob first)
  | some _, none => none

end InputQueue

/-! ## Sequences of calls -/

/-- The calls that read or change these fields. -/
inductive InputOp where
  | enqueue (input : Str) (atFront binary : Bool)
  | dequeue (how : DequeueHow)
  | disableOob (value : Bool)
  | connected (value : Bool)
  | suspend
  deriving DecidableEq, Repr

/-- The queue, the tasks that have come with their lines, and those that have gone. -/
structure InputWorld where
  iq : InputQueue
  came : List (TaskPtr × InputTask)
  gone : List TaskPtr

/-- One call. -/
def InputWorld.call (w : InputWorld) : InputOp → Option InputWorld
  | .enqueue input atFront binary => do
      let iq ← w.iq.enqueue input atFront binary
      let line : InputTask := { kind := inputKind input binary, string := input }
      return { w with iq, came := w.came ++ [(w.iq.nextTask, line)] }
  | .dequeue how => do
      let (t, iq) ← w.iq.dequeue how
      return { w with iq, gone := w.gone ++ t.toList }
  | .disableOob value => some { w with iq := { w.iq with disableOob := value } }
  | .connected value => some { w with iq := { w.iq with connected := value } }
  | .suspend =>
      some { w with iq := { w.iq with inputSuspended := w.iq.inputSuspended || w.iq.connected } }

/-- A new queue. -/
def InputWorld.start (mem : InputQueue) : InputWorld where
  iq := mem.create
  came := []
  gone := []

end Waverous.Tasks
