import Mathlib.Logic.Function.Basic
import Waverous.Structures

/-! # The task module — `tasks.c`

    Task queues, the lists they are linked in, and the waiting list.  A task
    queue is found through its address (`TqPtr`), since the network layer keeps
    one across the moves of the queue between `idle_tqueues` and
    `active_tqueues`; a linked list is the list of what it links.  MOO code is
    whatever calls the task module back while a task runs, so one step of the
    module is one `Action`, and `Control` records where `run_ready_tasks` stands
    while MOO code runs inside it. -/

namespace Waverous.Tasks

/-- `NO_USAGE`. -/
def noUsage : Int := -1

/-- `OUT_OF_BAND_PREFIX`. -/
def oobPrefix : Str := Str.ofString "#$#"

/-- `OUT_OF_BAND_QUOTE_PREFIX`. -/
def oobQuotePrefix : Str := Str.ofString "#$\""

/-- `INPUT_HIWAT`. -/
def inputHiwat : Int := 65536

/-- `INPUT_LOWAT`. -/
def inputLowat : Int := inputHiwat / 2

/-- The input members of `task_kind`. -/
inductive InputKind where
  | inband | oob | quoted | binary
  deriving DecidableEq, Repr

/-- An input task. -/
structure InputTask where
  kind : InputKind
  string : Str
  deriving DecidableEq, Repr

/-- The background members of `task_kind`. -/
inductive BgKind where
  | forked | suspended
  deriving DecidableEq, Repr

/-- A background task.  `uid` is the identity of the allocated `task` (ids are
    random and may repeat); `progr` is `a.progr` of a forked task and
    `progr_of_cur_verb(the_vm)` of a suspended one. -/
structure Task where
  uid : Nat
  kind : BgKind
  id : Int
  progr : Objid
  startTime : Int
  value : Var := zero
  deriving DecidableEq, Repr

/-- `tqueue`. -/
structure TQueue where
  player : Objid
  handler : Objid := 0
  connected : Bool := false
  input : List InputTask := []
  totalInputLength : Int := 0
  lastInputTaskId : Int := 0
  inputSuspended : Bool := false
  bg : List Task := []
  usage : Int := noUsage
  numBgTasks : Int := 0
  flushCmd : Option Str := none
  holdInput : Bool := false
  disableOob : Bool := false
  reading : Bool := false
  readingVm : Int := 0
  deriving DecidableEq, Repr

/-- The address of a task queue. -/
abbrev TqPtr := Nat

/-- What MOO code is running for, when it runs inside `run_ready_tasks`. -/
inductive Running where
  /-- a forked, suspended, reading or out-of-band task: `did_one` is 1 after it -/
  | plain
  /-- `do_command_task`: `did_one` is what it returns -/
  | command
  /-- `do_login_task`, before its verb has returned -/
  | login
  deriving DecidableEq, Repr

/-- Where the server is: in the main loop, or in `run_ready_tasks` with the
    queue `tq` being served. -/
inductive Control where
  | top
  | running (tq : TqPtr) (what : Running)
  deriving DecidableEq, Repr

/-- A background task that has been handed to the queues: who it is and who its
    programmer is. -/
structure Handed where
  uid : Nat
  progr : Objid
  deriving DecidableEq, Repr

/-- The state of the module.  The last four fields are history: they are
    written and never read by the code. -/
structure State where
  tqs : TqPtr → TQueue
  nextTq : TqPtr
  idleTqueues : List TqPtr
  activeTqueues : List TqPtr
  waitingTasks : List Task
  currentTaskId : Int
  nextUid : Nat
  control : Control
  handed : List Handed
  started : List Nat
  killed : List Nat
  /-- the tasks that were reading, and the value each was resumed with -/
  resumed : List (Int × Var)

/-- The state at server start. -/
def State.init : State where
  tqs := fun _ => { player := nothing }
  nextTq := 0
  idleTqueues := []
  activeTqueues := []
  waitingTasks := []
  currentTaskId := -1
  nextUid := 0
  control := .top
  handed := []
  started := []
  killed := []
  resumed := []

/-- Store into one queue. -/
def State.modifyTq (s : State) (q : TqPtr) (f : TQueue → TQueue) : State :=
  { s with tqs := Function.update s.tqs q (f (s.tqs q)) }

/-! ## Queues and their lists -/

/-- `deactivate_tqueue`. -/
def deactivateTqueue (q : TqPtr) (s : State) : State :=
  let s := s.modifyTq q fun tq => { tq with usage := noUsage }
  { s with idleTqueues := q :: s.idleTqueues }

/-- The place `activate_tqueue` finds: behind every queue of no greater usage. -/
def insertByUsage (tqs : TqPtr → TQueue) (q : TqPtr) : List TqPtr → List TqPtr
  | [] => [q]
  | p :: ps =>
      if (tqs p).usage ≤ (tqs q).usage then p :: insertByUsage tqs q ps else q :: p :: ps

/-- `activate_tqueue`. -/
def activateTqueue (q : TqPtr) (s : State) : State :=
  { s with activeTqueues := insertByUsage s.tqs q s.activeTqueues }

/-- `ensure_usage`. -/
def ensureUsage (q : TqPtr) (s : State) : State :=
  if (s.tqs q).usage = noUsage then
    let usage := match s.activeTqueues with
      | [] => 0
      | p :: _ => (s.tqs p).usage
    let s := s.modifyTq q fun tq => { tq with usage }
    activateTqueue q { s with idleTqueues := s.idleTqueues.erase q }
  else s

/-- `find_tqueue(player, 0)`. -/
def findTqueue (player : Objid) (s : State) : Option TqPtr :=
  (s.activeTqueues ++ s.idleTqueues).find? fun q => (s.tqs q).player = player

/-- `find_tqueue(player, 1)`. -/
def findOrCreateTqueue (player : Objid) (s : State) : TqPtr × State :=
  match findTqueue player s with
  | some q => (q, s)
  | none =>
      let q := s.nextTq
      let s := { s with nextTq := s.nextTq + 1 }
      (q, deactivateTqueue q (s.modifyTq q fun _ => { player }))

/-! ## Background tasks -/

/-- `enqueue_bg_task`. -/
def enqueueBgTask (q : TqPtr) (t : Task) (s : State) : State :=
  s.modifyTq q fun tq => { tq with bg := tq.bg ++ [t] }

/-- `dequeue_bg_task`. -/
def dequeueBgTask (q : TqPtr) (s : State) : Option (Task × State) :=
  match (s.tqs q).bg with
  | [] => none
  | t :: rest =>
      some (t, s.modifyTq q fun tq => { tq with bg := rest, numBgTasks := tq.numBgTasks - 1 })

/-- The place `enqueue_waiting` finds: before the first task that starts later. -/
def insertWaiting (t : Task) : List Task → List Task
  | [] => [t]
  | h :: rest => if t.startTime < h.startTime then t :: h :: rest else h :: insertWaiting t rest

/-- `enqueue_waiting`. -/
def enqueueWaiting (t : Task) (s : State) : State :=
  let (q, s) := findOrCreateTqueue t.progr s
  let s := s.modifyTq q fun tq => { tq with numBgTasks := tq.numBgTasks + 1 }
  { s with waitingTasks := insertWaiting t s.waitingTasks }

/-- Allocate a background task; the history records that the queues got it. -/
def newTask (kind : BgKind) (id : Int) (progr : Objid) (startTime : Int) (value : Var)
    (s : State) : Task × State :=
  ({ uid := s.nextUid, kind, id, progr, startTime, value },
   { s with nextUid := s.nextUid + 1, handed := s.handed ++ [⟨s.nextUid, progr⟩] })

/-- `check_user_task_limit`; `userLimit` is the user's `queued_task_limit`
    property (`none` unless the user is valid and it is an integer) and
    `serverLimit` the server option of that name. -/
def checkUserTaskLimit (user : Objid) (userLimit : Option Int) (serverLimit : Int)
    (s : State) : Bool :=
  let limit := match userLimit with
    | some n => if n < 0 then serverLimit else n
    | none => serverLimit
  if limit < 0 then true
  else
    let n := match findTqueue user s with
      | some q => (s.tqs q).numBgTasks
      | none => 0
    !decide (limit ≤ n)

/-- `enqueue_forked_task2` and `enqueue_ft`. -/
def enqueueForkedTask (progr : Objid) (userLimit : Option Int) (serverLimit : Int)
    (startTime id : Int) (s : State) : Error × State :=
  if checkUserTaskLimit progr userLimit serverLimit s then
    let (t, s) := newTask .forked id progr startTime zero s
    (.eNone, enqueueWaiting t s)
  else (.eQuota, s)

/-- `enqueue_suspended_task`. -/
def enqueueSuspendedTask (progr : Objid) (userLimit : Option Int) (serverLimit : Int)
    (startTime id : Int) (s : State) : Error × State :=
  if checkUserTaskLimit progr userLimit serverLimit s then
    let (t, s) := newTask .suspended id progr startTime zero s
    (.eNone, enqueueWaiting t s)
  else (.eQuota, s)

/-- `read_task_queue`, one task of the file. -/
def restoreTask (kind : BgKind) (id : Int) (progr : Objid) (startTime : Int) (value : Var)
    (s : State) : State :=
  let (t, s) := newTask kind id progr startTime value s
  enqueueWaiting t s

/-- `resume_task`. -/
def resumeTask (id : Int) (progr : Objid) (value : Var) (s : State) : State :=
  let (q, s) := findOrCreateTqueue progr s
  let (t, s) := newTask .suspended id progr 0 value s
  ensureUsage q (enqueueBgTask q t s)

/-- `make_reading_task`. -/
def makeReadingTask (player : Objid) (vm : Int) (s : State) : Error × State :=
  match findTqueue player s with
  | none => (.eInvarg, s)
  | some q =>
      let tq := s.tqs q
      if tq.reading || (!tq.connected && tq.input.isEmpty) then (.eInvarg, s)
      else
        let s := s.modifyTq q fun tq => { tq with reading := true, readingVm := vm }
        (.eNone, if tq.input.isEmpty then s else ensureUsage q s)

/-- Take the first task that satisfies `p` out of a list. -/
def extractFirst {α : Type*} (p : α → Bool) : List α → Option (α × List α)
  | [] => none
  | t :: rest =>
      if p t then some (t, rest)
      else (extractFirst p rest).map fun x => (x.1, t :: x.2)

/-- The search of the readers through one list of queues, in `kill_task`. -/
def findReading (id : Int) (s : State) (qs : List TqPtr) : Option TqPtr :=
  qs.find? fun q => (s.tqs q).reading && (s.tqs q).readingVm = id

/-- The loop of `kill_task` over `active_tqueues`. -/
def killActive (id : Int) (owner : Objid) (wizard : Bool) (s : State) :
    List TqPtr → Option (Error × State)
  | [] => none
  | q :: qs =>
      let tq := s.tqs q
      if tq.reading && tq.readingVm = id then
        if !wizard && owner ≠ tq.player then some (.ePerm, s)
        else some (.eNone, s.modifyTq q fun tq => { tq with reading := false })
      else match extractFirst (fun t => t.id = id) tq.bg with
        | some (t, rest) =>
            if !wizard && owner ≠ tq.player then some (.ePerm, s)
            else
              let s := s.modifyTq q fun tq =>
                { tq with bg := rest, numBgTasks := tq.numBgTasks - 1 }
              some (.eNone, { s with killed := s.killed ++ [t.uid] })
        | none => killActive id owner wizard s qs

/-- `kill_task`; `wizard` is `is_wizard(owner)`, and `none` means that the task
    was not found here (the external queues are searched next). -/
def killTask (id : Int) (owner : Objid) (wizard : Bool) (s : State) : Option (Error × State) :=
  if id = s.currentTaskId then some (.eNone, s)
  else match extractFirst (fun t => t.id = id) s.waitingTasks with
    | some (t, rest) =>
        if !wizard && owner ≠ t.progr then some (.ePerm, s)
        else
          let s := match findTqueue t.progr s with
            | some q => s.modifyTq q fun tq => { tq with numBgTasks := tq.numBgTasks - 1 }
            | none => s
          some (.eNone, { s with waitingTasks := rest, killed := s.killed ++ [t.uid] })
    | none =>
        match findReading id s s.idleTqueues with
        | some q =>
            if !wizard && owner ≠ (s.tqs q).player then some (.ePerm, s)
            else some (.eNone, s.modifyTq q fun tq => { tq with reading := false })
        | none => killActive id owner wizard s s.activeTqueues

/-- The loop of `do_resume` over `active_tqueues`: the task is already resumed
    and gets a new value. -/
def resumeActive (id : Int) (value : Var) (progr : Objid) (wizard : Bool) (s : State) :
    List TqPtr → Error × State
  | [] => (.eInvarg, s)
  | q :: qs =>
      let tq := s.tqs q
      let isIt := fun t : Task => decide (t.kind = .suspended) && decide (t.id = id)
      if tq.bg.any isIt then
        if !wizard && progr ≠ tq.player then (.ePerm, s)
        else
          (.eNone, s.modifyTq q fun tq =>
            { tq with bg := tq.bg.modify (tq.bg.findIdx isIt) fun t => { t with value } })
      else resumeActive id value progr wizard s qs

/-- `do_resume`; `wizard` is `is_wizard(progr)`. -/
def doResume (id : Int) (value : Var) (progr : Objid) (wizard : Bool) (s : State) :
    Error × State :=
  match extractFirst (fun t => decide (t.kind = .suspended) && decide (t.id = id))
      s.waitingTasks with
  | some (t, rest) =>
      if !wizard && progr ≠ t.progr then (.ePerm, s)
      else
        let t := { t with startTime := 0, value }
        let (q, s) := findOrCreateTqueue t.progr s
        let s := ensureUsage q { s with waitingTasks := rest }
        (.eNone, enqueueBgTask q t s)
  | none => resumeActive id value progr wizard s s.activeTqueues

/-! ## Input tasks -/

/-- `dequeue_how`. -/
inductive DequeueHow where
  | first | oob | inband
  deriving DecidableEq, Repr

/-- Which queued tasks a `dequeue_input_task` call asks for. -/
def DequeueHow.wants : DequeueHow → InputTask → Bool
  | .first, _ => true
  | .oob, t => decide (t.kind = .oob)
  | .inband, t => decide (t.kind ≠ .oob)

/-- What a dequeued task becomes: a quoted line loses its prefix, and both a
    quoted line and, with `disable_oob`, an out-of-band one are handled in-band. -/
def InputTask.dequeued (disableOob : Bool) (t : InputTask) : InputTask :=
  match t.kind with
  | .oob => if disableOob then { t with kind := .inband } else t
  | .quoted =>
      { kind := .inband
        string := if disableOob then t.string else t.string.drop oobQuotePrefix.length }
  | _ => t

/-- `dequeue_input_task`. -/
def dequeueInputTask (q : TqPtr) (how : DequeueHow) (s : State) : Option (InputTask × State) :=
  let tq := s.tqs q
  if tq.disableOob && how = .oob then none
  else
    let how := if tq.disableOob then .first else how
    match extractFirst how.wants tq.input with
    | none => none
    | some (t, rest) =>
        let total := tq.totalInputLength - t.string.length
        let resume := tq.inputSuspended && tq.connected && total < inputLowat
        some (t.dequeued tq.disableOob, s.modifyTq q fun tq =>
          { tq with
            input := rest
            totalInputLength := total
            inputSuspended := tq.inputSuspended && !resume })

/-- `is_out_of_input`. -/
def isOutOfInput (tq : TQueue) : Bool := !tq.connected && tq.input.isEmpty

/-- `read_input_now`. -/
def readInputNow (connection : Objid) (s : State) : Var × State :=
  match findTqueue connection s with
  | none => (.err .eInvarg, s)
  | some q =>
      if isOutOfInput (s.tqs q) then (.err .eInvarg, s)
      else match dequeueInputTask q .inband s with
        | none => (zero, s)
        | some (t, s) => (.str t.string, s)

/-- `task_suspend_input`. -/
def taskSuspendInput (q : TqPtr) (s : State) : State :=
  s.modifyTq q fun tq => { tq with inputSuspended := tq.inputSuspended || tq.connected }

/-- The kind `enqueue_input_task` gives a line. -/
def inputKind (input : Str) (binary : Bool) : InputKind :=
  if binary then .binary
  else if oobQuotePrefix.isPrefixOf input then .quoted
  else if oobPrefix.isPrefixOf input then .oob
  else .inband

/-- `enqueue_input_task`. -/
def enqueueInputTask (q : TqPtr) (input : Str) (atFront binary : Bool) (s : State) : State :=
  let t : InputTask := { kind := inputKind input binary, string := input }
  let s := s.modifyTq q fun tq =>
    { tq with
      input := if atFront then t :: tq.input else tq.input ++ [t]
      totalInputLength := tq.totalInputLength + input.length }
  let tq := s.tqs q
  let s := if !tq.holdInput || tq.reading || (!tq.disableOob && t.kind = .oob) then
    ensureUsage q s else s
  s.modifyTq q fun tq =>
    { tq with
      inputSuspended :=
        tq.inputSuspended || (tq.connected && inputHiwat < tq.totalInputLength) }

/-- `flush_input`: every queued line is dequeued and freed. -/
def flushInput (q : TqPtr) : Nat → State → State
  | 0, s => s
  | n + 1, s =>
      match dequeueInputTask q .first s with
      | some (_, s) => flushInput q n s
      | none => s

/-- The number of dequeues that empties a queue. -/
def flushAll (q : TqPtr) (s : State) : State := flushInput q (s.tqs q).input.length s

/-- `new_input_task`; `isFlush` tells whether the line is the flush command. -/
def newInputTask (q : TqPtr) (input : Str) (binary isFlush : Bool) (s : State) : State :=
  if isFlush then flushAll q s else enqueueInputTask q input false binary s

/-! ## Connections -/

/-- `new_task_queue`. -/
def newTaskQueue (player handler : Objid) (s : State) : TqPtr × State :=
  let (q, s) := findOrCreateTqueue player s
  (q, s.modifyTq q fun tq => { tq with connected := true, handler })

/-- `free_task_queue`. -/
def freeTaskQueue (q : TqPtr) (s : State) : State :=
  let s := s.modifyTq q fun tq => { tq with connected := false }
  if (s.tqs q).reading then ensureUsage q s else s

/-- The `hold-input` option of `tasks_set_connection_option`. -/
def setHoldInput (q : TqPtr) (value : Bool) (s : State) : State :=
  let s := s.modifyTq q fun tq => { tq with holdInput := value }
  if !value && !(s.tqs q).input.isEmpty then ensureUsage q s else s

/-- The `disable-oob` option of `tasks_set_connection_option`. -/
def setDisableOob (q : TqPtr) (value : Bool) (s : State) : State :=
  let s := s.modifyTq q fun tq => { tq with disableOob := value }
  if !value && (s.tqs q).input.any (fun t => t.kind = .oob) then ensureUsage q s else s

/-- Move the whole background list of `q` to the end of that of `p`. -/
def moveBgTasks (q p : TqPtr) : Nat → State → State
  | 0, s => s
  | n + 1, s =>
      match dequeueBgTask q s with
      | some (t, s) => moveBgTasks q p n (enqueueBgTask p t s)
      | none => s

/-- `do_login_task`, from the return of its verb on; `result` is the returned
    object when it is a player. -/
def doLoginTask (q : TqPtr) (result : Option Objid) (s : State) : State :=
  match result with
  | none => s
  | some newPlayer =>
      if !(s.tqs q).connected then s
      else
        let oldPlayer := (s.tqs q).player
        let dead := findTqueue newPlayer s
        let s := s.modifyTq q fun tq => { tq with player := newPlayer }
        let s :=
          if (s.tqs q).numBgTasks ≠ 0 then
            let (old, s) := findOrCreateTqueue oldPlayer s
            let s := s.modifyTq old fun tq => { tq with numBgTasks := (s.tqs q).numBgTasks }
            let s := moveBgTasks q old (s.tqs q).bg.length s
            s.modifyTq q fun tq => { tq with numBgTasks := 0 }
          else s
        match dead with
        | none => s
        | some dead =>
            let s := s.modifyTq q fun tq => { tq with numBgTasks := (s.tqs dead).numBgTasks }
            let s := flushAll dead s
            let s := moveBgTasks dead q (s.tqs dead).bg.length s
            s.modifyTq dead fun tq => { tq with player := nothing, numBgTasks := 0 }

/-! ## The scheduler -/

/-- The loop of `run_ready_tasks` over the due prefix of `waiting_tasks`.  The
    list is cut as the loop goes and not after it: nothing reads it meanwhile. -/
def moveReady (now : Int) : List Task → State → State
  | [], s => s
  | t :: rest, s =>
      if t.startTime < now then
        let (q, s) := findOrCreateTqueue t.progr { s with waitingTasks := rest }
        moveReady now rest (enqueueBgTask q t (ensureUsage q s))
      else s

/-- The end of `run_ready_tasks`: free the unconnected and empty queues. -/
def freeEmptyTqueues (s : State) : State :=
  { s with
    idleTqueues := s.idleTqueues.filter fun q =>
      !(!(s.tqs q).connected && (s.tqs q).input.isEmpty && (s.tqs q).numBgTasks = 0) }

/-- Resume the task that reads on the queue. -/
def resumeReader (q : TqPtr) (value : Var) (s : State) : State :=
  let vm := (s.tqs q).readingVm
  let s := { s with
    currentTaskId := vm
    control := .running q .plain
    resumed := s.resumed ++ [(vm, value)] }
  s.modifyTq q fun tq => { tq with reading := false }

/-- Start the MOO code of a dequeued input task. -/
def startInput (q : TqPtr) (t : InputTask) (s : State) : State :=
  match t.kind with
  | .oob => { s with control := .running q .plain }
  | _ =>
      if (s.tqs q).reading then
        resumeReader q (.str t.string) s
      else if 0 ≤ (s.tqs q).player then { s with control := .running q .command }
      else { s with control := .running q .login }

/-- One turn of the loop over the tasks of a queue: start one, if there is one. -/
def tryTqueue (q : TqPtr) (s : State) : Option State :=
  let tq := s.tqs q
  match dequeueInputTask q (if tq.holdInput && !tq.reading then .oob else .first) s with
  | some (t, s) => some (startInput q t s)
  | none =>
      match dequeueBgTask q s with
      | some (t, s) =>
          some { s with
            currentTaskId := t.id
            control := .running q .plain
            started := s.started ++ [t.uid] }
      | none => none

/-- The loop of `run_ready_tasks` over `active_tqueues`, up to the point where
    some task runs or none is left. -/
def scanTqueues : List TqPtr → State → State
  | [], s => freeEmptyTqueues { s with control := .top }
  | q :: rest, s =>
      let tq := s.tqs q
      if tq.reading && isOutOfInput tq then resumeReader q (.err .eInvarg) s
      else match tryTqueue q s with
        | some s => s
        | none => scanTqueues rest (deactivateTqueue q { s with activeTqueues := rest })

/-- `run_ready_tasks`, up to the first MOO code. -/
def runReadyTasks (now : Int) (s : State) : State :=
  let s := moveReady now s.waitingTasks s
  scanTqueues s.activeTqueues s

/-- What follows `tq` on the active list. -/
def afterTq (q : TqPtr) (qs : List TqPtr) : List TqPtr := (qs.dropWhile fun p => p ≠ q).tail

/-- `run_ready_tasks`, from the end of the MOO code of queue `q` on. -/
def endTask (q : TqPtr) (didOne : Bool) (elapsed : Nat) (s : State) : State :=
  if didOne then
    let s := { s with activeTqueues := afterTq q s.activeTqueues }
    let s := s.modifyTq q fun tq => { tq with usage := tq.usage + elapsed }
    freeEmptyTqueues { activateTqueue q s with control := .top }
  else match tryTqueue q s with
    | some s => s
    | none =>
        let rest := afterTq q s.activeTqueues
        scanTqueues rest (deactivateTqueue q { s with activeTqueues := rest })

/-! ## Listings -/

/-- The tasks `write_task_queue` writes, in the order of the file. -/
def writeTaskQueue (s : State) : List Task :=
  let active := s.activeTqueues.flatMap fun q => (s.tqs q).bg
  s.waitingTasks.filter (fun t => t.kind = .forked)
    ++ active.filter (fun t => t.kind = .forked)
    ++ s.waitingTasks.filter (fun t => t.kind ≠ .forked)
    ++ active.filter (fun t => t.kind ≠ .forked)

/-- The background tasks `bf_queued_tasks` lists for `progr`. -/
def queuedTasks (progr : Objid) (showAll : Bool) (s : State) : List Task :=
  ((s.activeTqueues.flatMap fun q => (s.tqs q).bg) ++ s.waitingTasks).filter fun t =>
    showAll || t.progr = progr

/-! ## Steps -/

/-- The calls the rest of the server makes. -/
inductive Action where
  | fork (progr : Objid) (userLimit : Option Int) (serverLimit startTime id : Int)
  | suspend (progr : Objid) (userLimit : Option Int) (serverLimit startTime id : Int)
  | restore (kind : BgKind) (id : Int) (progr : Objid) (startTime : Int) (value : Var)
  | externalResume (id : Int) (progr : Objid) (value : Var)
  | resume (id : Int) (value : Var) (progr : Objid) (wizard : Bool)
  | kill (id : Int) (owner : Objid) (wizard : Bool)
  | read (player : Objid) (vm : Int)
  /-- `read()` that does not wait -/
  | readNow (player : Objid)
  /-- the network layer stops reading from a connection -/
  | suspendInput (q : TqPtr)
  | newConnection (player handler : Objid)
  | disconnect (q : TqPtr)
  | input (q : TqPtr) (line : Str) (binary isFlush : Bool)
  | forceInput (player : Objid) (line : Str) (atFront : Bool)
  | flush (player : Objid)
  | holdInput (q : TqPtr) (value : Bool)
  | disableOob (q : TqPtr) (value : Bool)
  /-- `run_server_task` gives the code it runs a new task id -/
  | serverTask (id : Int)
  /-- the main loop calls `run_ready_tasks` -/
  | runReady (now : Int)
  /-- the verb of `do_login_task` returns -/
  | loginReturns (result : Option Objid)
  /-- the MOO code that `run_ready_tasks` started is over -/
  | taskEnds (didOne : Bool) (elapsed : Nat)
  /-- `do_prompt` for a line without words reads, and `do_command_task` returns 0 -/
  | promptReads (player : Objid) (vm : Int)
  deriving DecidableEq, Repr

/-- One step.  A queue given by its address is one that is linked, a login
    returns a player (so a non-negative number), and the scheduler's own actions
    happen only where the server is at that point.  `do_command_task` returns 0 when
    `do_prompt` is all that has run, and what reads does nothing after that: a reader
    that is then on the queue has come there last. -/
inductive Step : State → Action → State → Prop where
  | fork (s p ul sl st id) : Step s (.fork p ul sl st id) (enqueueForkedTask p ul sl st id s).2
  | suspend (s p ul sl st id) :
      Step s (.suspend p ul sl st id) (enqueueSuspendedTask p ul sl st id s).2
  | restore (s k id p st v) : Step s (.restore k id p st v) (restoreTask k id p st v s)
  | externalResume (s id p v) : Step s (.externalResume id p v) (resumeTask id p v s)
  | resume (s id v p w) : Step s (.resume id v p w) (doResume id v p w s).2
  | killed (s id o w e s') : killTask id o w s = some (e, s') → Step s (.kill id o w) s'
  | killExternal (s id o w) : killTask id o w s = none → Step s (.kill id o w) s
  | read (s p vm) : Step s (.read p vm) (makeReadingTask p vm s).2
  | readNow (s p) : Step s (.readNow p) (readInputNow p s).2
  | suspendInput (s q) : q ∈ s.activeTqueues ++ s.idleTqueues →
      Step s (.suspendInput q) (taskSuspendInput q s)
  | newConnection (s p h) : p < 0 → Step s (.newConnection p h) (newTaskQueue p h s).2
  | disconnect (s q) : q ∈ s.activeTqueues ++ s.idleTqueues →
      Step s (.disconnect q) (freeTaskQueue q s)
  | input (s q l b f) : q ∈ s.activeTqueues ++ s.idleTqueues →
      Step s (.input q l b f) (newInputTask q l b f s)
  | forceInput (s p l at') :
      Step s (.forceInput p l at')
        (enqueueInputTask (findOrCreateTqueue p s).1 l at' false (findOrCreateTqueue p s).2)
  | flush (s p) :
      Step s (.flush p) (flushAll (findOrCreateTqueue p s).1 (findOrCreateTqueue p s).2)
  | holdInput (s q v) : q ∈ s.activeTqueues ++ s.idleTqueues →
      Step s (.holdInput q v) (setHoldInput q v s)
  | disableOob (s q v) : q ∈ s.activeTqueues ++ s.idleTqueues →
      Step s (.disableOob q v) (setDisableOob q v s)
  | serverTask (s id) : Step s (.serverTask id) { s with currentTaskId := id }
  | runReady (s now) : s.control = .top → Step s (.runReady now) (runReadyTasks now s)
  | loginReturns (s q r) : s.control = .running q .login → (∀ p ∈ r, 0 ≤ p) →
      Step s (.loginReturns r) { doLoginTask q r s with control := .running q .plain }
  | commandEnds (s q d e) : s.control = .running q .command →
      (d = false → (s.tqs q).reading = false) → Step s (.taskEnds d e) (endTask q d e s)
  | promptReads (s q p vm) : s.control = .running q .command → (s.tqs q).reading = false →
      (makeReadingTask p vm s).1 = .eNone →
      Step s (.promptReads p vm) (endTask q false 0 (makeReadingTask p vm s).2)
  | taskEnds (s q e) : s.control = .running q .plain →
      Step s (.taskEnds true e) (endTask q true e s)

end Waverous.Tasks
