import Mathlib.Data.List.DropRight
import Waverous.DbOps

/-! # Built-in functions that call verbs — `objects.c`

    `move` and `recycle` call verbs between their steps.  A built-in function that
    has called a verb waits, and all it has then is object numbers; it goes on when the
    verb has returned, in whatever database there is by then.  `create` has done all it
    does to the database when it calls `initialize`. -/

namespace Waverous.Db

open LinkedForest

/-- What `call_verb` returns; no caller tells E_INVIND from E_VERBNF. -/
inductive CallResult where
  | called | notFound | maxrec
  deriving DecidableEq, Repr

/-- What calling a verb of a valid object returns. -/
abbrev Calls := Objid → Str → CallResult

/-- `package`: what a built-in function gives to the interpreter. -/
inductive Package where
  | raise (e : Error)
  | value
  /-- a verb has been called; go on at `next` when it has returned -/
  | call (next : Nat)
  deriving DecidableEq, Repr

def acceptName : Str := Str.ofString "accept"

def exitfuncName : Str := Str.ofString "exitfunc"

def enterfuncName : Str := Str.ofString "enterfunc"

def recycleName : Str := Str.ofString "recycle"

/-! ## `move` -/

/-- `struct bf_move_data`. -/
structure MoveData where
  what : Objid
  «where» : Objid
  deriving DecidableEq, Repr

variable (s : State)

/-- `call_verb`. -/
def callVerb (call : Calls) (oid : Objid) (vname : Str) : CallResult :=
  if valid s oid then call oid vname else .notFound

/-- `for (oid = where; oid != NOTHING; oid = db_object_location(oid))`. -/
def locations (oid : Objid) : Option (List Objid) :=
  follow nothing (upOf (place.get s)) s.numObjects oid

/-- `do_move`, case 3. -/
def moveExited (d : MoveData) (call : Calls) : Package × State :=
  if valid s d.where && (findObject s d.what).any fun o => o.location == d.where then
    match callVerb s call d.where enterfuncName with
    | .called => (.call 4, s)
    | .maxrec => (.raise .eMaxrec, s)
    | .notFound => (.value, s)
  else (.value, s)

/-- `do_move`, from `accepts_decided` on. -/
def moveDecided (progr : Objid) (d : MoveData) (accepts : Bool) (call : Calls) :
    Option (Package × State) :=
  if !isWizard s progr && !accepts then some (.raise .eNacc, s)
  else
    match findObject s d.what with
    | none => some (.value, s)
    | some o =>
        if (d.where ≠ nothing ∧ !valid s d.where) ∨ o.location = d.where then some (.value, s)
        else do
          let ls ← locations s d.where
          if d.what ∈ ls then some (.raise .eRecmove, s)
          else
            let s ← changeLocation s d.what d.where
            match callVerb s call o.location exitfuncName with
            | .called => some (.call 3, s)
            | .maxrec => some (.raise .eMaxrec, s)
            | .notFound => some (moveExited s d call)

/-- `do_move`; `arg` is whether the value that the verb returned is true. -/
def doMove (progr : Objid) (d : MoveData) (next : Nat) (arg : Bool) (call : Calls) :
    Option (Package × State) :=
  match next with
  | 1 =>
      match findObject s d.what with
      | none => some (.raise .eInvarg, s)
      | some o =>
          if !valid s d.where ∧ d.where ≠ nothing then some (.raise .eInvarg, s)
          else if !controls s progr o then some (.raise .ePerm, s)
          else if d.where = nothing then moveDecided s progr d true call
          else
            match callVerb s call d.where acceptName with
            | .called => some (.call 2, s)
            | .maxrec => some (.raise .eMaxrec, s)
            | .notFound => moveDecided s progr d false call
  | 2 => moveDecided s progr d arg call
  | 3 => some (moveExited s d call)
  | 4 => some (.value, s)
  | _ => none

/-! ## `recycle` -/

/-- `bf_recycle`, the moving of the contents, and of the object itself, to nothing:
    whether a verb has been called. -/
def leavePlaces (called : Objid → Bool) (oid : Objid) : Option (Bool × State) := do
  let (wait, s) ← moveContents (called oid) oid (s.numObjects + 1) s
  if wait then some (true, s)
  else
    let o ← findObject s oid
    let s ← (if o.location ≠ nothing then changeLocation s oid nothing else some s)
    some (decide (o.location ≠ nothing) && called o.location, s)

/-- `bf_recycle`, from where the object has no contents and no location. -/
def demolish (oid : Objid) : Option State := do
  let s ← orphanChildren oid (s.numObjects + 1) s
  let (_, s) ← changeParent s oid nothing
  let o ← findObject s oid
  let s ← incrQuota s o.owner
  destroyObject s oid

/-- `bf_recycle`, from `moving_contents` on. -/
def recycleMoving (oid : Objid) (call : Calls) : Option (Package × State) :=
  if !valid s oid then some (.value, s)
  else do
    let (wait, s) ← leavePlaces s (fun x => callVerb s call x exitfuncName == .called) oid
    if wait then some (.call 2, s)
    else
      let s ← demolish s oid
      some (.value, s)

/-- `bf_recycle`. -/
def doRecycle (progr oid : Objid) (next : Nat) (call : Calls) : Option (Package × State) :=
  match next with
  | 1 =>
      match findObject s oid with
      | none => some (.raise .eInvarg, s)
      | some o =>
          if !controls s progr o then some (.raise .ePerm, s)
          else
            match callVerb s call oid recycleName with
            | .called => some (.call 2, s)
            | _ => recycleMoving s oid call
  | 2 => recycleMoving s oid call
  | _ => none

/-- `db_reset_last_used_objid`; the loop leaves the table when there is no object. -/
def resetLastUsedObjid : Option State :=
  if s.objects.all Option.isNone then none
  else some { s with objects := s.objects.rdropWhile Option.isNone }

/-- `bf_reset_max_object`. -/
def bfResetMaxObject (progr : Objid) : Option Res :=
  if !isWizard s progr then refuse s .ePerm
  else do
    let s ← resetLastUsedObjid s
    some (.eNone, s)

/-! ## Interleavings

    What waits, together with the database.  For each waiting function and each object
    number there is also the identity of the object, which the code does not have: it
    goes with the object when the object is renumbered, and a new object has a new one. -/

/-- A built-in function that waits for a verb. -/
inductive Waiting where
  | move (progr : Objid) (d : MoveData) (next : Nat)
  | recycle (progr oid : Objid)
  deriving DecidableEq, Repr

/-- `who` is the identity of the object that was checked. -/
structure Frame where
  fn : Waiting
  who : Nat
  deriving DecidableEq, Repr

structure World where
  db : State
  frames : List Frame
  ids : Objid → Nat
  fresh : Nat

/-- `bf_recycle` has steps of its own. -/
def Op.isRecycle : Op → Bool
  | .recycle .. | .recycleOn .. => true
  | _ => false

/-- The requests on properties. -/
def Op.onProperty : Op → Bool
  | .addProp .. | .setPropInfo .. | .deleteProp .. | .putProp .. | .clearProp .. => true
  | _ => false

/-- What can happen. -/
inductive Event where
  /-- a request that is not interrupted -/
  | request (op : Op) (h : op.isRecycle = false)
  | resetMaxObject (progr : Objid)
  | move (progr what «where» : Objid) (call : Calls)
  | recycle (progr oid : Objid) (call : Calls)
  /-- the verb that the `i`-th function waits for returns -/
  | resume (i : Nat) (arg : Bool) (call : Calls)
  /-- it does not: there is an error, or the task is killed -/
  | abandon (i : Nat)

/-- The free number that `db_renumber_object` finds. -/
def freeNumber (s : State) (old : Objid) : Option Nat :=
  (s.objects.take old.toNat).findIdx? Option.isNone

/-- Who has which number after a request. -/
def identify (op : Op) (s : State) (fresh : Nat) (ids : Objid → Nat) : Objid → Nat :=
  match op with
  | .create .. => Function.update ids s.numObjects fresh
  | .renumber _ old =>
      match freeNumber s old with
      | some n => Function.update ids n (ids old)
      | none => ids
  | _ => ids

/-- The function waits when it has called a verb. -/
def wait (p : Package) (fr : Nat → Frame) (frames : List Frame) : List Frame :=
  match p with
  | .call next => fr next :: frames
  | _ => frames

/-- Go on with a function. -/
def goOn (fn : Waiting) (arg : Bool) (call : Calls) (s : State) : Option (Package × State) :=
  match fn with
  | .move progr d next => doMove s progr d next arg call
  | .recycle progr oid => doRecycle s progr oid 2 call

/-- What waits then: the same function, at another place. -/
def Waiting.at : Waiting → Nat → Waiting
  | .move progr d _, next => .move progr d next
  | .recycle progr oid, _ => .recycle progr oid

/-- `none` is where the code panics or goes wrong. -/
def happen (e : Event) (w : World) : Option World :=
  match e with
  | .request op _ => do
      let (err, db) ← request op w.db
      let ids := if err = .eNone then identify op w.db w.fresh w.ids else w.ids
      some { w with db := db, ids := ids, fresh := w.fresh + 1 }
  | .resetMaxObject progr => do
      let (_, db) ← bfResetMaxObject w.db progr
      some { w with db := db }
  | .move progr what «where» call => do
      let d : MoveData := ⟨what, «where»⟩
      let (p, db) ← doMove w.db progr d 1 false call
      some { w with
        db := db
        frames := wait p (fun next => ⟨.move progr d next, w.ids what⟩) w.frames }
  | .recycle progr oid call => do
      let (p, db) ← doRecycle w.db progr oid 1 call
      some { w with
        db := db
        frames := wait p (fun _ => ⟨.recycle progr oid, w.ids oid⟩) w.frames }
  | .resume i arg call =>
      match w.frames[i]? with
      | none => some w
      | some fr => do
          let (p, db) ← goOn fr.fn arg call w.db
          some { w with
            db := db
            frames := wait p (fun next => ⟨fr.fn.at next, fr.who⟩) (w.frames.eraseIdx i) }
  | .abandon i => some { w with frames := w.frames.eraseIdx i }

end Waverous.Db
