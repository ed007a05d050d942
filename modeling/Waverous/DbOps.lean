import Waverous.DbProperties

/-! # Built-in functions on objects and properties — `objects.c`, `property.c`, `quota.c`

    A request ends with an error, `eNone` when there is none, and a database.
    Where a function calls a verb, what the verb does is further requests between
    this one and the one that goes on. -/

namespace Waverous.Db

/-- A value that a verb can have: never CLEAR. -/
abbrev Value := { v : Var // v ≠ .clear }

abbrev Res := Error × State

variable (s : State)

/-- A request that fails and leaves the database as it is. -/
def refuse (e : Error) : Option Res := some (e, s)

/-! ## Properties -/

/-- The letters of a permission string. -/
def permBits : Str → Option Nat
  | [] => some 0
  | c :: cs => do
      let bits ← permBits cs
      if c = 114 ∨ c = 82 then some (bits ||| pfRead)
      else if c = 119 ∨ c = 87 then some (bits ||| pfWrite)
      else if c = 99 ∨ c = 67 then some (bits ||| pfChown)
      else none

/-- `validate_prop_info`: owner, permissions and new name. -/
def validatePropInfo (v : Var) : Except Error (Objid × Nat × Option Str) :=
  let check := fun (owner : Objid) (perms : Str) (name : Option Str) =>
    if valid s owner then
      match permBits perms with
      | some flags => .ok (owner, flags, name)
      | none => .error .eInvarg
    else .error .eInvarg
  match v with
  | .list [.obj owner, .str perms] => check owner perms none
  | .list [.obj owner, .str perms, .str name] => check owner perms (some name)
  | _ => .error .eType

/-- `bf_add_prop`. -/
def bfAddProp (progr oid : Objid) (pname : Str) (value : Value) (info : Var) : Option Res :=
  match validatePropInfo s info with
  | .error e => refuse s e
  | .ok (_, _, some _) => refuse s .eType
  | .ok (owner, flags, none) =>
      match findObject s oid with
      | none => refuse s .eInvarg
      | some o =>
          if !objectAllows s o progr .write || (progr != owner && !isWizard s progr) then
            refuse s .ePerm
          else do
            let (done, s) ← addPropdef s oid pname value.val owner flags
            some (if done then .eNone else .eInvarg, s)

/-- `bf_delete_prop`. -/
def bfDeleteProp (progr oid : Objid) (pname : Str) : Option Res :=
  match findObject s oid with
  | none => refuse s .eInvarg
  | some o =>
      if !objectAllows s o progr .write then refuse s .ePerm
      else do
        let (done, s) ← deletePropdef s oid pname
        some (if done then .eNone else .ePropnf, s)

/-- `bf_clear_prop`. -/
def bfClearProp (progr oid : Objid) (pname : Str) : Option Res := do
  if !valid s oid then refuse s .eInvarg
  else
    match ← findProperty s oid pname with
    | none => refuse s .ePropnf
    | some (.builtIn _ _) => refuse s .ePerm
    | some (.slot definer oid' n) => do
        let p ← slotOf s (.slot definer oid' n)
        if progr != p.owner && !isWizard s progr then refuse s .ePerm
        else if definer = oid then refuse s .eInvarg
        else do
          let s ← setPropertyValue (.slot definer oid' n) .clear s
          some (.eNone, s)

/-- `set_prop_info`. -/
def setPropInfo (progr oid : Objid) (pname : Str) (info : Var) : Option Res := do
  if !valid s oid then refuse s .eInvarg
  else
    match validatePropInfo s info with
    | .error e => refuse s e
    | .ok (newOwner, newFlags, newName) =>
        match ← findProperty s oid pname with
        | none => refuse s .ePropnf
        | some (.builtIn _ _) => refuse s .ePropnf
        | some (.slot definer oid' n) => do
            let h : Handle := .slot definer oid' n
            let p ← slotOf s h
            let allows ← propertyAllows s h progr pfWrite
            if !allows || (!isWizard s progr && p.owner != newOwner) then refuse s .ePerm
            else
              match newName with
              | none => do
                  let s ← setPropertyInfo h newOwner newFlags s
                  some (.eNone, s)
              | some name => do
                  let (done, s) ← renamePropdef s oid pname name
                  if !done then refuse s .eInvarg
                  else
                    match ← findProperty s oid name with
                    | none => none
                    | some h => do
                        let s ← setPropertyInfo h newOwner newFlags s
                        some (.eNone, s)

/-- Whether OP_PUT_PROP may store `rhs`. -/
def putPropError (progr : Objid) (h : Handle) (rhs : Var) : Option Error :=
  match h with
  | .slot definer oid n => do
      let allows ← propertyAllows s (.slot definer oid n) progr pfWrite
      some (if allows then .eNone else .ePerm)
  | .builtIn prop oid => do
      let o ← findObject s oid
      some (match prop with
        | .name =>
            match rhs with
            | .str _ =>
                if !isWizard s progr && (isUser s oid || progr != o.owner) then .ePerm else .eNone
            | _ => .eType
        | .owner =>
            match rhs with
            | .obj _ => if isWizard s progr then .eNone else .ePerm
            | _ => .eType
        | .programmer | .wizard => if isWizard s progr then .eNone else .ePerm
        | .r | .w | .f => if progr != o.owner && !isWizard s progr then .ePerm else .eNone
        | .location | .contents => .ePerm)

/-- OP_PUT_PROP. -/
def putProp (progr oid : Objid) (pname : Str) (rhs : Value) : Option Res := do
  if !valid s oid then refuse s .eInvind
  else
    match ← findProperty s oid pname with
    | none => refuse s .ePropnf
    | some h => do
        let e ← putPropError s progr h rhs.val
        if e = .eNone then
          let s ← setPropertyValue h rhs.val s
          some (.eNone, s)
        else refuse s e

/-! ## Quota -/

/-- `quota_name`. -/
def quotaName : Str := Str.ofString "ownership_quota"

/-- `decr_quota`: whether there was quota left, and the database. -/
def decrQuota (player : Objid) : Option (Bool × State) := do
  if !valid s player then some (true, s)
  else
    match ← findPropertyValue s player quotaName with
    | none => some (true, s)
    | some (h, .int num) =>
        if num ≤ 0 then some (false, s)
        else do
          let s ← setPropertyValue h (.int (num - 1)) s
          some (true, s)
    | some _ => some (true, s)

/-- `incr_quota`. -/
def incrQuota (player : Objid) : Option State := do
  if !valid s player then some s
  else
    match ← findPropertyValue s player quotaName with
    | none => some s
    | some (h, .int num) => setPropertyValue h (.int (num + 1)) s
    | some _ => some s

/-! ## Objects -/

/-- `bf_create`, up to the call of `initialize`; `owner` is `progr` when there is no
    second argument. -/
def bfCreate (progr parent owner : Objid) : Option Res :=
  let allowed :=
    match findObject s parent with
    | some o => objectAllows s o progr .fertile
    | none => parent == nothing
  if !allowed || (owner != progr && !isWizard s progr) then refuse s .ePerm
  else do
    let (left, s) ← (if valid s owner then decrQuota s owner else some (true, s))
    if !left then some (.eQuota, s)
    else
      let (oid, s) := createObject s
      let s := modify oid (fun o => { o with owner := if owner = nothing then oid else owner }) s
      let (_, s) ← changeParent s oid parent
      some (.eNone, s)

/-- `bf_chparent`. -/
def bfChparent (progr what parent : Objid) : Option Res :=
  match findObject s what with
  | none => refuse s .eInvarg
  | some o =>
      if !valid s parent ∧ parent ≠ nothing then refuse s .eInvarg
      else if !controls s progr o ||
          ((findObject s parent).any fun p => !objectAllows s p progr .fertile) then
        refuse s .ePerm
      else do
        let os ← parents s parent
        if what ∈ os then refuse s .eRecmove
        else
          let (done, s) ← changeParent s what parent
          some (if done then .eNone else .eInvarg, s)

/-- The loop of `bf_recycle` over the contents: `db_change_location` to nothing;
    unless a verb is called, the next one. -/
def moveContents (called : Bool) (oid : Objid) : Nat → State → Option (Bool × State)
  | 0, _ => none
  | fuel + 1, s => do
      let o ← findObject s oid
      if o.contents = nothing then some (false, s)
      else
        let s ← changeLocation s o.contents nothing
        if called then some (true, s) else moveContents called oid fuel s

/-- Its loop over the children. -/
def orphanChildren (oid : Objid) : Nat → State → Option State
  | 0, _ => none
  | fuel + 1, s => do
      let o ← findObject s oid
      if o.child = nothing then some s
      else
        let (_, s) ← changeParent s o.child o.parent
        orphanChildren oid fuel s

/-- `bf_recycle` from the moving of the contents on; `called` tells of what objects
    the verb `exitfunc` can be called. -/
def recycleContents (called : Objid → Bool) (oid : Objid) : Option Res := do
  if !valid s oid then refuse s .eNone
  else
    let (wait, s) ← moveContents (called oid) oid (s.numObjects + 1) s
    if wait then some (.eNone, s)
    else
      let o ← findObject s oid
      let s ← (if o.location ≠ nothing then changeLocation s oid nothing else some s)
      if o.location ≠ nothing ∧ called o.location then some (.eNone, s)
      else
        let s ← orphanChildren oid (s.numObjects + 1) s
        let (_, s) ← changeParent s oid nothing
        let o ← findObject s oid
        let s ← incrQuota s o.owner
        let s ← destroyObject s oid
        some (.eNone, s)

/-- `bf_recycle` when the verb `recycle` cannot be called. -/
def bfRecycle (progr : Objid) (called : Objid → Bool) (oid : Objid) : Option Res :=
  match findObject s oid with
  | none => refuse s .eInvarg
  | some o => if controls s progr o then recycleContents s called oid else refuse s .ePerm

/-- `bf_renumber`. -/
def bfRenumber (progr old : Objid) : Option Res :=
  if !valid s old then refuse s .eInvarg
  else if !isWizard s progr then refuse s .ePerm
  else do
    let (_, s) ← renumberObject s old
    some (.eNone, s)

/-! ## Requests -/

/-- A request; each is made with the permissions of a programmer. -/
inductive Op where
  | create (progr parent owner : Objid)
  | addProp (progr oid : Objid) (pname : Str) (value : Value) (info : Var)
  | setPropInfo (progr oid : Objid) (pname : Str) (info : Var)
  | deleteProp (progr oid : Objid) (pname : Str)
  | putProp (progr oid : Objid) (pname : Str) (rhs : Value)
  | clearProp (progr oid : Objid) (pname : Str)
  | chparent (progr what parent : Objid)
  | recycle (progr : Objid) (called : Objid → Bool) (oid : Objid)
  /-- `bf_recycle`, continued after a verb it called -/
  | recycleOn (called : Objid → Bool) (oid : Objid)
  | renumber (progr old : Objid)

/-- What a request does. -/
def request (op : Op) (s : State) : Option Res :=
  match op with
  | .create progr parent owner => bfCreate s progr parent owner
  | .addProp progr oid pname value info => bfAddProp s progr oid pname value info
  | .setPropInfo progr oid pname info => setPropInfo s progr oid pname info
  | .deleteProp progr oid pname => bfDeleteProp s progr oid pname
  | .putProp progr oid pname rhs => putProp s progr oid pname rhs
  | .clearProp progr oid pname => bfClearProp s progr oid pname
  | .chparent progr what parent => bfChparent s progr what parent
  | .recycle progr called oid => bfRecycle s progr called oid
  | .recycleOn called oid => recycleContents s called oid
  | .renumber progr old => bfRenumber s progr old

/-- A step of the database. -/
def step (op : Op) (s : State) : Option State := (request op s).map Prod.snd

end Waverous.Db
