import Waverous.DbCalls

/-! # Verbs — `db_verbs.c`

    A verb is called by the name that someone gives it, and found by a walk up the
    hierarchy.  What a walk has found, or has not found, is kept in a table under the first
    object with verbs on the way.  Most of what could make an entry wrong clears the
    whole table. -/

namespace Waverous.Db

open LinkedForest

/-- `VF_EXEC`. -/
def vfExec : Nat := 4

/-- A word that someone calls a verb by: its letters and, when the string is that of the
    names of a verb, its address. -/
structure Word where
  addr : Option Nat
  text : Str
  deriving DecidableEq, Repr

/-- The same word in a string of its own. -/
def Word.copy (w : Word) : Word := { w with addr := none }

/-- `verbcasecmp`. -/
def Verbdef.named (v : Verbdef) (word : Word) : Bool :=
  word.addr == some v.addr || verbcasecmp v.name word.text

/-- `find_verbdef_by_name`, with `check_x_bit`. -/
def findVerbdefByName (o : Object) (word : Word) : Option Nat :=
  o.verbdefs.findIdx? fun v => v.named word && v.perms &&& vfExec != 0

/-- `handle`: a verb is its definer and its place there. -/
structure VerbHandle where
  definer : Objid
  index : Nat
  deriving DecidableEq, Repr

/-- The walk from an object up: the first executable verb with the name. -/
def walkUp (os : List Object) (word : Word) : Option VerbHandle :=
  os.findSome? fun o => (findVerbdefByName o word).map fun n => ⟨o.id, n⟩

/-- A walk that looks at no table. -/
def freshWalk (s : State) (oid : Objid) (word : Word) : Option (Option VerbHandle) := do
  let os ← ancestors s oid
  some (walkUp os word)

/-! ## The table -/

/-- `struct vc_entry`; there is no handle when no verb was found. -/
structure VcEntry where
  hash : UInt32
  oidKey : Objid
  verbname : Str
  h : Option VerbHandle
  deriving DecidableEq, Repr

/-- `vc_table`, which is NULL until the first lookup. -/
abbrev VcTable := Option (Nat → List VcEntry)

/-- `DEFAULT_VC_SIZE`. -/
def vcSize : Nat := 7507

/-- `db_priv_affected_callable_verb_lookup`. -/
def affectedCallableVerbLookup (vc : VcTable) : VcTable := vc.map fun _ _ => []

/-- `first_parent_with_verbs`, from the walk to it. -/
def firstParentWithVerbs : List Object → Objid
  | o :: _ => o.id
  | [] => nothing

/-- `db_find_callable_verb`. -/
def findCallableVerb (s : State) (oid : Objid) (word : Word) (vc : VcTable) :
    Option (Option VerbHandle × VcTable) := do
  let table := vc.getD fun _ => []
  let os ← ancestors s oid
  let os := os.dropWhile fun o => o.verbdefs.isEmpty
  let key := firstParentWithVerbs os
  let hash := strHash word.text ^^^ ~~~ UInt32.ofInt key
  let bucket := hash.toNat % vcSize
  let hit := (table bucket).find? fun e =>
    hash == e.hash && key == e.oidKey && strcaseEq word.text e.verbname
  match hit with
  | some e => some (e.h, some table)
  | none =>
      let h := walkUp os word
      let e : VcEntry := ⟨hash, key, word.text, h⟩
      some (h, some (Function.update table bucket (e :: table bucket)))

/-! ## The interface of the database -/

/-- The database and the table of verbs. -/
structure VerbDb where
  db : State
  vc : VcTable

/-- Change a verb. -/
def modifyVerb (h : VerbHandle) (f : Verbdef → Verbdef) (s : State) : State :=
  modify h.definer (fun o => { o with verbdefs := o.verbdefs.modify h.index f }) s

/-- `v->perms &= ~PERMMASK; v->perms |= flags`. -/
def setFlags (flags perms : Nat) : Nat := (perms >>> 4) <<< 4 ||| flags

/-- The permissions with other specifiers of arguments. -/
def setArgs (dobj iobj perms : Nat) : Nat := perms &&& 15 ||| dobj <<< 4 ||| iobj <<< 6

/-- The functions of the database that built-in functions are made of, the parser and the
    interpreter call verbs with, and what they promise: that objects are valid and changes of
    the hierarchies make no circles.  A call of a function that breaks its promise is no
    step. -/
inductive VerbOp where
  /-- `db_find_callable_verb` -/
  | findCallableVerb (oid : Objid) (word : Word)
  | addVerb (oid : Objid) (v : Verbdef)
  | deleteVerb (h : VerbHandle)
  | setVerbNames (h : VerbHandle) (name : Str) (addr : Nat)
  | setVerbOwner (h : VerbHandle) (owner : Objid)
  | setVerbFlags (h : VerbHandle) (flags : Nat)
  | setVerbArgSpecs (h : VerbHandle) (dobj : Nat) (prep : Int) (iobj : Nat)
  /-- `db_create_object`, and the owner that its caller sets -/
  | createObject (owner : Objid)
  | changeParent (oid parent : Objid)
  | changeLocation (oid location : Objid)
  | destroyObject (oid : Objid)
  | renumberObject (old : Objid)
  | resetLastUsedObjid
  | decrQuota (player : Objid)
  | incrQuota (player : Objid)
  | property (op : Op) (h : op.onProperty = true)

/-- A verb that is there. -/
def hasVerb (s : State) (h : VerbHandle) : Bool :=
  (findObject s h.definer).any fun o => decide (h.index < o.verbdefs.length)

/-- Nothing, or a valid object. -/
def validOrNothing (s : State) (oid : Objid) : Bool := oid == nothing || valid s oid

/-- `db_change_parent`, with what it does to the table. -/
def changeParentVc (oid parent : Objid) (w : VerbDb) : Option VerbDb := do
  if ← checkPropertiesForChparent w.db oid parent then
    let o ← findObject w.db oid
    let vc := if o.child = nothing ∧ o.verbdefs = [] then w.vc else affectedCallableVerbLookup w.vc
    let (_, db) ← changeParent w.db oid parent
    some ⟨db, vc⟩
  else some w

/-- What a function does. -/
def verbStep (op : VerbOp) (w : VerbDb) : Option VerbDb :=
  let cleared := affectedCallableVerbLookup w.vc
  match op with
  | .findCallableVerb oid word => do
      let (_, vc) ← findCallableVerb w.db oid word w.vc
      some { w with vc := vc }
  | .addVerb oid v =>
      if valid w.db oid then
        some ⟨modify oid (fun o => { o with verbdefs := o.verbdefs ++ [v] }) w.db, cleared⟩
      else none
  | .deleteVerb h =>
      if hasVerb w.db h then
        some ⟨modify h.definer (fun o => { o with verbdefs := o.verbdefs.eraseIdx h.index }) w.db,
          cleared⟩
      else none
  | .setVerbNames h name addr =>
      if hasVerb w.db h then
        some ⟨modifyVerb h (fun v => { v with name := name, addr := addr }) w.db, cleared⟩
      else none
  | .setVerbOwner h owner =>
      if hasVerb w.db h then some { w with db := modifyVerb h (fun v => { v with owner := owner }) w.db }
      else none
  | .setVerbFlags h flags =>
      if hasVerb w.db h then
        some ⟨modifyVerb h (fun v => { v with perms := setFlags flags v.perms }) w.db, cleared⟩
      else none
  | .setVerbArgSpecs h dobj prep iobj =>
      if hasVerb w.db h then
        some ⟨modifyVerb h (fun v => { v with perms := setArgs dobj iobj v.perms, prep := prep }) w.db,
          cleared⟩
      else none
  | .createObject owner =>
      let (oid, db) := createObject w.db
      some { w with
        db := modify oid (fun o => { o with owner := if owner = nothing then oid else owner }) db }
  | .changeParent oid parent =>
      if validOrNothing w.db parent && (parents w.db parent).any fun os => decide (oid ∉ os) then
        changeParentVc oid parent w
      else none
  | .changeLocation oid location =>
      if validOrNothing w.db location && (locations w.db location).any fun os => decide (oid ∉ os) then do
        let db ← changeLocation w.db oid location
        some { w with db := db }
      else none
  | .destroyObject oid => do
      let db ← destroyObject w.db oid
      some ⟨db, cleared⟩
  | .renumberObject old =>
      if valid w.db old then do
        let (_, db) ← renumberObject w.db old
        some ⟨db, cleared⟩
      else none
  | .resetLastUsedObjid => do
      let db ← resetLastUsedObjid w.db
      some { w with db := db }
  | .decrQuota player => do
      let (_, db) ← decrQuota w.db player
      some { w with db := db }
  | .incrQuota player => do
      let db ← incrQuota w.db player
      some { w with db := db }
  | .property op _ => do
      let (_, db) ← request op w.db
      some { w with db := db }

end Waverous.Db
