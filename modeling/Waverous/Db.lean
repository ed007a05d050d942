import Waverous.Lib.LinkStore
import Waverous.Utils

/-! # The database — `db_private.h`, `db_objects.c`

    The table of objects with its two hierarchies, and the functions on objects
    that do not look at properties.  A function is `none` where the code would
    follow a dangling object number, index outside an array, panic or not come to
    the end of a loop; `fuel` bounds the number of rounds of one loop.

    A property definition and the slots made for it carry the number `prop` that
    the definition got when it was added.  The code has no such number, it goes by
    positions alone; nothing here looks at it, and arrays move it with the slot. -/

namespace Waverous.Db

open LinkedForest

/-- The identity of a property definition. -/
abbrev PropId := Nat

/-- `Verbdef`; programs are not looked at here.  `addr` is the address of the string `name`:
    `verbcasecmp` compares addresses first. -/
structure Verbdef where
  name : Str
  addr : Nat
  owner : Objid
  perms : Nat
  prep : Int
  deriving DecidableEq, Repr

/-- `Propdef`. -/
structure Propdef where
  name : Str
  hash : UInt32
  prop : PropId
  deriving DecidableEq, Repr

/-- `Proplist`; `cur_length` is the length of `l`. -/
structure Proplist where
  maxLength : Nat
  l : List Propdef
  deriving DecidableEq, Repr

/-- `Pval`. -/
structure Pval where
  var : Var
  owner : Objid
  perms : Nat
  prop : PropId
  deriving DecidableEq

/-- `Object`. -/
structure Object where
  id : Objid
  owner : Objid
  name : Str
  flags : Nat
  /-- `location`, `contents` and `next` -/
  place : Links Objid
  /-- `parent`, `child` and `sibling` -/
  descent : Links Objid
  verbdefs : List Verbdef
  propdefs : Proplist
  propval : List Pval
  deriving DecidableEq

namespace Object

abbrev location (o : Object) : Objid := o.place.up

abbrev contents (o : Object) : Objid := o.place.first

abbrev next (o : Object) : Objid := o.place.next

abbrev parent (o : Object) : Objid := o.descent.up

abbrev child (o : Object) : Objid := o.descent.first

abbrev sibling (o : Object) : Objid := o.descent.next

/-- `propdefs.cur_length`. -/
abbrev curLength (o : Object) : Nat := o.propdefs.l.length

end Object

/-- The database. -/
structure State where
  objects : List (Option Object)
  allUsers : List Objid
  /-- the number of the next property definition -/
  nextProp : PropId
  deriving DecidableEq

variable (s : State)

/-- `dbpriv_find_object`. -/
def findObject (s : State) : Objid → Option Object
  | .ofNat n => s.objects[n]?.join
  | .negSucc _ => none

/-- `valid`. -/
def valid (oid : Objid) : Bool := (findObject s oid).isSome

/-- `num_objects`. -/
abbrev State.numObjects : Nat := s.objects.length

/-- Change one object. -/
def modify (oid : Objid) (f : Object → Object) (s : State) : State :=
  match oid with
  | .ofNat n => { s with objects := s.objects.modify n (Option.map f) }
  | .negSucc _ => s

theorem findObject_modify (oid : Objid) (f : Object → Object) (s : State) (x : Objid) :
    findObject (modify oid f s) x
      = if x = oid then (findObject s x).map f else findObject s x := by
  cases oid with
  | negSucc n =>
      split
      next hx =>
        subst hx
        rfl
      · rfl
  | ofNat n =>
      cases x with
      | negSucc m => rfl
      | ofNat m =>
          simp only [modify, findObject, List.getElem?_modify, Int.ofNat.injEq]
          by_cases hmn : n = m
          · subst hmn
            cases hs : s.objects[n]? with
            | none => simp
            | some o => cases o <;> simp
          · rw [if_neg (Ne.symm hmn)]
            cases hs : s.objects[m]? with
            | none => rfl
            | some o => simp [hmn]

/-- The hierarchy of parents and children. -/
def descent : Store State Objid where
  get s oid := (findObject s oid).map Object.descent
  modify oid f := modify oid fun o => { o with descent := f o.descent }
  get_modify oid f s x := by
    rw [findObject_modify]
    split
    · rw [Option.map_map, Option.map_map]
      rfl
    · rfl

/-- The hierarchy of locations and contents. -/
def place : Store State Objid where
  get s oid := (findObject s oid).map Object.place
  modify oid f := modify oid fun o => { o with place := f o.place }
  get_modify oid f s x := by
    rw [findObject_modify]
    split
    · rw [Option.map_map, Option.map_map]
      rfl
    · rfl

/-! ## Walks along the hierarchies -/

/-- `for (o = dbpriv_find_object(oid); o; o = dbpriv_find_object(o->parent))`. -/
def ancestorsFrom : Nat → Objid → Option (List Object)
  | 0, oid => match findObject s oid with
      | none => some []
      | some _ => none
  | fuel + 1, oid => match findObject s oid with
      | none => some []
      | some o => do
          let os ← ancestorsFrom fuel o.parent
          some (o :: os)

/-- An object and its ancestors, the object first. -/
def ancestors (oid : Objid) : Option (List Object) := ancestorsFrom s s.numObjects oid

/-- `for (o = oid; o != NOTHING; o = db_object_parent(o))`. -/
def parents (oid : Objid) : Option (List Objid) :=
  follow nothing (upOf (descent.get s)) s.numObjects oid

/-- The children of an object, as `child` and `sibling` link them. -/
def children (oid : Objid) : Option (List Objid) := do
  let o ← findObject s oid
  follow nothing (nextOf (descent.get s)) s.numObjects o.child

/-- The contents of an object, as `contents` and `next` link them. -/
def contentsOf (oid : Objid) : Option (List Objid) := do
  let o ← findObject s oid
  follow nothing (nextOf (place.get s)) s.numObjects o.contents

/-- `dbpriv_count_properties`. -/
def countProperties (oid : Objid) : Option Nat :=
  (ancestors s oid).map fun os => (os.map Object.curLength).sum

/-! ## Flags and rights -/

/-- `db_object_flag`. -/
inductive Flag where
  | user | programmer | wizard | obsolete1 | read | write | obsolete2 | fertile
  deriving DecidableEq, Repr

/-- The number of a flag. -/
def Flag.bit : Flag → Nat
  | .user => 0
  | .programmer => 1
  | .wizard => 2
  | .obsolete1 => 3
  | .read => 4
  | .write => 5
  | .obsolete2 => 6
  | .fertile => 7

/-- `db_object_has_flag`. -/
def hasFlag (o : Object) (f : Flag) : Bool := o.flags.testBit f.bit

/-- `db_set_object_flag`. -/
def setObjectFlag (oid : Objid) (f : Flag) (s : State) : State :=
  let s := modify oid (fun o => { o with flags := o.flags ||| 1 <<< f.bit }) s
  if f = .user ∧ oid ∉ s.allUsers then { s with allUsers := s.allUsers ++ [oid] } else s

/-- `db_clear_object_flag`. -/
def clearObjectFlag (oid : Objid) (f : Flag) (s : State) : State :=
  let s := modify oid
    (fun o => { o with flags := if hasFlag o f then o.flags ^^^ 1 <<< f.bit else o.flags }) s
  if f = .user then { s with allUsers := s.allUsers.erase oid } else s

/-- `is_wizard`. -/
def isWizard (oid : Objid) : Bool := (findObject s oid).any fun o => hasFlag o .wizard

/-- `is_user`. -/
def isUser (oid : Objid) : Bool := (findObject s oid).any fun o => hasFlag o .user

/-- `db_object_allows`. -/
def objectAllows (o : Object) (progr : Objid) (f : Flag) : Bool :=
  progr == o.owner || isWizard s progr || hasFlag o f

/-- `controls`. -/
def controls (progr : Objid) (o : Object) : Bool := isWizard s progr || progr == o.owner

/-! ## Objects -/

/-- `db_create_object`; the owner is set by its caller. -/
def createObject : Objid × State :=
  let oid : Objid := s.numObjects
  let o : Object :=
    { id := oid, owner := nothing, name := [], flags := 0
      place := ⟨nothing, nothing, nothing⟩
      descent := ⟨nothing, nothing, nothing⟩
      verbdefs := [], propdefs := ⟨0, []⟩, propval := [] }
  (oid, { s with objects := s.objects ++ [some o] })

/-- `objects[oid] = 0`. -/
def clearObject (oid : Objid) (s : State) : State :=
  match oid with
  | .ofNat n => { s with objects := s.objects.set n none }
  | .negSucc _ => s

/-- `objects[oid] = o`. -/
def putObject (oid : Objid) (o : Object) (s : State) : State :=
  match oid with
  | .ofNat n => { s with objects := s.objects.set n (some o) }
  | .negSucc _ => s

/-- `db_destroy_object`. -/
def destroyObject (oid : Objid) : Option State := do
  let o ← findObject s oid
  if o.location ≠ nothing ∨ o.contents ≠ nothing ∨ o.parent ≠ nothing ∨ o.child ≠ nothing then none
  -- the values of the properties it defines are freed
  else if o.propval.length < o.curLength then none
  else
    let s := if isUser s oid then { s with allUsers := s.allUsers.erase oid } else s
    some (clearObject oid s)

/-- `db_change_location`. -/
def changeLocation (oid location : Objid) : Option State := do
  let o ← findObject s oid
  place.relink nothing s.numObjects oid o.location location (valid s o.location)
    (valid s location) s

/-- How `db_renumber_object` changes an owner. -/
def fixOwner (old new owner : Objid) : Objid :=
  if owner = new then nothing else if owner = old then new else owner

/-- The owners in one object; its properties are the first `count` slots. -/
def fixOwners (old new : Objid) (count : Nat) (o : Object) : Object :=
  { o with
    owner := fixOwner old new o.owner
    verbdefs := o.verbdefs.map fun v => { v with owner := fixOwner old new v.owner }
    propval := (o.propval.take count).map (fun p => { p with owner := fixOwner old new p.owner })
      ++ o.propval.drop count }

/-- The owners in the objects from `n` on. -/
def fixAllOwners (old new : Objid) : Nat → Nat → State → Option State
  | 0, _, s => some s
  | k + 1, n, s =>
      match findObject s n with
      | none => fixAllOwners old new k (n + 1) s
      | some o => do
          let count ← countProperties s n
          if o.propval.length < count then none
          else fixAllOwners old new k (n + 1) (modify n (fixOwners old new count) s)

/-- The first element `old` of the list of users becomes `new`. -/
def renumberUser (old new : Objid) : List Objid → List Objid
  | [] => []
  | u :: us => if u = old then new :: us else u :: renumberUser old new us

/-- `db_renumber_object`. -/
def renumberObject (old : Objid) : Option (Objid × State) := do
  match (s.objects.take old.toNat).findIdx? Option.isNone with
  | none => some (old, s)
  | some n =>
      let new : Objid := n
      let o ← findObject s old
      let s := clearObject old (putObject new { o with id := new } s)
      let s ← descent.renameLinks nothing s.numObjects old new s
      let s ← place.renameLinks nothing s.numObjects old new s
      let s := if isUser s new then { s with allUsers := renumberUser old new s.allUsers } else s
      let s ← fixAllOwners old new s.numObjects 0 s
      some (new, s)

end Waverous.Db
