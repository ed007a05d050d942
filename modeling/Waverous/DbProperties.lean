import Waverous.Db

/-! # Properties — `db_properties.c`, and `db_change_parent`

    The slots of an object are found by counting: its own definitions come first,
    then those of its parent, and so on up.  Adding and deleting a definition and
    changing a parent edit the slots of a whole subtree; the three recursions
    differ in what they do to one object and in the position they hand down. -/

namespace Waverous.Db

open LinkedForest

/-- `PF_READ`, `PF_WRITE` and `PF_CHOWN`. -/
def pfRead : Nat := 1

def pfWrite : Nat := 2

def pfChown : Nat := 4

/-- `dbpriv_new_propdef`. -/
def newPropdef (name : Str) (prop : PropId) : Propdef := ⟨name, strHash name, prop⟩

/-- The definition is one of `pname`. -/
def Propdef.named (p : Propdef) (hash : UInt32) (pname : Str) : Bool :=
  p.hash == hash && strcaseEq p.name pname

variable (s : State)

/-- `property_defined_at_or_below`. -/
def propertyDefinedAtOrBelow (pname : Str) (phash : UInt32) : Nat → Objid → Option Bool
  | 0, _ => none
  | fuel + 1, oid => do
      let o ← findObject s oid
      if o.propdefs.l.any fun p => p.named phash pname then some true
      else
        let cs ← children s oid
        cs.anyM (propertyDefinedAtOrBelow pname phash fuel)

/-! ## Editing the slots of a subtree -/

/-- Do something to an object and then to all below it, handing a value down. -/
def descend {β : Type} (visit : β → Objid → State → Option State)
    (next : β → Object → Object → β) : Nat → β → Objid → State → Option State
  | 0, _, _, _ => none
  | fuel + 1, b, root, s => do
      let s ← visit b root s
      let cs ← children s root
      cs.foldlM (fun s c => do
        let me ← findObject s root
        let o ← findObject s c
        descend visit next fuel (next b me o) c s) s

/-- A slot for an object that `owner` owns. -/
def Pval.chown (p : Pval) (owner : Objid) : Pval :=
  if p.perms &&& pfChown ≠ 0 then { p with owner := owner } else p

/-- `insert_prop`. -/
def insertProp (pos : Nat) (pval : Pval) (oid : Objid) (s : State) : Option State := do
  let nprops ← countProperties s oid
  let o ← findObject s oid
  if nprops ≤ pos ∨ o.propval.length + 1 < nprops then none
  else
    let newPropval := o.propval.take pos ++ pval.chown o.owner ::
      (o.propval.drop pos).take (nprops - 1 - pos)
    some (modify oid (fun o => { o with propval := newPropval }) s)

/-- `insert_prop_recursively`: only the root gets the value. -/
def insertPropRecursively (root : Objid) (rootPos : Nat) (pv : Pval) (s : State) : Option State :=
  descend (fun b => insertProp b.1 b.2)
    (fun b _ c => (c.curLength + b.1, { b.2 with var := .clear })) (s.numObjects + 1)
    (rootPos, pv) root s

/-- `remove_prop`. -/
def removeProp (pos : Nat) (oid : Objid) (s : State) : Option State := do
  let o ← findObject s oid
  let nprops ← countProperties s oid
  if o.propval.length ≤ pos then none
  else if nprops = 0 then some (modify oid (fun o => { o with propval := [] }) s)
  else if nprops < pos ∨ o.propval.length < nprops + 1 then none
  else
    let newPropval := o.propval.take pos ++ (o.propval.drop (pos + 1)).take (nprops - pos)
    some (modify oid (fun o => { o with propval := newPropval }) s)

/-- `remove_prop_recursively`. -/
def removePropRecursively (root : Objid) (rootPos : Nat) (s : State) : Option State :=
  descend removeProp (fun pos _ c => c.curLength + pos) (s.numObjects + 1) rootPos root s

/-- The slot that an object gets for an inherited property. -/
def Pval.inherit (p : Pval) (owner : Objid) : Pval := { p with var := .clear }.chown owner

/-- What `fix_props` does to one object: behind the slots for the definitions up to
    the object whose parent was changed, `old` slots go, `new` ones come, which are
    copied from the parent, and `common` ones stay. -/
def fixPropsOne (old new common parentLocal : Nat) (oid : Objid) (s : State) : Option State := do
  let me ← findObject s oid
  let «local» := parentLocal + me.curLength
  if me.propval.length < «local» + old + common then none
  else
    let copied ←
      (if new = 0 then some []
      else do
        let parent ← findObject s me.parent
        if parent.propval.length < parentLocal + new then none
        else some ((parent.propval.drop parentLocal).take new))
    let newPropval := me.propval.take «local» ++ copied.map (fun p => p.inherit me.owner) ++
      (me.propval.drop («local» + old)).take common
    some (modify oid (fun o => { o with propval := newPropval }) s)

/-- `fix_props`. -/
def fixProps (oid : Objid) (parentLocal old new common : Nat) (s : State) : Option State :=
  descend (fixPropsOne old new common) (fun parentLocal me _ => parentLocal + me.curLength)
    (s.numObjects + 1) parentLocal oid s

/-! ## Finding a property -/

/-- `enum bi_prop`, without `BP_NONE`. -/
inductive BiProp where
  | name | owner | programmer | wizard | r | w | f | location | contents
  deriving DecidableEq, Repr

/-- `ptable`. -/
def ptable : List (Str × BiProp) :=
  [("name", .name), ("owner", .owner), ("programmer", .programmer), ("wizard", .wizard),
    ("r", .r), ("w", .w), ("f", .f), ("location", .location), ("contents", .contents)].map
    fun e => (Str.ofString e.1, e.2)

/-- The built-in property of a name. -/
def builtinNamed (name : Str) : Option BiProp :=
  (ptable.find? fun e => strHash e.1 == strHash name && strcaseEq name e.1).map Prod.snd

/-- `db_prop_handle`, when `ptr` is not 0. -/
inductive Handle where
  | builtIn (prop : BiProp) (oid : Objid)
  /-- slot `n` of `oid`, of a property that `definer` defines -/
  | slot (definer oid : Objid) (n : Nat)
  deriving DecidableEq, Repr

/-- Search the definitions of an object and its ancestors; `n` have been passed. -/
def searchDefs (hash : UInt32) (name : Str) : List Object → Nat → Option (Objid × Nat)
  | [], _ => none
  | o :: os, n =>
      match o.propdefs.l.findIdx? fun p => p.named hash name with
      | some p => some (o.id, n + p)
      | none => searchDefs hash name os (n + o.curLength)

/-- `db_find_property` without the value. -/
def findProperty (oid : Objid) (name : Str) : Option (Option Handle) :=
  match builtinNamed name with
  | some prop => some (some (.builtIn prop oid))
  | none => do
      let os ← ancestors s oid
      match searchDefs (strHash name) name os 0 with
      | none => some none
      | some (definer, n) => do
          let o ← findObject s oid
          if n < o.propval.length then some (some (.slot definer oid n)) else none

/-- `get_bi_value`. -/
def getBiValue (prop : BiProp) (oid : Objid) : Option Var := do
  let o ← findObject s oid
  let flag := fun f => Var.int (if hasFlag o f then 1 else 0)
  match prop with
  | .name => some (.str o.name)
  | .owner => some (.obj o.owner)
  | .programmer => some (flag .programmer)
  | .wizard => some (flag .wizard)
  | .r => some (flag .read)
  | .w => some (flag .write)
  | .f => some (flag .fertile)
  | .location => some (.obj o.location)
  | .contents => do
      let cs ← contentsOf s oid
      some (.list (cs.map Var.obj))

/-- The loop of `db_find_property` that looks for a value that is not clear. -/
def skipClear : Nat → Objid → Nat → Option Var
  | 0, _, _ => none
  | fuel + 1, oid, n => do
      let o ← findObject s oid
      let prop ← o.propval[n]?
      if prop.var = .clear then
        if n < o.curLength then none else skipClear fuel o.parent (n - o.curLength)
      else some prop.var

/-- `db_find_property` with the value. -/
def findPropertyValue (oid : Objid) (name : Str) : Option (Option (Handle × Var)) := do
  match ← findProperty s oid name with
  | none => some none
  | some (.builtIn prop oid) => do
      let v ← getBiValue s prop oid
      some (some (.builtIn prop oid, v))
  | some (.slot definer oid n) => do
      let v ← skipClear s s.numObjects oid n
      some (some (.slot definer oid n, v))

/-- The slot of a handle; asking for that of a built-in property is a panic. -/
def slotOf : Handle → Option Pval
  | .builtIn _ _ => none
  | .slot _ oid n => do
      let o ← findObject s oid
      o.propval[n]?

/-- `db_property_allows`. -/
def propertyAllows (h : Handle) (progr : Objid) (flag : Nat) : Option Bool := do
  let p ← slotOf s h
  some (p.perms &&& flag != 0 || progr == p.owner || isWizard s progr)

/-- Change one slot. -/
def modifySlot (oid : Objid) (n : Nat) (f : Pval → Pval) (s : State) : State :=
  modify oid (fun o => { o with propval := o.propval.modify n f }) s

/-- `db_set_property_value`. -/
def setPropertyValue (h : Handle) (value : Var) (s : State) : Option State :=
  let setFlag := fun oid f =>
    some (if isTrue value then setObjectFlag oid f s else clearObjectFlag oid f s)
  match h with
  | .slot _ oid n => some (modifySlot oid n (fun p => { p with var := value }) s)
  | .builtIn .name oid =>
      match value with
      | .str t => some (modify oid (fun o => { o with name := t }) s)
      | _ => none
  | .builtIn .owner oid =>
      match value with
      | .obj owner => some (modify oid (fun o => { o with owner := owner }) s)
      | _ => none
  | .builtIn .programmer oid => setFlag oid .programmer
  | .builtIn .wizard oid => setFlag oid .wizard
  | .builtIn .r oid => setFlag oid .read
  | .builtIn .w oid => setFlag oid .write
  | .builtIn .f oid => setFlag oid .fertile
  | .builtIn .location _ => none
  | .builtIn .contents _ => none

/-- `db_set_property_owner` and `db_set_property_flags`. -/
def setPropertyInfo (h : Handle) (owner : Objid) (flags : Nat) (s : State) : Option State :=
  match h with
  | .slot _ oid n => some (modifySlot oid n (fun p => { p with owner := owner, perms := flags }) s)
  | .builtIn _ _ => none

/-! ## Adding, renaming and deleting a definition -/

/-- The table of definitions grows when it is full. -/
def Proplist.append (props : Proplist) (p : Propdef) : Proplist where
  maxLength :=
    if props.l.length = props.maxLength then
      (if props.maxLength = 0 then 8 else 2 * props.maxLength)
    else props.maxLength
  l := props.l ++ [p]

/-- And it shrinks when it has become rather empty. -/
def Proplist.erase (props : Proplist) (i : Nat) : Proplist where
  maxLength :=
    if 8 < props.maxLength ∧ props.l.length ≤ props.maxLength * 3 / 8 then props.maxLength / 2
    else props.maxLength
  l := props.l.eraseIdx i

/-- A property of the name can be seen at the object or below it. -/
def nameTaken (oid : Objid) (pname : Str) : Option Bool := do
  match ← findProperty s oid pname with
  | some _ => some true
  | none => propertyDefinedAtOrBelow s pname (strHash pname) (s.numObjects + 1) oid

/-- `db_add_propdef`. -/
def addPropdef (oid : Objid) (pname : Str) (value : Var) (owner : Objid) (flags : Nat) :
    Option (Bool × State) := do
  if ← nameTaken s oid pname then some (false, s)
  else
    let o ← findObject s oid
    let prop := s.nextProp
    let s := modify oid
      (fun o => { o with propdefs := o.propdefs.append (newPropdef pname prop) }) s
    let s := { s with nextProp := prop + 1 }
    let s ← insertPropRecursively oid o.curLength ⟨value, owner, flags, prop⟩ s
    some (true, s)

/-- `db_rename_propdef`. -/
def renamePropdef (oid : Objid) (old new : Str) : Option (Bool × State) := do
  let o ← findObject s oid
  match o.propdefs.l.findIdx? fun p => p.named (strHash old) old with
  | none => some (false, s)
  | some i =>
      -- a change of just the case is always possible
      let taken ← (if strcaseEq old new then some false else nameTaken s oid new)
      if taken then some (false, s)
      else
        let rename := fun p : Propdef => { p with name := new, hash := strHash new }
        some (true, modify oid (fun o =>
          { o with propdefs := { o.propdefs with l := o.propdefs.l.modify i rename } }) s)

/-- `db_delete_propdef`. -/
def deletePropdef (oid : Objid) (pname : Str) : Option (Bool × State) := do
  let o ← findObject s oid
  match o.propdefs.l.findIdx? fun p => p.named (strHash pname) pname with
  | none => some (false, s)
  | some i => do
      let s := modify oid (fun o => { o with propdefs := o.propdefs.erase i }) s
      let s ← removePropRecursively oid i s
      some (true, s)

/-! ## Changing the parent -/

/-- `dbpriv_check_properties_for_chparent`. -/
def checkPropertiesForChparent (oid newParent : Objid) : Option Bool := do
  let os ← ancestors s newParent
  let taken ← os.anyM fun o => o.propdefs.l.anyM fun p =>
    propertyDefinedAtOrBelow s p.name p.hash (s.numObjects + 1) oid
  some (!taken)

/-- `dbpriv_fix_properties_after_chparent`. -/
def fixPropertiesAfterChparent (oid oldParent : Objid) : Option State := do
  let o ← findObject s oid
  let newParents ← parents s o.parent
  let oldParents ← parents s oldParent
  let commonProps ←
    (match newParents.find? fun o1 => decide (o1 ∈ oldParents) with
    | some common => countProperties s common
    | none => some 0)
  let oldProps ← countProperties s oldParent
  let newProps ← countProperties s o.parent
  if oldProps < commonProps ∨ newProps < commonProps then none
  else fixProps oid 0 (oldProps - commonProps) (newProps - commonProps) commonProps s

/-- `db_change_parent`. -/
def changeParent (oid parent : Objid) : Option (Bool × State) := do
  if ← checkPropertiesForChparent s oid parent then
    let o ← findObject s oid
    let s ← descent.relink nothing s.numObjects oid o.parent parent
      (decide (o.parent ≠ nothing)) (decide (parent ≠ nothing)) s
    let s ← fixPropertiesAfterChparent s oid o.parent
    some (true, s)
  else some (false, s)

end Waverous.Db
