import Waverous.DbLayout
import Waverous.DbOps

/-! # Well-formed databases

    Object numbers are the places in the table, both hierarchies are forests,
    slots are laid out, no property can be seen under two definitions, and every
    definition has an identity of its own.  In such a database looking for a
    property comes to an end and finds the slot of the definition. -/

namespace Waverous.Db

open LinkedForest

variable {s s' : State} {oid x y : Objid} {o : Object}

/-- No name is defined twice along a way up, nor is that of a built-in property. -/
structure Names (s : State) : Prop where
  hash : ∀ {x o}, findObject s x = some o → ∀ d ∈ o.propdefs.l, d.hash = strHash d.name
  own : ∀ {x o}, findObject s x = some o →
    o.propdefs.l.Pairwise fun d e => strcaseEq d.name e.name = false
  path : ∀ {x y ox oy}, Below (descent.get s) y x → x ≠ y → findObject s x = some ox →
    findObject s y = some oy →
    ∀ d ∈ ox.propdefs.l, ∀ e ∈ oy.propdefs.l, strcaseEq d.name e.name = false
  builtin : ∀ {x o}, findObject s x = some o → ∀ d ∈ o.propdefs.l, builtinNamed d.name = none

/-- Every definition has its own identity. -/
structure Idents (s : State) : Prop where
  fresh : ∀ {x o}, findObject s x = some o → ∀ d ∈ o.propdefs.l, d.prop < s.nextProp
  nodup : ∀ {x o}, findObject s x = some o → (propIds o).Nodup
  disjoint : ∀ {x y ox oy}, x ≠ y → findObject s x = some ox → findObject s y = some oy →
    ∀ d ∈ ox.propdefs.l, ∀ e ∈ oy.propdefs.l, d.prop ≠ e.prop

/-- A well-formed database. -/
structure WellFormed (s : State) : Prop where
  ids : ∀ {x o}, findObject s x = some o → o.id = x
  descent : ∃ L, Forest nothing (descent.get s) L
  place : ∃ L, Forest nothing (place.get s) L
  slots : Slots s
  names : Names s
  idents : Idents s
  capacity : ∀ {x o}, findObject s x = some o → o.curLength ≤ o.propdefs.maxLength

/-! ## Comparing names -/

/-- Names that differ in case only have one hash value. -/
theorem strHash_congr {a b : Str} (h : strcaseEq a b = true) : strHash a = strHash b := by
  have hmap : ∀ c : Str, strHash c
      = (c.map cmap).foldl (fun (ans : UInt32) (c : UInt8) =>
          (ans <<< 3) + (ans >>> 28) + c.toUInt32) 0 := fun c => by
    rw [strHash, List.foldl_map]
  rw [hmap, hmap, strcaseEq_iff.mp h]

theorem builtinNamed_congr {a b : Str} (h : strcaseEq a b = true) :
    builtinNamed a = builtinNamed b := by
  have hp : (fun e : Str × BiProp => strHash e.1 == strHash a && strcaseEq a e.1)
      = fun e => strHash e.1 == strHash b && strcaseEq b e.1 := by
    funext e
    rw [strHash_congr h, strcaseEq_congr h]
  rw [builtinNamed, builtinNamed, hp]

/-- A definition with the right hash value is found under its name. -/
theorem named_iff {d : Propdef} (hd : d.hash = strHash d.name) (name : Str) :
    d.named (strHash name) name = strcaseEq d.name name := by
  rw [Propdef.named, hd]
  cases h : strcaseEq d.name name with
  | false => exact Bool.and_false _
  | true => rw [strHash_congr h, beq_self_eq_true, Bool.true_and]

/-! ## Databases that differ in data alone -/

/-- What well-formedness looks at in an object, the clear slots apart. -/
def shape (o : Object) : Objid × Links Objid × Links Objid × Proplist × List PropId :=
  (o.id, o.descent, o.place, o.propdefs, labels o)

/-- The two databases differ in data that is not part of their structure. -/
structure Alike (s s' : State) : Prop where
  find : ∀ x, (findObject s' x).map shape = (findObject s x).map shape
  nextProp : s'.nextProp = s.nextProp

theorem Alike.refl (s : State) : Alike s s := ⟨fun _ => rfl, rfl⟩

theorem Alike.trans {s'' : State} (h : Alike s s') (h' : Alike s' s'') : Alike s s'' :=
  ⟨fun x => (h'.find x).trans (h.find x), h'.nextProp.trans h.nextProp⟩

theorem Alike.object {o' : Object} (h : Alike s s') (ho : findObject s' x = some o') :
    ∃ o, findObject s x = some o ∧ o'.id = o.id ∧ o'.descent = o.descent ∧ o'.place = o.place ∧
      o'.propdefs = o.propdefs ∧ labels o' = labels o := by
  have := h.find x
  rw [ho, Option.map_some] at this
  obtain ⟨o, ho', heq⟩ := Option.map_eq_some_iff.mp this.symm
  simp only [shape, Prod.mk.injEq] at heq
  exact ⟨o, ho', heq.1.symm, heq.2.1.symm, heq.2.2.1.symm, heq.2.2.2.1.symm, heq.2.2.2.2.symm⟩

theorem Alike.map {β : Type} (h : Alike s s') (f : Object → β)
    (hf : ∀ o o', shape o = shape o' → f o = f o') (x : Objid) :
    (findObject s' x).map f = (findObject s x).map f := by
  have := h.find x
  cases ho : findObject s x with
  | none =>
      rw [ho, Option.map_none, Option.map_eq_none_iff] at this
      rw [this]
  | some o =>
      rw [ho, Option.map_some] at this
      obtain ⟨o', ho', heq⟩ := Option.map_eq_some_iff.mp this
      rw [ho', Option.map_some, Option.map_some, hf o' o heq]

theorem Alike.descent (h : Alike s s') : descent.get s' = descent.get s :=
  funext fun x => h.map Object.descent (fun _ _ heq => congrArg (·.2.1) heq) x

theorem Alike.place (h : Alike s s') : place.get s' = place.get s :=
  funext fun x => h.map Object.place (fun _ _ heq => congrArg (·.2.2.1) heq) x

theorem Alike.labelsAt (h : Alike s s') (x : Objid) : labelsAt s' x = labelsAt s x :=
  congrArg (Option.getD · []) (h.map labels (fun _ _ heq => congrArg (·.2.2.2.2) heq) x)

/-- Names stay unique when definitions stay where they are, and an object that comes below
    another one has none of its names. -/
theorem Names.moved (hn : Names s)
    (hobj : ∀ {x o'}, findObject s' x = some o' →
      ∃ o, findObject s x = some o ∧ o'.propdefs.l = o.propdefs.l)
    (hbelow : ∀ {x y ox oy}, Below (Db.descent.get s') y x → findObject s x = some ox →
      findObject s y = some oy → Below (Db.descent.get s) y x ∨
        ∀ d ∈ ox.propdefs.l, ∀ e ∈ oy.propdefs.l, strcaseEq d.name e.name = false) : Names s' where
  hash ho := by
    obtain ⟨o, hs, hdefs⟩ := hobj ho
    rw [hdefs]
    exact hn.hash hs
  own ho := by
    obtain ⟨o, hs, hdefs⟩ := hobj ho
    rw [hdefs]
    exact hn.own hs
  path hb hne hx hy := by
    obtain ⟨ox, hsx, hdefsx⟩ := hobj hx
    obtain ⟨oy, hsy, hdefsy⟩ := hobj hy
    rw [hdefsx, hdefsy]
    rcases hbelow hb hsx hsy with hb | hapart
    · exact hn.path hb hne hsx hsy
    · exact hapart
  builtin ho := by
    obtain ⟨o, hs, hdefs⟩ := hobj ho
    rw [hdefs]
    exact hn.builtin hs

/-- So they do when no object comes below another one. -/
theorem Names.transfer (hn : Names s)
    (hobj : ∀ {x o'}, findObject s' x = some o' →
      ∃ o, findObject s x = some o ∧ o'.propdefs.l = o.propdefs.l)
    (hbelow : ∀ {x y}, Below (Db.descent.get s') y x → Below (Db.descent.get s) y x) : Names s' :=
  hn.moved hobj fun hb _ _ => .inl (hbelow hb)

/-- So do identities. -/
theorem Idents.transfer (hi : Idents s)
    (hobj : ∀ {x o'}, findObject s' x = some o' →
      ∃ o, findObject s x = some o ∧ o'.propdefs.l = o.propdefs.l)
    (hnext : s'.nextProp = s.nextProp) : Idents s' where
  fresh ho := by
    obtain ⟨o, hs, hdefs⟩ := hobj ho
    rw [hdefs, hnext]
    exact hi.fresh hs
  nodup ho := by
    obtain ⟨o, hs, hdefs⟩ := hobj ho
    rw [propIds, hdefs]
    exact hi.nodup hs
  disjoint hne hx hy := by
    obtain ⟨ox, hsx, hdefsx⟩ := hobj hx
    obtain ⟨oy, hsy, hdefsy⟩ := hobj hy
    rw [hdefsx, hdefsy]
    exact hi.disjoint hne hsx hsy

theorem Alike.defs {o' : Object} (h : Alike s s') (ho : findObject s' x = some o') :
    ∃ o, findObject s x = some o ∧ o'.propdefs.l = o.propdefs.l := by
  obtain ⟨o, hs, -, -, -, hdefs, -⟩ := h.object ho
  exact ⟨o, hs, congrArg Proplist.l hdefs⟩

/-- Only the values of own slots can do harm. -/
theorem WellFormed.alike (hw : WellFormed s) (h : Alike s s')
    (hdef : ∀ {x o}, findObject s' x = some o → ∀ p ∈ o.propval.take o.curLength, p.var ≠ .clear) :
    WellFormed s' where
  ids ho := by
    obtain ⟨o, hs, hid, -⟩ := h.object ho
    rw [hid]
    exact hw.ids hs
  descent := by
    rw [h.descent]
    exact hw.descent
  place := by
    rw [h.place]
    exact hw.place
  slots :=
    { layout := by
        intro x o' ho
        obtain ⟨o, hs, -, hde, -, hdefs, hlab⟩ := h.object ho
        have hp : o'.parent = o.parent := congrArg Links.up hde
        rw [hlab, propIds, hdefs, hp, h.labelsAt]
        exact hw.slots.layout hs
      defined := hdef }
  names := hw.names.transfer h.defs fun hb => by rwa [h.descent] at hb
  idents := hw.idents.transfer h.defs h.nextProp
  capacity ho := by
    obtain ⟨o, hs, -, -, -, hdefs, -⟩ := h.object ho
    rw [Object.curLength, hdefs]
    exact hw.capacity hs

/-- Changing the data of one object. -/
theorem alike_modify {f : Object → Object} (hf : ∀ o, findObject s oid = some o → shape (f o) = shape o) :
    Alike s (modify oid f s) where
  find x := by
    rw [findObject_modify]
    split
    next hx =>
      subst hx
      cases ho : findObject s x with
      | none => rfl
      | some o => rw [Option.map_some, Option.map_some, Option.map_some, hf o ho]
    next => rfl
  nextProp := nextProp_modify _ _ _

theorem WellFormed.modify (hw : WellFormed s) {f : Object → Object}
    (hf : ∀ o, findObject s oid = some o → shape (f o) = shape o ∧
      ∀ p ∈ (f o).propval.take o.curLength, p.var ≠ .clear) : WellFormed (modify oid f s) := by
  refine hw.alike (alike_modify fun o ho => (hf o ho).1) fun {x o} ho => ?_
  rw [findObject_modify] at ho
  split at ho
  next hx =>
    subst hx
    obtain ⟨o', ho', rfl⟩ := Option.map_eq_some_iff.mp ho
    obtain ⟨hshape, hdef⟩ := hf o' ho'
    have hdefs : (f o').propdefs = o'.propdefs := congrArg (·.2.2.2.1) hshape
    show ∀ p ∈ (f o').propval.take (f o').propdefs.l.length, p.var ≠ .clear
    rw [hdefs]
    exact hdef
  next => exact hw.slots.defined ho

/-- The list of users is not part of the structure. -/
theorem alike_users (us : List Objid) : Alike s { s with allUsers := us } := ⟨fun _ => rfl, rfl⟩

theorem WellFormed.users (hw : WellFormed s) (us : List Objid) :
    WellFormed { s with allUsers := us } :=
  hw.alike (alike_users us) fun ho => hw.slots.defined ho

end Waverous.Db
