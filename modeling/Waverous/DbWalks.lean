import Waverous.DbProperties

/-! # Walks along the hierarchies end

    In a forest every loop over ancestors, children or contents comes to its end
    within as many rounds as there are objects, and what it passes is the way up
    or the list of children. -/

namespace Waverous.Db

open LinkedForest

variable {s s' : State} {oid x p : Objid} {o : Object} {L : Objid → List Objid}

/-! ## The table -/

@[simp] theorem numObjects_modify (oid : Objid) (f : Object → Object) (s : State) :
    (modify oid f s).objects.length = s.objects.length := by
  cases oid with
  | ofNat n => exact List.length_modify _ _ _
  | negSucc n => rfl

@[simp] theorem allUsers_modify (oid : Objid) (f : Object → Object) (s : State) :
    (modify oid f s).allUsers = s.allUsers := by
  cases oid <;> rfl

@[simp] theorem nextProp_modify (oid : Objid) (f : Object → Object) (s : State) :
    (modify oid f s).nextProp = s.nextProp := by
  cases oid <;> rfl

theorem findObject_modify_self (f : Object → Object) (h : findObject s oid = some o) :
    findObject (modify oid f s) oid = some (f o) := by
  rw [findObject_modify, if_pos rfl, h]
  rfl

theorem findObject_modify_ne (f : Object → Object) (h : x ≠ oid) :
    findObject (modify oid f s) x = findObject s x := by
  rw [findObject_modify, if_neg h]

/-- `NOTHING` is no object. -/
@[simp] theorem findObject_nothing (s : State) : findObject s nothing = none := rfl

/-- The numbers of the table. -/
def oids (s : State) : List Objid := (List.range s.numObjects).map Int.ofNat

@[simp] theorem length_oids (s : State) : (oids s).length = s.numObjects := by simp [oids]

theorem mem_oids (h : findObject s oid = some o) : oid ∈ oids s := by
  cases oid with
  | negSucc n => cases h
  | ofNat n =>
      have hn : n < s.objects.length := by
        by_contra hlt
        rw [findObject, List.getElem?_eq_none (Nat.le_of_not_lt hlt)] at h
        cases h
      exact List.mem_map.mpr ⟨n, List.mem_range.mpr hn, rfl⟩

theorem descent_get (h : findObject s oid = some o) : descent.get s oid = some o.descent := by
  show (findObject s oid).map Object.descent = _
  rw [h]
  rfl

theorem place_get (h : findObject s oid = some o) : place.get s oid = some o.place := by
  show (findObject s oid).map Object.place = _
  rw [h]
  rfl

theorem find_of_descent {l : Links Objid} (h : descent.get s oid = some l) :
    ∃ o, findObject s oid = some o ∧ o.descent = l :=
  Option.map_eq_some_iff.mp h

theorem find_of_place {l : Links Objid} (h : place.get s oid = some l) :
    ∃ o, findObject s oid = some o ∧ o.place = l :=
  Option.map_eq_some_iff.mp h

theorem up_descent (h : findObject s oid = some o) :
    upOf (descent.get s) oid = some o.parent := by
  rw [upOf, descent_get h]
  rfl

theorem descent_oids : ∀ x l, descent.get s x = some l → x ∈ oids s := fun _ _ hx =>
  (find_of_descent hx).elim fun _ h => mem_oids h.1

theorem place_oids : ∀ x l, place.get s x = some l → x ∈ oids s := fun _ _ hx =>
  (find_of_place hx).elim fun _ h => mem_oids h.1

/-! ## Below an object -/

/-- What is below an object is an object. -/
theorem object_below {r : Objid} {ro : Object} (hr : findObject s r = some ro)
    (hx : Below (descent.get s) r x) : ∃ ox, findObject s x = some ox := by
  obtain ⟨l, hl⟩ := hx.valid (descent_get hr)
  obtain ⟨ox, hox, -⟩ := find_of_descent hl
  exact ⟨ox, hox⟩

/-- Below an object, and not that object, is also the parent. -/
theorem parent_below {r : Objid} (hx : Below (descent.get s) r x) (hne : x ≠ r)
    (hox : findObject s x = some o) : Below (descent.get s) r o.parent := by
  rcases hx.cases with h | ⟨p, hp, hbelow⟩
  · exact absurd h hne
  · rw [up_descent hox] at hp
    cases hp
    exact hbelow

/-- A child of what is below `r` is not `r` itself. -/
theorem child_below {r c : Objid} (hf : Forest nothing (descent.get s) L)
    (hp : Below (descent.get s) r p) (hc : c ∈ L p) (hoc : findObject s c = some o) :
    Below (descent.get s) r c ∧ c ≠ r ∧ o.parent = p := by
  have hup := (hf.mem_iff.mp hc).2
  refine ⟨hp.step hup, ?_, ?_⟩
  · rintro rfl
    exact hf.not_below_child hc hp
  · rw [up_descent hoc] at hup
    exact Option.some.inj hup

/-- The parent of an object, if it has one, is an object. -/
theorem parent_object (hf : Forest nothing (descent.get s) L) (ho : findObject s oid = some o) :
    o.parent = nothing ∨ ∃ op, findObject s o.parent = some op := by
  by_cases hp : o.parent = nothing
  · exact .inl hp
  · obtain ⟨lp, hlp⟩ := hf.up_valid (descent_get ho) hp
    obtain ⟨op, hop, -⟩ := find_of_descent hlp
    exact .inr ⟨op, hop⟩

/-! ## The way up -/

/-- The objects on the way up, the first one at `oid`. -/
inductive Path (s : State) : Objid → List Object → Prop where
  | top {oid : Objid} : findObject s oid = none → Path s oid []
  | step {oid : Objid} {o : Object} {os : List Object} : findObject s oid = some o → Path s o.parent os → Path s oid (o :: os)

theorem Path.det {os os' : List Object} (h : Path s oid os) (h' : Path s oid os') : os = os' := by
  induction h generalizing os' with
  | top hnone =>
      cases h' with
      | top _ => rfl
      | step hsome _ =>
          rw [hnone] at hsome
          exact nomatch hsome
  | step hsome _ ih =>
      cases h' with
      | top hnone =>
          rw [hsome] at hnone
          exact nomatch hnone
      | step hsome' hrest =>
          rw [hsome] at hsome'
          cases hsome'
          rw [ih hrest]

theorem Path.ancestorsFrom_eq {os : List Object} (h : Path s oid os) {fuel : Nat}
    (hfuel : os.length ≤ fuel) : ancestorsFrom s fuel oid = some os := by
  induction h generalizing fuel with
  | top hnone => cases fuel <;> simp only [ancestorsFrom, hnone]
  | step hsome _ ih =>
      obtain ⟨fuel, rfl⟩ : ∃ n, fuel = n + 1 :=
        ⟨fuel - 1, by rw [List.length_cons] at hfuel; omega⟩
      have hrest := ih (Nat.le_of_succ_le_succ hfuel)
      simp only [ancestorsFrom, hsome, hrest, Option.bind_eq_bind, Option.bind_some]

theorem path_of_ancestorsFrom {os : List Object} {fuel : Nat}
    (h : ancestorsFrom s fuel oid = some os) : Path s oid os := by
  induction fuel generalizing oid os with
  | zero =>
      simp only [ancestorsFrom] at h
      split at h
      next hnone =>
        cases h
        exact .top hnone
      · exact nomatch h
  | succ fuel ih =>
      simp only [ancestorsFrom] at h
      split at h
      next hnone =>
        cases h
        exact .top hnone
      next o hsome =>
        obtain ⟨os', hos, heq⟩ := Option.bind_eq_some_iff.mp h
        cases heq
        exact .step hsome (ih hos)

/-- The way up, as objects, is that of the links. -/
theorem path_of_seg {ps : List Objid} (hps : Seg (upOf (descent.get s)) oid ps nothing) :
    ∃ os, Path s oid os ∧ os.length = ps.length := by
  induction ps generalizing oid with
  | nil =>
      cases hps
      exact ⟨[], .top rfl, rfl⟩
  | cons y ps ih =>
      obtain ⟨rfl, m, hm, hps⟩ := hps
      obtain ⟨l, hl, rfl⟩ := Option.map_eq_some_iff.mp hm
      obtain ⟨o, ho, rfl⟩ := find_of_descent hl
      obtain ⟨os, hos, hlen⟩ := ih hps
      exact ⟨o :: os, .step ho hos, by rw [List.length_cons, List.length_cons, hlen]⟩

section Forest

variable (hf : Forest nothing (descent.get s) L)
include hf

theorem exists_path (oid : Objid) : ∃ os, Path s oid os ∧ os.length ≤ s.numObjects := by
  cases ho : findObject s oid with
  | none => exact ⟨[], .top ho, Nat.zero_le _⟩
  | some o =>
      obtain ⟨ps, hps⟩ := hf.path (descent_get ho)
      obtain ⟨os, hos, hlen⟩ := path_of_seg hps
      refine ⟨os, hos, ?_⟩
      have := hf.length_le descent_oids hps
      rw [length_oids] at this
      omega

/-- `ancestors` is the way up. -/
theorem ancestors_iff {os : List Object} : ancestors s oid = some os ↔ Path s oid os := by
  constructor
  · exact path_of_ancestorsFrom
  · intro h
    obtain ⟨os', hos', hlen⟩ := exists_path hf oid
    cases h.det hos'
    exact h.ancestorsFrom_eq hlen

theorem length_children_le (p : Objid) : (L p).length ≤ s.numObjects := by
  cases hp : descent.get s p with
  | none =>
      rw [hf.empty hp]
      exact Nat.zero_le _
  | some l =>
      have := hf.length_children descent_oids hp
      rwa [length_oids] at this

/-- The children of an object. -/
theorem children_eq (ho : findObject s oid = some o) : children s oid = some (L oid) := by
  have hfirst : firstOf (descent.get s) oid = some o.child := by
    rw [firstOf, descent_get ho]
    rfl
  simp only [children, ho, Option.bind_eq_bind, Option.bind_some]
  exact follow_eq hf.toListed.nextOf_nil (hf.seg hfirst) (length_children_le hf oid)

/-- The numbers on the way up. -/
theorem parents_eq (hx : oid = nothing ∨ ∃ o, findObject s oid = some o) :
    ∃ ps, parents s oid = some ps ∧ Seg (upOf (descent.get s)) oid ps nothing := by
  rcases hx with rfl | ⟨o, ho⟩
  · refine ⟨[], ?_, rfl⟩
    have hend : Seg (upOf (descent.get s)) nothing [] nothing := rfl
    exact follow_eq hf.upOf_nil hend (Nat.zero_le _)
  · obtain ⟨ps, hps⟩ := hf.path (descent_get ho)
    have hlen := hf.length_le descent_oids hps
    rw [length_oids] at hlen
    exact ⟨ps, follow_eq hf.upOf_nil hps hlen, hps⟩

/-- The numbers on the way up are those of the objects that `oid` is below. -/
theorem mem_parents_iff {ps : List Objid} (hps : Seg (upOf (descent.get s)) oid ps nothing)
    (hx : x ≠ nothing) : x ∈ ps ↔ Below (descent.get s) x oid :=
  hf.mem_path_iff hps hx

end Forest

theorem length_contents_le (hf : Forest nothing (place.get s) L) (p : Objid) :
    (L p).length ≤ s.numObjects := by
  cases hp : place.get s p with
  | none =>
      rw [hf.empty hp]
      exact Nat.zero_le _
  | some l =>
      have := hf.length_children place_oids hp
      rwa [length_oids] at this

/-- The contents of an object. -/
theorem contentsOf_eq (hf : Forest nothing (place.get s) L) (ho : findObject s oid = some o) :
    contentsOf s oid = some (L oid) := by
  have hfirst : firstOf (place.get s) oid = some o.contents := by
    rw [firstOf, place_get ho]
    rfl
  simp only [contentsOf, ho, Option.bind_eq_bind, Option.bind_some]
  exact follow_eq hf.toListed.nextOf_nil (hf.seg hfirst) (length_contents_le hf oid)

/-! ## What the slots do not change -/

/-- The two databases differ in slots alone. -/
structure SameButSlots (s s' : State) : Prop where
  find : ∀ x, (findObject s' x).map (fun o => { o with propval := [] })
    = (findObject s x).map fun o => { o with propval := [] }
  numObjects : s'.numObjects = s.numObjects
  allUsers : s'.allUsers = s.allUsers
  nextProp : s'.nextProp = s.nextProp

theorem SameButSlots.refl (s : State) : SameButSlots s s := ⟨fun _ => rfl, rfl, rfl, rfl⟩

theorem SameButSlots.trans {s'' : State} (h : SameButSlots s s') (h' : SameButSlots s' s'') :
    SameButSlots s s'' :=
  ⟨fun x => (h'.find x).trans (h.find x), h'.numObjects.trans h.numObjects,
    h'.allUsers.trans h.allUsers, h'.nextProp.trans h.nextProp⟩

/-- An object keeps all but its slots. -/
theorem SameButSlots.object (h : SameButSlots s s') (ho : findObject s x = some o) :
    ∃ pvs, findObject s' x = some { o with propval := pvs } := by
  have := h.find x
  rw [ho] at this
  obtain ⟨o', ho', heq⟩ := Option.map_eq_some_iff.mp this
  refine ⟨o'.propval, ho'.trans (congrArg some ?_)⟩
  obtain ⟨id, owner, name, flags, pl, de, vd, pd, pv⟩ := o'
  obtain ⟨id', owner', name', flags', pl', de', vd', pd', pv'⟩ := o
  simp only [Object.mk.injEq] at heq ⊢
  exact ⟨heq.1, heq.2.1, heq.2.2.1, heq.2.2.2.1, heq.2.2.2.2.1, heq.2.2.2.2.2.1,
    heq.2.2.2.2.2.2.1, heq.2.2.2.2.2.2.2.1, trivial⟩

theorem SameButSlots.symm (h : SameButSlots s s') : SameButSlots s' s :=
  ⟨fun x => (h.find x).symm, h.numObjects.symm, h.allUsers.symm, h.nextProp.symm⟩

theorem SameButSlots.none_iff (h : SameButSlots s s') : findObject s' x = none ↔ findObject s x = none := by
  rw [← Option.map_eq_none_iff, h.find, Option.map_eq_none_iff]

/-- Any projection that does not look at slots. -/
theorem SameButSlots.map {β : Type} (h : SameButSlots s s') (f : Object → β)
    (hf : ∀ o pvs, f { o with propval := pvs } = f o) (x : Objid) :
    (findObject s' x).map f = (findObject s x).map f := by
  cases ho : findObject s x with
  | none => rw [h.none_iff.mpr ho]
  | some o =>
      obtain ⟨pvs, ho'⟩ := h.object ho
      rw [ho', Option.map_some, Option.map_some, hf]

theorem SameButSlots.descent (h : SameButSlots s s') : descent.get s' = descent.get s :=
  funext fun x => h.map Object.descent (fun _ _ => rfl) x

theorem SameButSlots.place (h : SameButSlots s s') : place.get s' = place.get s :=
  funext fun x => h.map Object.place (fun _ _ => rfl) x

theorem sameButSlots_modify (oid : Objid) (s : State) (pvs : Object → List Pval) :
    SameButSlots s (modify oid (fun o => { o with propval := pvs o }) s) where
  find x := by
    rw [findObject_modify]
    split
    · rw [Option.map_map]
      rfl
    · rfl
  numObjects := numObjects_modify _ _ _
  allUsers := allUsers_modify _ _ _
  nextProp := nextProp_modify _ _ _

/-- The way up has as many definitions as before. -/
theorem Path.same {os : List Object} (h : Path s oid os) (hs : SameButSlots s s') :
    ∃ os', Path s' oid os' ∧ os'.map (fun o => (o.id, o.propdefs)) = os.map fun o => (o.id, o.propdefs) := by
  induction h with
  | top hnone => exact ⟨[], .top (hs.none_iff.mpr hnone), rfl⟩
  | step hsome _ ih =>
      obtain ⟨pvs, ho'⟩ := hs.object hsome
      obtain ⟨os', hos', heq⟩ := ih
      refine ⟨_ :: os', .step ho' hos', ?_⟩
      rw [List.map_cons, List.map_cons, heq]

/-! ## What moving objects does not change -/

/-- An object without its links. -/
def unlinked (o : Object) : Object :=
  { o with place := ⟨nothing, nothing, nothing⟩, descent := ⟨nothing, nothing, nothing⟩ }

/-- The two databases differ in links alone. -/
structure SameButLinks (s s' : State) : Prop where
  find : ∀ x, (findObject s' x).map unlinked = (findObject s x).map unlinked
  numObjects : s'.numObjects = s.numObjects
  allUsers : s'.allUsers = s.allUsers
  nextProp : s'.nextProp = s.nextProp

theorem SameButLinks.refl (s : State) : SameButLinks s s := ⟨fun _ => rfl, rfl, rfl, rfl⟩

theorem SameButLinks.modify (h : SameButLinks s s') {f : Object → Object}
    (hf : ∀ o, unlinked (f o) = unlinked o) : SameButLinks s (Db.modify oid f s') where
  find x := by
    rw [← h.find, findObject_modify]
    split
    · rw [Option.map_map]
      congr 1
      exact funext hf
    · rfl
  numObjects := (numObjects_modify _ _ _).trans h.numObjects
  allUsers := (allUsers_modify _ _ _).trans h.allUsers
  nextProp := (nextProp_modify _ _ _).trans h.nextProp

/-- Any projection that does not look at links. -/
theorem SameButLinks.map {β : Type} (h : SameButLinks s s') (f : Object → β)
    (hf : ∀ o, f (unlinked o) = f o) (x : Objid) :
    (findObject s' x).map f = (findObject s x).map f := by
  have := congrArg (Option.map f) (h.find x)
  rw [Option.map_map, Option.map_map] at this
  rwa [show f ∘ unlinked = f from funext hf] at this

theorem SameButLinks.none_iff (h : SameButLinks s s') :
    findObject s' x = none ↔ findObject s x = none := by
  rw [← Option.map_eq_none_iff, h.find, Option.map_eq_none_iff]

/-- An object keeps all but its links. -/
theorem SameButLinks.object (h : SameButLinks s s') {o' : Object} (ho : findObject s' x = some o') :
    ∃ o, findObject s x = some o ∧ o'.id = o.id ∧ o'.propdefs = o.propdefs ∧
      o'.propval = o.propval := by
  have := h.find x
  rw [ho, Option.map_some] at this
  obtain ⟨o, ho', heq⟩ := Option.map_eq_some_iff.mp this.symm
  simp only [unlinked, Object.mk.injEq] at heq
  obtain ⟨hid, -, -, -, -, -, -, hdefs, hvals⟩ := heq
  exact ⟨o, ho', hid.symm, hdefs.symm, hvals.symm⟩

theorem SameButLinks.unlinked_eq (h : SameButLinks s s') (ho : findObject s x = some o) :
    ∃ o', findObject s' x = some o' ∧ unlinked o' = unlinked o := by
  have := h.find x
  rw [ho, Option.map_some] at this
  exact Option.map_eq_some_iff.mp this

theorem SameButLinks.modify_descent (h : SameButLinks s s') (oid : Objid)
    (f : Links Objid → Links Objid) : SameButLinks s (Db.descent.modify oid f s') :=
  h.modify (f := fun o => { o with descent := f o.descent }) fun _ => rfl

theorem SameButLinks.modify_place (h : SameButLinks s s') (oid : Objid)
    (f : Links Objid → Links Objid) : SameButLinks s (Db.place.modify oid f s') :=
  h.modify (f := fun o => { o with place := f o.place }) fun _ => rfl

theorem place_modify_descent (oid : Objid) (f : Links Objid → Links Objid) (s : State) :
    place.get (descent.modify oid f s) = place.get s := by
  funext x
  show (findObject (modify oid _ s) x).map Object.place = _
  rw [findObject_modify]
  split
  · rw [Option.map_map]
    rfl
  · rfl

theorem descent_modify_place (oid : Objid) (f : Links Objid → Links Objid) (s : State) :
    descent.get (place.modify oid f s) = descent.get s := by
  funext x
  show (findObject (modify oid _ s) x).map Object.descent = _
  rw [findObject_modify]
  split
  · rw [Option.map_map]
    rfl
  · rfl

end Waverous.Db
