import Waverous.DbChparent

/-! # Creating, destroying and moving objects -/

namespace Waverous.Db

open LinkedForest

variable {s s' s1 : State} {L : Objid → List Objid} {oid p x y : Objid} {o : Object}

/-! ## Creating -/

theorem findObject_numObjects (s : State) : findObject s (s.numObjects : Objid) = none := by
  show (s.objects[s.objects.length]?).join = none
  rw [List.getElem?_eq_none (Nat.le_refl _)]
  rfl

/-- The object that `db_create_object` makes. -/
def emptyObject (oid : Objid) : Object where
  id := oid
  owner := nothing
  name := []
  flags := 0
  place := ⟨nothing, nothing, nothing⟩
  descent := ⟨nothing, nothing, nothing⟩
  verbdefs := []
  propdefs := ⟨0, []⟩
  propval := []

theorem findObject_createObject (s : State) (x : Objid) : findObject (createObject s).2 x
    = if x = (s.numObjects : Objid) then some (emptyObject s.numObjects) else findObject s x := by
  cases x with
  | negSucc n => rfl
  | ofNat n =>
      show ((s.objects ++ [some (emptyObject s.numObjects)])[n]?).join
        = if Int.ofNat n = Int.ofNat s.numObjects then _ else _
      by_cases hn : n = s.numObjects
      · rw [if_pos (congrArg Int.ofNat hn), hn, List.getElem?_concat_length]
        rfl
      · rw [if_neg (fun h => hn (Int.ofNat.inj h))]
        by_cases hlt : n < s.objects.length
        · rw [List.getElem?_append_left hlt]
          rfl
        · have hgt : (s.objects ++ [some (emptyObject s.numObjects)]).length ≤ n := by
            rw [List.length_append, List.length_singleton]
            have : n ≠ s.objects.length := hn
            omega
          rw [List.getElem?_eq_none hgt]
          show none = (s.objects[n]?).join
          rw [List.getElem?_eq_none (Nat.le_of_not_lt hlt)]
          rfl

/-- The databases differ in one object without anything, which is new. -/
structure Added (s s' : State) (oid : Objid) : Prop where
  fresh : findObject s oid = none
  proper : oid ≠ nothing
  self : findObject s' oid = some (emptyObject oid)
  other : ∀ x, x ≠ oid → findObject s' x = findObject s x
  nextProp : s'.nextProp = s.nextProp

section Added

variable (h : Added s s' oid)
include h

/-- An object is the new one, or was there. -/
theorem Added.cases {o' : Object} (ho : findObject s' x = some o') :
    x = oid ∧ o' = emptyObject oid ∨ x ≠ oid ∧ findObject s x = some o' := by
  by_cases hx : x = oid
  · subst hx
    rw [h.self] at ho
    exact .inl ⟨rfl, (Option.some.inj ho).symm⟩
  · rw [h.other x hx] at ho
    exact .inr ⟨hx, ho⟩

theorem Added.map {β : Type} (f : Object → β) :
    (fun x => (findObject s' x).map f)
      = Function.update (fun x => (findObject s x).map f) oid (some (f (emptyObject oid))) := by
  funext x
  by_cases hx : x = oid
  · subst hx
    rw [Function.update_self, h.self]
    rfl
  · rw [Function.update_of_ne hx, h.other x hx]

theorem Added.descent :
    descent.get s' = Function.update (Db.descent.get s) oid (some ⟨nothing, nothing, nothing⟩) :=
  h.map Object.descent

theorem Added.place :
    place.get s' = Function.update (Db.place.get s) oid (some ⟨nothing, nothing, nothing⟩) :=
  h.map Object.place

theorem Added.no_links (f : Object → Links Objid) : (findObject s oid).map f = none := by
  rw [h.fresh]
  rfl

theorem Added.labelsAt (x : Objid) : labelsAt s' x = Db.labelsAt s x := by
  by_cases hx : x = oid
  · subst hx
    rw [labelsAt_eq h.self, labelsAt_none h.fresh]
    rfl
  · rw [Db.labelsAt, Db.labelsAt, h.other x hx]

theorem Added.descent_forest {L : Objid → List Objid} (hf : Forest nothing (Db.descent.get s) L) :
    Forest nothing (Db.descent.get s') L := by
  rw [h.descent]
  exact hf.insertNode (h.no_links Object.descent) h.proper

/-- Nothing is below the new object. -/
theorem Added.below {L : Objid → List Objid} (hf : Forest nothing (Db.descent.get s) L) {y : Objid}
    (hx : x ≠ oid) (hb : Below (Db.descent.get s') y x) : Below (Db.descent.get s) y x := by
  refine Below.unmoved (r := oid) (fun z hz => ?_) (fun hox => ?_) hb
  · rw [upOf, upOf, h.descent, Function.update_of_ne hz]
  · obtain ⟨c, hc, -⟩ := (h.descent_forest hf).below_child hox h.proper hx
    rw [hf.empty (h.no_links Object.descent)] at hc
    cases hc

theorem Added.slots (hs : Slots s) : Slots s' where
  layout ho := by
    rw [h.labelsAt]
    rcases h.cases ho with ⟨-, rfl⟩ | ⟨-, ho⟩
    · rfl
    · exact hs.layout ho
  defined ho := by
    rcases h.cases ho with ⟨-, rfl⟩ | ⟨-, ho⟩
    · intro p hp
      cases hp
    · exact hs.defined ho

theorem Added.names {L : Objid → List Objid} (hf : Forest nothing (Db.descent.get s) L)
    (hn : Names s) : Names s' where
  hash ho := by
    rcases h.cases ho with ⟨-, rfl⟩ | ⟨-, ho⟩
    · intro d hd
      cases hd
    · exact hn.hash ho
  own ho := by
    rcases h.cases ho with ⟨-, rfl⟩ | ⟨-, ho⟩
    · exact List.Pairwise.nil
    · exact hn.own ho
  path hb hne hx hy := by
    rcases h.cases hx with ⟨-, rfl⟩ | ⟨hxo, hx⟩
    · intro d hd
      cases hd
    · rcases h.cases hy with ⟨-, rfl⟩ | ⟨-, hy⟩
      · intro d _ e he
        cases he
      · exact hn.path (h.below hf hxo hb) hne hx hy
  builtin ho := by
    rcases h.cases ho with ⟨-, rfl⟩ | ⟨-, ho⟩
    · intro d hd
      cases hd
    · exact hn.builtin ho

theorem Added.idents (hi : Idents s) : Idents s' where
  fresh ho := by
    rw [h.nextProp]
    rcases h.cases ho with ⟨-, rfl⟩ | ⟨-, ho⟩
    · intro d hd
      cases hd
    · exact hi.fresh ho
  nodup ho := by
    rcases h.cases ho with ⟨-, rfl⟩ | ⟨-, ho⟩
    · exact List.Pairwise.nil
    · exact hi.nodup ho
  disjoint hne hx hy := by
    rcases h.cases hx with ⟨-, rfl⟩ | ⟨-, hx⟩
    · intro d hd
      cases hd
    · rcases h.cases hy with ⟨-, rfl⟩ | ⟨-, hy⟩
      · intro d _ e he
        cases he
      · exact hi.disjoint hne hx hy

theorem Added.wellFormed (hw : WellFormed s) : WellFormed s' := by
  obtain ⟨L, hf⟩ := hw.descent
  obtain ⟨M, hp⟩ := hw.place
  refine ⟨fun ho => ?_, ⟨L, h.descent_forest hf⟩, ⟨M, ?_⟩, h.slots hw.slots, h.names hf hw.names,
    h.idents hw.idents, fun ho => ?_⟩
  · rcases h.cases ho with ⟨rfl, rfl⟩ | ⟨-, ho⟩
    · rfl
    · exact hw.ids ho
  · rw [h.place]
    exact hp.insertNode (h.no_links Object.place) h.proper
  · rcases h.cases ho with ⟨-, rfl⟩ | ⟨-, ho⟩
    · exact Nat.le_refl _
    · exact hw.capacity ho

end Added

theorem createObject_wellFormed (hw : WellFormed s) : WellFormed (createObject s).2 := by
  have hadded : Added s (createObject s).2 (s.numObjects : Objid) := by
    have hfind := findObject_createObject s
    refine ⟨findObject_numObjects s, (fun h => by cases h), ?_, fun x hx => ?_, rfl⟩
    · rw [hfind, if_pos rfl]
    · rw [hfind, if_neg hx]
  exact hadded.wellFormed hw

/-! ## Destroying -/

theorem findObject_clearObject (ho : findObject s oid = some o) (x : Objid) :
    findObject (clearObject oid s) x = if x = oid then none else findObject s x := by
  cases oid with
  | negSucc n => exact nomatch ho
  | ofNat n =>
      cases x with
      | negSucc m => rfl
      | ofNat m =>
          show ((s.objects.set n none)[m]?).join = if Int.ofNat m = Int.ofNat n then _ else _
          rw [List.getElem?_set]
          by_cases hnm : n = m
          · subst hnm
            rw [if_pos rfl, if_pos rfl]
            split <;> rfl
          · rw [if_neg hnm, if_neg (fun h => hnm (Int.ofNat.inj h).symm)]
            rfl

/-- `db_destroy_object`, of an object that nothing is linked to. -/
theorem destroyObject_wellFormed (hw : WellFormed s) (ho : findObject s oid = some o)
    (hplace : o.place.up = nothing ∧ o.place.first = nothing)
    (hdescent : o.descent.up = nothing ∧ o.descent.first = nothing) :
    ∃ s', destroyObject s oid = some s' ∧ WellFormed s' := by
  obtain ⟨L, hf⟩ := hw.descent
  obtain ⟨M, hp⟩ := hw.place
  have hlen : ¬ o.propval.length < o.curLength := by
    have := hw.slots.length ho
    omega
  have hlinks : ¬ (o.location ≠ nothing ∨ o.contents ≠ nothing ∨ o.parent ≠ nothing ∨
      o.child ≠ nothing) := by
    simp [hplace.1, hplace.2, hdescent.1, hdescent.2]
  let s1 := if isUser s oid then { s with allUsers := s.allUsers.erase oid } else s
  have hs1 : findObject s1 = findObject s ∧ s1.nextProp = s.nextProp := by
    show findObject (if isUser s oid then _ else s) = _ ∧ (if isUser s oid then _ else s).nextProp = _
    split <;> exact ⟨rfl, rfl⟩
  have hfind : ∀ x, findObject (clearObject oid s1) x = if x = oid then none else findObject s x := by
    intro x
    rw [findObject_clearObject (o := o) (by rw [hs1.1, ho]), hs1.1]
  have hnext : (clearObject oid s1).nextProp = s.nextProp := by
    rw [← hs1.2]
    cases oid <;> rfl
  refine ⟨clearObject oid s1, ?_, ?_⟩
  · simp only [destroyObject, ho, Option.bind_eq_bind, Option.bind_some, if_neg hlinks, if_neg hlen]
    rfl
  generalize clearObject oid s1 = t at *
  have hobj : ∀ {x o'}, findObject t x = some o' → x ≠ oid ∧ findObject s x = some o' := by
    intro x o' ho'
    rw [hfind] at ho'
    split at ho'
    · cases ho'
    next hx => exact ⟨hx, ho'⟩
  have hupdate : ∀ {β : Type} (f : Object → β), (fun x => (findObject t x).map f)
      = Function.update (fun x => (findObject s x).map f) oid none := by
    intro β f
    funext x
    by_cases hx : x = oid
    · subst hx
      rw [Function.update_self, hfind, if_pos rfl]
      rfl
    · rw [Function.update_of_ne hx, hfind, if_neg hx]
  have hd' : descent.get t = Function.update (descent.get s) oid none := hupdate Object.descent
  have hp' : place.get t = Function.update (place.get s) oid none := hupdate Object.place
  have hdefs : ∀ {x o'}, findObject t x = some o' →
      ∃ o, findObject s x = some o ∧ o'.propdefs.l = o.propdefs.l :=
    fun ho' => ⟨_, (hobj ho').2, rfl⟩
  have hchild : ∀ {x ox}, findObject s x = some ox → ox.parent ≠ oid := by
    rintro x ox hox rfl
    have hmem := hf.mem_up (descent_get hox) (hf.ne_nil (descent_get ho))
    rw [hf.list_nil (descent_get ho) hdescent.2] at hmem
    cases hmem
  constructor
  · exact fun ho' => hw.ids (hobj ho').2
  · refine ⟨L, ?_⟩
    rw [hd']
    exact hf.eraseNode (descent_get ho) hdescent.1 hdescent.2
  · refine ⟨M, ?_⟩
    rw [hp']
    exact hp.eraseNode (place_get ho) hplace.1 hplace.2
  · constructor
    · intro x ox hox
      obtain ⟨-, hox⟩ := hobj hox
      rw [show labelsAt t ox.parent = labelsAt s ox.parent by
        rw [labelsAt, labelsAt, hfind, if_neg (hchild hox)]]
      exact hw.slots.layout hox
    · exact fun ho' => hw.slots.defined (hobj ho').2
  · refine hw.names.transfer hdefs fun hb => hb.mono fun {x p} hup => ?_
    rw [upOf, hd'] at hup
    by_cases hx : x = oid
    · rw [hx, Function.update_self] at hup
      cases hup
    · rwa [Function.update_of_ne hx] at hup
  · exact hw.idents.transfer hdefs hnext
  · exact fun ho' => hw.capacity (hobj ho').2

/-! ## Moving -/

/-- The object has been moved to another place. -/
structure Relocated (s s' : State) (M : Objid → List Objid) (oid p : Objid) : Prop where
  forest : ∃ M', Forest nothing (place.get s') M' ∧
    ∀ q c, c ∈ M' q ↔ c ∈ M q ∧ c ≠ oid ∨ c = oid ∧ q = p ∧ p ≠ nothing
  up : upOf (place.get s') = Store.setAt (upOf (place.get s)) oid p
  descent : descent.get s' = descent.get s
  links : SameButLinks s s'

/-- A database that has the same objects in other places. -/
theorem WellFormed.relocated (hw : WellFormed s) (h : SameButLinks s s')
    (hd : Db.descent.get s' = Db.descent.get s) (hp : ∃ M, Forest nothing (Db.place.get s') M) :
    WellFormed s' := by
  have hobj : ∀ {x o'}, findObject s' x = some o' → ∃ o, findObject s x = some o ∧ o'.id = o.id ∧
      o'.propdefs = o.propdefs ∧ o'.propval = o.propval ∧ o'.parent = o.parent := by
    intro x o' ho'
    obtain ⟨o, ho, hid, hdefs, hvals⟩ := h.object ho'
    have hup := up_descent ho'
    rw [hd, up_descent ho] at hup
    exact ⟨o, ho, hid, hdefs, hvals, (Option.some.inj hup).symm⟩
  have hdefs : ∀ {x o'}, findObject s' x = some o' →
      ∃ o, findObject s x = some o ∧ o'.propdefs.l = o.propdefs.l := by
    intro x o' ho'
    obtain ⟨o, ho, -, hdefs, -⟩ := hobj ho'
    exact ⟨o, ho, congrArg Proplist.l hdefs⟩
  constructor
  · intro x o' ho'
    obtain ⟨o, ho, hid, -⟩ := hobj ho'
    exact hid.trans (hw.ids ho)
  · rw [hd]
    exact hw.descent
  · exact hp
  · constructor
    · intro x o' ho'
      obtain ⟨o, ho, -, hdefs, hvals, hup⟩ := hobj ho'
      have hl : labelsAt s' o'.parent = labelsAt s o.parent := by
        rw [hup]
        exact congrArg (Option.getD · []) (h.map labels (fun _ => rfl) _)
      rw [hl, labels, hvals, propIds, hdefs]
      exact hw.slots.layout ho
    · intro x o' ho'
      obtain ⟨o, ho, -, hdefs, hvals, -⟩ := hobj ho'
      rw [hvals, Object.curLength, hdefs]
      exact hw.slots.defined ho
  · exact hw.names.transfer hdefs fun hb => by rwa [hd] at hb
  · exact hw.idents.transfer hdefs h.nextProp
  · intro x o' ho'
    obtain ⟨o, ho, -, hdefs, -⟩ := hobj ho'
    rw [Object.curLength, hdefs]
    exact hw.capacity ho

/-- `valid` tells links that lead somewhere from those that do not. -/
theorem valid_eq (hp : p = nothing ∨ ∃ op, findObject s p = some op) :
    valid s p = decide (p ≠ nothing) := by
  rcases hp with rfl | ⟨op, hop⟩
  · rfl
  · have hne : p ≠ nothing := by
      rintro rfl
      exact nomatch hop
    rw [valid, hop, decide_eq_true hne]
    rfl

/-- `db_change_location`. -/
theorem changeLocation_spec {M : Objid → List Objid} (hw : WellFormed s)
    (hf : Forest nothing (place.get s) M) (ho : findObject s oid = some o)
    (hp : p = nothing ∨ (∃ op, findObject s p = some op) ∧ ¬ Below (place.get s) oid p) :
    ∃ s', changeLocation s oid p = some s' ∧ WellFormed s' ∧ Relocated s s' M oid p := by
  have hold : o.location = nothing ∨ ∃ op, findObject s o.location = some op := by
    by_cases h : o.location = nothing
    · exact .inl h
    · obtain ⟨l, hl⟩ := hf.up_valid (place_get ho) h
      obtain ⟨op, hop, -⟩ := find_of_place hl
      exact .inr ⟨op, hop⟩
  obtain ⟨s1, M', hrun, hf', hup, hmem⟩ := Store.relink_spec hf (place_get ho)
    (length_contents_le hf) (hp.imp id fun h => ⟨h.1.elim fun op h => ⟨_, place_get h⟩, h.2⟩)
  have hsame : SameButLinks s s1 ∧ descent.get s1 = descent.get s :=
    Store.relink_induct (P := fun t => SameButLinks s t ∧ descent.get t = descent.get s)
      (fun x f t ht => ⟨ht.1.modify_place x f, (descent_modify_place x f t).trans ht.2⟩) hrun
      ⟨SameButLinks.refl s, rfl⟩
  refine ⟨s1, ?_, hw.relocated hsame.1 hsame.2 ⟨M', hf'⟩, ⟨M', hf', hmem⟩, hup, hsame.2, hsame.1⟩
  simp only [changeLocation, ho, Option.bind_eq_bind, Option.bind_some, valid_eq hold,
    valid_eq (hp.imp id And.left)]
  exact hrun

end Waverous.Db
