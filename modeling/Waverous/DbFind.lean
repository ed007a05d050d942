import Waverous.DbWellFormed

/-! # Finding a property

    The search up the hierarchy finds the first definition of the name and the
    slot for it (`findProperty_spec`); following clear slots ends, at the latest,
    at the object with the definition (`skipClear_spec`).  The search down the
    hierarchy tells whether a name is defined there. -/

namespace Waverous.Db

open LinkedForest

variable {s : State} {L : Objid → List Objid} {oid x y : Objid} {o : Object}

/-! ## Down -/

/-- A test that comes to an end on each element comes to an end on the list. -/
theorem anyM_spec {α : Type} {f : α → Option Bool} {Q : α → Prop} (cs : List α)
    (h : ∀ c ∈ cs, ∃ b, f c = some b ∧ (b = true ↔ Q c)) :
    ∃ b, cs.anyM f = some b ∧ (b = true ↔ ∃ c ∈ cs, Q c) := by
  induction cs with
  | nil => exact ⟨false, rfl, by simp⟩
  | cons c cs ih =>
      obtain ⟨b, hb, hQ⟩ := h c List.mem_cons_self
      obtain ⟨b', hb', hQ'⟩ := ih fun d hd => h d (List.mem_cons_of_mem c hd)
      cases b with
      | true =>
          refine ⟨true, ?_, ?_⟩
          · rw [List.anyM_cons, hb]
            rfl
          · simp [hQ.mp rfl]
      | false =>
          refine ⟨b', ?_, ?_⟩
          · rw [List.anyM_cons, hb]
            exact hb'
          · have hnot : ¬ Q c := fun hc => nomatch hQ.mpr hc
            simp [hQ', hnot]

/-- The object defines a property of the name. -/
def Defines (s : State) (x : Objid) (hash : UInt32) (name : Str) : Prop :=
  ∃ o, findObject s x = some o ∧ ∃ d ∈ o.propdefs.l, d.named hash name = true

theorem propertyDefinedAtOrBelow_spec (hf : Forest nothing (descent.get s) L) (pname : Str)
    (phash : UInt32) (ho : findObject s oid = some o) :
    ∃ b, propertyDefinedAtOrBelow s pname phash (s.numObjects + 1) oid = some b ∧
      (b = true ↔ ∃ x, Below (descent.get s) oid x ∧ Defines s x phash pname) := by
  have hall : ∀ fuel oid o, findObject s oid = some o →
      (∀ y ps, Seg (upOf (descent.get s)) y ps oid → ps.length < fuel) →
      ∃ b, propertyDefinedAtOrBelow s pname phash fuel oid = some b ∧
        (b = true ↔ ∃ x, Below (descent.get s) oid x ∧ Defines s x phash pname) := by
    intro fuel
    induction fuel with
    | zero =>
        intro oid o _ hfuel
        exact absurd (hfuel oid [] rfl) (Nat.not_lt_zero _)
    | succ fuel ih =>
        intro oid o ho hfuel
        by_cases hown : o.propdefs.l.any (fun p => p.named phash pname) = true
        · refine ⟨true, ?_, ?_⟩
          · simp only [propertyDefinedAtOrBelow, ho, Option.bind_eq_bind, Option.bind_some,
              if_pos hown]
          · obtain ⟨d, hd, hn⟩ := List.any_eq_true.mp hown
            exact ⟨fun _ => ⟨oid, Below.refl _ _, o, ho, d, hd, hn⟩, fun _ => rfl⟩
        · have hkids := anyM_spec (L oid)
            (Q := fun c => ∃ x, Below (descent.get s) c x ∧ Defines s x phash pname)
            (f := propertyDefinedAtOrBelow s pname phash fuel) fun c hc => by
              obtain ⟨l, hl, hup⟩ := hf.mem_valid hc
              obtain ⟨oc, hoc, -⟩ := find_of_descent hl
              refine ih c oc hoc fun y ps hps => ?_
              have hstep := hfuel y (ps ++ [c])
                (seg_append.mpr ⟨c, hps, rfl, oid, (hf.mem_iff.mp hc).2, rfl⟩)
              rw [List.length_append, List.length_singleton] at hstep
              omega
          obtain ⟨b, hb, hQ⟩ := hkids
          refine ⟨b, ?_, hQ.trans ?_⟩
          · simp only [propertyDefinedAtOrBelow, ho, Option.bind_eq_bind, Option.bind_some,
              if_neg hown, children_eq hf ho, hb]
          · constructor
            · rintro ⟨c, hc, x, hx, hdef⟩
              exact ⟨x, hx.trans ((Below.refl _ _).step (hf.mem_iff.mp hc).2), hdef⟩
            · rintro ⟨x, hx, hdef⟩
              have hxo : x ≠ oid := by
                rintro rfl
                obtain ⟨o', ho', d, hd, hn⟩ := hdef
                rw [ho] at ho'
                cases ho'
                exact hown (List.any_eq_true.mpr ⟨d, hd, hn⟩)
              obtain ⟨c, hc, hcx⟩ := hf.below_child hx (hf.ne_nil (descent_get ho)) hxo
              exact ⟨c, hc, x, hcx, hdef⟩
  refine hall _ oid o ho fun y ps hps => ?_
  obtain ⟨qs, hqs⟩ := hf.path (descent_get ho)
  have hlen := hf.length_le descent_oids (seg_append.mpr ⟨oid, hps, hqs⟩)
  rw [length_oids, List.length_append] at hlen
  omega

/-! ## Up -/

/-- The objects on the way up are those that `oid` is below. -/
theorem Path.mem_iff {os : List Object} (h : Path s oid os) :
    o ∈ os ↔ ∃ y, Below (descent.get s) y oid ∧ findObject s y = some o := by
  induction h with
  | top hnone =>
      constructor
      · intro hmem
        exact nomatch hmem
      · rintro ⟨y, hy, hyo⟩
        rcases hy.cases with rfl | ⟨p, hp, -⟩
        · rw [hnone] at hyo
          exact nomatch hyo
        · obtain ⟨l, hl, -⟩ := Option.map_eq_some_iff.mp hp
          obtain ⟨o', ho', -⟩ := find_of_descent hl
          rw [hnone] at ho'
          exact nomatch ho'
  | step hsome _ ih =>
      rw [List.mem_cons, ih]
      constructor
      · rintro (rfl | ⟨y, hy, hyo⟩)
        · exact ⟨_, Below.refl _ _, hsome⟩
        · exact ⟨y, hy.step (up_descent hsome), hyo⟩
      · rintro ⟨y, hy, hyo⟩
        rcases hy.cases with rfl | ⟨p, hp, hbelow⟩
        · rw [hsome] at hyo
          exact .inl (Option.some.inj hyo).symm
        · rw [up_descent hsome] at hp
          cases hp
          exact .inr ⟨y, hbelow, hyo⟩

/-- The layout is that of the definitions on the way up. -/
theorem Path.labels_eq {os : List Object} (h : Path s oid os) (hs : Slots s) :
    labelsAt s oid = os.flatMap propIds := by
  induction h with
  | top hnone => exact labelsAt_none hnone
  | step hsome _ ih => rw [labelsAt_eq hsome, hs.layout hsome, ih, List.flatMap_cons]

theorem searchDefs_none {hash : UInt32} {name : Str} {os : List Object} {n : Nat}
    (h : searchDefs hash name os n = none) :
    ∀ o ∈ os, ∀ d ∈ o.propdefs.l, d.named hash name = false := by
  induction os generalizing n with
  | nil => exact fun o ho => nomatch ho
  | cons o os ih =>
      simp only [searchDefs] at h
      split at h
      · exact nomatch h
      next hnone =>
        intro o' ho'
        rcases List.mem_cons.mp ho' with rfl | ho'
        · intro d hd
          simpa using List.findIdx?_eq_none_iff.mp hnone d hd
        · exact ih h o' ho'

/-- What the search up finds: the first definition, and how many there are before it. -/
theorem searchDefs_some {hash : UInt32} {name : Str} {os : List Object} {n m : Nat}
    {definer : Objid} (h : searchDefs hash name os n = some (definer, m)) :
    ∃ pre o post i d, os = pre ++ o :: post ∧ o.id = definer ∧ o.propdefs.l[i]? = some d ∧
      d.named hash name = true ∧ m = n + (pre.flatMap propIds).length + i ∧
      ∀ o' ∈ pre, ∀ d ∈ o'.propdefs.l, d.named hash name = false := by
  induction os generalizing n with
  | nil => exact nomatch h
  | cons o os ih =>
      simp only [searchDefs] at h
      split at h
      next p hp =>
        cases h
        obtain ⟨hlt, hnamed, -⟩ := List.findIdx?_eq_some_iff_getElem.mp hp
        refine ⟨[], o, os, p, o.propdefs.l[p], rfl, rfl, List.getElem?_eq_getElem hlt, hnamed, rfl, ?_⟩
        exact fun o' ho' => nomatch ho'
      next hnone =>
        obtain ⟨pre, o', post, i, d, rfl, hid, hd, hnamed, hm, hpre⟩ := ih h
        refine ⟨o :: pre, o', post, i, d, rfl, hid, hd, hnamed, ?_, ?_⟩
        · rw [hm, List.flatMap_cons, List.length_append, length_propIds]
          omega
        · intro o'' ho''
          rcases List.mem_cons.mp ho'' with rfl | ho''
          · intro d hd
            simpa using List.findIdx?_eq_none_iff.mp hnone d hd
          · exact hpre o'' ho''

section WellFormed

variable (hw : WellFormed s)
include hw

/-- A definition that can be seen at `oid`, and the place of its slots there. -/
structure SlotAt (s : State) (oid definer : Objid) (d : Propdef) (n : Nat) : Prop where
  object : ∃ o, findObject s oid = some o ∧ ∃ p, o.propval[n]? = some p ∧ p.prop = d.prop ∧
    (n < o.curLength ↔ definer = oid)
  defined : ∃ o, findObject s definer = some o ∧ d ∈ o.propdefs.l
  below : Below (descent.get s) definer oid

omit hw in
/-- The slots of an object that the objects before it on a way up do not define. -/
theorem flatMap_getElem? {pre post : List Object} {o : Object} {i : Nat} {d : Propdef}
    (hd : o.propdefs.l[i]? = some d) :
    ((pre ++ o :: post).flatMap propIds)[(pre.flatMap propIds).length + i]? = some d.prop := by
  have hlt : i < (propIds o).length := by
    rw [length_propIds]
    exact (List.getElem?_eq_some_iff.mp hd).1
  rw [List.flatMap_append, List.flatMap_cons, List.getElem?_append_right (Nat.le_add_right _ _),
    Nat.add_sub_cancel_left, List.getElem?_append_left hlt, propIds, List.getElem?_map, hd]
  rfl

/-- `db_find_property` comes to an end.  It finds the slot of the first definition of
    the name on the way up; when it finds nothing, there is none. -/
theorem findProperty_spec (oid : Objid) (name : Str) :
    ∃ res, findProperty s oid name = some res ∧
      match res with
      | none => builtinNamed name = none ∧
          ∀ y, Below (descent.get s) y oid → ¬ Defines s y (strHash name) name
      | some (.builtIn prop oid') => builtinNamed name = some prop ∧ oid' = oid
      | some (.slot definer oid' n) => builtinNamed name = none ∧ oid' = oid ∧
          ∃ d, SlotAt s oid definer d n ∧ d.named (strHash name) name = true := by
  obtain ⟨L, hf⟩ := hw.descent
  rw [findProperty]
  cases hb : builtinNamed name with
  | some prop => exact ⟨_, rfl, rfl, rfl⟩
  | none =>
      obtain ⟨os, hos, -⟩ := exists_path hf oid
      have hanc := (ancestors_iff hf).mpr hos
      simp only [hanc, Option.bind_eq_bind, Option.bind_some]
      cases hsearch : searchDefs (strHash name) name os 0 with
      | none =>
          refine ⟨none, rfl, trivial, ?_⟩
          rintro y hy ⟨oy, hoy, d, hd, hn⟩
          have := searchDefs_none hsearch oy (hos.mem_iff.mpr ⟨y, hy, hoy⟩) d hd
          rw [this] at hn
          cases hn
      | some res =>
          obtain ⟨definer, n⟩ := res
          obtain ⟨pre, od, post, i, d, heq, hid, hd, hnamed, hn, -⟩ := searchDefs_some hsearch
          have hmem : od ∈ os := by
            rw [heq]
            exact List.mem_append_right _ List.mem_cons_self
          obtain ⟨y, hy, hoy⟩ := hos.mem_iff.mp hmem
          have hyd : y = definer := (hw.ids hoy).symm.trans hid
          subst hyd
          obtain ⟨o, ho⟩ : ∃ o, findObject s oid = some o := by
            cases ho : findObject s oid with
            | some o => exact ⟨o, rfl⟩
            | none =>
                cases hos with
                | top _ => cases hmem
                | step hsome _ =>
                    rw [ho] at hsome
                    cases hsome
          have hlabel : (labels o)[n]? = some d.prop := by
            rw [← labelsAt_eq ho, hos.labels_eq hw.slots, heq, hn, Nat.zero_add]
            exact flatMap_getElem? hd
          rw [labels, List.getElem?_map] at hlabel
          obtain ⟨p, hp, hpd⟩ := Option.map_eq_some_iff.mp hlabel
          have hlt : n < o.propval.length := (List.getElem?_eq_some_iff.mp hp).1
          refine ⟨some (.slot y oid n), ?_, trivial, rfl, d,
            ⟨⟨o, ho, p, hp, hpd, ?_⟩, ⟨od, hoy, ?_⟩, hy⟩, hnamed⟩
          · simp only [ho, Option.bind_some, if_pos hlt]
          · -- the slot is an own one when nothing is passed on the way
            cases hos with
            | top hnone =>
                rw [ho] at hnone
                cases hnone
            | step hsome hrest =>
                rw [ho] at hsome
                cases hsome
                cases pre with
                | nil =>
                    have hod : o = od := (List.cons.inj heq).1
                    subst hod
                    have hyo : y = oid := (hw.ids hoy).symm.trans (hw.ids ho)
                    refine ⟨fun _ => hyo, fun _ => ?_⟩
                    rw [hn, List.flatMap_nil, List.length_nil, Nat.zero_add]
                    exact (List.getElem?_eq_some_iff.mp hd).1
                | cons o' pre =>
                    obtain ⟨rfl, hrest'⟩ := List.cons.inj heq
                    refine ⟨fun hlt => ?_, ?_⟩
                    · rw [hn, List.flatMap_cons, List.length_append, length_propIds] at hlt
                      omega
                    · rintro rfl
                      -- the object would be above itself
                      have hmem' : od ∈ pre.append (od :: post) :=
                        List.mem_append_right pre List.mem_cons_self
                      rw [← hrest'] at hmem'
                      obtain ⟨z, hz, hzo⟩ := hrest.mem_iff.mp hmem'
                      have hzy : z = y := (hw.ids hzo).symm.trans (hw.ids hoy)
                      rw [hzy] at hz
                      exact absurd hz (not_below_parent hf ho)
          · exact List.mem_of_getElem? hd

/-- Whether a name can be seen at an object or below it. -/
theorem nameTaken_spec (name : Str) (ho : findObject s oid = some o) :
    ∃ b, nameTaken s oid name = some b ∧ (b = false → builtinNamed name = none ∧
      (∀ y, Below (descent.get s) y oid → ¬ Defines s y (strHash name) name) ∧
      ∀ x, Below (descent.get s) oid x → ¬ Defines s x (strHash name) name) := by
  obtain ⟨L, hf⟩ := hw.descent
  obtain ⟨res, hres, hspec⟩ := findProperty_spec hw oid name
  simp only [nameTaken, hres, Option.bind_eq_bind, Option.bind_some]
  cases res with
  | some h => exact ⟨true, rfl, fun h => nomatch h⟩
  | none =>
      obtain ⟨b, hb, hiff⟩ := propertyDefinedAtOrBelow_spec hf name (strHash name) ho
      refine ⟨b, hb, fun hfalse => ⟨hspec.1, hspec.2, fun x hx hdef => ?_⟩⟩
      have := hiff.mpr ⟨x, hx, hdef⟩
      rw [hfalse] at this
      exact nomatch this

omit hw in
/-- The value of property `d` at an object: that of the first slot on the way up that is
    not clear. -/
inductive Nearest (s : State) (d : PropId) : Objid → Var → Prop
  | here {x : Objid} {o : Object} {p : Pval} : findObject s x = some o → p ∈ o.propval →
      p.prop = d → p.var ≠ .clear → Nearest s d x p.var
  | up {x : Objid} {o : Object} {p : Pval} {v : Var} : findObject s x = some o → p ∈ o.propval →
      p.prop = d → p.var = .clear → Nearest s d o.parent v → Nearest s d x v

/-- The loop that follows clear slots comes to an end. -/
theorem skipClear_spec {os : List Object} (hos : Path s x os) {fuel : Nat}
    (hfuel : os.length ≤ fuel) {n : Nat} {p : Pval} (ho : findObject s x = some o)
    (hp : o.propval[n]? = some p) :
    ∃ v, skipClear s fuel x n = some v ∧ v ≠ .clear ∧ Nearest s p.prop x v := by
  induction hos generalizing fuel n p o with
  | top hnone =>
      rw [ho] at hnone
      cases hnone
  | @step x o os hsome hrest ih =>
      rw [ho] at hsome
      cases hsome
      obtain ⟨fuel, rfl⟩ : ∃ k, fuel = k + 1 :=
        ⟨fuel - 1, by rw [List.length_cons] at hfuel; omega⟩
      have hmem := List.mem_of_getElem? hp
      by_cases hclear : p.var = .clear
      · -- an own slot is not clear, so the slot is there in the parent
        have hn : ¬ n < o.curLength := by
          intro hlt
          refine hw.slots.defined ho p (List.mem_of_getElem? (i := n) ?_) hclear
          rw [List.getElem?_take, if_pos hlt, hp]
        have hlabel : (labelsAt s o.parent)[n - o.curLength]? = some p.prop := by
          have := congrArg (fun l => l[n]?) (hw.slots.layout ho)
          simp only [labels, List.getElem?_map, hp, Option.map_some] at this
          rw [List.getElem?_append_right (by rw [length_propIds]; omega), length_propIds] at this
          exact this.symm
        obtain ⟨op, hop⟩ : ∃ op, findObject s o.parent = some op := by
          cases hop : findObject s o.parent with
          | some op => exact ⟨op, rfl⟩
          | none =>
              rw [labelsAt_none hop] at hlabel
              cases hlabel
        rw [labelsAt_eq hop, labels, List.getElem?_map] at hlabel
        obtain ⟨p', hp', hprop⟩ := Option.map_eq_some_iff.mp hlabel
        obtain ⟨v, hrun, hv, hnear⟩ := ih (Nat.le_of_succ_le_succ hfuel) hop hp'
        refine ⟨v, ?_, hv, .up ho hmem rfl hclear (hprop ▸ hnear)⟩
        simp only [skipClear, ho, hp, Option.bind_eq_bind, Option.bind_some, if_pos hclear, if_neg hn,
          hrun]
      · refine ⟨p.var, ?_, hclear, .here ho hmem rfl hclear⟩
        simp only [skipClear, ho, hp, Option.bind_eq_bind, Option.bind_some, if_neg hclear]

theorem getBiValue_spec (ho : findObject s x = some o) (prop : BiProp) :
    ∃ v, getBiValue s prop x = some v := by
  obtain ⟨M, hp⟩ := hw.place
  have hcontents := contentsOf_eq hp ho
  cases prop
  all_goals
    simp only [getBiValue, ho, hcontents, Option.bind_eq_bind, Option.bind_some]
    exact ⟨_, rfl⟩

omit hw in
/-- What `db_find_property` is to find. -/
def FindsProperty (s : State) (x : Objid) (name : Str) : Option (Handle × Var) → Prop
  | none => builtinNamed name = none ∧
      ∀ y, Below (descent.get s) y x → ¬ Defines s y (strHash name) name
  | some (.builtIn prop oid, v) => builtinNamed name = some prop ∧ oid = x ∧
      getBiValue s prop x = some v
  | some (.slot definer oid n, v) => builtinNamed name = none ∧ oid = x ∧
      ∃ d, d.named (strHash name) name = true ∧ SlotAt s x definer d n ∧
        v ≠ .clear ∧ Nearest s d.prop x v

/-- `db_find_property` comes to an end and finds the slot of the definition, and the
    nearest value that is not clear. -/
theorem findPropertyValue_spec (ho : findObject s x = some o) (name : Str) :
    ∃ res, findPropertyValue s x name = some res ∧ FindsProperty s x name res := by
  obtain ⟨L, hf⟩ := hw.descent
  obtain ⟨res, hres, hspec⟩ := findProperty_spec hw x name
  cases res with
  | none =>
      refine ⟨none, ?_, hspec⟩
      simp only [findPropertyValue, hres, Option.bind_eq_bind, Option.bind_some]
  | some h =>
      cases h with
      | builtIn prop oid =>
          obtain ⟨hb, rfl⟩ := hspec
          obtain ⟨v, hv⟩ := getBiValue_spec hw ho prop
          refine ⟨some (.builtIn prop oid, v), ?_, hb, rfl, hv⟩
          simp only [findPropertyValue, hres, hv, Option.bind_eq_bind, Option.bind_some]
      | slot definer oid n =>
          obtain ⟨hb, rfl, d, hslot, hnamed⟩ := hspec
          obtain ⟨o', ho', p, hp, hprop, -⟩ := hslot.object
          rw [ho] at ho'
          cases ho'
          obtain ⟨os, hos, hlen⟩ := exists_path hf oid
          obtain ⟨v, hv, hvc, hnear⟩ := skipClear_spec hw hos hlen ho hp
          refine ⟨some (.slot definer oid n, v), ?_, hb, rfl, d, hnamed, hslot, hvc, hprop ▸ hnear⟩
          simp only [findPropertyValue, hres, hv, Option.bind_eq_bind, Option.bind_some]

end WellFormed

end Waverous.Db
