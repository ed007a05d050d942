import Waverous.DbRenumber
import Waverous.Lib.Runs

/-! # Requests keep the database well-formed

    Every request comes to an end, without leaving its arrays or panicking, and ends in
    a well-formed database. -/

namespace Waverous.Db

open LinkedForest Runs

variable {s s' : State} {oid progr x : Objid} {o : Object}

/-- The request comes to an end in a well-formed database. -/
def Ends (r : Option Res) : Prop := ∃ e s', r = some (e, s') ∧ WellFormed s'

theorem Ends.refuse (hw : WellFormed s) (e : Error) : Ends (refuse s e) := ⟨e, s, rfl, hw⟩

/-! ## Properties -/

theorem bfAddProp_ends (hw : WellFormed s) (progr oid : Objid) (pname : Str) (value : Value)
    (info : Var) : Ends (bfAddProp s progr oid pname value info) := by
  rw [bfAddProp]
  split
  · exact Ends.refuse hw _
  · exact Ends.refuse hw _
  next owner flags _ =>
    split
    · exact Ends.refuse hw _
    next o ho =>
      split
      · exact Ends.refuse hw _
      · obtain ⟨b, s', hrun, hw'⟩ := addPropdef_spec hw ho pname value.property owner flags
        simp only [hrun, Option.bind_eq_bind, Option.bind_some]
        exact ⟨_, s', rfl, hw'⟩

theorem bfDeleteProp_ends (hw : WellFormed s) (progr oid : Objid) (pname : Str) :
    Ends (bfDeleteProp s progr oid pname) := by
  rw [bfDeleteProp]
  split
  · exact Ends.refuse hw _
  next o ho =>
    split
    · exact Ends.refuse hw _
    · obtain ⟨b, s', hrun, hw'⟩ := deletePropdef_spec hw ho pname
      simp only [hrun, Option.bind_eq_bind, Option.bind_some]
      exact ⟨_, s', rfl, hw'⟩

/-- The slot that a handle leads to. -/
theorem SlotAt.slotOf {definer : Objid} {d : Propdef} {n : Nat} (h : SlotAt s oid definer d n) :
    ∃ p, slotOf s (.slot definer oid n) = some p := by
  obtain ⟨o, ho, p, hp, -⟩ := h.object
  exact ⟨p, by simp only [Db.slotOf, ho, hp, Option.bind_eq_bind, Option.bind_some]⟩

theorem bfClearProp_ends (hw : WellFormed s) (progr oid : Objid) (pname : Str) :
    Ends (bfClearProp s progr oid pname) := by
  rw [bfClearProp]
  split
  · exact Ends.refuse hw _
  obtain ⟨res, hres, hspec⟩ := findProperty_spec hw oid pname
  simp only [hres, Option.bind_eq_bind, Option.bind_some]
  split
  · exact Ends.refuse hw _
  · exact Ends.refuse hw _
  next definer oid' n =>
    obtain ⟨-, rfl, d, hslot, -⟩ := hspec
    obtain ⟨p, hp⟩ := hslot.slotOf
    simp only [hp, Option.bind_some]
    split
    · exact Ends.refuse hw _
    · split
      · exact Ends.refuse hw _
      next hne => exact ⟨_, _, rfl, clearSlot_wellFormed hw hslot hne⟩

theorem setPropInfo_ends (hw : WellFormed s) (progr oid : Objid) (pname : Str) (info : Var) :
    Ends (setPropInfo s progr oid pname info) := by
  rw [setPropInfo]
  split
  · exact Ends.refuse hw _
  next hv =>
    obtain ⟨o, ho⟩ := Option.isSome_iff_exists.mp (show valid s oid = true by simpa using hv)
    split
    · exact Ends.refuse hw _
    next newOwner newFlags newName _ =>
      obtain ⟨res, hres, hspec⟩ := findProperty_spec hw oid pname
      simp only [hres, Option.bind_eq_bind, Option.bind_some]
      split
      · exact Ends.refuse hw _
      · exact Ends.refuse hw _
      next definer oid' n =>
        obtain ⟨-, rfl, d, hslot, -⟩ := hspec
        obtain ⟨p, hp⟩ := hslot.slotOf
        simp only [propertyAllows, hp, Option.bind_eq_bind, Option.bind_some]
        split
        · exact Ends.refuse hw _
        · split
          · obtain ⟨s', hrun, hw'⟩ := setPropertyInfo_wellFormed hw definer oid' n newOwner newFlags
            simp only [hrun, Option.bind_some]
            exact ⟨_, s', rfl, hw'⟩
          next name _ =>
            obtain ⟨b, s1, hrun1, hw1, hdef⟩ := renamePropdef_spec hw ho pname name
            simp only [hrun1, Option.bind_some]
            cases b with
            | false => exact Ends.refuse hw1 _
            | true =>
                -- now the property is to be found under its new name
                obtain ⟨o1, ho1, d1, hd1, hnamed1⟩ := hdef rfl
                rw [named_iff (hw1.names.hash ho1 d1 hd1)] at hnamed1
                have hbuiltin : builtinNamed name = none :=
                  (builtinNamed_congr hnamed1).symm.trans (hw1.names.builtin ho1 d1 hd1)
                obtain ⟨res1, hres1, hspec1⟩ := findProperty_spec hw1 oid' name
                simp only [hres1, Option.bind_some]
                cases res1 with
                | none => exact absurd (hdef rfl) (hspec1.2 oid' (Below.refl _ _))
                | some h =>
                    cases h with
                    | builtIn prop oid =>
                        rw [hbuiltin] at hspec1
                        exact nomatch hspec1.1
                    | slot definer1 oid1 n1 =>
                        obtain ⟨s', hrun, hw'⟩ :=
                          setPropertyInfo_wellFormed hw1 definer1 oid1 n1 newOwner newFlags
                        simp only [hrun, Option.bind_some]
                        exact ⟨_, s', rfl, hw'⟩

/-- What OP_PUT_PROP may store can be stored. -/
theorem setPropertyValue_total {h : Handle} {rhs : Var}
    (he : putPropError s progr h rhs = some .eNone) : ∃ s', setPropertyValue h rhs s = some s' := by
  cases h with
  | slot definer oid n => exact ⟨_, rfl⟩
  | builtIn prop oid =>
      obtain ⟨o, -, he⟩ := Option.bind_eq_some_iff.mp he
      have he := Option.some.inj he
      cases prop with
      | name =>
          cases rhs with
          | str t => exact ⟨_, rfl⟩
          | _ => exact nomatch he
      | owner =>
          cases rhs with
          | obj t => exact ⟨_, rfl⟩
          | _ => exact nomatch he
      | location => exact nomatch he
      | contents => exact nomatch he
      | _ => exact ⟨_, rfl⟩

theorem putProp_ends (hw : WellFormed s) (progr oid : Objid) (pname : Str) (rhs : Value) :
    Ends (putProp s progr oid pname rhs) := by
  rw [putProp]
  split
  · exact Ends.refuse hw _
  next hv =>
    obtain ⟨o, ho⟩ := Option.isSome_iff_exists.mp (show valid s oid = true by simpa using hv)
    obtain ⟨res, hres, hspec⟩ := findProperty_spec hw oid pname
    simp only [hres, Option.bind_eq_bind, Option.bind_some]
    split
    · exact Ends.refuse hw _
    next h =>
      obtain ⟨e, he⟩ : ∃ e, putPropError s progr h rhs.val = some e := by
        cases h with
        | slot definer oid' n =>
            obtain ⟨-, rfl, d, hslot, -⟩ := hspec
            obtain ⟨p, hp⟩ := hslot.slotOf
            simp only [putPropError, propertyAllows, hp, Option.bind_eq_bind, Option.bind_some]
            exact ⟨_, rfl⟩
        | builtIn prop oid' =>
            obtain ⟨-, rfl⟩ := hspec
            simp only [putPropError, ho, Option.bind_eq_bind, Option.bind_some]
            exact ⟨_, rfl⟩
      simp only [he, Option.bind_some]
      split
      next heq =>
        rw [heq] at he
        obtain ⟨s', hrun⟩ := setPropertyValue_total he
        simp only [hrun, Option.bind_some]
        exact ⟨_, s', rfl, setPropertyValue_wellFormed hw rhs.property hrun⟩
      · exact Ends.refuse hw _

/-! ## Objects -/

theorem bfChparent_ends (hw : WellFormed s) (progr what parent : Objid) :
    Ends (bfChparent s progr what parent) := by
  obtain ⟨L, hf⟩ := hw.descent
  rw [bfChparent]
  split
  · exact Ends.refuse hw _
  next o ho =>
    split
    · exact Ends.refuse hw _
    next hvp =>
      split
      · exact Ends.refuse hw _
      · have hp : parent = nothing ∨ ∃ op, findObject s parent = some op := by
          by_cases hp : parent = nothing
          · exact .inl hp
          · refine .inr (Option.isSome_iff_exists.mp ?_)
            by_contra hnv
            exact hvp ⟨by simpa [valid] using hnv, hp⟩
        obtain ⟨ps, hps, hseg⟩ := parents_eq hf hp
        simp only [hps, Option.bind_eq_bind, Option.bind_some]
        split
        · exact Ends.refuse hw _
        next hmem =>
          have hnb : ¬ Below (descent.get s) what parent := fun h =>
            hmem ((mem_parents_iff hf hseg (hf.ne_nil (descent_get ho))).mpr h)
          obtain ⟨b, hb, -⟩ := checkPropertiesForChparent_spec hw ho parent
          obtain ⟨s', hrun, hw', -⟩ :=
            changeParent_spec hw hf ho (hp.imp id fun h => ⟨h, hnb⟩) hb
          simp only [hrun, Option.bind_some]
          exact ⟨_, s', rfl, hw'⟩

/-- `bf_create`, from the quota on. -/
theorem create_end (hw : WellFormed s) {parent : Objid} (owner : Objid)
    (hp : parent = nothing ∨ ∃ op, findObject s parent = some op) :
    Ends (do
      let (left, s) ← (if valid s owner then decrQuota s owner else some (true, s))
      if !left then some (.eQuota, s)
      else
        let (oid, s) := createObject s
        let s := modify oid (fun o => { o with owner := if owner = nothing then oid else owner }) s
        let (_, s) ← changeParent s oid parent
        some (.eNone, s)) := by
  obtain ⟨b, s1, hrun1, hw1, ha⟩ : ∃ b s1,
      (if valid s owner then decrQuota s owner else some (true, s)) = some (b, s1) ∧
      WellFormed s1 ∧ Alike s s1 := by
    split
    · exact decrQuota_spec hw owner
    · exact ⟨true, s, rfl, hw, Alike.refl s⟩
  simp only [hrun1, Option.bind_eq_bind, Option.bind_some]
  cases b with
  | false => exact ⟨_, s1, rfl, hw1⟩
  | true =>
      have hoid : (createObject s1).1 = (s1.numObjects : Objid) := rfl
      have hfind := findObject_createObject s1
      have hnone := findObject_numObjects s1
      have hw2 := createObject_wellFormed hw1
      generalize (createObject s1).2 = s2 at *
      rw [hoid]
      generalize (s1.numObjects : Objid) = oid at *
      let f := fun o : Object => { o with owner := if owner = nothing then oid else owner }
      have hw3 : WellFormed (modify oid f s2) := hw2.modify_data oid fun _ => ⟨rfl, rfl⟩
      have ho3 : findObject (modify oid f s2) oid = some (f (emptyObject oid)) :=
        findObject_modify_self f ((hfind oid).trans (if_pos rfl))
      obtain ⟨L, hf3⟩ := hw3.descent
      have hp3 : parent = nothing ∨ (∃ op, findObject (modify oid f s2) parent = some op) ∧
          ¬ Below (descent.get (modify oid f s2)) oid parent := by
        refine hp.imp id fun ⟨op, hop⟩ => ?_
        obtain ⟨op1, hop1, -⟩ := find_of_descent (by rw [ha.descent]; exact descent_get hop)
        have hne : parent ≠ oid := by
          rintro rfl
          rw [hnone] at hop1
          exact nomatch hop1
        refine ⟨⟨op1, ?_⟩, fun hb => ?_⟩
        · rw [findObject_modify_ne f hne, hfind, if_neg hne, hop1]
        · -- nothing is below the new object
          obtain ⟨c, hc, -⟩ := hf3.below_child hb (hf3.ne_nil (descent_get ho3)) hne
          rw [hf3.list_nil (descent_get ho3) rfl] at hc
          exact nomatch hc
      obtain ⟨b, hb, -⟩ := checkPropertiesForChparent_spec hw3 ho3 parent
      obtain ⟨s', hrun, hw', -⟩ := changeParent_spec hw3 hf3 ho3 hp3 hb
      refine ⟨.eNone, s', ?_, hw'⟩
      show (changeParent (modify oid f s2) oid parent).bind _ = _
      rw [hrun]
      rfl

theorem bfCreate_ends (hw : WellFormed s) (progr parent owner : Objid) :
    Ends (bfCreate s progr parent owner) := by
  cases hop : findObject s parent with
  | some op =>
      simp only [bfCreate, hop]
      split
      · exact Ends.refuse hw _
      · exact create_end hw owner (.inr ⟨op, hop⟩)
  | none =>
      simp only [bfCreate, hop]
      by_cases hp : parent = nothing
      · split
        · exact Ends.refuse hw _
        · exact create_end hw owner (.inl hp)
      · rw [beq_eq_false_iff_ne.mpr hp]
        exact Ends.refuse hw _

theorem bfRecycle_ends (hw : WellFormed s) (progr : Objid) (called : Objid → Bool) (oid : Objid) :
    Ends (bfRecycle s progr called oid) := by
  rw [bfRecycle]
  split
  · exact Ends.refuse hw _
  · split
    · exact recycleContents_spec hw called oid
    · exact Ends.refuse hw _

theorem bfRenumber_ends (hw : WellFormed s) (progr old : Objid) : Ends (bfRenumber s progr old) := by
  rw [bfRenumber]
  split
  · exact Ends.refuse hw _
  next hv =>
    obtain ⟨o, ho⟩ := Option.isSome_iff_exists.mp (show valid s old = true by simpa using hv)
    split
    · exact Ends.refuse hw _
    · obtain ⟨n, s', hrun, hw'⟩ := renumberObject_wellFormed hw ho
      refine ⟨.eNone, s', ?_, hw'⟩
      simp only [hrun, Option.bind_eq_bind, Option.bind_some]

/-! ## Runs -/

theorem request_ends (hw : WellFormed s) (op : Op) : Ends (request op s) := by
  cases op with
  | create progr parent owner => exact bfCreate_ends hw progr parent owner
  | addProp progr oid pname value info => exact bfAddProp_ends hw progr oid pname value info
  | setPropInfo progr oid pname info => exact setPropInfo_ends hw progr oid pname info
  | deleteProp progr oid pname => exact bfDeleteProp_ends hw progr oid pname
  | putProp progr oid pname rhs => exact putProp_ends hw progr oid pname rhs
  | clearProp progr oid pname => exact bfClearProp_ends hw progr oid pname
  | chparent progr what parent => exact bfChparent_ends hw progr what parent
  | recycle progr called oid => exact bfRecycle_ends hw progr called oid
  | recycleOn called oid => exact recycleContents_spec hw called oid
  | renumber progr old => exact bfRenumber_ends hw progr old

/-- A request leads from a well-formed database to a well-formed database. -/
theorem step_wellFormed (hw : WellFormed s) (op : Op) :
    ∃ s', step op s = some s' ∧ WellFormed s' := by
  obtain ⟨e, s', hrun, hw'⟩ := request_ends hw op
  exact ⟨s', by rw [step, hrun]; rfl, hw'⟩

/-- So does any sequence of requests. -/
theorem run_wellFormed (hw : WellFormed s) (ops : List Op) :
    ∃ s', Run (ofPart step) s ops s' ∧ WellFormed s' := by
  induction ops generalizing s with
  | nil => exact ⟨s, .nil s, hw⟩
  | cons op ops ih =>
      obtain ⟨s1, hstep, hw1⟩ := step_wellFormed hw op
      obtain ⟨s', hrun, hw'⟩ := ih hw1
      exact ⟨s', .cons hstep hrun, hw'⟩

/-! ## The layout -/

/-- What is defined on an object and its ancestors has one slot each. -/
theorem WellFormed.nodup_labels (hw : WellFormed s) {os : List Object} (hos : Path s x os) :
    (os.flatMap propIds).Nodup := by
  obtain ⟨L, hf⟩ := hw.descent
  induction hos with
  | top _ => exact List.nodup_nil
  | @step x o os ho hrest ih =>
      rw [List.flatMap_cons, List.nodup_append]
      refine ⟨hw.idents.nodup ho, ih, ?_⟩
      rintro a ha b hb rfl
      obtain ⟨o', ho', hb⟩ := List.mem_flatMap.mp hb
      obtain ⟨y, hy, hoy⟩ := hrest.mem_iff.mp ho'
      obtain ⟨d, hd, hda⟩ := List.mem_map.mp ha
      obtain ⟨e, he, hea⟩ := List.mem_map.mp hb
      have hne : x ≠ y := by
        rintro rfl
        exact not_below_parent hf ho hy
      exact hw.idents.disjoint hne ho hoy d hd e he (hda.trans hea.symm)

/-- The slots of an object, as the layout has them. -/
structure LaidOutAt (s : State) (x : Objid) (o : Object) : Prop where
  /-- one slot for each definition on the object and its ancestors, in this order -/
  slots : ∃ os, Path s x os ∧ labels o = os.flatMap propIds ∧ (labels o).Nodup
  /-- own definitions first, then the layout of the parent -/
  own : labels o = propIds o ++ labelsAt s o.parent
  /-- no slot of an own definition is clear -/
  defined : ∀ p ∈ o.propval.take o.curLength, p.var ≠ .clear

theorem WellFormed.laidOutAt (hw : WellFormed s) (ho : findObject s x = some o) : LaidOutAt s x o := by
  obtain ⟨L, hf⟩ := hw.descent
  obtain ⟨os, hos, -⟩ := exists_path hf x
  have heq : labels o = os.flatMap propIds := by
    rw [← labelsAt_eq ho, hos.labels_eq hw.slots]
  exact ⟨⟨os, hos, heq, heq ▸ hw.nodup_labels hos⟩, hw.slots.layout ho, hw.slots.defined ho⟩

/-- In every database that requests lead to from a well-formed one, the slots are laid
    out, and finding a property ends with its slot and its nearest value. -/
theorem slots_stay_laid_out (hw : WellFormed s) (ops : List Op) :
    ∃ s', Run (ofPart step) s ops s' ∧ ∀ x o, findObject s' x = some o → LaidOutAt s' x o ∧
      ∀ name, ∃ res, findPropertyValue s' x name = some res ∧ FindsProperty s' x name res := by
  obtain ⟨s', hrun, hw'⟩ := run_wellFormed hw ops
  exact ⟨s', hrun, fun x o ho =>
    ⟨hw'.laidOutAt ho, fun name => findPropertyValue_spec hw' ho name⟩⟩

/-- A database without objects. -/
def emptyDb : State := ⟨[], [], 0⟩

theorem findObject_emptyDb (x : Objid) : findObject emptyDb x = none := by
  cases x <;> rfl

theorem emptyDb_wellFormed : WellFormed emptyDb := by
  have hnone : ∀ {x o} {P : Prop}, findObject emptyDb x = some o → P := by
    intro x o P h
    rw [findObject_emptyDb] at h
    exact nomatch h
  have hmap : ∀ {β : Type} (f : Object → β) (x : Objid), (findObject emptyDb x).map f = none := by
    intro β f x
    rw [findObject_emptyDb]
    rfl
  exact ⟨hnone, ⟨_, forest_empty (hmap _)⟩, ⟨_, forest_empty (hmap _)⟩, ⟨hnone, hnone⟩,
    ⟨hnone, hnone, fun _ _ => hnone, hnone⟩, ⟨hnone, hnone, fun _ => hnone⟩, hnone⟩

theorem seven_ne_clear : Var.int 7 ≠ .clear := by decide

theorem eight_ne_clear : Var.int 8 ≠ .clear := by decide

/-- The requests of someone who makes an object with a property and a child, changes
    the property in the child, and recycles the object. -/
def sampleOps : List Op :=
  [.create nothing nothing nothing,
    .addProp 0 0 [112] ⟨.int 7, seven_ne_clear⟩ (.list [.obj 0, .str [114, 99]]),
    .create 0 0 0, .putProp 0 1 [112] ⟨.int 8, eight_ne_clear⟩, .clearProp 0 1 [112],
    .recycle 0 (fun _ => false) 0]

example : ((sampleOps.take 3).foldlM (fun s op => step op s) emptyDb).bind
    (fun s => findPropertyValue s 1 [112]) = some (some (.slot 0 1 0, .int 7)) := by decide

/-- The requests end in a database where all is laid out. -/
theorem slots_stay_laid_out_sample :
    ∃ s', Run (ofPart step) emptyDb sampleOps s' ∧ ∀ x o, findObject s' x = some o →
      LaidOutAt s' x o ∧
      ∀ name, ∃ res, findPropertyValue s' x name = some res ∧ FindsProperty s' x name res :=
  slots_stay_laid_out emptyDb_wellFormed sampleOps

end Waverous.Db
