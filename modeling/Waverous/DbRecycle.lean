import Waverous.DbCalls
import Waverous.DbObjects

/-! # Recycling an object

    Its contents are moved out, one after the other, and its children are given to its
    parent.  Neither loop fails or goes on for ever: every round takes an object from
    the list, since no property of a child is defined above the object as well. -/

namespace Waverous.Db

open LinkedForest

variable {s s' : State} {L M : Objid → List Objid} {oid x : Objid} {o : Object}

/-! ## Quota -/

theorem builtinNamed_quotaName : builtinNamed quotaName = none := by decide

/-- What `decr_quota` and `incr_quota` do to the database, if anything. -/
theorem setSlot_wellFormed (hw : WellFormed s) (definer oid : Objid) (n : Nat) (k : Int32) :
    ∃ s', setPropertyValue (.slot definer oid n) (.int k) s = some s' ∧ WellFormed s' ∧ Alike s s' := by
  let g := fun p : Pval => { p with var := .int k }
  refine ⟨modifySlot oid n g s, rfl, ?_, alike_modify fun o _ => ?_⟩
  · exact modifySlot_wellFormed hw (fun _ => rfl) fun _ _ _ _ _ => nofun
  · show (o.id, o.descent, o.place, o.propdefs, (o.propval.modify n g).map Pval.prop) = shape o
    rw [map_modify_eq (g := g) fun _ => rfl]
    rfl

theorem incrQuota_spec (hw : WellFormed s) (player : Objid) :
    ∃ s', incrQuota s player = some s' ∧ WellFormed s' ∧ Alike s s' := by
  rw [incrQuota]
  split
  · exact ⟨s, rfl, hw, Alike.refl s⟩
  next hv =>
    obtain ⟨o, ho⟩ := Option.isSome_iff_exists.mp (show valid s player = true by simpa using hv)
    obtain ⟨res, hres, hspec⟩ := findPropertyValue_spec hw ho quotaName
    simp only [hres, Option.bind_eq_bind, Option.bind_some]
    split
    · exact ⟨s, rfl, hw, Alike.refl s⟩
    next h num =>
      cases h with
      | builtIn prop oid =>
          rw [FindsProperty, builtinNamed_quotaName] at hspec
          exact nomatch hspec.1
      | slot definer oid n => exact setSlot_wellFormed hw definer oid n (num + 1)
    · exact ⟨s, rfl, hw, Alike.refl s⟩

theorem decrQuota_spec (hw : WellFormed s) (player : Objid) :
    ∃ b s', decrQuota s player = some (b, s') ∧ WellFormed s' ∧ Alike s s' := by
  rw [decrQuota]
  split
  · exact ⟨true, s, rfl, hw, Alike.refl s⟩
  next hv =>
    obtain ⟨o, ho⟩ := Option.isSome_iff_exists.mp (show valid s player = true by simpa using hv)
    obtain ⟨res, hres, hspec⟩ := findPropertyValue_spec hw ho quotaName
    simp only [hres, Option.bind_eq_bind, Option.bind_some]
    split
    · exact ⟨true, s, rfl, hw, Alike.refl s⟩
    next h num =>
      split
      · exact ⟨false, s, rfl, hw, Alike.refl s⟩
      · cases h with
        | builtIn prop oid =>
            rw [FindsProperty, builtinNamed_quotaName] at hspec
            exact nomatch hspec.1
        | slot definer oid n =>
            obtain ⟨s', hs', hw', ha⟩ := setSlot_wellFormed hw definer oid n (num - 1)
            exact ⟨true, s', by rw [hs']; rfl, hw', ha⟩
    · exact ⟨true, s, rfl, hw, Alike.refl s⟩

/-! ## The contents -/

theorem moveContents_spec (called : Bool) {fuel : Nat} (hw : WellFormed s)
    (hf : Forest nothing (place.get s) M) (ho : findObject s oid = some o)
    (hfuel : (M oid).length < fuel) :
    ∃ b s', moveContents called oid fuel s = some (b, s') ∧ WellFormed s' ∧
      s'.numObjects = s.numObjects ∧
      ∃ o', findObject s' oid = some o' ∧ (b = false → o'.contents = nothing) := by
  induction fuel generalizing s o M with
  | zero => exact absurd hfuel (Nat.not_lt_zero _)
  | succ fuel ih =>
      by_cases hc : o.contents = nothing
      · refine ⟨false, s, ?_, hw, rfl, o, ho, fun _ => hc⟩
        simp only [moveContents, ho, Option.bind_eq_bind, Option.bind_some, if_pos hc]
      · obtain ⟨r, hr⟩ := hf.first_mem (show firstOf (place.get s) oid = some o.contents by
          rw [firstOf, place_get ho]; rfl) hc
        have hmem : o.contents ∈ M oid := by
          rw [hr]
          exact List.mem_cons_self
        obtain ⟨l, hl, -⟩ := hf.mem_valid hmem
        obtain ⟨oc, hoc, -⟩ := find_of_place hl
        obtain ⟨s1, hrun, hw1, hre⟩ := changeLocation_spec hw hf hoc (.inl rfl)
        obtain ⟨M1, hf1, hmem1⟩ := hre.forest
        obtain ⟨o1, ho1⟩ : ∃ o1, findObject s1 oid = some o1 :=
          Option.ne_none_iff_exists'.mp fun h => by
            rw [hre.links.none_iff, ho] at h
            cases h
        cases called with
        | true =>
            refine ⟨true, s1, ?_, hw1, hre.links.numObjects, o1, ho1, fun h => (by cases h)⟩
            simp only [moveContents, ho, hrun, Option.bind_eq_bind, Option.bind_some, if_neg hc,
              if_pos]
        | false =>
            have hlt := hf1.length_lt hmem fun d hd => by
              rcases (hmem1 oid d).mp hd with h | ⟨-, -, h⟩
              · exact h
              · exact absurd rfl h
            obtain ⟨b, s', hrun', hw', hn, hend⟩ := ih hw1 hf1 ho1 (by omega)
            refine ⟨b, s', ?_, hw', hn.trans hre.links.numObjects, hend⟩
            simp only [moveContents, ho, hrun, Option.bind_eq_bind, Option.bind_some, if_neg hc]
            exact hrun'

/-! ## The children -/

/-- The loop over the children comes to an end, and every change of a parent in it
    succeeds. -/
inductive Orphaned (oid : Objid) : State → State → Prop
  | done {s : State} {o : Object} : findObject s oid = some o → o.child = nothing →
      Orphaned oid s s
  | next {s s1 s' : State} {o : Object} : findObject s oid = some o → o.child ≠ nothing →
      changeParent s o.child o.parent = some (true, s1) → Orphaned oid s1 s' → Orphaned oid s s'

theorem orphanChildren_spec {fuel : Nat} (hw : WellFormed s)
    (hf : Forest nothing (descent.get s) L) (ho : findObject s oid = some o)
    (hfuel : (L oid).length < fuel) :
    ∃ s', orphanChildren oid fuel s = some s' ∧ Orphaned oid s s' ∧ WellFormed s' ∧
      s'.numObjects = s.numObjects ∧ place.get s' = place.get s ∧
      ∃ o', findObject s' oid = some o' ∧ o'.parent = o.parent ∧ o'.child = nothing := by
  induction fuel generalizing s o L with
  | zero => exact absurd hfuel (Nat.not_lt_zero _)
  | succ fuel ih =>
      by_cases hc : o.child = nothing
      · refine ⟨s, ?_, .done ho hc, hw, rfl, rfl, o, ho, rfl, hc⟩
        simp only [orphanChildren, ho, Option.bind_eq_bind, Option.bind_some, if_pos hc]
      · obtain ⟨r, hr⟩ := hf.first_mem (show firstOf (descent.get s) oid = some o.child by
          rw [firstOf, descent_get ho]; rfl) hc
        have hmem : o.child ∈ L oid := by
          rw [hr]
          exact List.mem_cons_self
        obtain ⟨l, hl, hup⟩ := hf.mem_valid hmem
        obtain ⟨oc, hoc, rfl⟩ := find_of_descent hl
        have hcp : oc.parent = oid := hup
        have hco : oid ≠ o.child := by
          intro h
          refine hf.not_below_child hmem ?_
          rw [← h]
          exact Below.refl _ _
        -- the grandparent is no child of its own
        have hp : o.parent = nothing ∨ (∃ op, findObject s o.parent = some op) ∧
            ¬ Below (descent.get s) o.child o.parent :=
          (parent_object hf ho).imp_right fun hop =>
            ⟨hop, fun hb => hf.not_below_child hmem (hb.step (up_descent ho))⟩
        have hcheck := check_grandparent hw hoc (hcp.symm ▸ ho)
        obtain ⟨s1, hrun, hw1, hre⟩ := changeParent_spec hw hf hoc hp hcheck
        rw [if_pos rfl] at hre
        obtain ⟨L1, hf1, hmem1⟩ := hre.forest
        have hup1 := hre.up_ne hco
        rw [up_descent ho] at hup1
        obtain ⟨l1, hl1, hl1p⟩ := Option.map_eq_some_iff.mp hup1
        obtain ⟨o1, ho1, rfl⟩ := find_of_descent hl1
        have hlt := hf1.length_lt hmem fun d hd => by
          rcases (hmem1 oid d).mp hd with h | ⟨-, h, hpn⟩
          · exact h
          · refine absurd ?_ (not_below_parent hf ho)
            rw [← h]
            exact Below.refl _ _
        obtain ⟨s', hrun', horph, hw', hn, hpl, o', ho', hop', hoc'⟩ := ih hw1 hf1 ho1 (by omega)
        refine ⟨s', ?_, .next ho hc hrun horph, hw', hn.trans hre.numObjects, hpl.trans hre.place, o', ho',
          hop'.trans hl1p, hoc'⟩
        simp only [orphanChildren, ho, hrun, Option.bind_eq_bind, Option.bind_some, if_neg hc]
        exact hrun'

/-! ## The whole of it -/

/-- Nothing is in the way of a parent that is not there. -/
theorem check_nothing (hw : WellFormed s) (ho : findObject s oid = some o) :
    checkPropertiesForChparent s oid nothing = some true := by
  obtain ⟨L, hf⟩ := hw.descent
  obtain ⟨b, hb, hiff⟩ := checkPropertiesForChparent_spec hw ho nothing
  rw [hb, hiff.mpr]
  intro y oy x ox hy hoy
  obtain ⟨l, hl⟩ : ∃ l, descent.get s nothing = some l := hy.valid (descent_get hoy)
  rw [hf.nil_none] at hl
  exact nomatch hl

/-- From where the object has no contents and no location. -/
theorem demolish_spec (hw : WellFormed s) (ho : findObject s oid = some o)
    (hloc : o.location = nothing) (hcont : o.contents = nothing) :
    ∃ s', demolish s oid = some s' ∧ WellFormed s' := by
  obtain ⟨L, hf⟩ := hw.descent
  obtain ⟨s1, hrun1, -, hw1, -, hpl1, o1, ho1, hup1, hchild1⟩ :=
    orphanChildren_spec hw hf ho (Nat.lt_succ_of_le (length_children_le hf oid))
  obtain ⟨L1, hf1⟩ := hw1.descent
  obtain ⟨s2, hrun2, hw2, hre⟩ := changeParent_spec hw1 hf1 ho1 (.inl rfl) (check_nothing hw1 ho1)
  rw [if_pos rfl] at hre
  obtain ⟨l2, hl2, hup2⟩ := Option.map_eq_some_iff.mp (hre.up_self ho1)
  obtain ⟨o2, ho2, rfl⟩ := find_of_descent hl2
  -- the list of children is still empty
  have hempty1 : L1 oid = [] := hf1.list_nil (descent_get ho1) hchild1
  obtain ⟨L2, hf2, hmem2⟩ := hre.forest
  have hempty2 : L2 oid = [] := by
    refine List.eq_nil_iff_forall_not_mem.mpr fun c hc => ?_
    rcases (hmem2 oid c).mp hc with ⟨h, -⟩ | ⟨-, -, h⟩
    · rw [hempty1] at h
      exact nomatch h
    · exact h rfl
  obtain ⟨s3, hrun3, hw3, ha⟩ := incrQuota_spec hw2 o2.owner
  obtain ⟨o3, ho3⟩ : ∃ o3, findObject s3 oid = some o3 := by
    obtain ⟨o3, ho3, -⟩ := find_of_descent (by rw [ha.descent]; exact descent_get ho2)
    exact ⟨o3, ho3⟩
  obtain ⟨o2', ho2', -, hde, hpl, -⟩ := ha.object ho3
  rw [ho2] at ho2'
  cases ho2'
  have hplace : o2.place = o.place := by
    have := congrFun (hre.place.trans hpl1) oid
    rw [place_get ho2, place_get ho] at this
    exact Option.some.inj this
  obtain ⟨s4, hrun4, hw4⟩ := destroyObject_wellFormed hw3 ho3
    (by rw [hpl, hplace]; exact ⟨hloc, hcont⟩)
    (by rw [hde]; exact ⟨hup2, hf2.first_nil (descent_get ho2) hempty2⟩)
  refine ⟨s4, ?_, hw4⟩
  simp only [demolish, hrun1, hrun2, ho2, hrun3, hrun4, Option.bind_eq_bind, Option.bind_some]

/-- The moving of the contents, and of the object, comes to an end. -/
theorem leavePlaces_spec (hw : WellFormed s) (called : Objid → Bool)
    (ho : findObject s oid = some o) :
    ∃ b s', leavePlaces s called oid = some (b, s') ∧ WellFormed s' ∧
      (b = false → ∃ o', findObject s' oid = some o' ∧ o'.location = nothing ∧
        o'.contents = nothing) := by
  obtain ⟨M, hp⟩ := hw.place
  obtain ⟨b, s1, hrun1, hw1, -, o1, ho1, hcont⟩ := moveContents_spec (called oid) hw hp ho
    (Nat.lt_succ_of_le (length_contents_le hp oid))
  simp only [leavePlaces, hrun1, Option.bind_eq_bind, Option.bind_some]
  cases b with
  | true => exact ⟨true, s1, rfl, hw1, fun h => (by cases h)⟩
  | false =>
      have hcont := hcont rfl
      -- out of its own location
      obtain ⟨s2, hrun2, hw2, o2, ho2, hloc2, hcont2⟩ : ∃ s2,
          (if o1.location ≠ nothing then changeLocation s1 oid nothing else some s1) = some s2 ∧
          WellFormed s2 ∧ ∃ o2, findObject s2 oid = some o2 ∧ o2.location = nothing ∧
            o2.contents = nothing := by
        by_cases hl : o1.location = nothing
        · exact ⟨s1, if_neg (not_not.mpr hl), hw1, o1, ho1, hl, hcont⟩
        · obtain ⟨M1, hp1⟩ := hw1.place
          obtain ⟨s2, hrun2, hw2, hre⟩ := changeLocation_spec hw1 hp1 ho1 (.inl rfl)
          obtain ⟨M2, hp2, hmem2⟩ := hre.forest
          have hup : upOf (place.get s2) oid = some nothing := by
            rw [hre.up, Store.setAt_self (show upOf (place.get s1) oid = some o1.location by
              rw [upOf, place_get ho1]; rfl)]
          obtain ⟨l2, hl2, hup2⟩ := Option.map_eq_some_iff.mp hup
          obtain ⟨o2, ho2, rfl⟩ := find_of_place hl2
          have hempty1 : M1 oid = [] := hp1.list_nil (place_get ho1) hcont
          have hempty2 : M2 oid = [] := by
            refine List.eq_nil_iff_forall_not_mem.mpr fun c hc => ?_
            rcases (hmem2 oid c).mp hc with ⟨h, -⟩ | ⟨-, -, h⟩
            · rw [hempty1] at h
              cases h
            · exact h rfl
          exact ⟨s2, by rw [if_pos hl, hrun2], hw2, o2, ho2, hup2,
            hp2.first_nil (place_get ho2) hempty2⟩
      simp only [ho1, hrun2, Option.bind_some]
      exact ⟨_, s2, rfl, hw2, fun _ => ⟨o2, ho2, hloc2, hcont2⟩⟩

/-- `bf_recycle`, in the two parts. -/
theorem recycleContents_eq (s : State) (called : Objid → Bool) (oid : Objid) :
    recycleContents s called oid = if !valid s oid then some (.eNone, s)
      else (leavePlaces s called oid).bind fun r =>
        if r.1 then some (.eNone, r.2) else (demolish r.2 oid).map fun s => (.eNone, s) := by
  simp only [recycleContents, leavePlaces, demolish, Option.bind_eq_bind, refuse]
  split
  · rfl
  · cases moveContents (called oid) oid (s.numObjects + 1) s with
    | none => rfl
    | some r =>
        obtain ⟨b, s1⟩ := r
        cases b with
        | true => rfl
        | false =>
            simp only [Option.bind_some, Bool.false_eq_true, if_false]
            cases findObject s1 oid with
            | none => rfl
            | some o =>
                simp only [Option.bind_some]
                cases (if o.location ≠ nothing then changeLocation s1 oid nothing else some s1) with
                | none => rfl
                | some s2 =>
                    have hand : (decide (o.location ≠ nothing) && called o.location) = true ↔
                        o.location ≠ nothing ∧ called o.location = true := by
                      rw [Bool.and_eq_true, decide_eq_true_eq]
                    by_cases h : o.location ≠ nothing ∧ called o.location = true
                    · rw [Option.bind_some, if_pos h]
                      show _ = if (decide (o.location ≠ nothing) && called o.location) = true
                        then _ else _
                      rw [if_pos (hand.mpr h)]
                    · rw [Option.bind_some, if_neg h]
                      show _ = if (decide (o.location ≠ nothing) && called o.location) = true
                        then _ else _
                      rw [if_neg fun h' => h (hand.mp h')]
                      simp only [Option.map_eq_bind, Option.bind_assoc]
                      rfl

/-- `bf_recycle`, from the moving of the contents on, comes to an end. -/
theorem recycleContents_spec (hw : WellFormed s) (called : Objid → Bool) (oid : Objid) :
    ∃ e s', recycleContents s called oid = some (e, s') ∧ WellFormed s' := by
  rw [recycleContents_eq]
  split
  · exact ⟨_, s, rfl, hw⟩
  next hv =>
    obtain ⟨o, ho⟩ := Option.isSome_iff_exists.mp (show valid s oid = true by simpa using hv)
    obtain ⟨b, s1, hrun1, hw1, hend⟩ := leavePlaces_spec hw called ho
    simp only [hrun1, Option.bind_some]
    cases b with
    | true => exact ⟨_, s1, rfl, hw1⟩
    | false =>
        obtain ⟨o1, ho1, hloc, hcont⟩ := hend rfl
        obtain ⟨s', hrun, hw'⟩ := demolish_spec hw1 ho1 hloc hcont
        exact ⟨.eNone, s', by rw [hrun]; rfl, hw'⟩

end Waverous.Db
