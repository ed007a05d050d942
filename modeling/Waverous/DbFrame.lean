import Mathlib.Data.List.Pairwise
import Waverous.DbRequests

/-! # What changing a parent leaves alone

    Seen through `db_find_property`: what is defined in the subtree, and what the old and
    the new parent have in common, keeps its slot in every object of the subtree.  What
    only the old ancestors define goes, what only the new ancestors define comes, and is
    clear.  Nothing happens outside the subtree. -/

namespace Waverous.Db

open LinkedForest Runs

variable {s s' : State} {L : Objid → List Objid} {oid p x y : Objid} {o : Object} {name : Str}
  {pv : Pval} {A B C : List PropId} {news : List Pval}

/-- The definer and the slot of the property that `db_find_property` finds. -/
def propertySlot (s : State) (x : Objid) (name : Str) : Option (Objid × Pval) := do
  match ← findProperty s x name with
  | some (.slot definer oid n) => do
      let pv ← slotOf s (.slot definer oid n)
      some (definer, pv)
  | _ => none

/-- The object defines property `d` under the name. -/
def DefinesAs (s : State) (y : Objid) (name : Str) (d : PropId) : Prop :=
  ∃ o, findObject s y = some o ∧ ∃ e ∈ o.propdefs.l, strcaseEq e.name name = true ∧ d = e.prop

/-- An object has a slot of a property that `y` defines under the name. -/
structure HasSlot (s : State) (x : Objid) (name : Str) (y : Objid) (pv : Pval) : Prop where
  slot : ∃ o, findObject s x = some o ∧ pv ∈ o.propval
  defined : DefinesAs s y name pv.prop

/-- A slot belongs to a definition at or above its object. -/
theorem HasSlot.below (hw : WellFormed s) (h : HasSlot s x name y pv) :
    Below (descent.get s) y x := by
  obtain ⟨o, ho, hpv⟩ := h.slot
  obtain ⟨oy, hoy, d, hd, -, hprop⟩ := h.defined
  obtain ⟨os, hos, hlabels, -⟩ := (hw.laidOutAt ho).slots
  have hmem : pv.prop ∈ os.flatMap propIds := hlabels ▸ List.mem_map_of_mem hpv
  obtain ⟨oz, hoz, hz⟩ := List.mem_flatMap.mp hmem
  obtain ⟨z, hzx, hfz⟩ := hos.mem_iff.mp hoz
  obtain ⟨e, he, heq⟩ := List.mem_map.mp hz
  by_cases hzy : z = y
  · exact hzy ▸ hzx
  · exact absurd (heq.trans hprop) (hw.idents.disjoint hzy hfz hoy e he d hd)

/-- An object has one slot for a property. -/
theorem WellFormed.slot_unique (hw : WellFormed s) (ho : findObject s x = some o) {pv' : Pval}
    (h : pv ∈ o.propval) (h' : pv' ∈ o.propval) (heq : pv.prop = pv'.prop) : pv = pv' := by
  obtain ⟨-, -, -, hnodup⟩ := (hw.laidOutAt ho).slots
  exact List.inj_on_of_nodup_map hnodup h h' heq

/-- Two definitions of one object have different names. -/
theorem Names.own_ne (hn : Names s) (ho : findObject s x = some o) {d e : Propdef}
    (hd : d ∈ o.propdefs.l) (he : e ∈ o.propdefs.l) (hne : d ≠ e) :
    strcaseEq d.name e.name = false := by
  have hsymm : Std.Symm fun d e : Propdef => strcaseEq d.name e.name = false :=
    ⟨fun a b h => (strcaseEq_comm b.name a.name).trans h⟩
  exact (hn.own ho).forall hd he hne

/-- `db_find_property` finds the slot of a property under its name. -/
theorem propertySlot_iff (hw : WellFormed s) :
    propertySlot s x name = some (y, pv) ↔ HasSlot s x name y pv := by
  obtain ⟨res, hres, hspec⟩ := findProperty_spec hw x name
  constructor
  · intro h
    simp only [propertySlot, hres, Option.bind_eq_bind, Option.bind_some] at h
    split at h
    next definer oid n =>
      obtain ⟨-, rfl, d, ⟨⟨o, ho, pv', hpv, hprop, -⟩, ⟨oy, hoy, hd⟩, -⟩, hnamed⟩ := hspec
      simp only [slotOf, ho, hpv, Option.bind_eq_bind, Option.bind_some, Option.some.injEq,
        Prod.mk.injEq] at h
      obtain ⟨rfl, rfl⟩ := h
      rw [named_iff (hw.names.hash hoy d hd)] at hnamed
      exact ⟨⟨o, ho, List.mem_of_getElem? hpv⟩, oy, hoy, d, hd, hnamed, hprop⟩
    next => cases h
  · intro h
    have hyx := h.below hw
    obtain ⟨o, ho, hpv⟩ := h.slot
    obtain ⟨oy, hoy, d, hd, hnamed, hprop⟩ := h.defined
    have hdef : Defines s y (strHash name) name :=
      ⟨oy, hoy, d, hd, (named_iff (hw.names.hash hoy d hd) name).trans hnamed⟩
    have hbuiltin : builtinNamed name = none :=
      (builtinNamed_congr hnamed).symm.trans (hw.names.builtin hoy d hd)
    cases res with
    | none => exact absurd hdef (hspec.2 y hyx)
    | some res =>
        cases res with
        | builtIn prop oid =>
            rw [hspec.1] at hbuiltin
            cases hbuiltin
        | slot definer oid n =>
            obtain ⟨-, rfl, e, ⟨⟨o', ho', pv', hpv', hprop', -⟩, ⟨oe, hoe, he⟩, hbelow⟩, hnamed'⟩ := hspec
            rw [ho] at ho'
            cases ho'
            rw [named_iff (hw.names.hash hoe e he)] at hnamed'
            have hsame : strcaseEq d.name e.name = true := by
              rw [strcaseEq_congr hnamed, strcaseEq_comm, hnamed']
            -- one name, one definition
            have hone : definer = y := by
              by_contra hne
              rcases hbelow.comparable hyx with hb | hb
              · have := hw.names.path hb hne hoe hoy e he d hd
                rw [strcaseEq_comm, hsame] at this
                cases this
              · have := hw.names.path hb (Ne.symm hne) hoy hoe d hd e he
                rw [hsame] at this
                cases this
            subst hone
            rw [hoy] at hoe
            cases hoe
            have hde : d = e := by
              by_contra hne
              have := hw.names.own_ne hoy hd he hne
              rw [hsame] at this
              cases this
            subst hde
            have := hw.slot_unique ho hpv (List.mem_of_getElem? hpv') (hprop.trans hprop'.symm)
            subst this
            simp only [propertySlot, hres, slotOf, ho, hpv', Option.bind_eq_bind, Option.bind_some]

/-! ## The slots of the subtree -/

/-- What the layout of an object is for. -/
theorem WellFormed.mem_labelsAt (hw : WellFormed s) {d : PropId} :
    d ∈ labelsAt s x ↔ ∃ y oy, Below (Db.descent.get s) y x ∧ findObject s y = some oy ∧
      d ∈ propIds oy := by
  obtain ⟨L, hf⟩ := hw.descent
  obtain ⟨os, hos, -⟩ := exists_path hf x
  rw [hos.labels_eq hw.slots, List.mem_flatMap]
  constructor
  · rintro ⟨oy, hmem, hd⟩
    obtain ⟨y, hy, hoy⟩ := hos.mem_iff.mp hmem
    exact ⟨y, oy, hy, hoy, hd⟩
  · rintro ⟨y, oy, hy, hoy, hd⟩
    exact ⟨oy, hos.mem_iff.mpr ⟨y, hy, hoy⟩, hd⟩

/-- When the layout of an object has the property of a slot, its definer is above. -/
theorem DefinesAs.mem_labelsAt_iff (hw : WellFormed s) {z : Objid} {d : PropId}
    (h : DefinesAs s y name d) : d ∈ labelsAt s z ↔ Below (descent.get s) y z := by
  obtain ⟨oy, hoy, d, hd, -, rfl⟩ := h
  rw [hw.mem_labelsAt]
  constructor
  · rintro ⟨w, ow, hwz, how, hmem⟩
    obtain ⟨e, he, heq⟩ := List.mem_map.mp hmem
    by_cases hwy : w = y
    · exact hwy ▸ hwz
    · exact absurd heq (hw.idents.disjoint hwy how hoy e he d hd)
  · intro hyz
    exact ⟨y, oy, hyz, hoy, List.mem_map_of_mem hd⟩

@[simp] theorem inherit_prop (p : Pval) (owner : Objid) : (p.inherit owner).prop = p.prop := by
  simp only [Pval.inherit, Pval.chown]
  split <;> rfl

/-- The slots of an object in the subtree, before and after. -/
theorem Changed.slots (hw : WellFormed s) (h : Changed s s' oid p o A B C news)
    (ho : findObject s oid = some o) {ox : Object} (hx : Below (descent.get s) oid x)
    (hox : findObject s x = some ox) :
    ∃ U V W ox', ox.propval = U ++ V ++ W ∧ V.map Pval.prop = B ∧ W.map Pval.prop = C ∧
      findObject s' x = some ox' ∧
      ox'.propval = U ++ news.map (fun p => p.inherit ox.owner) ++ W := by
  obtain ⟨pre, hpre⟩ := labelsAt_above (P := fun _ => True)
    (fun _ hoy => ⟨hw.slots.layout hoy, trivial⟩) trivial hx
  rw [labelsAt_eq hox, labelsAt_eq ho, hw.slots.layout ho, h.old] at hpre
  have hplace : placeAt s oid o.curLength x = pre.length + o.curLength := by
    rw [placeAt, labelsAt_eq hox, labelsAt_eq ho, hw.slots.layout ho, h.old, hpre]
    simp only [List.length_append]
    omega
  obtain ⟨ox', hox', -, hvals⟩ := h.inside hx hox
  rw [fixedSlots, splice, hplace] at hvals
  refine ⟨_, (ox.propval.drop (pre.length + o.curLength)).take B.length, _, ox', ?_, ?_, ?_, hox',
    hvals⟩
  · generalize pre.length + o.curLength = k
    rw [List.append_assoc, ← List.drop_drop, List.take_append_drop, List.take_append_drop]
  · rw [List.map_take, List.map_drop]
    show ((labels ox).drop _).take _ = _
    rw [hpre, ← List.append_assoc, ← length_propIds, ← List.length_append, List.drop_left,
      List.take_left]
  · rw [List.map_drop]
    show (labels ox).drop _ = _
    rw [hpre, ← List.append_assoc, ← List.append_assoc, ← length_propIds, ← List.length_append,
      ← List.length_append, List.drop_left]

/-- Definitions stay where they are. -/
theorem Changed.defines_iff (h : Changed s s' oid p o A B C news) {d : PropId} :
    DefinesAs s' y name d ↔ DefinesAs s y name d := by
  have hdefs : ∀ {oy}, findObject s y = some oy →
      ∃ oy', findObject s' y = some oy' ∧ oy'.propdefs = oy.propdefs := by
    intro oy hoy
    by_cases hy : Below (descent.get s) oid y
    · obtain ⟨oy', hoy', hdefs, -⟩ := h.inside hy hoy
      exact ⟨oy', hoy', hdefs⟩
    · obtain ⟨oy', hoy', hdefs, -⟩ := h.outside hy hoy
      exact ⟨oy', hoy', hdefs⟩
  constructor
  · rintro ⟨oy', hoy', hd⟩
    cases hoy : findObject s y with
    | none =>
        rw [h.missing hoy] at hoy'
        exact nomatch hoy'
    | some oy =>
        obtain ⟨oy'', hoy'', heq⟩ := hdefs hoy
        rw [hoy'] at hoy''
        cases hoy''
        exact ⟨oy, hoy, heq ▸ hd⟩
  · rintro ⟨oy, hoy, hd⟩
    obtain ⟨oy', hoy', heq⟩ := hdefs hoy
    exact ⟨oy', hoy', heq ▸ hd⟩

/-- What changing the parent of `oid` to `p` does to the properties that can be seen. -/
structure ChparentFrame (s s' : State) (oid p : Objid) (o : Object) : Prop where
  /-- what is defined in the subtree, or on a common ancestor, keeps its slot -/
  kept : ∀ {x name y pv}, Below (descent.get s) oid x → propertySlot s x name = some (y, pv) →
    Below (descent.get s) oid y ∨ Below (descent.get s) y o.parent ∧ Below (descent.get s) y p →
    propertySlot s' x name = some (y, pv)
  /-- what only the old ancestors define is gone -/
  gone : ∀ {x name y pv}, Below (descent.get s) oid x → propertySlot s x name = some (y, pv) →
    Below (descent.get s) y o.parent → ¬ Below (descent.get s) y p →
    ∀ name' pv', propertySlot s' x name' ≠ some (y, pv')
  /-- what only the new ancestors define is there, and clear -/
  comes : ∀ {x ox name y pv}, Below (descent.get s) oid x → findObject s x = some ox →
    propertySlot s p name = some (y, pv) → ¬ Below (descent.get s) y o.parent →
    propertySlot s' x name = some (y, ⟨.clear,
      if pv.perms &&& pfChown ≠ 0 then ox.owner else pv.owner, pv.perms, pv.prop⟩)
  /-- there is nothing else in the subtree -/
  all : ∀ {x name y pv}, Below (descent.get s) oid x → propertySlot s' x name = some (y, pv) →
    Below (descent.get s) oid y ∨ Below (descent.get s) y p
  /-- and nothing happens outside -/
  outside : ∀ {x}, ¬ Below (descent.get s) oid x →
    (findObject s' x).map Object.propval = (findObject s x).map Object.propval ∧
      ∀ name, propertySlot s' x name = propertySlot s x name

section Frame

variable (hw : WellFormed s) (h : Changed s s' oid p o A B C news)
  (ho : findObject s oid = some o)
include hw h ho

theorem Changed.kept (hx : Below (descent.get s) oid x) (hslot : HasSlot s x name y pv)
    (hy : Below (descent.get s) oid y ∨
      Below (descent.get s) y o.parent ∧ Below (descent.get s) y p) : HasSlot s' x name y pv := by
  obtain ⟨L, hf⟩ := hw.descent
  obtain ⟨ox, hox, hpv⟩ := hslot.slot
  obtain ⟨U, V, W, ox', hvals, hV, hW, hox', hvals'⟩ := h.slots hw ho hx hox
  refine ⟨⟨ox', hox', ?_⟩, h.defines_iff.mpr hslot.defined⟩
  rw [hvals']
  rw [hvals] at hpv
  have hold := h.old ▸ hslot.defined.mem_labelsAt_iff hw (z := o.parent)
  rcases hy with hy | ⟨hyq, hyp⟩
  · -- its definer is not above the old parent
    have hnot : pv.prop ∉ B ++ C := fun hmem => not_below_parent hf ho ((hold.mp hmem).trans hy)
    rw [← hV, ← hW, ← List.map_append] at hnot
    rw [List.append_assoc] at hpv ⊢
    rcases List.mem_append.mp hpv with hU | hVW
    · exact List.mem_append_left _ hU
    · exact absurd (List.mem_map_of_mem hVW) hnot
  · -- its slot is one of those behind
    obtain ⟨c, hc, hcommon⟩ := h.common
    obtain ⟨oy, hoy, -⟩ := hslot.defined
    have hmem : pv.prop ∈ C :=
      hc ▸ (hslot.defined.mem_labelsAt_iff hw).mpr ((hcommon hoy).mpr ⟨hyp, hyq⟩)
    rw [← hW] at hmem
    obtain ⟨pw, hpw, heq⟩ := List.mem_map.mp hmem
    have hpw' : pw ∈ ox.propval := hvals ▸ List.mem_append_right _ hpw
    obtain rfl := hw.slot_unique hox hpw' (hvals ▸ hpv) heq
    exact List.mem_append_right _ hpw

/-- What is not in the slots for what the old parent has alone stays; the rest goes. -/
theorem Changed.origin (hx : Below (descent.get s) oid x) (hslot : HasSlot s' x name y pv) :
    HasSlot s x name y pv ∧ Below (descent.get s) oid y ∨ Below (descent.get s) y p := by
  obtain ⟨ox, hox⟩ := object_below ho hx
  obtain ⟨U, V, W, ox', hvals, hV, hW, hox', hvals'⟩ := h.slots hw ho hx hox
  obtain ⟨ox'', hox'', hpv⟩ := hslot.slot
  rw [hox'] at hox''
  cases hox''
  have hdef := h.defines_iff.mp hslot.defined
  have hnew : pv.prop ∈ A ++ C → Below (descent.get s) y p := fun hmem =>
    (hdef.mem_labelsAt_iff hw).mp (h.new ▸ hmem)
  rw [hvals'] at hpv
  rcases List.mem_append.mp hpv with hpv | hpv
  · rcases List.mem_append.mp hpv with hpv | hpv
    · -- an own slot of the subtree: above the subtree the label would come twice
      have hpvx : pv ∈ ox.propval := by
        rw [hvals]
        exact List.mem_append_left _ (List.mem_append_left _ hpv)
      have hslot' : HasSlot s x name y pv := ⟨⟨ox, hox, hpvx⟩, hdef⟩
      refine .inl ⟨hslot', ?_⟩
      rcases hx.comparable (hslot'.below hw) with hb | hb
      · rcases hb.cases with rfl | ⟨q, hq, hb⟩
        · exact Below.refl _ _
        · rw [up_descent ho] at hq
          cases hq
          have hmem := (hdef.mem_labelsAt_iff hw).mpr hb
          rw [h.old, ← hV, ← hW, ← List.map_append] at hmem
          obtain ⟨-, -, -, hnodup⟩ := (hw.laidOutAt hox).slots
          rw [labels, hvals, List.append_assoc, List.map_append] at hnodup
          exact absurd rfl ((List.nodup_append.mp hnodup).2.2 _ (List.mem_map_of_mem hpv) _ hmem)
      · exact hb
    · obtain ⟨pw, hpw, rfl⟩ := List.mem_map.mp hpv
      refine .inr (hnew (List.mem_append_left _ ?_))
      rw [inherit_prop, ← h.labels]
      exact List.mem_map_of_mem hpw
  · refine .inr (hnew (List.mem_append_right _ ?_))
    rw [← hW]
    exact List.mem_map_of_mem hpv

theorem Changed.comes (hx : Below (descent.get s) oid x) {ox : Object}
    (hox : findObject s x = some ox) (hslot : HasSlot s p name y pv)
    (hy : ¬ Below (descent.get s) y o.parent) : HasSlot s' x name y (pv.inherit ox.owner) := by
  obtain ⟨U, V, W, ox', -, -, -, hox', hvals'⟩ := h.slots hw ho hx hox
  refine ⟨⟨ox', hox', ?_⟩, h.defines_iff.mpr ?_⟩
  · obtain ⟨np, hnp, hpv⟩ := hslot.slot
    have hmem := (hslot.defined.mem_labelsAt_iff hw).mpr (hslot.below hw)
    rw [h.new] at hmem
    have hA : pv.prop ∈ A := by
      rcases List.mem_append.mp hmem with hA | hC
      · exact hA
      · obtain ⟨c, hc, hcommon⟩ := h.common
        obtain ⟨oy, hoy, -⟩ := hslot.defined
        rw [hc, hslot.defined.mem_labelsAt_iff hw] at hC
        exact absurd ((hcommon hoy).mp hC).2 hy
    rw [← h.labels] at hA
    obtain ⟨pw, hpw, heq⟩ := List.mem_map.mp hA
    obtain ⟨np', hnp', htake⟩ := h.copied.resolve_left (List.ne_nil_of_mem hpw)
    rw [hnp] at hnp'
    cases hnp'
    obtain rfl := hw.slot_unique hnp (List.mem_of_mem_take (htake ▸ hpw)) hpv heq
    rw [hvals']
    exact List.mem_append_left _ (List.mem_append_right _ (List.mem_map_of_mem hpw))
  · rw [inherit_prop]
    exact hslot.defined

end Frame

/-- `db_change_parent`, when it succeeds, keeps to the frame. -/
theorem chparent_frame (hw : WellFormed s) (ho : findObject s oid = some o)
    (hp : p = nothing ∨ (∃ op, findObject s p = some op) ∧ ¬ Below (descent.get s) oid p)
    (hrun : changeParent s oid p = some (true, s')) : ChparentFrame s s' oid p o := by
  obtain ⟨L, hf⟩ := hw.descent
  obtain ⟨b, hb, -⟩ := checkPropertiesForChparent_spec hw ho p
  obtain rfl : b = true := by
    obtain ⟨s1, hrun1, -⟩ := changeParent_spec hw hf ho hp hb
    rw [hrun] at hrun1
    exact (congrArg Prod.fst (Option.some.inj hrun1)).symm
  obtain ⟨s1, A, B, C, news, hrun1, hw', -, h⟩ := changeParent_changed hw hf ho hp hb
  rw [hrun] at hrun1
  cases hrun1
  constructor
  · intro x name y pv hx hslot hy
    rw [propertySlot_iff hw] at hslot
    rw [propertySlot_iff hw']
    exact h.kept hw ho hx hslot hy
  · intro x name y pv hx hslot hyq hyp name' pv' hslot'
    rw [propertySlot_iff hw'] at hslot'
    rcases h.origin hw ho hx hslot' with ⟨-, hy⟩ | hy
    · exact not_below_parent hf ho (hyq.trans hy)
    · exact hyp hy
  · intro x ox name y pv hx hox hslot hy
    rw [propertySlot_iff hw] at hslot
    have hcomes := h.comes hw ho hx hox hslot hy
    rw [propertySlot_iff hw']
    rw [Pval.inherit, Pval.chown] at hcomes
    split at hcomes
    next hc =>
      rw [if_pos hc]
      exact hcomes
    next hc =>
      rw [if_neg hc]
      exact hcomes
  · intro x name y pv hx hslot
    rw [propertySlot_iff hw'] at hslot
    exact (h.origin hw ho hx hslot).imp And.right id
  · intro x hx
    have hvals : (findObject s' x).map Object.propval = (findObject s x).map Object.propval := by
      cases hox : findObject s x with
      | none => rw [h.missing hox]
      | some ox =>
          obtain ⟨ox', hox', -, heq⟩ := h.outside hx hox
          rw [hox', Option.map_some, Option.map_some, heq]
    refine ⟨hvals, fun name => Option.ext fun slot => ?_⟩
    obtain ⟨y, pv⟩ := slot
    rw [propertySlot_iff hw', propertySlot_iff hw]
    have hslot : ∀ t : State, (∃ o, findObject t x = some o ∧ pv ∈ o.propval) ↔
        ∃ pvs, (findObject t x).map Object.propval = some pvs ∧ pv ∈ pvs := by
      intro t
      simp only [Option.map_eq_some_iff, exists_exists_and_eq_and]
    constructor
    · rintro ⟨hpv, hdef⟩
      exact ⟨(hslot s).mpr (hvals ▸ (hslot s').mp hpv), h.defines_iff.mp hdef⟩
    · rintro ⟨hpv, hdef⟩
      exact ⟨(hslot s').mpr (hvals ▸ (hslot s).mp hpv), h.defines_iff.mpr hdef⟩

/-- An object with a property `p`, and two children with properties `q` and `s`. -/
def familyOps : List Op :=
  [.create nothing nothing nothing, .create 0 0 0, .create 0 0 0,
    .addProp 0 0 [112] ⟨.int 7, by decide⟩ (.list [.obj 0, .str [114, 99]]),
    .addProp 0 1 [113] ⟨.int 8, by decide⟩ (.list [.obj 0, .str [114]]),
    .addProp 0 2 [115] ⟨.int 9, by decide⟩ (.list [.obj 0, .str [114, 99]])]

def familyDb : State := (familyOps.foldlM (fun s op => step op s) emptyDb).getD emptyDb

theorem familyDb_eq : familyOps.foldlM (fun s op => step op s) emptyDb = some familyDb := by
  decide +kernel

theorem familyDb_wellFormed : WellFormed familyDb := by
  obtain ⟨s', hrun, hw⟩ := run_wellFormed emptyDb_wellFormed familyOps
  rw [run_ofPart_iff, familyDb_eq] at hrun
  cases hrun
  exact hw

/-- When the second object gets the third one as its parent, it has one slot more. -/
theorem chparent_frame_family : ∃ s' o, changeParent familyDb 1 2 = some (true, s') ∧
    ChparentFrame familyDb s' 1 2 o := by
  obtain ⟨s', hrun⟩ : ∃ s', changeParent familyDb 1 2 = some (true, s') := by
    have hdone : (changeParent familyDb 1 2).map Prod.fst = some true := by decide +kernel
    obtain ⟨⟨b, s'⟩, hrun, rfl⟩ := Option.map_eq_some_iff.mp hdone
    exact ⟨s', hrun⟩
  obtain ⟨o, ho⟩ : ∃ o, findObject familyDb 1 = some o :=
    Option.isSome_iff_exists.mp (by decide +kernel)
  refine ⟨s', o, hrun, chparent_frame familyDb_wellFormed ho (.inr ⟨?_, ?_⟩) hrun⟩
  · exact Option.isSome_iff_exists.mp (by decide +kernel)
  · -- the parent of the third object is the first one
    obtain ⟨L, hf⟩ := familyDb_wellFormed.descent
    have hps : parents familyDb 2 = some [2, 0] := by decide +kernel
    obtain ⟨ps, hps', hseg⟩ := parents_eq hf (.inr (Option.isSome_iff_exists.mp
      (show (findObject familyDb 2).isSome = true by decide +kernel)))
    rw [hps] at hps'
    cases hps'
    rw [← mem_parents_iff hf hseg (by decide)]
    decide

end Waverous.Db
