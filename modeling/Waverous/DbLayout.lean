import Waverous.DbDescend

/-! # The layout of slots

    The slots of an object are those of its own definitions and then those of its
    parent's layout, and the slots of its own definitions are not clear (`Slots`).
    Adding and deleting a definition, and changing a parent, splice the slots of a
    subtree at the place where the layouts of its objects change: behind `k` slots,
    where `k` grows by the number of own definitions from parent to child. -/

namespace Waverous.Db

open LinkedForest

variable {s s' : State} {L : Objid → List Objid} {r x : Objid} {o : Object}

/-! ## Splicing a list -/

section Splice

variable {α β : Type}

/-- Behind `k` elements, `del` elements go and `mid` comes. -/
def splice (k del : Nat) (mid l : List α) : List α := l.take k ++ mid ++ l.drop (k + del)

theorem splice_append (xs : List α) (k del : Nat) (mid l : List α) :
    splice (xs.length + k) del mid (xs ++ l) = xs ++ splice k del mid l := by
  simp only [splice, Nat.add_assoc, List.take_length_add_append, List.drop_length_add_append,
    List.append_assoc]

theorem map_splice (f : α → β) (k del : Nat) (mid l : List α) :
    (splice k del mid l).map f = splice k del (mid.map f) (l.map f) := by
  simp only [splice, List.map_append, List.map_take, List.map_drop]

theorem take_splice {m k : Nat} (del : Nat) (mid : List α) {l : List α} (hmk : m ≤ k)
    (hk : k ≤ l.length) : (splice k del mid l).take m = l.take m := by
  have hlen : m ≤ (l.take k).length := by
    rw [List.length_take]
    omega
  rw [splice, List.append_assoc, List.take_append_of_le_length hlen, List.take_take,
    Nat.min_eq_left hmk]

end Splice

/-! ## Layouts -/

/-- The definitions of an object. -/
def propIds (o : Object) : List PropId := o.propdefs.l.map Propdef.prop

/-- The definitions that the slots of an object are for. -/
def labels (o : Object) : List PropId := o.propval.map Pval.prop

/-- The same, of an object that may not be there. -/
def labelsAt (s : State) (x : Objid) : List PropId := ((findObject s x).map labels).getD []

theorem length_propIds (o : Object) : (propIds o).length = o.curLength := by simp [propIds]

theorem length_labels (o : Object) : (labels o).length = o.propval.length := by simp [labels]

theorem labelsAt_eq (h : findObject s x = some o) : labelsAt s x = labels o := by
  rw [labelsAt, h]
  rfl

theorem labelsAt_none (h : findObject s x = none) : labelsAt s x = [] := by
  rw [labelsAt, h]
  rfl

/-- The layout of the slots of all objects. -/
structure Slots (s : State) : Prop where
  layout : ∀ {x o}, findObject s x = some o → labels o = propIds o ++ labelsAt s o.parent
  defined : ∀ {x o}, findObject s x = some o → ∀ p ∈ o.propval.take o.curLength, p.var ≠ .clear

/-- An object has a slot for each definition of its own and each slot of its parent. -/
theorem Slots.length (h : Slots s) {x : Objid} {o : Object} (ho : findObject s x = some o) :
    o.curLength + (labelsAt s o.parent).length = o.propval.length := by
  have := congrArg List.length (h.layout ho)
  rw [length_labels, List.length_append, length_propIds] at this
  exact this.symm

/-- The layout of an object that has not the number `r`. -/
def LaidOut (s : State) (r : Objid) : Prop :=
  ∀ {x o}, x ≠ r → findObject s x = some o → labels o = propIds o ++ labelsAt s o.parent

/-- What `dbpriv_count_properties` counts. -/
theorem countProperties_eq (hf : Forest nothing (descent.get s) L) {N : Objid → Nat}
    {P : Objid → Prop} (hnone : ∀ x, findObject s x = none → N x = 0)
    (hstep : ∀ x o, P x → findObject s x = some o → N x = o.curLength + N o.parent ∧ P o.parent)
    (hx : P x) : countProperties s x = some (N x) := by
  obtain ⟨os, hos, -⟩ := exists_path hf x
  rw [countProperties, (ancestors_iff hf).mpr hos, Option.map_some]
  refine congrArg some ?_
  induction hos with
  | top h => exact (hnone _ h).symm
  | step h _ ih =>
      obtain ⟨hN, hP⟩ := hstep _ _ hx h
      rw [List.map_cons, List.sum_cons, ih hP, hN]

theorem SameButSlots.countProperties (h : SameButSlots s s')
    (hf : Forest nothing (Db.descent.get s) L) (x : Objid) :
    countProperties s' x = countProperties s x := by
  obtain ⟨os, hos, -⟩ := exists_path hf x
  obtain ⟨os', hos', heq⟩ := hos.same h
  have hf' : Forest nothing (Db.descent.get s') L := by rwa [h.descent]
  have hlen : os'.map Object.curLength = os.map Object.curLength := by
    have := congrArg (List.map fun e : Objid × Proplist => e.2.l.length) heq
    simpa only [List.map_map, Function.comp_def] using this
  rw [Db.countProperties, Db.countProperties, (ancestors_iff hf').mpr hos',
    (ancestors_iff hf).mpr hos, Option.map_some, Option.map_some, hlen]

/-- In a database with the right layout, the count is the number of slots. -/
theorem Slots.count (hs : Slots s) (hf : Forest nothing (descent.get s) L) (x : Objid) :
    countProperties s x = some (labelsAt s x).length := by
  refine countProperties_eq (N := fun x => (labelsAt s x).length) (P := fun _ => True) hf
    (fun x h => ?_) (fun x o _ h => ?_) trivial
  · show (labelsAt s x).length = 0
    rw [labelsAt_none h]
    rfl
  · refine ⟨?_, trivial⟩
    show (labelsAt s x).length = _
    rw [labelsAt_eq h, hs.layout h, List.length_append, length_propIds]

/-- What is below an object has at least its slots. -/
theorem LaidOut.length_le (hl : LaidOut s r) (hr : findObject s r = some o)
    (hx : Below (descent.get s) r x) : (labels o).length ≤ (labelsAt s x).length := by
  obtain ⟨ps, hps⟩ := hx
  induction ps generalizing x with
  | nil =>
      have hxr : x = r := hps
      subst hxr
      exact Nat.le_of_eq (by rw [labelsAt_eq hr])
  | cons y ps ih =>
      obtain ⟨rfl, m, hm, hps⟩ := hps
      obtain ⟨l, hl', rfl⟩ := Option.map_eq_some_iff.mp hm
      obtain ⟨ox, hox, rfl⟩ := find_of_descent hl'
      have hrest := ih hps
      by_cases hxr : x = r
      · subst hxr
        exact Nat.le_of_eq (by rw [labelsAt_eq hr])
      · rw [labelsAt_eq hox, hl hxr hox, List.length_append]
        exact Nat.le_trans hrest (Nat.le_add_left _ _)

/-- The place of the splice at `x`, when at `r` it is behind `k0` slots. -/
def placeAt (s : State) (r : Objid) (k0 : Nat) (x : Objid) : Nat :=
  (labelsAt s x).length + k0 - (labelsAt s r).length

theorem placeAt_self (s : State) (r : Objid) (k0 : Nat) : placeAt s r k0 r = k0 := by
  rw [placeAt]
  omega

section Place

variable {ro : Object} {k0 : Nat} (hl : LaidOut s r) (hr : findObject s r = some ro)
include hl hr

/-- From parent to child it grows by the definitions of the child. -/
theorem placeAt_child (hx : Below (descent.get s) r x) (hne : x ≠ r)
    (hox : findObject s x = some o) : placeAt s r k0 x = o.curLength + placeAt s r k0 o.parent := by
  have hle := hl.length_le hr (parent_below hx hne hox)
  rw [placeAt, placeAt, labelsAt_eq hox, hl hne hox, List.length_append, length_propIds,
    labelsAt_eq hr]
  omega

/-- It is behind the definitions of the object itself. -/
theorem placeAt_bounds (k0 : Nat) (hx : Below (descent.get s) r x)
    (hox : findObject s x = some o) :
    (x ≠ r → o.curLength ≤ placeAt s r k0 x) ∧ placeAt s r k0 x + ro.propval.length
      = o.propval.length + k0 := by
  have hle := hl.length_le hr hx
  refine ⟨fun hne => ?_, ?_⟩
  · rw [placeAt_child hl hr hx hne hox]
    omega
  · rw [placeAt, labelsAt_eq hr, labelsAt_eq hox, length_labels, length_labels]
    rw [labelsAt_eq hox, length_labels, length_labels] at hle
    omega

end Place

/-- When the slots of a subtree are spliced so that those of its root are right, all
    are. -/
theorem slots_of_splice {ro : Object} (k0 del : Nat) (mid : Objid → Object → List Pval)
    {M : List PropId} (hl : LaidOut s r) (hr : findObject s r = some ro)
    (hk : k0 ≤ ro.propval.length)
    (hM : ∀ x ox, Below (descent.get s) r x → findObject s x = some ox →
      (mid x ox).map Pval.prop = M)
    (hin : ∀ x ox, Below (descent.get s) r x → findObject s x = some ox → findObject s' x
      = some { ox with propval := splice (placeAt s r k0 x) del (mid x ox) ox.propval })
    (hout : ∀ x, ¬ Below (descent.get s) r x → findObject s' x = findObject s x)
    (hdef : ∀ {x ox}, x ≠ r → findObject s x = some ox →
      ∀ p ∈ ox.propval.take ox.curLength, p.var ≠ .clear)
    (hparent : ¬ Below (descent.get s) r ro.parent)
    (hroot : splice k0 del M (labels ro) = propIds ro ++ labelsAt s ro.parent)
    (hrootdef : ∀ p ∈ (splice k0 del (mid r ro) ro.propval).take ro.curLength, p.var ≠ .clear) :
    Slots s' := by
  have hspliced : ∀ {x ox}, Below (descent.get s) r x → findObject s x = some ox →
      labelsAt s' x = splice (placeAt s r k0 x) del M (labels ox) := by
    intro x ox hx hox
    rw [labelsAt_eq (hin x ox hx hox)]
    exact (map_splice Pval.prop _ _ _ _).trans (by rw [hM x ox hx hox]; rfl)
  have hkept : ∀ {x}, ¬ Below (descent.get s) r x → labelsAt s' x = labelsAt s x := by
    intro x hx
    rw [labelsAt, labelsAt, hout x hx]
  have hobj : ∀ {x o'}, findObject s' x = some o' → ∃ ox, findObject s x = some ox := by
    intro x o' ho'
    cases hox : findObject s x with
    | some ox => exact ⟨ox, rfl⟩
    | none =>
        have hnb : ¬ Below (descent.get s) r x := by
          intro hx
          obtain ⟨ox, hox'⟩ := object_below hr hx
          exact nomatch hox.symm.trans hox'
        rw [hout x hnb, hox] at ho'
        exact nomatch ho'
  constructor
  · intro x o' ho'
    obtain ⟨ox, hox⟩ := hobj ho'
    by_cases hx : Below (descent.get s) r x
    · have heq := hspliced hx hox
      rw [labelsAt_eq ho'] at heq
      rw [hin x ox hx hox] at ho'
      cases ho'
      rw [heq]
      show _ = propIds ox ++ labelsAt s' ox.parent
      by_cases hxr : x = r
      · subst hxr
        rw [hox] at hr
        cases hr
        rw [placeAt_self, hroot, hkept hparent]
      · have hp : Below (descent.get s) r ox.parent := parent_below hx hxr hox
        obtain ⟨op, hop⟩ := object_below hr hp
        rw [hspliced hp hop, placeAt_child hl hr hx hxr hox, hl hxr hox, ← length_propIds,
          splice_append, labelsAt_eq hop]
    · rw [hout x hx] at ho'
      have hxr : x ≠ r := by
        rintro rfl
        exact hx (Below.refl _ _)
      have hp : ¬ Below (descent.get s) r o'.parent := fun h => hx (h.step (up_descent ho'))
      rw [hl hxr ho', hkept hp]
  · intro x o' ho'
    obtain ⟨ox, hox⟩ := hobj ho'
    by_cases hx : Below (descent.get s) r x
    · rw [hin x ox hx hox] at ho'
      cases ho'
      by_cases hxr : x = r
      · subst hxr
        rw [hox] at hr
        cases hr
        rw [placeAt_self]
        exact hrootdef
      · obtain ⟨hown, hlen⟩ := placeAt_bounds hl hr k0 hx hox
        have hle : placeAt s r k0 x ≤ ox.propval.length := by omega
        intro p hp
        have hp' : p ∈ (splice (placeAt s r k0 x) del (mid x ox) ox.propval).take ox.curLength := hp
        rw [take_splice del (mid x ox) (hown hxr) hle] at hp'
        exact hdef hxr hox p hp'
    · rw [hout x hx] at ho'
      have hxr : x ≠ r := by
        rintro rfl
        exact hx (Below.refl _ _)
      exact hdef hxr ho'

/-! ## Counting above and below a change -/

theorem not_below_parent {ro : Object} (hf : Forest nothing (descent.get s) L)
    (hr : findObject s r = some ro) : ¬ Below (descent.get s) r ro.parent := by
  by_cases hp : ro.parent = nothing
  · rw [hp]
    intro h
    exact hf.ne_nil (descent_get hr) (hf.below_nil h)
  · exact hf.not_below_child (hf.mem_up (descent_get hr) hp)

section Count

variable {ro : Object} (hf : Forest nothing (descent.get s) L) (hl : LaidOut s r)
  (hr : findObject s r = some ro)
include hf hl hr

/-- Outside the subtree of `r` the slots are counted. -/
theorem count_outside (hx : ¬ Below (descent.get s) r x) :
    countProperties s x = some (labelsAt s x).length := by
  refine countProperties_eq (N := fun x => (labelsAt s x).length)
    (P := fun x => ¬ Below (descent.get s) r x) hf (fun x h => ?_) (fun x o hx h => ?_) hx
  · show (labelsAt s x).length = 0
    rw [labelsAt_none h]
    rfl
  · have hxr : x ≠ r := by
      rintro rfl
      exact hx (Below.refl _ _)
    refine ⟨?_, fun hp => hx (hp.step (up_descent h))⟩
    show (labelsAt s x).length = _
    rw [labelsAt_eq h, hl hxr h, List.length_append, length_propIds]

open Classical in
/-- In it, what `r` has more or less definitions than slots comes on top. -/
theorem count_below (hx : Below (descent.get s) r x) :
    countProperties s x = some ((labelsAt s x).length +
      (ro.curLength + (labelsAt s ro.parent).length) - ro.propval.length) := by
  have hp : ¬ Below (descent.get s) r ro.parent := not_below_parent hf hr
  have := countProperties_eq (P := fun _ => True) (x := x) hf
    (N := fun x => if Below (descent.get s) r x then (labelsAt s x).length +
      (ro.curLength + (labelsAt s ro.parent).length) - ro.propval.length
      else (labelsAt s x).length) (fun x h => ?_) (fun x o _ h => ⟨?_, trivial⟩) trivial
  · rwa [if_pos hx] at this
  · have hnb : ¬ Below (descent.get s) r x := by
      intro hb
      obtain ⟨ox, hox⟩ := object_below hr hb
      exact nomatch h.symm.trans hox
    show (if _ then _ else _) = 0
    rw [if_neg hnb, labelsAt_none h]
    rfl
  · show (if _ then _ else _) = _ + if _ then _ else _
    by_cases hxr : x = r
    · subst hxr
      rw [hr] at h
      cases h
      rw [if_pos (Below.refl _ _), if_neg hp, labelsAt_eq hr, length_labels]
      omega
    · by_cases hb : Below (descent.get s) r x
      · have hbp : Below (descent.get s) r o.parent := parent_below hb hxr h
        have hle := hl.length_le hr hbp
        rw [if_pos hb, if_pos hbp, labelsAt_eq h, hl hxr h, List.length_append, length_propIds]
        rw [length_labels] at hle
        omega
      · have hbp : ¬ Below (descent.get s) r o.parent := fun hp => hb (hp.step (up_descent h))
        rw [if_neg hb, if_neg hbp, labelsAt_eq h, hl hxr h, List.length_append, length_propIds]

end Count

/-! ## The three recursions -/

/-- The slot that `insert_prop_recursively` makes. -/
def newSlot (r : Objid) (pv : Pval) (x : Objid) (o : Object) : Pval :=
  (if x = r then pv else { pv with var := .clear }).chown o.owner

theorem inherit_inherit (p : Pval) (a b : Objid) : (p.inherit a).inherit b = p.inherit b := by
  by_cases hc : p.perms &&& pfChown ≠ 0
  · simp only [Pval.inherit, Pval.chown, if_pos hc]
  · simp only [Pval.inherit, Pval.chown, if_neg hc]

/-- The slots that `fix_props` makes. -/
def fixedSlots (s : State) (r : Objid) (k0 old : Nat) (news : List Pval) (x : Objid)
    (o : Object) : List Pval :=
  splice (placeAt s r k0 x) old (news.map fun p => p.inherit o.owner) o.propval

section Recursions

variable {ro : Object} (k0 : Nat) (hf : Forest nothing (descent.get s) L) (hl : LaidOut s r)
  (hr : findObject s r = some ro)
include hf hl hr

/-- Every object of the subtree gets a slot. -/
theorem insertPropRecursively_spec (pv : Pval) (hk : k0 ≤ ro.propval.length)
    (hcount : ro.curLength + (labelsAt s ro.parent).length = ro.propval.length + 1) :
    ∃ t, insertPropRecursively r k0 pv s = some t ∧ SameButSlots s t ∧
      (∀ x ox, Below (descent.get s) r x → findObject s x = some ox → findObject t x
        = some { ox with propval := splice (placeAt s r k0 x) 0 [newSlot r pv x ox] ox.propval }) ∧
      ∀ x, ¬ Below (descent.get s) r x → findObject t x = findObject s x := by
  have := descend_spec (fun b => insertProp b.1 b.2)
    (fun b _ c => (c.curLength + b.1, { b.2 with var := .clear })) hf
    (fun x => (placeAt s r k0 x, if x = r then pv else { pv with var := .clear }))
    (fun x ox => splice (placeAt s r k0 x) 0 [newSlot r pv x ox] ox.propval) ?_ ?_ ⟨ro, hr⟩
  · rwa [placeAt_self, if_pos rfl] at this
  · intro p c op oc pvs pvs' hp hc hop hoc
    obtain ⟨hbc, hcr, hcp⟩ := child_below hf hp hc hoc
    show (oc.curLength + placeAt s r k0 p, _) = (placeAt s r k0 c, _)
    rw [placeAt_child hl hr hbc hcr hoc, hcp, if_neg hcr]
    split <;> rfl
  · intro x ox t hx hox hst htx _
    have hn : countProperties t x = some (ox.propval.length + 1) := by
      rw [hst.countProperties hf, count_below hf hl hr hx, hcount, labelsAt_eq hox, length_labels]
      congr 1
      have := hl.length_le hr hx
      rw [labelsAt_eq hox, length_labels, length_labels] at this
      omega
    obtain ⟨-, hlen⟩ := placeAt_bounds hl hr k0 hx hox
    have hguard : ¬ (ox.propval.length + 1 ≤ placeAt s r k0 x ∨
        ox.propval.length + 1 < ox.propval.length + 1) := by omega
    have htake : (ox.propval.drop (placeAt s r k0 x)).take
        (ox.propval.length + 1 - 1 - placeAt s r k0 x) = ox.propval.drop (placeAt s r k0 x) := by
      rw [List.take_of_length_le]
      rw [List.length_drop]
      omega
    simp only [insertProp, hn, htx, Option.bind_eq_bind, Option.bind_some, if_neg hguard, htake]
    simp only [splice, Nat.add_zero, newSlot, List.append_assoc, List.singleton_append]

/-- Every object of the subtree loses a slot. -/
theorem removePropRecursively_spec (hk : k0 < ro.propval.length)
    (hcount : ro.curLength + (labelsAt s ro.parent).length + 1 = ro.propval.length) :
    ∃ t, removePropRecursively r k0 s = some t ∧ SameButSlots s t ∧
      (∀ x ox, Below (descent.get s) r x → findObject s x = some ox → findObject t x
        = some { ox with propval := splice (placeAt s r k0 x) 1 [] ox.propval }) ∧
      ∀ x, ¬ Below (descent.get s) r x → findObject t x = findObject s x := by
  have := descend_spec removeProp (fun pos _ c => c.curLength + pos) hf
    (placeAt s r k0) (fun x ox => splice (placeAt s r k0 x) 1 [] ox.propval) ?_ ?_ ⟨ro, hr⟩
  · rwa [placeAt_self] at this
  · intro p c op oc pvs pvs' hp hc hop hoc
    obtain ⟨hbc, hcr, hcp⟩ := child_below hf hp hc hoc
    show oc.curLength + placeAt s r k0 p = placeAt s r k0 c
    rw [placeAt_child hl hr hbc hcr hoc, hcp]
  · intro x ox t hx hox hst htx _
    have hle := hl.length_le hr hx
    rw [labelsAt_eq hox, length_labels, length_labels] at hle
    have hn : countProperties t x = some (ox.propval.length - 1) := by
      rw [hst.countProperties hf, count_below hf hl hr hx, labelsAt_eq hox, length_labels]
      congr 1
      omega
    obtain ⟨-, hlen⟩ := placeAt_bounds hl hr k0 hx hox
    have hlt : ¬ ox.propval.length ≤ placeAt s r k0 x := by omega
    simp only [removeProp, hn, htx, Option.bind_eq_bind, Option.bind_some, if_neg hlt]
    by_cases hzero : ox.propval.length - 1 = 0
    · rw [if_pos hzero]
      have hnil : splice (placeAt s r k0 x) 1 [] ox.propval = [] := by
        rw [splice, List.append_nil, List.append_eq_nil_iff, List.take_eq_nil_iff,
          List.drop_eq_nil_iff]
        omega
      rw [hnil]
    · have hguard : ¬ (ox.propval.length - 1 < placeAt s r k0 x ∨
          ox.propval.length < ox.propval.length - 1 + 1) := by omega
      have htake : (ox.propval.drop (placeAt s r k0 x + 1)).take
          (ox.propval.length - 1 - placeAt s r k0 x)
          = ox.propval.drop (placeAt s r k0 x + 1) := by
        rw [List.take_of_length_le]
        rw [List.length_drop]
        omega
      rw [if_neg hzero, if_neg hguard, htake, splice, List.append_nil]

omit hf in
/-- The definitions of an object itself stand before the place of the splice. -/
theorem curLength_le_placeAt (hx : Below (descent.get s) r x) (hox : findObject s x = some o) :
    o.curLength ≤ placeAt s r ro.curLength x := by
  by_cases hxr : x = r
  · subst hxr
    rw [hr] at hox
    cases hox
    exact Nat.le_of_eq (placeAt_self s x _).symm
  · exact (placeAt_bounds hl hr ro.curLength hx hox).1 hxr

omit hf in
/-- What `fix_props` copies: at `r` the first slots of the new parent, and below it what the
    parent has inherited. -/
theorem copied_slots {old common : Nat} (news : List Pval)
    (hlen : ro.propval.length = ro.curLength + old + common)
    (hnews : news = [] ∨ ∃ np, findObject s ro.parent = some np ∧
      news = np.propval.take news.length) {t : State} (hx : Below (descent.get s) r x)
    (hox : findObject s x = some o)
    (hparent : ∀ {op}, findObject s o.parent = some op → findObject t o.parent =
      some (if x = r then op
        else { op with propval := fixedSlots s r ro.curLength old news o.parent op })) :
    ∃ copied : List Pval,
      (if news.length = 0 then some []
        else do
          let parent ← findObject t o.parent
          if parent.propval.length < placeAt s r ro.curLength x - o.curLength + news.length then none
          else some ((parent.propval.drop (placeAt s r ro.curLength x - o.curLength)).take
            news.length)) = some copied ∧
      copied.map (fun p => p.inherit o.owner) = news.map fun p => p.inherit o.owner := by
  by_cases hzero : news.length = 0
  · refine ⟨[], if_pos hzero, ?_⟩
    rw [List.length_eq_zero_iff.mp hzero]
  rw [if_neg hzero]
  by_cases hxr : x = r
  · subst hxr
    rw [hr] at hox
    cases hox
    obtain ⟨np, hnp, heq⟩ := hnews.resolve_left fun h => hzero (by rw [h]; rfl)
    have hn : news.length ≤ np.propval.length := by
      have := congrArg List.length heq
      rw [List.length_take] at this
      omega
    have hk0 : placeAt s x o.curLength x - o.curLength = 0 := by
      rw [placeAt_self, Nat.sub_self]
    refine ⟨news, ?_, rfl⟩
    have hguard : ¬ np.propval.length < 0 + news.length := by omega
    rw [hparent hnp, if_pos rfl, hk0]
    simp only [Option.bind_eq_bind, Option.bind_some, if_neg hguard, List.drop_zero]
    rw [← heq]
  · have hbp : Below (descent.get s) r o.parent := parent_below hx hxr hox
    obtain ⟨op, hop⟩ := object_below hr hbp
    obtain ⟨-, hplacep⟩ := placeAt_bounds hl hr ro.curLength hbp hop
    have hkp : placeAt s r ro.curLength x - o.curLength = placeAt s r ro.curLength o.parent := by
      rw [placeAt_child hl hr hx hxr hox]
      omega
    have hkle : placeAt s r ro.curLength o.parent ≤ op.propval.length := by omega
    refine ⟨news.map fun p => p.inherit op.owner, ?_, ?_⟩
    · rw [hparent hop, if_neg hxr, hkp]
      simp only [fixedSlots]
      have hguard : ¬ (splice (placeAt s r ro.curLength o.parent) old
          (news.map fun p => p.inherit op.owner) op.propval).length
          < placeAt s r ro.curLength o.parent + news.length := by
        simp only [splice, List.length_append, List.length_take, List.length_map]
        omega
      simp only [Option.bind_eq_bind, Option.bind_some, if_neg hguard]
      rw [splice, List.append_assoc, List.drop_append_of_le_length (by
        rw [List.length_take]; omega), List.drop_of_length_le (by
        rw [List.length_take]; omega), List.nil_append,
        List.take_append_of_le_length (Nat.le_of_eq (List.length_map _).symm),
        List.take_of_length_le (Nat.le_of_eq (List.length_map _))]
    · rw [List.map_map]
      exact List.map_congr_left fun p _ => inherit_inherit p op.owner o.owner

/-- Every object of the subtree gets slots for `news`, the first slots of its new
    parent, in the place of those for `old` properties. -/
theorem fixProps_spec {old common : Nat} (news : List Pval)
    (hlen : ro.propval.length = ro.curLength + old + common)
    (hnews : news = [] ∨ ∃ np, findObject s ro.parent = some np ∧
      news = np.propval.take news.length) :
    ∃ t, fixProps r 0 old news.length common s = some t ∧ SameButSlots s t ∧
      (∀ x ox, Below (descent.get s) r x → findObject s x = some ox → findObject t x
        = some { ox with propval := fixedSlots s r ro.curLength old news x ox }) ∧
      ∀ x, ¬ Below (descent.get s) r x → findObject t x = findObject s x := by
  have := descend_spec (fixPropsOne old news.length common)
    (fun parentLocal me _ => parentLocal + me.curLength) hf
    (fun x => placeAt s r ro.curLength x - ((findObject s x).map Object.curLength).getD 0)
    (fixedSlots s r ro.curLength old news) ?_ ?_ ⟨ro, hr⟩
  · have hzero : placeAt s r ro.curLength r - ((findObject s r).map Object.curLength).getD 0 = 0 := by
      rw [placeAt_self, hr]
      exact Nat.sub_self _
    rwa [hzero] at this
  · intro p c op oc pvs pvs' hp hc hop hoc
    obtain ⟨hbc, hcr, hcp⟩ := child_below hf hp hc hoc
    have hle := curLength_le_placeAt hl hr hp hop
    show placeAt s r ro.curLength p - ((findObject s p).map Object.curLength).getD 0 + op.curLength
      = placeAt s r ro.curLength c - ((findObject s c).map Object.curLength).getD 0
    rw [placeAt_child hl hr hbc hcr hoc, hcp, hop, hoc, Option.map_some, Option.map_some,
      Option.getD_some, Option.getD_some]
    omega
  · intro x ox t hx hox hst htx hparent
    have hle := curLength_le_placeAt hl hr hx hox
    obtain ⟨copied, hcopied, hmap⟩ := copied_slots hl hr news hlen hnews hx hox hparent
    obtain ⟨-, hplace⟩ := placeAt_bounds hl hr ro.curLength hx hox
    generalize hk : placeAt s r ro.curLength x = k at hle hplace hcopied
    have hlocal : k - ((findObject s x).map Object.curLength).getD 0 + ox.curLength = k := by
      rw [hox, Option.map_some, Option.getD_some]
      omega
    have hdrop : (ox.propval.drop (k + old)).take common = ox.propval.drop (k + old) := by
      rw [List.take_of_length_le]
      rw [List.length_drop]
      omega
    have hguard : ¬ ox.propval.length < k + old + common := by omega
    have hown' : k - ((findObject s x).map Object.curLength).getD 0 = k - ox.curLength := by
      rw [hox]
      rfl
    simp only [fixPropsOne, htx, Option.bind_eq_bind, Option.bind_some, hlocal, if_neg hguard]
    simp only [Option.bind_eq_bind] at hcopied
    rw [hown', hcopied]
    simp only [Option.bind_some, hmap, hdrop, fixedSlots, splice, hk]

end Recursions

end Waverous.Db
