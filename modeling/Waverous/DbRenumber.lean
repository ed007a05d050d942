import Waverous.DbRecycle

/-! # Renumbering an object

    The database that `db_renumber_object` makes is the old one under the exchange of
    two numbers, one of which was free (`Renamed`); then owners follow. -/

namespace Waverous.Db

open LinkedForest

variable {s s' : State} {oid x y old new : Objid} {o : Object} {e : Equiv.Perm Objid}

/-! ## Renaming -/

/-- Objects and links are renamed. -/
structure Renamed (e : Equiv.Perm Objid) (s s' : State) : Prop where
  find : ∀ y, (findObject s' y).map unlinked
    = (findObject s (e.symm y)).map fun o => unlinked { o with id := y }
  descent : descent.get s' = rename e (descent.get s)
  place : place.get s' = rename e (place.get s)
  nextProp : s'.nextProp = s.nextProp

theorem Renamed.object (h : Renamed e s s') {o' : Object} (ho : findObject s' y = some o') :
    ∃ o, findObject s (e.symm y) = some o ∧ o'.id = y ∧ o'.propdefs = o.propdefs ∧
      o'.propval = o.propval ∧ o'.parent = e o.parent := by
  have hf := h.find y
  rw [ho, Option.map_some] at hf
  obtain ⟨o, ho', heq⟩ := Option.map_eq_some_iff.mp hf.symm
  simp only [unlinked, Object.mk.injEq] at heq
  obtain ⟨hid, -, -, -, -, -, -, hdefs, hvals⟩ := heq
  refine ⟨o, ho', hid.symm, hdefs.symm, hvals.symm, ?_⟩
  have hup := up_descent ho'
  have hup' := up_descent ho
  rw [h.descent, upOf_rename] at hup'
  have hup' : (upOf (Db.descent.get s) (e.symm y)).map e = some o'.parent := hup'
  rw [hup, Option.map_some] at hup'
  exact (Option.some.inj hup').symm

theorem Renamed.labelsAt (h : Renamed e s s') (x : Objid) : labelsAt s' (e x) = labelsAt s x := by
  have hf := congrArg (Option.map labels) (h.find (e x))
  rw [Option.map_map, Option.map_map, e.symm_apply_apply] at hf
  exact congrArg (Option.getD · []) hf

/-- A renamed database is as well-formed as before. -/
theorem WellFormed.renamed (hw : WellFormed s) (h : Renamed e s s') (he : e nothing = nothing) :
    WellFormed s' := by
  obtain ⟨L, hf⟩ := hw.descent
  obtain ⟨M, hp⟩ := hw.place
  have hne : ∀ {x y : Objid}, x ≠ y → e.symm x ≠ e.symm y := fun h heq => h (e.symm.injective heq)
  constructor
  · intro x o' ho'
    obtain ⟨o, -, hid, -⟩ := h.object ho'
    exact hid
  · rw [h.descent]
    exact ⟨_, hf.rename e he⟩
  · rw [h.place]
    exact ⟨_, hp.rename e he⟩
  · constructor
    · intro x o' ho'
      obtain ⟨o, ho, -, hdefs, hvals, hup⟩ := h.object ho'
      rw [hup, h.labelsAt, labels, hvals, propIds, hdefs]
      exact hw.slots.layout ho
    · intro x o' ho'
      obtain ⟨o, ho, -, hdefs, hvals, -⟩ := h.object ho'
      rw [hvals, Object.curLength, hdefs]
      exact hw.slots.defined ho
  · constructor
    · intro x o' ho'
      obtain ⟨o, ho, -, hdefs, -⟩ := h.object ho'
      rw [hdefs]
      exact hw.names.hash ho
    · intro x o' ho'
      obtain ⟨o, ho, -, hdefs, -⟩ := h.object ho'
      rw [hdefs]
      exact hw.names.own ho
    · intro x y ox' oy' hb hxy hx hy
      obtain ⟨ox, hox, -, hdx, -⟩ := h.object hx
      obtain ⟨oy, hoy, -, hdy, -⟩ := h.object hy
      rw [h.descent] at hb
      rw [hdx, hdy]
      exact hw.names.path (hb.of_rename e) (hne hxy) hox hoy
    · intro x o' ho'
      obtain ⟨o, ho, -, hdefs, -⟩ := h.object ho'
      rw [hdefs]
      exact hw.names.builtin ho
  · constructor
    · intro x o' ho'
      obtain ⟨o, ho, -, hdefs, -⟩ := h.object ho'
      rw [hdefs, h.nextProp]
      exact hw.idents.fresh ho
    · intro x o' ho'
      obtain ⟨o, ho, -, hdefs, -⟩ := h.object ho'
      rw [propIds, hdefs]
      exact hw.idents.nodup ho
    · intro x y ox' oy' hxy hx hy
      obtain ⟨ox, hox, -, hdx, -⟩ := h.object hx
      obtain ⟨oy, hoy, -, hdy, -⟩ := h.object hy
      rw [hdx, hdy]
      exact hw.idents.disjoint (hne hxy) hox hoy
  · intro x o' ho'
    obtain ⟨o, ho, -, hdefs, -⟩ := h.object ho'
    rw [Object.curLength, hdefs]
    exact hw.capacity ho

/-! ## Owners -/

/-- An object, its verbs and its slots with other owners. -/
def withOwners (old new : Objid) (o : Object) : Object := fixOwners old new o.propval.length o

theorem withOwners_shape (old new : Objid) (o : Object) : shape (withOwners old new o) = shape o ∧
    (withOwners old new o).propval.map Pval.var = o.propval.map Pval.var := by
  have hvals : (withOwners old new o).propval
      = o.propval.map fun p => { p with owner := fixOwner old new p.owner } := by
    show (o.propval.take _).map _ ++ o.propval.drop _ = _
    rw [List.take_length, List.drop_length, List.append_nil]
  refine ⟨?_, ?_⟩
  · show (o.id, o.descent, o.place, o.propdefs, (withOwners old new o).propval.map Pval.prop) = _
    rw [hvals, List.map_map]
    rfl
  · rw [hvals, List.map_map]
    rfl

theorem withOwners_wellFormed (hw : WellFormed s) (old new oid : Objid) :
    WellFormed (modify oid (withOwners old new) s) ∧
      Alike s (modify oid (withOwners old new) s) := by
  refine ⟨hw.modify fun o ho => ⟨(withOwners_shape old new o).1, fun p hp => ?_⟩,
    alike_modify fun o _ => (withOwners_shape old new o).1⟩
  have hmem : p.var ∈ ((withOwners old new o).propval.map Pval.var).take o.curLength := by
    rw [← List.map_take]
    exact List.mem_map_of_mem hp
  rw [(withOwners_shape old new o).2, ← List.map_take] at hmem
  obtain ⟨q, hq, heq⟩ := List.mem_map.mp hmem
  rw [← heq]
  exact hw.slots.defined ho q hq

theorem modify_congr {f g : Object → Object} (h : ∀ o, findObject s oid = some o → f o = g o) :
    modify oid f s = modify oid g s := by
  cases oid with
  | negSucc n => rfl
  | ofNat n =>
      have hobjects : s.objects.modify n (Option.map f) = s.objects.modify n (Option.map g) := by
        ext1 i
        rw [List.getElem?_modify, List.getElem?_modify]
        by_cases hi : n = i
        · subst hi
          cases hn : s.objects[n]? with
          | none => rfl
          | some oo =>
              cases oo with
              | none => rfl
              | some o =>
                  have ho : findObject s (Int.ofNat n) = some o := by rw [findObject, hn]; rfl
                  show some (if n = n then some (f o) else some o) = some (if n = n then some (g o) else some o)
                  rw [h o ho]
        · simp only [if_neg hi]
      show { s with objects := _ } = { s with objects := _ }
      rw [hobjects]

/-- The loop over all objects. -/
theorem fixAllOwners_spec (old new : Objid) {k n : Nat} (hw : WellFormed s) :
    ∃ s', fixAllOwners old new k n s = some s' ∧ WellFormed s' ∧ Alike s s' ∧
      (s'.allUsers = s.allUsers ∧ s'.numObjects = s.numObjects ∧ s'.nextProp = s.nextProp) ∧
      ∀ m : Nat, findObject s' m = if n ≤ m ∧ m < n + k then
        (findObject s m).map (withOwners old new) else findObject s m := by
  induction k generalizing n s with
  | zero =>
      refine ⟨s, rfl, hw, Alike.refl s, ⟨rfl, rfl, rfl⟩, fun m => ?_⟩
      rw [if_neg (by omega)]
  | succ k ih =>
      cases ho : findObject s n with
      | none =>
          obtain ⟨s', hrun, hw', ha, hu, hfind⟩ := ih (n := n + 1) hw
          refine ⟨s', ?_, hw', ha, hu, fun m => ?_⟩
          · simp only [fixAllOwners, ho]
            exact hrun
          · rw [hfind]
            by_cases hm : m = n
            · subst hm
              rw [if_neg (by omega), ho]
              split <;> rfl
            · congr 1
              rw [eq_iff_iff]
              omega
      | some o =>
          obtain ⟨L, hf⟩ := hw.descent
          have hcount := hw.slots.count hf n
          rw [labelsAt_eq ho, length_labels] at hcount
          obtain ⟨hw1, ha1⟩ := withOwners_wellFormed hw old new n
          obtain ⟨s', hrun, hw', ha, hu, hfind⟩ := ih (n := n + 1) hw1
          have hmod : modify n (fixOwners old new o.propval.length) s
              = modify n (withOwners old new) s := by
            refine modify_congr fun o' ho' => ?_
            rw [ho] at ho'
            cases ho'
            rfl
          refine ⟨s', ?_, hw', ha1.trans ha, ⟨hu.1.trans (allUsers_modify _ _ _),
            hu.2.1.trans (numObjects_modify _ _ _), hu.2.2.trans (nextProp_modify _ _ _)⟩, fun m => ?_⟩
          · simp only [fixAllOwners, ho, hcount, Option.bind_eq_bind, Option.bind_some,
              if_neg (Nat.lt_irrefl _), hmod]
            exact hrun
          · rw [hfind]
            by_cases hm : m = n
            · subst hm
              rw [if_neg (by omega), if_pos (by omega), findObject_modify, if_pos rfl]
            · have hne : (m : Objid) ≠ n := fun h => hm (Int.ofNat.inj h)
              rw [findObject_modify, if_neg hne]
              congr 1
              rw [eq_iff_iff]
              omega

/-! ## The number -/

/-- `objects[new] = o` and `objects[old] = 0`. -/
theorem findObject_replaced {o' : Object} (ho : findObject s old = some o) (hvalid : 0 ≤ new)
    (hlt : new < old) (y : Objid) : findObject (clearObject old (putObject new o' s)) y
      = if y = old then none else if y = new then some o' else findObject s y := by
  have hput : ∀ y, findObject (putObject new o' s) y
      = if y = new then some o' else findObject s y := by
    intro y
    obtain ⟨n, rfl⟩ := Int.eq_ofNat_of_zero_le hvalid
    obtain ⟨k, rfl⟩ := Int.eq_ofNat_of_zero_le (Int.le_trans hvalid (Int.le_of_lt hlt))
    have hk : k < s.objects.length := by
      by_contra h
      have hnone : findObject s k = none := by
        show (s.objects[k]?).join = none
        rw [List.getElem?_eq_none (Nat.le_of_not_lt h)]
        rfl
      rw [hnone] at ho
      exact nomatch ho
    have hn : n < s.objects.length := by
      have : n < k := Int.ofNat_lt.mp hlt
      omega
    cases y with
    | negSucc m => rfl
    | ofNat m =>
        show ((s.objects.set n (some _))[m]?).join = if Int.ofNat m = Int.ofNat n then _ else _
        rw [List.getElem?_set]
        by_cases hnm : n = m
        · subst hnm
          rw [if_pos rfl, if_pos rfl, if_pos hn]
          rfl
        · rw [if_neg hnm, if_neg (fun h => hnm (Int.ofNat.inj h).symm)]
          rfl
  have hold : findObject (putObject new o' s) old = some o := by
    rw [hput, if_neg (Int.ne_of_gt hlt), ho]
  rw [findObject_clearObject hold, hput]

/-- The object has got its new number, the links to it have not. -/
theorem findObject_moved (hids : ∀ {x o}, findObject s x = some o → o.id = x)
    (ho : findObject s old = some o) (hnew : findObject s new = none)
    (hvalid : 0 ≤ new) (hlt : new < old) (y : Objid) :
    findObject (clearObject old (putObject new { o with id := new } s)) y
      = (findObject s (Equiv.swap old new y)).map fun o => { o with id := y } := by
  rw [findObject_replaced ho hvalid hlt]
  by_cases hy : y = old
  · subst hy
    rw [if_pos rfl, Equiv.swap_apply_left, hnew]
    rfl
  · rw [if_neg hy]
    by_cases hyn : y = new
    · subst hyn
      rw [if_pos rfl, Equiv.swap_apply_right, ho]
      rfl
    · rw [if_neg hyn, Equiv.swap_apply_of_ne_of_ne hy hyn]
      cases hoy : findObject s y with
      | none => rfl
      | some oy =>
          rw [Option.map_some]
          have hid := hids hoy
          subst hid
          rfl

/-- The number that is found is less than the old one, and no object's. -/
structure FreeBelow (s : State) (old : Objid) (n : Nat) : Prop where
  nonneg : 0 ≤ old
  lt : (n : Objid) < old
  none : findObject s n = none

theorem freeBelow_of_findIdx (ho : findObject s old = some o) {n : Nat}
    (hn : (s.objects.take old.toNat).findIdx? Option.isNone = some n) : FreeBelow s old n := by
  obtain ⟨hlt, hnone, -⟩ := List.findIdx?_eq_some_iff_getElem.mp hn
  have hpos : 0 ≤ old := by
    cases old with
    | ofNat k => exact Int.natCast_nonneg k
    | negSucc k => exact nomatch ho
  refine ⟨hpos, ?_, ?_⟩
  · rw [List.length_take] at hlt
    have hlt : n < old.toNat := by omega
    rw [← Int.toNat_of_nonneg hpos]
    exact Int.ofNat_lt.mpr hlt
  · rw [List.getElem_take] at hnone
    show (s.objects[n]?).join = none
    rw [List.getElem?_eq_getElem (by rw [List.length_take] at hlt; omega)]
    simpa using hnone

/-- Only the list of objects changes when one is moved. -/
theorem moved_rest (hpos : 0 ≤ old) (n : Nat) :
    let s1 := clearObject old (putObject n { o with id := n } s)
    s1.numObjects = s.numObjects ∧ s1.allUsers = s.allUsers ∧ s1.nextProp = s.nextProp := by
  obtain ⟨k, rfl⟩ := Int.eq_ofNat_of_zero_le hpos
  refine ⟨?_, rfl, rfl⟩
  show ((s.objects.set n _).set k none).length = _
  rw [List.length_set, List.length_set]

/-- Then the links of both hierarchies follow. -/
theorem renameBoth_spec (hw : WellFormed s) (ho : findObject s old = some o) {n : Nat}
    (h : FreeBelow s old n) :
    let s1 := clearObject old (putObject n { o with id := n } s)
    ∃ s2 s3, descent.renameLinks nothing s1.numObjects old n s1 = some s2 ∧
      place.renameLinks nothing s2.numObjects old n s2 = some s3 ∧
      SameButLinks s1 s3 ∧ Renamed (Equiv.swap old (n : Objid)) s s3 := by
  intro s1
  have hnn : (n : Objid) ≠ nothing := fun h => nomatch h
  obtain ⟨L, hf⟩ := hw.descent
  obtain ⟨M, hp⟩ := hw.place
  have hfind1 : ∀ y, findObject s1 y
      = (findObject s (Equiv.swap old (n : Objid) y)).map fun o => { o with id := y } :=
    findObject_moved hw.ids ho h.none (Int.natCast_nonneg n) h.lt
  have hd1 : descent.get s1 = fun y => descent.get s (Equiv.swap old (n : Objid) y) := by
    funext y
    show (findObject s1 y).map _ = (findObject s _).map _
    rw [hfind1, Option.map_map]
    rfl
  have hp1 : place.get s1 = fun y => place.get s (Equiv.swap old (n : Objid) y) := by
    funext y
    show (findObject s1 y).map _ = (findObject s _).map _
    rw [hfind1, Option.map_map]
    rfl
  obtain ⟨hnum1, -, hnext1⟩ := moved_rest (s := s) (o := o) h.nonneg n
  have hnum1 : s1.numObjects = s.numObjects := hnum1
  obtain ⟨s2, hrun2, hd2⟩ := Store.renameLinks_spec hf (descent_get ho)
    (show descent.get s n = none by show Option.map _ _ = none; rw [h.none]; rfl)
    (fun p => hnum1 ▸ length_children_le hf p) hd1 hnn
  have hsame2 : SameButLinks s1 s2 ∧ place.get s2 = place.get s1 :=
    Store.renameLinks_induct (P := fun t => SameButLinks s1 t ∧ place.get t = place.get s1)
      (fun x f t ht => ⟨ht.1.modify_descent x f, (place_modify_descent x f t).trans ht.2⟩) hrun2
      ⟨SameButLinks.refl s1, rfl⟩
  obtain ⟨s3, hrun3, hp3⟩ := Store.renameLinks_spec hp (place_get ho)
    (show place.get s n = none by show Option.map _ _ = none; rw [h.none]; rfl)
    (fun p => (hsame2.1.numObjects.trans hnum1) ▸ length_contents_le hp p)
    (hsame2.2.trans hp1) hnn
  have hsame3 : SameButLinks s1 s3 ∧ descent.get s3 = descent.get s2 :=
    Store.renameLinks_induct (P := fun t => SameButLinks s1 t ∧ descent.get t = descent.get s2)
      (fun x f t ht => ⟨ht.1.modify_place x f, (descent_modify_place x f t).trans ht.2⟩) hrun3
      ⟨hsame2.1, rfl⟩
  refine ⟨s2, s3, hrun2, hrun3, hsame3.1, fun y => ?_, hsame3.2.trans hd2, hp3,
    hsame3.1.nextProp.trans hnext1⟩
  rw [hsame3.1.find, hfind1, Option.map_map, Equiv.symm_swap]
  rfl

/-- `db_renumber_object`, when there is a free number. -/
theorem renumberObject_spec (hw : WellFormed s) (ho : findObject s old = some o)
    {n : Nat} (hn : (s.objects.take old.toNat).findIdx? Option.isNone = some n) :
    ∃ t s', renumberObject s old = some ((n : Objid), s') ∧ WellFormed s' ∧
      Renamed (Equiv.swap old (n : Objid)) s t ∧ t.allUsers = s.allUsers ∧
      (∀ x, findObject s' x = (findObject t x).map (withOwners old n)) ∧
      s'.allUsers = (if isUser t n then renumberUser old n s.allUsers else s.allUsers) ∧
      s'.numObjects = s.numObjects ∧ s'.nextProp = s.nextProp := by
  have hfree := freeBelow_of_findIdx ho hn
  have hon : nothing ≠ old := by
    rintro rfl
    exact nomatch hfree.nonneg
  obtain ⟨hnum1, husers1, hnext1⟩ := moved_rest (s := s) (o := o) hfree.nonneg n
  obtain ⟨s2, s3, hrun2, hrun3, hsame3, hren⟩ := renameBoth_spec hw ho hfree
  have hw3 := hw.renamed hren (Equiv.swap_apply_of_ne_of_ne hon fun h => nomatch h)
  -- users and owners
  let s4 := if isUser s3 n then { s3 with allUsers := renumberUser old n s3.allUsers } else s3
  have hs4 : WellFormed s4 ∧ findObject s4 = findObject s3 ∧ s4.numObjects = s3.numObjects ∧
      s4.nextProp = s3.nextProp := by
    dsimp only [s4]
    split
    · exact ⟨hw3.users _, rfl, rfl, rfl⟩
    · exact ⟨hw3, rfl, rfl, rfl⟩
  obtain ⟨s5, hrun5, hw5, -, ⟨hu5, hnum5, hnext5⟩, hfind5⟩ :=
    fixAllOwners_spec old (n : Objid) (k := s4.numObjects) (n := 0) hs4.1
  refine ⟨s3, s5, ?_, hw5, hren, hsame3.allUsers.trans husers1, fun x => ?_, ?_, ?_, ?_⟩
  · simp only [renumberObject, hn, ho, Option.bind_eq_bind, Option.bind_some]
    rw [hrun2, Option.bind_some, hrun3, Option.bind_some]
    exact congrArg (Option.bind · _) hrun5
  · rw [← hs4.2.1]
    cases x with
    | negSucc m => rfl
    | ofNat m =>
        refine (hfind5 m).trans ?_
        by_cases hm : m < s4.numObjects
        · rw [if_pos ⟨Nat.zero_le _, by omega⟩]
          rfl
        · have hnone : findObject s4 (m : Objid) = none := by
            show (s4.objects[m]?).join = none
            rw [List.getElem?_eq_none (Nat.le_of_not_lt hm)]
            rfl
          rw [if_neg (by omega), hnone]
          exact (congrArg (Option.map _) hnone).symm
  · rw [hu5]
    show (if isUser s3 n then _ else s3).allUsers = _
    split
    · rw [hsame3.allUsers, husers1]
    · rw [hsame3.allUsers, husers1]
  · rw [hnum5, hs4.2.2.1, hsame3.numObjects, hnum1]
  · rw [hnext5, hs4.2.2.2, hsame3.nextProp, hnext1]

/-- `db_renumber_object` ends, whether there is a free number or not. -/
theorem renumberObject_wellFormed (hw : WellFormed s) (ho : findObject s old = some o) :
    ∃ n s', renumberObject s old = some (n, s') ∧ WellFormed s' := by
  cases hn : (s.objects.take old.toNat).findIdx? Option.isNone with
  | none => exact ⟨old, s, by simp only [renumberObject, hn], hw⟩
  | some n =>
      obtain ⟨t, s', hrun, hw', -⟩ := renumberObject_spec hw ho hn
      exact ⟨n, s', hrun, hw'⟩

end Waverous.Db
