import Waverous.DbEdits

/-! # Changing a parent

    The object is moved in the hierarchy, and then the slots of all below it follow:
    those for what only the old ancestors define go, those for what only the new
    ancestors define come.  What both have in common is a tail of both layouts. -/

namespace Waverous.Db

open LinkedForest

variable {s s' s1 : State} {L : Objid → List Objid} {oid p x y : Objid} {o : Object}

/-! ## The check -/

theorem checkPropertiesForChparent_spec (hw : WellFormed s) (ho : findObject s oid = some o)
    (p : Objid) :
    ∃ b, checkPropertiesForChparent s oid p = some b ∧
      (b = true ↔ ∀ y oy x ox, Below (descent.get s) y p → findObject s y = some oy →
        Below (descent.get s) oid x → findObject s x = some ox →
        ∀ d ∈ oy.propdefs.l, ∀ e ∈ ox.propdefs.l, strcaseEq e.name d.name = false) := by
  obtain ⟨L, hf⟩ := hw.descent
  obtain ⟨os, hos, -⟩ := exists_path hf p
  obtain ⟨b, hb, hiff⟩ := anyM_spec os
    (f := fun o => o.propdefs.l.anyM fun d =>
      propertyDefinedAtOrBelow s d.name d.hash (s.numObjects + 1) oid)
    (Q := fun oy => ∃ d ∈ oy.propdefs.l,
      ∃ x, Below (descent.get s) oid x ∧ Defines s x d.hash d.name)
    fun oy _ => anyM_spec _ fun d _ => propertyDefinedAtOrBelow_spec hf d.name d.hash ho
  refine ⟨!b, ?_, ?_⟩
  · simp only [checkPropertiesForChparent, (ancestors_iff hf).mpr hos, Option.bind_eq_bind,
      Option.bind_some, hb]
  · rw [Bool.not_eq_true', ← Bool.not_eq_true, hiff]
    constructor
    · rintro h y oy x ox hy hoy hx hox d hd e he
      cases heq : strcaseEq e.name d.name with
      | false => rfl
      | true =>
          refine absurd ⟨oy, hos.mem_iff.mpr ⟨y, hy, hoy⟩, d, hd, x, hx, ox, hox, e, he, ?_⟩ h
          rw [hw.names.hash hoy d hd, named_iff (hw.names.hash hox e he), heq]
    · rintro h ⟨oy, hmem, d, hd, x, hx, ox, hox, e, he, hnamed⟩
      obtain ⟨y, hy, hoy⟩ := hos.mem_iff.mp hmem
      rw [hw.names.hash hoy d hd, named_iff (hw.names.hash hox e he),
        h y oy x ox hy hoy hx hox d hd e he] at hnamed
      exact nomatch hnamed

/-- Between parent and grandparent nothing is in the way. -/
theorem check_grandparent (hw : WellFormed s) {c : Objid} {oc : Object}
    (hoc : findObject s c = some oc) (ho : findObject s oc.parent = some o) :
    checkPropertiesForChparent s c o.parent = some true := by
  obtain ⟨L, hf⟩ := hw.descent
  obtain ⟨b, hb, hiff⟩ := checkPropertiesForChparent_spec hw hoc o.parent
  rw [hb, hiff.mpr]
  intro y oy x ox hy hoy hx hox d hd e he
  have hyc : Below (descent.get s) y oc.parent := hy.step (up_descent ho)
  have hyx : Below (descent.get s) y x := hx.trans (hyc.step (up_descent hoc))
  refine hw.names.path hyx ?_ hox hoy e he d hd
  rintro rfl
  exact not_below_parent hf hoc (hyc.trans hx)

/-! ## The slots -/

/-- The layout of an ancestor is a tail of the layout, when all is laid out on the way. -/
theorem labelsAt_above {P : Objid → Prop} {c : Objid}
    (hl : ∀ {y oy}, P y → findObject s y = some oy →
      labels oy = propIds oy ++ labelsAt s oy.parent ∧ P oy.parent)
    (hx : P x) (hc : Below (descent.get s) c x) : ∃ A, labelsAt s x = A ++ labelsAt s c := by
  obtain ⟨ps, hps⟩ := hc
  induction ps generalizing x with
  | nil =>
      cases hps
      exact ⟨[], rfl⟩
  | cons y ps ih =>
      obtain ⟨rfl, m, hm, hps⟩ := hps
      obtain ⟨l, hl', rfl⟩ := Option.map_eq_some_iff.mp hm
      obtain ⟨ox, hox, rfl⟩ := find_of_descent hl'
      obtain ⟨hlabels, hp⟩ := hl hx hox
      obtain ⟨A, hA⟩ := ih hp hps
      exact ⟨propIds ox ++ A, by rw [labelsAt_eq hox, hlabels, List.append_assoc, ← hA]⟩

/-- What is not below `r` has no ancestor that is. -/
theorem LaidOut.outside {r : Objid} (hl : LaidOut s r) (hx : ¬ Below (descent.get s) r x)
    (hox : findObject s x = some o) :
    labels o = propIds o ++ labelsAt s o.parent ∧ ¬ Below (descent.get s) r o.parent := by
  refine ⟨hl ?_ hox, fun h => hx (h.step (up_descent hox))⟩
  rintro rfl
  exact hx (Below.refl _ _)

/-- What `dbpriv_fix_properties_after_chparent` works with: the layouts of the new parent
    `p` and the old one `q` end in what they have in common. -/
structure Parts (s : State) (p q : Objid) (A B C : List PropId) (news : List Pval) : Prop where
  new : labelsAt s p = A ++ C
  old : labelsAt s q = B ++ C
  labels : news.map Pval.prop = A
  copied : news = [] ∨ ∃ np, findObject s p = some np ∧ news = np.propval.take news.length
  common : ∃ c, C = labelsAt s c ∧ ∀ {y oy}, findObject s y = some oy →
    (Below (descent.get s) y c ↔ Below (descent.get s) y p ∧ Below (descent.get s) y q)

/-- The first object on the way up from `p` that is also above `q`: above it are just the
    ancestors that the two have in common. -/
theorem nearest_common {q : Objid} {ps qs : List Objid} (hf : Forest nothing (descent.get s) L)
    (hps : Seg (upOf (descent.get s)) p ps nothing) (hqs : Seg (upOf (descent.get s)) q qs nothing) :
    match ps.find? fun o1 => decide (o1 ∈ qs) with
    | some c => c ≠ nothing ∧ ∀ {y}, y ≠ nothing →
        (Below (descent.get s) y c ↔ Below (descent.get s) y p ∧ Below (descent.get s) y q)
    | none => ∀ {y}, y ≠ nothing → ¬ (Below (descent.get s) y p ∧ Below (descent.get s) y q) := by
  split
  next c hfind =>
    have hc := List.find?_some hfind
    obtain ⟨-, as, bs, rfl, has⟩ := List.find?_eq_some_iff_append.mp hfind
    have hcq : c ∈ qs := of_decide_eq_true hc
    have hcn : c ≠ nothing := by
      rintro rfl
      exact hqs.nil_not_mem hf.upOf_nil hcq
    have hcp : Below (descent.get s) c p :=
      (mem_parents_iff hf hps hcn).mp (List.mem_append_right _ List.mem_cons_self)
    obtain ⟨m, -, hrest⟩ := seg_append.mp hps
    obtain rfl : m = c := hrest.1
    refine ⟨hcn, fun {y} hy => ⟨fun h => ⟨hcp.trans h, ?_⟩, fun h => ?_⟩⟩
    · exact ((mem_parents_iff hf hqs hcn).mp hcq).trans h
    · refine (mem_parents_iff hf hrest hy).mp ?_
      rcases List.mem_append.mp ((mem_parents_iff hf hps hy).mpr h.1) with ha | hb
      · have := has y ha
        simp only [(mem_parents_iff hf hqs hy).mpr h.2, decide_true, Bool.not_true] at this
        exact nomatch this
      · exact hb
  next hfind =>
    rintro y hy ⟨hp, hq⟩
    have := List.find?_eq_none.mp hfind y ((mem_parents_iff hf hps hy).mpr hp)
    exact this (decide_eq_true ((mem_parents_iff hf hqs hy).mpr hq))

theorem fixPropertiesAfterChparent_spec {q : Objid} (hf : Forest nothing (descent.get s) L)
    (hl : LaidOut s oid) (ho : findObject s oid = some o)
    (hq : q = nothing ∨ ∃ oq, findObject s q = some oq) (hqo : ¬ Below (descent.get s) oid q)
    (hold : labels o = propIds o ++ labelsAt s q)
    (hdef : ∀ {x ox}, findObject s x = some ox → ∀ p ∈ ox.propval.take ox.curLength, p.var ≠ .clear) :
    ∃ A B C news t, Parts s o.parent q A B C news ∧ fixPropertiesAfterChparent s oid q = some t ∧
      SameButSlots s t ∧ Slots t ∧
      (∀ x ox, Below (descent.get s) oid x → findObject s x = some ox → findObject t x
        = some { ox with propval := fixedSlots s oid o.curLength B.length news x ox }) ∧
      ∀ x, ¬ Below (descent.get s) oid x → findObject t x = findObject s x := by
  have hp := parent_object hf ho
  have hpo := not_below_parent hf ho
  obtain ⟨ps, hps, hsegp⟩ := parents_eq hf hp
  obtain ⟨qs, hqs, hsegq⟩ := parents_eq hf hq
  -- the nearest common ancestor, and what its definitions are
  obtain ⟨A, B, C, hcommon, hA, hB, hC⟩ : ∃ A B C,
      (match ps.find? fun o1 => decide (o1 ∈ qs) with
        | some common => countProperties s common
        | none => some 0) = some (List.length C) ∧
      labelsAt s o.parent = A ++ C ∧ labelsAt s q = B ++ C ∧
      ∃ c, C = labelsAt s c ∧ ∀ {y oy}, findObject s y = some oy →
        (Below (descent.get s) y c ↔ Below (descent.get s) y o.parent ∧ Below (descent.get s) y q) := by
    have hnear := nearest_common hf hsegp hsegq
    have hvalid : ∀ {y oy}, findObject s y = some oy → y ≠ nothing := fun h =>
      hf.ne_nil (descent_get h)
    cases hfind : ps.find? fun o1 => decide (o1 ∈ qs) with
    | none =>
        rw [hfind] at hnear
        refine ⟨labelsAt s o.parent, labelsAt s q, [], rfl, (List.append_nil _).symm,
          (List.append_nil _).symm, nothing, (labelsAt_none (findObject_nothing s)).symm, ?_⟩
        intro y oy hy
        exact ⟨fun h => absurd (hf.below_nil h) (hvalid hy), fun h => absurd h (hnear (hvalid hy))⟩
    | some c =>
        rw [hfind] at hnear
        obtain ⟨hcn, hnear⟩ := hnear
        obtain ⟨hbp, hbq⟩ := (hnear hcn).mp (Below.refl _ _)
        obtain ⟨A, hA⟩ := labelsAt_above hl.outside hpo hbp
        obtain ⟨B, hB⟩ := labelsAt_above hl.outside hqo hbq
        exact ⟨A, B, labelsAt s c, count_outside hf hl ho fun hc => hpo (hbp.trans hc), hA, hB,
          c, rfl, fun hy => hnear (hvalid hy)⟩
  obtain ⟨news, hnews, hcopied⟩ : ∃ news : List Pval, news.map Pval.prop = A ∧
      (news = [] ∨ ∃ np, findObject s o.parent = some np ∧ news = np.propval.take news.length) := by
    rcases hp with hp | ⟨np, hnp⟩
    · rw [hp, labelsAt_none (findObject_nothing s)] at hA
      exact ⟨[], (List.append_eq_nil_iff.mp hA.symm).1.symm, .inl rfl⟩
    · have hlab : np.propval.map Pval.prop = A ++ C := (labelsAt_eq hnp).symm.trans hA
      have htake : (np.propval.take A.length).map Pval.prop = A := by
        rw [List.map_take, hlab, List.take_left]
      have hlen : (np.propval.take A.length).length = A.length := by
        rw [← List.length_map (f := Pval.prop), htake]
      exact ⟨np.propval.take A.length, htake, .inr ⟨np, hnp, by rw [hlen]⟩⟩
  have hlenA : news.length = A.length := by rw [← hnews, List.length_map]
  have hlen : o.propval.length = o.curLength + B.length + C.length := by
    have := congrArg List.length hold
    rw [length_labels, hB, List.length_append, List.length_append, length_propIds] at this
    omega
  obtain ⟨t, hrun, hst, hin, hout⟩ := fixProps_spec hf hl ho news hlen hcopied
  refine ⟨A, B, C, news, t, ⟨hA, hB, hnews, hcopied, hC⟩, ?_, hst, ?_, hin, hout⟩
  · have hcq := count_outside hf hl ho hqo
    have hcp := count_outside hf hl ho hpo
    rw [hB, List.length_append] at hcq
    rw [hA, List.length_append] at hcp
    have hguard : ¬ (B.length + C.length < C.length ∨ A.length + C.length < C.length) := by omega
    simp only [fixPropertiesAfterChparent, ho, hps, hqs, hcq, hcp, Option.bind_eq_bind,
      Option.bind_some]
    refine (congrArg (Option.bind · _) hcommon).trans ?_
    rw [Option.bind_some, if_neg hguard, Nat.add_sub_cancel, Nat.add_sub_cancel, ← hlenA]
    exact hrun
  · refine slots_of_splice o.curLength B.length (fun _ (ox : Object) =>
        news.map fun p : Pval => p.inherit ox.owner) (M := A) hl ho (by omega) (fun x ox _ _ => ?_) hin hout (fun _ hox => hdef hox) hpo ?_ ?_
    · rw [List.map_map, ← hnews]
      refine List.map_congr_left fun p _ => ?_
      show (Pval.inherit p ox.owner).prop = p.prop
      simp only [Pval.inherit, Pval.chown]
      split <;> rfl
    · rw [hold, hB, hA, ← length_propIds, ← Nat.add_zero (propIds o).length, splice_append]
      simp only [splice, List.take_zero, List.nil_append, Nat.zero_add, List.drop_left]
    · rw [take_splice B.length _ (Nat.le_refl _) (by omega)]
      exact hdef ho

/-! ## The links -/

/-- The object has been moved in the hierarchy of parents. -/
structure Reparented (s s' : State) (L : Objid → List Objid) (oid p : Objid) : Prop where
  forest : ∃ L', Forest nothing (descent.get s') L' ∧
    ∀ q c, c ∈ L' q ↔ c ∈ L q ∧ c ≠ oid ∨ c = oid ∧ q = p ∧ p ≠ nothing
  up : upOf (descent.get s') = Store.setAt (upOf (descent.get s)) oid p
  place : place.get s' = place.get s
  numObjects : s'.numObjects = s.numObjects

theorem relink_descent_spec (hf : Forest nothing (descent.get s) L) (ho : findObject s oid = some o)
    (hp : p = nothing ∨ (∃ op, findObject s p = some op) ∧ ¬ Below (descent.get s) oid p) :
    ∃ s1, descent.relink nothing s.numObjects oid o.parent p (decide (o.parent ≠ nothing))
        (decide (p ≠ nothing)) s = some s1 ∧ SameButLinks s s1 ∧ Reparented s s1 L oid p := by
  obtain ⟨s1, L', hrun, hf', hup, hmem⟩ := Store.relink_spec hf (descent_get ho)
    (length_children_le hf) (hp.imp id fun h => ⟨h.1.elim fun op h => ⟨_, descent_get h⟩, h.2⟩)
  have hsame : SameButLinks s s1 ∧ place.get s1 = place.get s :=
    Store.relink_induct (P := fun t => SameButLinks s t ∧ place.get t = place.get s)
      (fun x f t ht => ⟨ht.1.modify_descent x f, (place_modify_descent x f t).trans ht.2⟩) hrun
      ⟨SameButLinks.refl s, rfl⟩
  exact ⟨s1, hrun, hsame.1, ⟨L', hf', hmem⟩, hup, hsame.2, hsame.1.numObjects⟩

/-- Away from the object the links up are what they were. -/
theorem Reparented.up_ne (h : Reparented s s' L oid p) (hx : x ≠ oid) :
    upOf (descent.get s') x = upOf (descent.get s) x := by
  rw [h.up, Store.setAt_ne hx]

theorem Reparented.up_self (h : Reparented s s' L oid p) (ho : findObject s oid = some o) :
    upOf (descent.get s') oid = some p := by
  rw [h.up, Store.setAt_self (up_descent ho)]

/-- What `db_change_parent` makes of the slots, in terms of the database before it. -/
structure Changed (s s' : State) (oid p : Objid) (o : Object) (A B C : List PropId)
    (news : List Pval) : Prop extends Parts s p o.parent A B C news where
  inside : ∀ {x ox}, Below (descent.get s) oid x → findObject s x = some ox →
    ∃ ox', findObject s' x = some ox' ∧ ox'.propdefs = ox.propdefs ∧
      ox'.propval = fixedSlots s oid o.curLength B.length news x ox
  outside : ∀ {x ox}, ¬ Below (descent.get s) oid x → findObject s x = some ox →
    ∃ ox', findObject s' x = some ox' ∧ ox'.propdefs = ox.propdefs ∧ ox'.propval = ox.propval
  missing : ∀ {x}, findObject s x = none → findObject s' x = none

/-- What is below the object stays below it. -/
theorem Reparented.below_iff (h : Reparented s s' L oid p) :
    Below (descent.get s') oid x ↔ Below (descent.get s) oid x :=
  ⟨Below.moved fun _ hy => (h.up_ne hy).symm, Below.moved fun _ hy => h.up_ne hy⟩

/-- And what is not below it keeps its ancestors. -/
theorem Reparented.above_iff (h : Reparented s s' L oid p) (hx : ¬ Below (descent.get s) oid x) :
    Below (descent.get s') y x ↔ Below (descent.get s) y x :=
  ⟨Below.unmoved (fun _ hy => (h.up_ne hy).symm) fun hb => hx (h.below_iff.mp hb),
    Below.unmoved (fun _ hy => h.up_ne hy) hx⟩

section Relinked

variable {s1 : State} (hre : Reparented s s1 L oid p) (hsame : SameButLinks s s1)

theorem SameButLinks.labelsAt (h : SameButLinks s s1) (x : Objid) : labelsAt s1 x = Db.labelsAt s x :=
  congrArg (Option.getD · []) (h.map labels (fun _ => rfl) x)

theorem SameButLinks.propdefs (h : SameButLinks s s1) {x : Objid} {ox : Object}
    (hox : findObject s1 x = some ox) :
    ∃ ox', findObject s x = some ox' ∧ ox.propdefs.l = ox'.propdefs.l := by
  obtain ⟨ox', hox', -, hdefs, -⟩ := h.object hox
  exact ⟨ox', hox', congrArg Proplist.l hdefs⟩

theorem SameButLinks.defined (h : SameButLinks s s1) (hs : Slots s) {x : Objid} {ox : Object}
    (hox : findObject s1 x = some ox) : ∀ p ∈ ox.propval.take ox.curLength, p.var ≠ .clear := by
  obtain ⟨ox', hox', -, hdefs, hvals⟩ := h.object hox
  rw [hvals, Object.curLength, hdefs]
  exact hs.defined hox'

include hre hsame

/-- All objects but the one that has moved fit their parents. -/
theorem Reparented.laidOut (hs : Slots s) : LaidOut s1 oid := by
  intro x ox hx hox
  obtain ⟨ox', hox', -, hdefs, hvals⟩ := hsame.object hox
  have hup := hre.up_ne hx
  rw [up_descent hox, up_descent hox', Option.some.injEq] at hup
  rw [labels, hvals, propIds, hdefs, hsame.labelsAt, hup]
  exact hs.layout hox'

/-- Names stay unique when none is defined above the new parent and in the subtree. -/
theorem Reparented.names (hn : Names s) (ho : findObject s oid = some o)
    (hpo : ¬ Below (descent.get s) oid p)
    (hcheck : ∀ y oy x ox, Below (descent.get s) y p → findObject s y = some oy →
      Below (descent.get s) oid x → findObject s x = some ox →
      ∀ d ∈ oy.propdefs.l, ∀ e ∈ ox.propdefs.l, strcaseEq e.name d.name = false) : Names s1 := by
  refine hn.moved hsame.propdefs fun {x y ox oy} hb hx hy => ?_
  rcases Below.of_moved (fun y hy => hre.up_ne hy) (hre.up_self ho) hb with hb | ⟨hbx, hby⟩
  · exact .inl hb
  · exact .inr fun d hd e he => hcheck y oy x ox ((hre.above_iff hpo).mp hby) hy hbx hx e he d hd

/-- The parts of the slots, in the database before. -/
theorem Reparented.parts {A B C : List PropId} {news : List Pval} (hf : Forest nothing (descent.get s) L)
    (ho : findObject s oid = some o) {o1 : Object} (ho1 : findObject s1 oid = some o1)
    (hpo : ¬ Below (descent.get s) oid p) (h : Parts s1 p o.parent A B C news) :
    Parts s p o.parent A B C news := by
  obtain ⟨c, hc, hcommon⟩ := h.common
  have hco : ¬ Below (descent.get s) oid c := fun h =>
    hpo (hre.below_iff.mp ((hcommon ho1).mp (hre.below_iff.mpr h)).1)
  refine ⟨(hsame.labelsAt p).symm.trans h.new, (hsame.labelsAt _).symm.trans h.old, h.labels,
    ?_, c, hc.trans (hsame.labelsAt c), fun {y oy} hy => ?_⟩
  · rcases h.copied with h | ⟨np, hnp, heq⟩
    · exact .inl h
    · obtain ⟨np', hnp', -, -, hvals⟩ := hsame.object hnp
      exact .inr ⟨np', hnp', hvals ▸ heq⟩
  · obtain ⟨oy1, hoy1, -⟩ := hsame.unlinked_eq hy
    rw [← hre.above_iff hco, ← hre.above_iff hpo, ← hre.above_iff (not_below_parent hf ho)]
    exact hcommon hoy1

end Relinked

/-- `db_change_parent`, when no property is in the way. -/
theorem changeParent_changed (hw : WellFormed s) (hf : Forest nothing (descent.get s) L)
    (ho : findObject s oid = some o)
    (hp : p = nothing ∨ (∃ op, findObject s p = some op) ∧ ¬ Below (descent.get s) oid p)
    (hb : checkPropertiesForChparent s oid p = some true) :
    ∃ s' A B C news, changeParent s oid p = some (true, s') ∧ WellFormed s' ∧
      Reparented s s' L oid p ∧ Changed s s' oid p o A B C news := by
  obtain ⟨b, hb', hcheck⟩ := checkPropertiesForChparent_spec hw ho p
  rw [hb] at hb'
  cases hb'
  obtain ⟨s1, hrun1, hsame, hre⟩ := relink_descent_spec hf ho hp
  obtain ⟨L', hf1, hmem⟩ := hre.forest
  -- the object itself, in its new place
  obtain ⟨l1, hl1, hl1p⟩ := Option.map_eq_some_iff.mp (hre.up_self ho)
  obtain ⟨o1, ho1, rfl⟩ := find_of_descent hl1
  have hl1p : o1.parent = p := hl1p
  obtain ⟨o', ho', -, hdefs1, hvals1⟩ := hsame.object ho1
  rw [ho] at ho'
  cases ho'
  have hqo : ¬ Below (descent.get s1) oid o.parent := fun h =>
    not_below_parent hf ho (hre.below_iff.mp h)
  have hq : o.parent = nothing ∨ ∃ oq, findObject s1 o.parent = some oq := by
    refine (parent_object hf ho).imp_right fun h => ?_
    obtain ⟨oq, hoq⟩ := h
    obtain ⟨oq1, hoq1, -⟩ := hsame.unlinked_eq hoq
    exact ⟨oq1, hoq1⟩
  have hold : labels o1 = propIds o1 ++ labelsAt s1 o.parent := by
    rw [hsame.labelsAt, labels, hvals1, propIds, hdefs1]
    exact hw.slots.layout ho
  obtain ⟨A, B, C, news, t, hparts, hrun2, hst, hslots, hin, hout⟩ :=
    fixPropertiesAfterChparent_spec hf1 (hre.laidOut hsame hw.slots) ho1 hq hqo hold
      (hsame.defined hw.slots)
  rw [hl1p] at hparts
  have hpo : ¬ Below (descent.get s) oid p := fun h =>
    not_below_parent hf1 ho1 (hl1p ▸ hre.below_iff.mpr h)
  have hwt : WellFormed t := by
    refine WellFormed.of_slots (fun hox => ?_) ⟨L', hf1⟩ ?_
      (hre.names hsame hw.names ho hpo (hcheck.mp rfl))
      (hw.idents.transfer hsame.propdefs hsame.nextProp) (fun hox => ?_) hst hslots
    · obtain ⟨ox', hox', hid, -⟩ := hsame.object hox
      exact hid.trans (hw.ids hox')
    · rw [hre.place]
      exact hw.place
    · obtain ⟨ox', hox', -, hd, -⟩ := hsame.object hox
      rw [Object.curLength, hd]
      exact hw.capacity hox'
  refine ⟨t, A, B, C, news, ?_, hwt, ⟨⟨L', ?_, hmem⟩, ?_, ?_, ?_⟩,
    ⟨hre.parts hsame hf ho ho1 hpo hparts, ?_, ?_, fun h => ?_⟩⟩
  · simp only [changeParent, hb, ho, Option.bind_eq_bind, Option.bind_some, if_pos]
    rw [hrun1, Option.bind_some, hrun2]
    rfl
  · rwa [hst.descent]
  · rw [hst.descent, hre.up]
  · rw [hst.place, hre.place]
  · exact hst.numObjects.trans hre.numObjects
  · intro x ox hx hox
    obtain ⟨ox1, hox1, hun⟩ := hsame.unlinked_eq hox
    refine ⟨_, hin x ox1 (hre.below_iff.mpr hx) hox1, ?_, ?_⟩
    · exact congrArg (·.propdefs) hun
    · have howner : ox1.owner = ox.owner := congrArg (·.owner) hun
      have hvals : ox1.propval = ox.propval := congrArg (·.propval) hun
      have hlen : o1.curLength = o.curLength := by rw [Object.curLength, hdefs1, Object.curLength]
      show fixedSlots s1 oid o1.curLength B.length news x ox1 = _
      simp only [fixedSlots, placeAt, hsame.labelsAt, howner, hvals, hlen]
  · intro x ox hx hox
    obtain ⟨ox1, hox1, hun⟩ := hsame.unlinked_eq hox
    exact ⟨ox1, (hout x fun h => hx (hre.below_iff.mp h)).trans hox1,
      congrArg (·.propdefs) hun, congrArg (·.propval) hun⟩
  · rw [hst.none_iff, hsame.none_iff]
    exact h

/-- `db_change_parent`. -/
theorem changeParent_spec (hw : WellFormed s) (hf : Forest nothing (descent.get s) L)
    (ho : findObject s oid = some o)
    (hp : p = nothing ∨ (∃ op, findObject s p = some op) ∧ ¬ Below (descent.get s) oid p) {b : Bool}
    (hb : checkPropertiesForChparent s oid p = some b) :
    ∃ s', changeParent s oid p = some (b, s') ∧ WellFormed s' ∧
      if b then Reparented s s' L oid p else s' = s := by
  cases b with
  | false =>
      refine ⟨s, ?_, hw, rfl⟩
      simp only [changeParent, hb, Option.bind_eq_bind, Option.bind_some]
      rfl
  | true =>
      obtain ⟨s', A, B, C, news, hrun, hw', hre, -⟩ := changeParent_changed hw hf ho hp hb
      exact ⟨s', hrun, hw', hre⟩

end Waverous.Db
