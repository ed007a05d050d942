import Waverous.DbFind

/-! # Adding, deleting and renaming definitions

    Each ends, and keeps a well-formed database well-formed. -/

namespace Waverous.Db

open LinkedForest

variable {s s' s1 : State} {oid x y : Objid} {o : Object} {ps : Proplist}

/-! ## Changing the definitions of one object -/

/-- No other object on a line of descent with `oid` defines the name. -/
def Apart (s : State) (oid : Objid) (name : Str) : Prop :=
  ∀ y oy, y ≠ oid → Below (Db.descent.get s) y oid ∨ Below (Db.descent.get s) oid y →
    findObject s y = some oy → ∀ e ∈ oy.propdefs.l, strcaseEq e.name name = false

theorem Names.apart (hn : Names s) (ho : findObject s oid = some o) {d : Propdef}
    (hd : d ∈ o.propdefs.l) : Apart s oid d.name := by
  rintro y oy hyo (hy | hy) hoy e he
  · rw [strcaseEq_comm]
    exact hn.path hy (Ne.symm hyo) ho hoy d hd e he
  · exact hn.path hy hyo hoy ho e he d hd

theorem Apart.congr {a b : Str} (h : Apart s oid a) (hsame : strcaseEq a b = true) :
    Apart s oid b := by
  intro y oy hyo hy hoy e he
  rw [strcaseEq_comm, ← strcaseEq_congr hsame, strcaseEq_comm]
  exact h y oy hyo hy hoy e he

/-- The databases differ in the definitions of one object alone. -/
structure SetDefs (s s1 : State) (oid : Objid) (o : Object) (ps : Proplist) : Prop where
  object : findObject s oid = some o
  self : findObject s1 oid = some { o with propdefs := ps }
  other : ∀ x, x ≠ oid → findObject s1 x = findObject s x

theorem setDefs_modify (f : Proplist → Proplist) (ho : findObject s oid = some o) :
    SetDefs s (modify oid (fun o => { o with propdefs := f o.propdefs }) s) oid o (f o.propdefs) where
  object := ho
  self := findObject_modify_self _ ho
  other _ hx := findObject_modify_ne _ hx

section SetDefs

variable (h : SetDefs s s1 oid o ps)
include h

theorem SetDefs.map {β : Type} (f : Object → β) (hf : ∀ ps, f { o with propdefs := ps } = f o)
    (x : Objid) : (findObject s1 x).map f = (findObject s x).map f := by
  by_cases hx : x = oid
  · subst hx
    rw [h.self, h.object, Option.map_some, Option.map_some, hf]
  · rw [h.other x hx]

theorem SetDefs.descent : descent.get s1 = descent.get s :=
  funext fun x => h.map Object.descent (fun _ => rfl) x

theorem SetDefs.place : place.get s1 = place.get s :=
  funext fun x => h.map Object.place (fun _ => rfl) x

theorem SetDefs.labelsAt (x : Objid) : labelsAt s1 x = labelsAt s x :=
  congrArg (Option.getD · []) (h.map labels (fun _ => rfl) x)

theorem SetDefs.ids (hids : ∀ {x o}, findObject s x = some o → o.id = x) {o' : Object}
    (ho : findObject s1 x = some o') : o'.id = x := by
  have := h.map Object.id (fun _ => rfl) x
  rw [ho, Option.map_some] at this
  obtain ⟨o, ho', heq⟩ := Option.map_eq_some_iff.mp this.symm
  rw [← heq]
  exact hids ho'

theorem SetDefs.laidOut (hs : Slots s) : LaidOut s1 oid := by
  intro x o' hx ho
  rw [h.other x hx] at ho
  rw [h.labelsAt]
  exact hs.layout ho

/-- The slots that have not followed the definitions yet. -/
theorem SetDefs.slots_length (hs : Slots s) :
    o.curLength + (Db.labelsAt s1 o.parent).length = o.propval.length := by
  rw [h.labelsAt]
  exact hs.length h.object

/-- An object, before and after. -/
theorem SetDefs.cases {o' : Object} (ho : findObject s1 x = some o') :
    x = oid ∧ o' = { o with propdefs := ps } ∨ x ≠ oid ∧ findObject s x = some o' := by
  by_cases hx : x = oid
  · subst hx
    rw [h.self] at ho
    exact .inl ⟨rfl, (Option.some.inj ho).symm⟩
  · rw [h.other x hx] at ho
    exact .inr ⟨hx, ho⟩

/-- Names stay unique when the new ones are to be seen nowhere else. -/
theorem SetDefs.names (hn : Names s)
    (hdefs : ∀ d ∈ ps.l, d.hash = strHash d.name ∧ builtinNamed d.name = none ∧ Apart s oid d.name)
    (hown : ps.l.Pairwise fun d e => strcaseEq d.name e.name = false) : Names s1 where
  hash ho := by
    rcases h.cases ho with ⟨rfl, rfl⟩ | ⟨-, ho⟩
    · exact fun d hd => (hdefs d hd).1
    · exact hn.hash ho
  own ho := by
    rcases h.cases ho with ⟨rfl, rfl⟩ | ⟨-, ho⟩
    · exact hown
    · exact hn.own ho
  path hb hne hx hy := by
    rw [h.descent] at hb
    rcases h.cases hx with ⟨rfl, rfl⟩ | ⟨hxo, hx⟩
    · rcases h.cases hy with ⟨rfl, rfl⟩ | ⟨hyo, hy⟩
      · exact absurd rfl hne
      · intro d hd e he
        rw [strcaseEq_comm]
        exact (hdefs d hd).2.2 _ _ hyo (.inl hb) hy e he
    · rcases h.cases hy with ⟨rfl, rfl⟩ | ⟨hyo, hy⟩
      · exact fun d hd e he => (hdefs e he).2.2 _ _ hxo (.inr hb) hx d hd
      · exact hn.path hb hne hx hy
  builtin ho := by
    rcases h.cases ho with ⟨rfl, rfl⟩ | ⟨-, ho⟩
    · exact fun d hd => (hdefs d hd).2.1
    · exact hn.builtin ho

/-- The slots fit when no identity changes. -/
theorem SetDefs.slots (hs : Slots s) (hprops : ps.l.map Propdef.prop = o.propdefs.l.map Propdef.prop) :
    Slots s1 where
  layout ho := by
    rw [h.labelsAt]
    rcases h.cases ho with ⟨rfl, rfl⟩ | ⟨-, ho⟩
    · show labels o = ps.l.map Propdef.prop ++ _
      rw [hprops]
      exact hs.layout h.object
    · exact hs.layout ho
  defined ho := by
    rcases h.cases ho with ⟨rfl, rfl⟩ | ⟨-, ho⟩
    · show ∀ p ∈ o.propval.take ps.l.length, _
      have hlen := congrArg List.length hprops
      rw [List.length_map, List.length_map] at hlen
      rw [hlen]
      exact hs.defined h.object
    · exact hs.defined ho

/-- Identities stay unique when the new ones are new. -/
theorem SetDefs.idents (hi : Idents s) (hnext : s.nextProp ≤ s1.nextProp)
    (hdefs : ∀ d ∈ ps.l, d.prop < s1.nextProp ∧
      (s.nextProp ≤ d.prop ∨ ∃ e ∈ o.propdefs.l, e.prop = d.prop))
    (hnodup : (ps.l.map Propdef.prop).Nodup) : Idents s1 where
  fresh ho := by
    rcases h.cases ho with ⟨rfl, rfl⟩ | ⟨-, ho⟩
    · exact fun d hd => (hdefs d hd).1
    · exact fun d hd => Nat.lt_of_lt_of_le (hi.fresh ho d hd) hnext
  nodup ho := by
    rcases h.cases ho with ⟨rfl, rfl⟩ | ⟨-, ho⟩
    · exact hnodup
    · exact hi.nodup ho
  disjoint hne hx hy := by
    have hnew : ∀ {y oy}, y ≠ oid → findObject s y = some oy → ∀ d ∈ ps.l,
        ∀ e ∈ oy.propdefs.l, d.prop ≠ e.prop := by
      intro y oy hyo hy d hd e he
      rcases (hdefs d hd).2 with hle | ⟨d', hd', heq⟩
      · exact Nat.ne_of_gt (Nat.lt_of_lt_of_le (hi.fresh hy e he) hle)
      · rw [← heq]
        exact hi.disjoint (Ne.symm hyo) h.object hy d' hd' e he
    rcases h.cases hx with ⟨rfl, rfl⟩ | ⟨hxo, hx⟩
    · rcases h.cases hy with ⟨rfl, rfl⟩ | ⟨hyo, hy⟩
      · exact absurd rfl hne
      · exact hnew hyo hy
    · rcases h.cases hy with ⟨rfl, rfl⟩ | ⟨hyo, hy⟩
      · exact fun d hd e he heq => hnew hxo hx e he d hd heq.symm
      · exact hi.disjoint hne hx hy

theorem SetDefs.capacity (hc : ∀ {x o}, findObject s x = some o → o.curLength ≤ o.propdefs.maxLength)
    (hps : ps.l.length ≤ ps.maxLength) {o' : Object} (ho : findObject s1 x = some o') :
    o'.curLength ≤ o'.propdefs.maxLength := by
  rcases h.cases ho with ⟨rfl, rfl⟩ | ⟨-, ho⟩
  · exact hps
  · exact hc ho

end SetDefs

/-- After the slots have followed the definitions. -/
theorem WellFormed.of_slots (hids : ∀ {x o}, findObject s x = some o → o.id = x)
    (hd : ∃ L, Forest nothing (Db.descent.get s) L) (hp : ∃ L, Forest nothing (Db.place.get s) L)
    (hn : Names s) (hi : Idents s)
    (hc : ∀ {x o}, findObject s x = some o → o.curLength ≤ o.propdefs.maxLength)
    (hst : SameButSlots s s') (hslots : Slots s') : WellFormed s' := by
  have hobj : ∀ {x o'}, findObject s' x = some o' →
      ∃ o, findObject s x = some o ∧ o'.propdefs = o.propdefs ∧ o'.id = o.id := by
    intro x o' ho'
    obtain ⟨pvs, ho⟩ := hst.symm.object ho'
    exact ⟨_, ho, rfl, rfl⟩
  have hdefs : ∀ {x o'}, findObject s' x = some o' →
      ∃ o, findObject s x = some o ∧ o'.propdefs.l = o.propdefs.l := by
    intro x o' ho'
    obtain ⟨o, ho, heq, -⟩ := hobj ho'
    exact ⟨o, ho, congrArg Proplist.l heq⟩
  refine ⟨?_, ?_, ?_, hslots, ?_, ?_, ?_⟩
  · intro x o' ho'
    obtain ⟨o, ho, -, hid⟩ := hobj ho'
    exact hid.trans (hids ho)
  · rw [hst.descent]
    exact hd
  · rw [hst.place]
    exact hp
  · exact hn.transfer hdefs fun hb => by rwa [hst.descent] at hb
  · exact hi.transfer hdefs hst.nextProp
  · intro x o' ho'
    obtain ⟨o, ho, heq, -⟩ := hobj ho'
    rw [Object.curLength, heq]
    exact hc ho

/-! ## Adding -/

theorem not_defines_iff {name : Str} (hn : Names s) (ho : findObject s x = some o) :
    ¬ Defines s x (strHash name) name ↔ ∀ d ∈ o.propdefs.l, strcaseEq d.name name = false := by
  constructor
  · intro h d hd
    cases hc : strcaseEq d.name name with
    | false => rfl
    | true => exact absurd ⟨o, ho, d, hd, (named_iff (hn.hash ho d hd) name).trans hc⟩ h
  · rintro h ⟨o', ho', d, hd, hnamed⟩
    rw [ho] at ho'
    cases ho'
    rw [named_iff (hn.hash ho d hd), h d hd] at hnamed
    exact nomatch hnamed

theorem Names.apart_free {name : Str} (hn : Names s)
    (habove : ∀ y, Below (descent.get s) y oid → ¬ Defines s y (strHash name) name)
    (hbelow : ∀ y, Below (descent.get s) oid y → ¬ Defines s y (strHash name) name) :
    Apart s oid name := by
  rintro y oy - (hy | hy) hoy
  · exact (not_defines_iff hn hoy).mp (habove y hy)
  · exact (not_defines_iff hn hoy).mp (hbelow y hy)

/-- A table that has grown has room. -/
theorem Proplist.append_capacity {ps : Proplist} (h : ps.l.length ≤ ps.maxLength) (d : Propdef) :
    (ps.append d).l.length ≤ (ps.append d).maxLength := by
  simp only [Proplist.append, List.length_append, List.length_singleton]
  split
  · split <;> omega
  · omega

/-- So has one that has shrunk. -/
theorem Proplist.erase_capacity {ps : Proplist} (h : ps.l.length ≤ ps.maxLength) {i : Nat}
    (hi : i < ps.l.length) : (ps.erase i).l.length ≤ (ps.erase i).maxLength := by
  simp only [Proplist.erase, List.length_eraseIdx_of_lt hi]
  split <;> omega

theorem newSlot_prop (r : Objid) (pv : Pval) (x : Objid) (o : Object) :
    (newSlot r pv x o).prop = pv.prop := by
  simp only [newSlot, Pval.chown]
  split <;> split <;> rfl

theorem newSlot_var (r : Objid) (pv : Pval) (o : Object) : (newSlot r pv r o).var = pv.var := by
  simp only [newSlot, Pval.chown, if_pos]
  split <;> rfl

/-- The slots follow a definition that has been added. -/
theorem SetDefs.insert {d : Propdef} {L : Objid → List Objid}
    (h : SetDefs s s1 oid o (o.propdefs.append d)) (hf : Forest nothing (Db.descent.get s1) L)
    (hs : Slots s) (pv : Pval) (hpv : pv.prop = d.prop) (hvalue : pv.var ≠ .clear) :
    ∃ t, insertPropRecursively oid o.curLength pv s1 = some t ∧ SameButSlots s1 t ∧ Slots t := by
  have hlay := hs.layout h.object
  have hlen := h.slots_length hs
  have hcur : o.curLength ≤ o.propval.length := by omega
  obtain ⟨t, hrun, hst, hin, hout⟩ := insertPropRecursively_spec o.curLength hf (h.laidOut hs) h.self pv
    hcur (by
      show (o.propdefs.l ++ [d]).length + (Db.labelsAt s1 o.parent).length = o.propval.length + 1
      rw [List.length_append, List.length_singleton]
      show o.curLength + 1 + _ = _
      omega)
  refine ⟨t, hrun, hst, slots_of_splice o.curLength 0 (fun x ox => [newSlot oid pv x ox])
    (M := [d.prop]) (h.laidOut hs) h.self hcur ?_ hin hout ?_ (not_below_parent hf h.self) ?_ ?_⟩
  · intro x ox _ _
    rw [List.map_singleton, newSlot_prop, hpv]
  · intro x ox hx hox
    rw [h.other x hx] at hox
    exact hs.defined hox
  · show splice o.curLength 0 [d.prop] (labels o)
      = (o.propdefs.l ++ [d]).map Propdef.prop ++ Db.labelsAt s1 o.parent
    rw [hlay, ← length_propIds, ← Nat.add_zero (propIds o).length, splice_append,
      h.labelsAt, List.map_append]
    simp only [splice, List.take_zero, List.drop_zero, List.nil_append, List.append_assoc,
      propIds, List.map_singleton, Nat.add_zero]
  · show ∀ p ∈ (splice o.curLength 0 [newSlot oid pv oid _] o.propval).take
      (o.propdefs.l ++ [d]).length, p.var ≠ .clear
    have htake : (o.propval.take o.curLength).length = o.curLength := by
      rw [List.length_take]
      omega
    have hnew : ∀ q : Pval, (o.propdefs.l ++ [d]).length
        = (o.propval.take o.curLength ++ [q]).length := fun q => by
      rw [List.length_append, List.length_append, htake, List.length_singleton,
        List.length_singleton]
    rw [hnew (newSlot oid pv oid _), splice, List.take_left]
    intro p hp
    rcases List.mem_append.mp hp with hp | hp
    · exact hs.defined h.object p hp
    · rw [List.mem_singleton.mp hp, newSlot_var]
      exact hvalue

/-- `db_add_propdef`. -/
theorem addPropdef_spec (hw : WellFormed s) (ho : findObject s oid = some o) (pname : Str)
    {value : Var} (hvalue : value ≠ .clear) (owner : Objid) (flags : Nat) :
    ∃ b s', addPropdef s oid pname value owner flags = some (b, s') ∧ WellFormed s' := by
  obtain ⟨b, hb, hfree⟩ := nameTaken_spec hw pname ho
  cases b with
  | true =>
      refine ⟨false, s, ?_, hw⟩
      simp only [addPropdef, hb, Option.bind_eq_bind, Option.bind_some, if_pos]
  | false =>
      obtain ⟨hbuiltin, habove, hbelow⟩ := hfree rfl
      obtain ⟨L, hf⟩ := hw.descent
      let d := newPropdef pname s.nextProp
      let s0 := modify oid (fun o => { o with propdefs := o.propdefs.append d }) s
      let s1 : State := { s0 with nextProp := s.nextProp + 1 }
      have hset : SetDefs s s1 oid o (o.propdefs.append d) :=
        ⟨ho, findObject_modify_self _ ho, fun _ hx => findObject_modify_ne _ hx⟩
      have hf1 : Forest nothing (descent.get s1) L := by rwa [hset.descent]
      obtain ⟨t, hrun, hst, hslots⟩ := hset.insert hf1 hw.slots
        ⟨value, owner, flags, s.nextProp⟩ rfl hvalue
      refine ⟨true, t, ?_, WellFormed.of_slots (hset.ids hw.ids) ⟨L, hf1⟩ ?_ ?_ ?_
        (hset.capacity hw.capacity (Proplist.append_capacity (hw.capacity ho) d)) hst hslots⟩
      · simp only [addPropdef, hb, ho, Option.bind_eq_bind, Option.bind_some]
        show (insertPropRecursively oid o.curLength ⟨value, owner, flags, s.nextProp⟩ s1).bind _ = _
        rw [hrun]
        rfl
      · rw [hset.place]
        exact hw.place
      · refine hset.names hw.names (fun e he => ?_) ?_
        · rcases List.mem_append.mp he with he | he
          · exact ⟨hw.names.hash ho e he, hw.names.builtin ho e he, hw.names.apart ho he⟩
          · rw [List.mem_singleton.mp he]
            exact ⟨rfl, hbuiltin, hw.names.apart_free habove hbelow⟩
        · refine List.pairwise_append.mpr ⟨hw.names.own ho, List.pairwise_singleton _ _, ?_⟩
          intro e he e' he'
          rw [List.mem_singleton.mp he']
          exact (not_defines_iff hw.names ho).mp (habove oid (Below.refl _ _)) e he
      · refine hset.idents hw.idents (Nat.le_succ _) (fun e he => ?_) ?_
        · rcases List.mem_append.mp he with he | he
          · exact ⟨Nat.lt_succ_of_lt (hw.idents.fresh ho e he), .inr ⟨e, he, rfl⟩⟩
          · rw [List.mem_singleton.mp he]
            exact ⟨Nat.lt_succ_self _, .inl (Nat.le_refl _)⟩
        · show ((o.propdefs.l ++ [d]).map Propdef.prop).Nodup
          rw [List.map_append, List.nodup_append]
          refine ⟨hw.idents.nodup ho, List.nodup_singleton _, ?_⟩
          intro a ha b hb
          obtain ⟨e, he, rfl⟩ := List.mem_map.mp ha
          rw [List.mem_singleton.mp hb]
          exact Nat.ne_of_lt (hw.idents.fresh ho e he)

/-! ## Deleting -/

theorem length_erase {ps : Proplist} {i : Nat} (hi : i < ps.l.length) :
    (ps.erase i).l.length + 1 = ps.l.length := by
  rw [Proplist.erase, List.length_eraseIdx_of_lt hi]
  omega

theorem splice_erase {α : Type} (i : Nat) (l : List α) : splice i 1 [] l = l.eraseIdx i := by
  rw [splice, List.append_nil, List.eraseIdx_eq_take_drop_succ]

/-- What is left of the first slots was among them. -/
theorem mem_of_mem_take_eraseIdx {α : Type} {i n : Nat} {l : List α} (hi : i < n) {p : α}
    (hp : p ∈ (l.eraseIdx i).take (n - 1)) : p ∈ l.take n := by
  obtain ⟨j, hj⟩ := List.mem_iff_getElem?.mp hp
  rw [List.getElem?_take] at hj
  split at hj
  next hjn =>
    rw [List.getElem?_eraseIdx] at hj
    split at hj
    next hji =>
      exact List.mem_iff_getElem?.mpr ⟨j, by rw [List.getElem?_take, if_pos (by omega), hj]⟩
    next =>
      exact List.mem_iff_getElem?.mpr ⟨j + 1, by rw [List.getElem?_take, if_pos (by omega), hj]⟩
  next => exact nomatch hj

/-- The slots follow a definition that has been deleted. -/
theorem SetDefs.remove {i : Nat} {L : Objid → List Objid}
    (h : SetDefs s s1 oid o (o.propdefs.erase i)) (hf : Forest nothing (Db.descent.get s1) L)
    (hs : Slots s) (hi : i < o.propdefs.l.length) :
    ∃ t, removePropRecursively oid i s1 = some t ∧ SameButSlots s1 t ∧ Slots t := by
  have hlen := h.slots_length hs
  have hcur := length_erase hi
  have hcur' : o.propdefs.l.length = o.curLength := rfl
  have hk : i < o.propval.length := by omega
  obtain ⟨t, hrun, hst, hin, hout⟩ := removePropRecursively_spec i hf (h.laidOut hs) h.self hk (by
    show (o.propdefs.erase i).l.length + (Db.labelsAt s1 o.parent).length + 1 = o.propval.length
    omega)
  refine ⟨t, hrun, hst, slots_of_splice i 1 (fun _ _ => []) (M := []) (h.laidOut hs) h.self
    (Nat.le_of_lt hk) (fun _ _ _ _ => rfl) hin hout ?_ (not_below_parent hf h.self) ?_ ?_⟩
  · intro x ox hx hox
    rw [h.other x hx] at hox
    exact hs.defined hox
  · show splice i 1 [] (labels o)
      = (o.propdefs.erase i).l.map Propdef.prop ++ Db.labelsAt s1 o.parent
    have hip : i < (propIds o).length := by
      rw [length_propIds]
      exact hi
    rw [hs.layout h.object, h.labelsAt, splice_erase, List.eraseIdx_append_of_lt_length hip, propIds,
      Proplist.erase, List.eraseIdx_map]
  · intro p hp
    have hp' : p ∈ (splice i 1 [] o.propval).take (o.propdefs.erase i).l.length := hp
    rw [splice_erase, Nat.eq_sub_of_add_eq hcur] at hp'
    exact hs.defined h.object p (mem_of_mem_take_eraseIdx hi hp')

/-- `db_delete_propdef`. -/
theorem deletePropdef_spec (hw : WellFormed s) (ho : findObject s oid = some o) (pname : Str) :
    ∃ b s', deletePropdef s oid pname = some (b, s') ∧ WellFormed s' := by
  cases hfind : o.propdefs.l.findIdx? fun p => p.named (strHash pname) pname with
  | none =>
      refine ⟨false, s, ?_, hw⟩
      simp only [deletePropdef, ho, Option.bind_eq_bind, Option.bind_some, hfind]
  | some i =>
      have hi : i < o.propdefs.l.length := (List.findIdx?_eq_some_iff_getElem.mp hfind).1
      have hsub := List.eraseIdx_sublist o.propdefs.l i
      obtain ⟨L, hf⟩ := hw.descent
      let s1 := modify oid (fun o => { o with propdefs := o.propdefs.erase i }) s
      have hset : SetDefs s s1 oid o (o.propdefs.erase i) := setDefs_modify (·.erase i) ho
      have hf1 : Forest nothing (descent.get s1) L := by rwa [hset.descent]
      obtain ⟨t, hrun, hst, hslots⟩ := hset.remove hf1 hw.slots hi
      refine ⟨true, t, ?_, WellFormed.of_slots (hset.ids hw.ids) ⟨L, hf1⟩ ?_ ?_ ?_
        (hset.capacity hw.capacity (Proplist.erase_capacity (hw.capacity ho) hi)) hst hslots⟩
      · simp only [deletePropdef, ho, Option.bind_eq_bind, Option.bind_some, hfind]
        show (removePropRecursively oid i s1).bind _ = _
        rw [hrun]
        rfl
      · rw [hset.place]
        exact hw.place
      · refine hset.names hw.names (fun e he => ?_) ((hw.names.own ho).sublist hsub)
        have he := hsub.mem he
        exact ⟨hw.names.hash ho e he, hw.names.builtin ho e he, hw.names.apart ho he⟩
      · refine hset.idents hw.idents (Nat.le_of_eq (nextProp_modify _ _ _).symm) (fun e he => ?_)
          ((hw.idents.nodup ho).sublist (hsub.map _))
        have he := hsub.mem he
        exact ⟨Nat.lt_of_lt_of_eq (hw.idents.fresh ho e he) (nextProp_modify _ _ _).symm,
          .inr ⟨e, he, rfl⟩⟩

/-! ## Renaming -/

/-- A change to one element that a projection does not see. -/
theorem map_modify_eq {α β : Type} {f : α → β} {g : α → α} (h : ∀ a, f (g a) = f a) (l : List α)
    (i : Nat) : (l.modify i g).map f = l.map f := by
  ext1 j
  rw [List.getElem?_map, List.getElem?_map, List.getElem?_modify]
  cases l[j]? with
  | none => rfl
  | some a =>
      show some (f (if i = j then g a else a)) = some (f a)
      split
      · rw [h]
      · rfl

/-- An element of a list after the change of one of its elements. -/
theorem mem_modify {α : Type} {l : List α} {i : Nat} {g : α → α} {b : α} (hi : i < l.length)
    (hb : b ∈ l.modify i g) : b = g l[i] ∨ b ∈ l := by
  obtain ⟨j, hj, rfl⟩ := List.mem_iff_getElem.mp hb
  rw [List.getElem_modify]
  split
  next hij =>
    subst hij
    exact .inl rfl
  next => exact .inr (List.getElem_mem _)

/-- The elements of a list stay related when the new element is related to all others. -/
theorem pairwise_modify {α : Type} {R : α → α → Prop} (hsymm : ∀ a b, R a b → R b a) {l : List α}
    {i : Nat} (hil : i < l.length) {g : α → α} (h : l.Pairwise R)
    (hi : ∀ j (hj : j < l.length), j ≠ i → R (g l[i]) l[j]) : (l.modify i g).Pairwise R := by
  rw [List.pairwise_iff_getElem] at h ⊢
  intro j k hj hk hjk
  rw [List.length_modify] at hj hk
  rw [List.getElem_modify, List.getElem_modify]
  by_cases hij : i = j
  · subst hij
    rw [if_pos rfl, if_neg (Nat.ne_of_lt hjk)]
    exact hi k hk (Nat.ne_of_gt hjk)
  · by_cases hik : i = k
    · subst hik
      rw [if_neg hij, if_pos rfl]
      exact hsymm _ _ (hi j hj (Ne.symm hij))
    · rw [if_neg hij, if_neg hik]
      exact h j k hj hk hjk

/-- Either way the new name is free but for the definition itself. -/
theorem renameFree_spec (hw : WellFormed s) (ho : findObject s oid = some o) {i : Nat}
    (hi : i < o.propdefs.l.length) {old : Str} (hold : strcaseEq o.propdefs.l[i].name old = true)
    (new : Str) :
    ∃ b, (if strcaseEq old new then some false else nameTaken s oid new) = some b ∧
      (b = false → builtinNamed new = none ∧
        (∀ j (hj : j < o.propdefs.l.length), j ≠ i → strcaseEq new o.propdefs.l[j].name = false) ∧
        Apart s oid new) := by
  by_cases hcase : strcaseEq old new = true
  · rw [if_pos hcase]
    have hsame : strcaseEq o.propdefs.l[i].name new = true := by
      rwa [strcaseEq_congr hold]
    refine ⟨false, rfl, fun _ => ⟨?_, fun j hj hji => ?_,
      (hw.names.apart ho (List.getElem_mem hi)).congr hsame⟩⟩
    · rw [← builtinNamed_congr hsame]
      exact hw.names.builtin ho _ (List.getElem_mem hi)
    · rw [← strcaseEq_congr hsame]
      have hown := List.pairwise_iff_getElem.mp (hw.names.own ho)
      rcases Nat.lt_or_gt_of_ne hji with hlt | hgt
      · rw [strcaseEq_comm]
        exact hown j i hj hi hlt
      · exact hown i j hi hj hgt
  · rw [if_neg hcase]
    obtain ⟨b, hb, hfree⟩ := nameTaken_spec hw new ho
    refine ⟨b, hb, fun hfalse => ?_⟩
    obtain ⟨hbuiltin, habove, hbelow⟩ := hfree hfalse
    refine ⟨hbuiltin, fun j hj _ => ?_, hw.names.apart_free habove hbelow⟩
    rw [strcaseEq_comm]
    exact (not_defines_iff hw.names ho).mp (habove oid (Below.refl _ _)) _ (List.getElem_mem hj)

/-- `db_rename_propdef`. -/
theorem renamePropdef_spec (hw : WellFormed s) (ho : findObject s oid = some o) (old new : Str) :
    ∃ b s', renamePropdef s oid old new = some (b, s') ∧ WellFormed s' ∧
      (b = true → Defines s' oid (strHash new) new) := by
  cases hfind : o.propdefs.l.findIdx? fun p => p.named (strHash old) old with
  | none =>
      refine ⟨false, s, ?_, hw, fun h => nomatch h⟩
      simp only [renamePropdef, ho, Option.bind_eq_bind, Option.bind_some, hfind]
  | some i =>
      obtain ⟨hi, hnamed, -⟩ := List.findIdx?_eq_some_iff_getElem.mp hfind
      have hold : strcaseEq o.propdefs.l[i].name old = true := by
        rwa [named_iff (hw.names.hash ho _ (List.getElem_mem hi))] at hnamed
      obtain ⟨b, hb, hfree⟩ := renameFree_spec hw ho hi hold new
      cases b with
      | true =>
          refine ⟨false, s, ?_, hw, fun h => nomatch h⟩
          simp only [renamePropdef, ho, Option.bind_eq_bind, Option.bind_some, hfind, hb, if_pos]
      | false =>
          obtain ⟨hbuiltin, hown, hother⟩ := hfree rfl
          obtain ⟨L, hf⟩ := hw.descent
          let rename := fun p : Propdef => { p with name := new, hash := strHash new }
          let f := fun ps : Proplist => { ps with l := ps.l.modify i rename }
          let s1 := modify oid (fun o => { o with propdefs := f o.propdefs }) s
          have hset : SetDefs s s1 oid o (f o.propdefs) := setDefs_modify f ho
          have hprops : (o.propdefs.l.modify i rename).map Propdef.prop
              = o.propdefs.l.map Propdef.prop :=
            map_modify_eq (g := rename) (fun _ => rfl) _ _
          refine ⟨true, s1, ?_, WellFormed.of_slots (hset.ids hw.ids) ⟨L, ?_⟩ ?_ ?_ ?_
            (hset.capacity hw.capacity ?_) (SameButSlots.refl s1) (hset.slots hw.slots hprops), ?_⟩
          · simp only [renamePropdef, ho, Option.bind_eq_bind, Option.bind_some, hfind, hb]
            rfl
          · rwa [hset.descent]
          · rw [hset.place]
            exact hw.place
          · refine hset.names hw.names (fun e he => ?_)
              (pairwise_modify (fun a b h => by rwa [strcaseEq_comm]) hi (hw.names.own ho) hown)
            rcases mem_modify hi he with rfl | he
            · exact ⟨rfl, hbuiltin, hother⟩
            · exact ⟨hw.names.hash ho e he, hw.names.builtin ho e he, hw.names.apart ho he⟩
          · refine hset.idents hw.idents (Nat.le_of_eq (nextProp_modify _ _ _).symm)
              (fun e he => ?_) (hprops ▸ hw.idents.nodup ho)
            rw [show s1.nextProp = s.nextProp from nextProp_modify _ _ _]
            rcases mem_modify hi he with rfl | he
            · exact ⟨hw.idents.fresh ho o.propdefs.l[i] (List.getElem_mem hi),
                .inr ⟨_, List.getElem_mem hi, rfl⟩⟩
            · exact ⟨hw.idents.fresh ho e he, .inr ⟨e, he, rfl⟩⟩
          · show (o.propdefs.l.modify i rename).length ≤ o.propdefs.maxLength
            rw [List.length_modify]
            exact hw.capacity ho
          · refine fun _ => ⟨_, hset.self, rename o.propdefs.l[i], ?_, ?_⟩
            · refine List.mem_iff_getElem.mpr ⟨i, ?_, List.getElem_modify_eq _ _ _ _⟩
              show i < (o.propdefs.l.modify i rename).length
              rwa [List.length_modify]
            · exact (named_iff rfl new).trans (strcaseEq_refl new)

/-! ## Changing a slot -/

/-- What is among the first elements after a change of one element. -/
theorem mem_take_modify {α : Type} {l : List α} {i n : Nat} {g : α → α} {b : α}
    (hb : b ∈ (l.modify i g).take n) : b ∈ l.take n ∨ i < n ∧ ∃ a ∈ l.take n, b = g a := by
  rw [List.take_modify] at hb
  by_cases hi : i < n
  · by_cases hlen : i < (l.take n).length
    · rcases mem_modify hlen hb with rfl | hb
      · exact .inr ⟨hi, _, List.getElem_mem hlen, rfl⟩
      · exact .inl hb
    · rw [List.modify_eq_self (Nat.le_of_not_lt hlen)] at hb
      exact .inl hb
  · rw [List.modify_eq_self (by rw [List.length_take]; omega)] at hb
    exact .inl hb

theorem modifySlot_wellFormed (hw : WellFormed s) {n : Nat} {g : Pval → Pval}
    (hprop : ∀ p, (g p).prop = p.prop)
    (hval : ∀ o, findObject s oid = some o → n < o.curLength → ∀ p, p.var ≠ .clear →
      (g p).var ≠ .clear) : WellFormed (modifySlot oid n g s) := by
  refine hw.modify fun o ho => ⟨?_, fun p hp => ?_⟩
  · show (o.id, o.descent, o.place, o.propdefs, (o.propval.modify n g).map Pval.prop) = shape o
    rw [map_modify_eq hprop]
    rfl
  · rcases mem_take_modify hp with hp | ⟨hn, q, hq, rfl⟩
    · exact hw.slots.defined ho p hp
    · exact hval o ho hn q (hw.slots.defined ho q hq)

/-- What does not touch the structure of an object keeps the database well-formed. -/
theorem WellFormed.modify_data (hw : WellFormed s) (oid : Objid) {f : Object → Object}
    (hf : ∀ o, shape (f o) = shape o ∧ (f o).propval = o.propval) :
    WellFormed (Db.modify oid f s) :=
  hw.modify fun o ho => ⟨(hf o).1, by
    rw [(hf o).2]
    exact hw.slots.defined ho⟩

theorem setObjectFlag_wellFormed (hw : WellFormed s) (f : Flag) :
    WellFormed (setObjectFlag oid f s) := by
  have h : WellFormed (modify oid (fun o => { o with flags := o.flags ||| 1 <<< f.bit }) s) :=
    hw.modify_data oid fun _ => ⟨rfl, rfl⟩
  rw [setObjectFlag]
  split
  · exact h.users _
  · exact h

theorem clearObjectFlag_wellFormed (hw : WellFormed s) (f : Flag) :
    WellFormed (clearObjectFlag oid f s) := by
  have h : WellFormed (modify oid (fun o =>
      { o with flags := if hasFlag o f then o.flags ^^^ 1 <<< f.bit else o.flags }) s) :=
    hw.modify_data oid fun _ => ⟨rfl, rfl⟩
  rw [clearObjectFlag]
  split
  · exact h.users _
  · exact h

/-- `db_set_property_value`, with a value. -/
theorem setPropertyValue_wellFormed (hw : WellFormed s) {h : Handle} {value : Var}
    (hvalue : value ≠ .clear) (hrun : setPropertyValue h value s = some s') : WellFormed s' := by
  cases h with
  | slot definer oid n =>
      cases hrun
      exact modifySlot_wellFormed hw (fun _ => rfl) fun _ _ _ _ _ => hvalue
  | builtIn prop oid =>
      have hflag : ∀ f, (if isTrue value then setObjectFlag oid f s else clearObjectFlag oid f s)
          = s' → WellFormed s' := by
        rintro f rfl
        split
        · exact setObjectFlag_wellFormed hw f
        · exact clearObjectFlag_wellFormed hw f
      cases prop with
      | name =>
          simp only [setPropertyValue] at hrun
          split at hrun
          · cases hrun
            exact hw.modify_data oid fun _ => ⟨rfl, rfl⟩
          · exact nomatch hrun
      | owner =>
          simp only [setPropertyValue] at hrun
          split at hrun
          · cases hrun
            exact hw.modify_data oid fun _ => ⟨rfl, rfl⟩
          · exact nomatch hrun
      | programmer => exact hflag _ (Option.some.inj hrun)
      | wizard => exact hflag _ (Option.some.inj hrun)
      | r => exact hflag _ (Option.some.inj hrun)
      | w => exact hflag _ (Option.some.inj hrun)
      | f => exact hflag _ (Option.some.inj hrun)
      | location => exact nomatch hrun
      | contents => exact nomatch hrun

/-- Clearing the slot of an inherited property. -/
theorem clearSlot_wellFormed (hw : WellFormed s) {definer : Objid} {d : Propdef} {n : Nat}
    (hslot : SlotAt s oid definer d n) (hne : definer ≠ oid) :
    WellFormed (modifySlot oid n (fun p => { p with var := .clear }) s) := by
  obtain ⟨o, ho, p, -, -, hown⟩ := hslot.object
  refine modifySlot_wellFormed hw (fun _ => rfl) fun o' ho' hn => ?_
  rw [ho] at ho'
  cases ho'
  exact absurd (hown.mp hn) hne

/-- `db_set_property_owner` and `db_set_property_flags`. -/
theorem setPropertyInfo_wellFormed (hw : WellFormed s) (definer oid : Objid) (n : Nat)
    (owner : Objid) (flags : Nat) :
    ∃ s', setPropertyInfo (.slot definer oid n) owner flags s = some s' ∧ WellFormed s' :=
  ⟨_, rfl, modifySlot_wellFormed hw (fun _ => rfl) fun _ _ _ _ h => h⟩

end Waverous.Db
