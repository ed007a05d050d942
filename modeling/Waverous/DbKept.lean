import Waverous.DbWalks
import Waverous.DbCalls

/-! # What operations leave alone

    Whatever a function does to the database, it does by changing objects that are
    there.  So a part of the objects that none of its changes touches is the same
    before and after, whether the database is well-formed or not. -/

namespace Waverous.Db

open LinkedForest

variable {β : Type} {g : Object → β} {s s' s'' : State} {oid x : Objid} {o : Object}

/-- The objects are the same ones, and `g` is the same of each. -/
structure Keeps (g : Object → β) (s s' : State) : Prop where
  find : ∀ x, (findObject s' x).map g = (findObject s x).map g
  numObjects : s'.numObjects = s.numObjects

theorem Keeps.refl (g : Object → β) (s : State) : Keeps g s s := ⟨fun _ => rfl, rfl⟩

theorem Keeps.trans (h : Keeps g s s') (h' : Keeps g s' s'') : Keeps g s s'' :=
  ⟨fun x => (h'.find x).trans (h.find x), h'.numObjects.trans h.numObjects⟩

/-- A part of what is kept is kept. -/
theorem Keeps.comp {γ : Type} (h : Keeps g s s') (f : β → γ) : Keeps (f ∘ g) s s' := by
  constructor
  · intro x
    rw [← Option.map_map, h.find, Option.map_map]
  · exact h.numObjects

theorem Keeps.valid (h : Keeps g s s') (x : Objid) : valid s' x = valid s x := by
  have := congrArg Option.isSome (h.find x)
  rwa [Option.isSome_map, Option.isSome_map] at this

theorem Keeps.modify {f : Object → Object} (hf : ∀ o, g (f o) = g o) (oid : Objid) (s : State) :
    Keeps g s (modify oid f s) := by
  constructor
  · intro x
    rw [findObject_modify]
    split
    · rw [Option.map_map]
      congr 1
      exact funext hf
    · rfl
  · exact numObjects_modify _ _ _

/-- The flag of players. -/
def userFlag (o : Object) : Bool := hasFlag o .user

/-- The list of players is the same one, too. -/
structure KeepsUsers (g : Object → β) (s s' : State) : Prop extends Keeps g s s' where
  users : s'.allUsers = s.allUsers

theorem KeepsUsers.refl (g : Object → β) (s : State) : KeepsUsers g s s := ⟨Keeps.refl g s, rfl⟩

theorem KeepsUsers.trans (h : KeepsUsers g s s') (h' : KeepsUsers g s' s'') : KeepsUsers g s s'' :=
  ⟨h.toKeeps.trans h'.toKeeps, h'.users.trans h.users⟩

theorem KeepsUsers.comp {γ : Type} (h : KeepsUsers g s s') (f : β → γ) : KeepsUsers (f ∘ g) s s' :=
  ⟨h.toKeeps.comp f, h.users⟩

theorem KeepsUsers.modify {f : Object → Object} (hf : ∀ o, g (f o) = g o) (oid : Objid)
    (s : State) : KeepsUsers g s (modify oid f s) :=
  ⟨Keeps.modify hf oid s, allUsers_modify oid f s⟩

/-- The next number of a property does not matter. -/
theorem KeepsUsers.nextProp (h : KeepsUsers g s s') (n : PropId) :
    KeepsUsers g s { s' with nextProp := n } :=
  ⟨⟨h.find, h.numObjects⟩, h.users⟩

/-! ## Editing a subtree -/

/-- What each visit keeps, the descent keeps. -/
theorem descend_keeps {γ : Type} {visit : γ → Objid → State → Option State}
    {next : γ → Object → Object → γ}
    (hvisit : ∀ {b x s s'}, visit b x s = some s' → KeepsUsers g s s') {fuel : Nat} {b : γ}
    {root : Objid} (h : descend visit next fuel b root s = some s') : KeepsUsers g s s' := by
  induction fuel generalizing b root s s' with
  | zero => exact nomatch h
  | succ fuel ih =>
      simp only [descend, Option.bind_eq_bind, Option.bind_eq_some_iff] at h
      obtain ⟨s1, h1, cs, -, h⟩ := h
      refine (hvisit h1).trans ?_
      clear h1
      induction cs generalizing s1 with
      | nil =>
          cases h
          exact KeepsUsers.refl g _
      | cons c cs ihcs =>
          rw [List.foldlM_cons] at h
          simp only [Option.bind_eq_bind, Option.bind_eq_some_iff] at h
          obtain ⟨s2, ⟨me, -, o, -, hc⟩, h⟩ := h
          exact (ih hc).trans (ihcs s2 h)

section Slots

variable (hg : ∀ o pvs, g { o with propval := pvs } = g o)
include hg

theorem insertPropRecursively_keeps {pos : Nat} {pv : Pval}
    (h : insertPropRecursively oid pos pv s = some s') : KeepsUsers g s s' := by
  refine descend_keeps (fun {b x s s'} hv => ?_) h
  simp only [insertProp, Option.bind_eq_bind, Option.bind_eq_some_iff] at hv
  obtain ⟨n, -, o, -, hv⟩ := hv
  split at hv
  · exact nomatch hv
  · cases hv
    exact KeepsUsers.modify (fun o => hg o _) x s

theorem removePropRecursively_keeps {pos : Nat}
    (h : removePropRecursively oid pos s = some s') : KeepsUsers g s s' := by
  refine descend_keeps (fun {b x s s'} hv => ?_) h
  simp only [removeProp, Option.bind_eq_bind, Option.bind_eq_some_iff] at hv
  obtain ⟨o, -, n, -, hv⟩ := hv
  split at hv
  · exact nomatch hv
  · split at hv
    · cases hv
      exact KeepsUsers.modify (fun o => hg o _) x s
    · split at hv
      · exact nomatch hv
      · cases hv
        exact KeepsUsers.modify (fun o => hg o _) x s

theorem fixProps_keeps {k old new common : Nat} (h : fixProps oid k old new common s = some s') :
    KeepsUsers g s s' := by
  refine descend_keeps (fun {b x s s'} hv => ?_) h
  simp only [fixPropsOne, Option.bind_eq_bind, Option.bind_eq_some_iff] at hv
  obtain ⟨me, -, hv⟩ := hv
  split at hv
  · exact nomatch hv
  · obtain ⟨copied, -, hv⟩ := Option.bind_eq_some_iff.mp hv
    cases hv
    exact KeepsUsers.modify (fun o => hg o _) x s

/-- Changing a parent changes the links of the hierarchy and slots. -/
theorem changeParent_keeps (hlinks : ∀ o l, g { o with descent := l } = g o) {p : Objid} {b : Bool}
    (h : changeParent s oid p = some (b, s')) : KeepsUsers g s s' := by
  simp only [changeParent, Option.bind_eq_bind, Option.bind_eq_some_iff] at h
  obtain ⟨done, -, h⟩ := h
  split at h
  · obtain ⟨o, -, s1, h1, s2, h2, h⟩ := by
      simpa only [Option.bind_eq_some_iff] using h
    cases h
    have hrelink : KeepsUsers g s s1 :=
      Store.relink_induct (P := KeepsUsers g s)
        (fun x f t ht => ht.trans (KeepsUsers.modify (fun o => hlinks o _) x t)) h1 (KeepsUsers.refl g s)
    refine hrelink.trans ?_
    simp only [fixPropertiesAfterChparent, Option.bind_eq_bind, Option.bind_eq_some_iff] at h2
    obtain ⟨o1, -, ps, -, qs, -, n1, -, n2, -, n3, -, h2⟩ := h2
    split at h2
    · exact nomatch h2
    · exact fixProps_keeps hg h2
  · cases h
    exact KeepsUsers.refl g s

end Slots

/-- Changing a location changes the links of the other hierarchy. -/
theorem changeLocation_keeps (hlinks : ∀ o l, g { o with place := l } = g o) {p : Objid}
    (h : changeLocation s oid p = some s') : KeepsUsers g s s' := by
  simp only [changeLocation, Option.bind_eq_bind, Option.bind_eq_some_iff] at h
  obtain ⟨o, -, h⟩ := h
  exact Store.relink_induct (P := KeepsUsers g s)
    (fun x f t ht => ht.trans (KeepsUsers.modify (fun o => hlinks o _) x t)) h (KeepsUsers.refl g s)

/-! ## Requests on properties -/

/-- What requests on properties do not touch in an object. -/
def skeleton (o : Object) : Objid × List Verbdef × Links Objid × Links Objid :=
  (o.id, o.verbdefs, o.descent, o.place)

/-- Nor do they touch the flag of players. -/
def fixedPart (o : Object) : (Objid × List Verbdef × Links Objid × Links Objid) × Bool :=
  (skeleton o, userFlag o)

theorem addPropdef_keeps {pname : Str} {value : Var} {owner : Objid} {flags : Nat} {b : Bool}
    (h : addPropdef s oid pname value owner flags = some (b, s')) : KeepsUsers fixedPart s s' := by
  simp only [addPropdef, Option.bind_eq_bind, Option.bind_eq_some_iff] at h
  obtain ⟨taken, -, h⟩ := h
  split at h
  · cases h
    exact KeepsUsers.refl _ s
  · obtain ⟨o, -, h⟩ := Option.bind_eq_some_iff.mp h
    obtain ⟨s1, h1, h⟩ := Option.bind_eq_some_iff.mp h
    cases h
    have hdef := KeepsUsers.modify (g := fixedPart)
      (f := fun o => { o with propdefs := o.propdefs.append (newPropdef pname s.nextProp) })
      (fun _ => rfl) oid s
    exact (hdef.nextProp _).trans (insertPropRecursively_keeps (fun _ _ => rfl) h1)

theorem deletePropdef_keeps {pname : Str} {b : Bool}
    (h : deletePropdef s oid pname = some (b, s')) : KeepsUsers fixedPart s s' := by
  simp only [deletePropdef, Option.bind_eq_bind, Option.bind_eq_some_iff] at h
  obtain ⟨o, -, h⟩ := h
  split at h
  · cases h
    exact KeepsUsers.refl _ s
  next i _ =>
    obtain ⟨s1, h1, h⟩ := Option.bind_eq_some_iff.mp h
    cases h
    have hdef := KeepsUsers.modify (g := fixedPart)
      (f := fun o => { o with propdefs := o.propdefs.erase i }) (fun _ => rfl) oid s
    exact hdef.trans (removePropRecursively_keeps (fun _ _ => rfl) h1)

theorem renamePropdef_keeps {old new : Str} {b : Bool}
    (h : renamePropdef s oid old new = some (b, s')) : KeepsUsers fixedPart s s' := by
  simp only [renamePropdef, Option.bind_eq_bind, Option.bind_eq_some_iff] at h
  obtain ⟨o, -, h⟩ := h
  split at h
  · cases h
    exact KeepsUsers.refl _ s
  · obtain ⟨taken, -, h⟩ := Option.bind_eq_some_iff.mp h
    split at h
    · cases h
      exact KeepsUsers.refl _ s
    · cases h
      exact KeepsUsers.modify (by intro o; rfl) oid s

theorem fixedPart_eq {o o' : Object} (h : skeleton o = skeleton o') (hf : userFlag o = userFlag o') :
    fixedPart o = fixedPart o' := by
  rw [fixedPart, fixedPart, h, hf]

theorem userBit {f : Flag} (hf : f ≠ .user) : (1 <<< f.bit).testBit Flag.user.bit = false := by
  cases f with
  | user => exact absurd rfl hf
  | _ => rfl

theorem setObjectFlag_keeps {f : Flag} (hf : f ≠ .user) (oid : Objid) (s : State) :
    KeepsUsers fixedPart s (setObjectFlag oid f s) := by
  rw [setObjectFlag, if_neg fun h => hf h.1]
  have hflag : ∀ o : Object, userFlag { o with flags := o.flags ||| 1 <<< f.bit } = userFlag o := by
    intro o
    rw [userFlag, userFlag, hasFlag, hasFlag, Nat.testBit_or, userBit hf, Bool.or_false]
  exact .modify (by exact fun o => fixedPart_eq rfl (hflag o)) oid s

theorem clearObjectFlag_keeps {f : Flag} (hf : f ≠ .user) (oid : Objid) (s : State) :
    KeepsUsers fixedPart s (clearObjectFlag oid f s) := by
  rw [clearObjectFlag, if_neg hf]
  have hflag : ∀ o : Object,
      userFlag { o with flags := if hasFlag o f then o.flags ^^^ 1 <<< f.bit else o.flags } =
        userFlag o := by
    intro o
    split
    · rw [userFlag, userFlag, hasFlag, hasFlag, Nat.testBit_xor, userBit hf, Bool.xor_false]
    · rfl
  exact .modify (by exact fun o => fixedPart_eq rfl (hflag o)) oid s

theorem setPropertyValue_keeps {h : Handle} {value : Var}
    (hs : setPropertyValue h value s = some s') : KeepsUsers fixedPart s s' := by
  have hflag : ∀ {oid f}, f ≠ Flag.user → (some (if isTrue value then setObjectFlag oid f s
      else clearObjectFlag oid f s)) = some s' → KeepsUsers fixedPart s s' := by
    intro oid f hf h
    cases h
    split
    · exact setObjectFlag_keeps hf oid s
    · exact clearObjectFlag_keeps hf oid s
  cases h with
  | slot definer oid n =>
      cases hs
      exact KeepsUsers.modify (by intro o; rfl) oid s
  | builtIn prop oid =>
      cases prop with
      | name =>
          cases value with
          | str t =>
              cases hs
              exact KeepsUsers.modify (by intro o; rfl) oid s
          | _ => exact nomatch hs
      | owner =>
          cases value with
          | obj t =>
              cases hs
              exact KeepsUsers.modify (by intro o; rfl) oid s
          | _ => exact nomatch hs
      | location => exact nomatch hs
      | contents => exact nomatch hs
      | programmer => exact hflag (f := .programmer) nofun hs
      | wizard => exact hflag (f := .wizard) nofun hs
      | r => exact hflag (f := .read) nofun hs
      | w => exact hflag (f := .write) nofun hs
      | f => exact hflag (f := .fertile) nofun hs

theorem setPropertyInfo_keeps {h : Handle} {owner : Objid} {flags : Nat}
    (hs : setPropertyInfo h owner flags s = some s') : KeepsUsers fixedPart s s' := by
  cases h with
  | slot definer oid n =>
      cases hs
      exact KeepsUsers.modify (by intro o; rfl) oid s
  | builtIn prop oid => exact nomatch hs

theorem decrQuota_keeps {b : Bool} (h : decrQuota s oid = some (b, s')) : KeepsUsers fixedPart s s' := by
  rw [decrQuota] at h
  split at h
  · cases h
    exact KeepsUsers.refl _ s
  · obtain ⟨res, -, h⟩ := Option.bind_eq_some_iff.mp h
    split at h
    · cases h
      exact KeepsUsers.refl _ s
    · split at h
      · cases h
        exact KeepsUsers.refl _ s
      · obtain ⟨s1, h1, h⟩ := Option.bind_eq_some_iff.mp h
        cases h
        exact setPropertyValue_keeps h1
    · cases h
      exact KeepsUsers.refl _ s

theorem incrQuota_keeps (h : incrQuota s oid = some s') : KeepsUsers fixedPart s s' := by
  rw [incrQuota] at h
  split at h
  · cases h
    exact KeepsUsers.refl _ s
  · obtain ⟨res, -, h⟩ := Option.bind_eq_some_iff.mp h
    split at h
    · cases h
      exact KeepsUsers.refl _ s
    · exact setPropertyValue_keeps h
    · cases h
      exact KeepsUsers.refl _ s

/-- A request on properties keeps verbs, parents, places and players. -/
theorem request_keeps {op : Op} (hop : op.onProperty = true) {e : Error}
    (h : request op s = some (e, s')) : KeepsUsers fixedPart s s' := by
  have hrefuse : ∀ {e' : Error}, refuse s e' = some (e, s') → KeepsUsers fixedPart s s' := by
    intro e' h
    cases h
    exact KeepsUsers.refl _ s
  cases op with
  | addProp progr oid pname value info =>
      simp only [request, bfAddProp] at h
      split at h
      · exact hrefuse h
      · exact hrefuse h
      · split at h
        · exact hrefuse h
        · split at h
          · exact hrefuse h
          · obtain ⟨⟨b, s1⟩, h1, h⟩ := Option.bind_eq_some_iff.mp h
            cases h
            exact addPropdef_keeps h1
  | deleteProp progr oid pname =>
      simp only [request, bfDeleteProp] at h
      split at h
      · exact hrefuse h
      · split at h
        · exact hrefuse h
        · obtain ⟨⟨b, s1⟩, h1, h⟩ := Option.bind_eq_some_iff.mp h
          cases h
          exact deletePropdef_keeps h1
  | clearProp progr oid pname =>
      simp only [request, bfClearProp] at h
      split at h
      · exact hrefuse h
      · obtain ⟨res, -, h⟩ := Option.bind_eq_some_iff.mp h
        split at h
        · exact hrefuse h
        · exact hrefuse h
        · obtain ⟨p, -, h⟩ := Option.bind_eq_some_iff.mp h
          split at h
          · exact hrefuse h
          · split at h
            · exact hrefuse h
            · obtain ⟨s1, h1, h⟩ := Option.bind_eq_some_iff.mp h
              cases h
              exact setPropertyValue_keeps h1
  | putProp progr oid pname rhs =>
      simp only [request, putProp] at h
      split at h
      · exact hrefuse h
      · obtain ⟨res, -, h⟩ := Option.bind_eq_some_iff.mp h
        split at h
        · exact hrefuse h
        · obtain ⟨e1, -, h⟩ := Option.bind_eq_some_iff.mp h
          split at h
          · obtain ⟨s1, h1, h⟩ := Option.bind_eq_some_iff.mp h
            cases h
            exact setPropertyValue_keeps h1
          · exact hrefuse h
  | setPropInfo progr oid pname info =>
      simp only [request, setPropInfo] at h
      split at h
      · exact hrefuse h
      · split at h
        · exact hrefuse h
        · obtain ⟨res, -, h⟩ := Option.bind_eq_some_iff.mp h
          split at h
          · exact hrefuse h
          · exact hrefuse h
          · obtain ⟨p, -, h⟩ := Option.bind_eq_some_iff.mp h
            obtain ⟨allows, -, h⟩ := Option.bind_eq_some_iff.mp h
            split at h
            · exact hrefuse h
            · split at h
              · obtain ⟨s1, h1, h⟩ := Option.bind_eq_some_iff.mp h
                cases h
                exact setPropertyInfo_keeps h1
              · obtain ⟨⟨b, s1⟩, h1, h⟩ := Option.bind_eq_some_iff.mp h
                have hren := renamePropdef_keeps h1
                split at h
                · cases h
                  exact hren
                · obtain ⟨res1, -, h⟩ := Option.bind_eq_some_iff.mp h
                  split at h
                  · exact nomatch h
                  · obtain ⟨s2, h2, h⟩ := Option.bind_eq_some_iff.mp h
                    cases h
                    exact hren.trans (setPropertyInfo_keeps h2)
  | _ => exact nomatch hop

end Waverous.Db
