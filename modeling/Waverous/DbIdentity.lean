import Waverous.DbFrame
import Waverous.DbHierarchy
import Waverous.DbKept

/-! # Which object a function goes on with

    A built-in function that waits for a verb keeps the number of the object that it has
    checked, and looks whether the number is valid when it goes on.  The number is still
    that of the same object as long as no other object is given it meanwhile, by `create`
    or by `renumber` (`goes_on_with_checked`).  Otherwise the function goes on with an
    object that nobody has checked. -/

namespace Waverous.Db

open LinkedForest Runs

variable {s s' : State} {oid progr x : Objid} {o : Object} {w w' : World} {e : Error} {p : Package}

/-! ## Numbers in use -/

/-- No number comes into use. -/
def NoNew (s s' : State) : Prop := ∀ x, valid s' x = true → valid s x = true

theorem NoNew.refl (s : State) : NoNew s s := fun _ h => h

theorem NoNew.trans {s'' : State} (h : NoNew s s') (h' : NoNew s' s'') : NoNew s s'' :=
  fun x hx => h x (h' x hx)

theorem Keeps.noNew {β : Type} {g : Object → β} (h : Keeps g s s') : NoNew s s' :=
  fun x hx => (h.valid x).symm.trans hx

theorem changeParent_noNew {q : Objid} {b : Bool} (h : changeParent s oid q = some (b, s')) :
    NoNew s s' :=
  (changeParent_keeps (g := Object.id) (fun _ _ => rfl) (fun _ _ => rfl) h).noNew

theorem changeLocation_noNew {q : Objid} (h : changeLocation s oid q = some s') : NoNew s s' :=
  (changeLocation_keeps (g := Object.id) (fun _ _ => rfl) h).noNew

theorem moveContents_noNew {called : Bool} {fuel : Nat} {b : Bool}
    (h : moveContents called oid fuel s = some (b, s')) : NoNew s s' := by
  induction fuel generalizing s with
  | zero => exact nomatch h
  | succ fuel ih =>
      simp only [moveContents, Option.bind_eq_bind, Option.bind_eq_some_iff] at h
      obtain ⟨o, -, h⟩ := h
      split at h
      · cases h
        exact NoNew.refl _
      · obtain ⟨s1, h1, h⟩ := Option.bind_eq_some_iff.mp h
        refine (changeLocation_noNew h1).trans ?_
        split at h
        · cases h
          exact NoNew.refl _
        · exact ih h

theorem orphanChildren_noNew {fuel : Nat} (h : orphanChildren oid fuel s = some s') :
    NoNew s s' := by
  induction fuel generalizing s with
  | zero => exact nomatch h
  | succ fuel ih =>
      simp only [orphanChildren, Option.bind_eq_bind, Option.bind_eq_some_iff] at h
      obtain ⟨o, -, h⟩ := h
      split at h
      · cases h
        exact NoNew.refl _
      · obtain ⟨⟨b, s1⟩, h1, h⟩ := Option.bind_eq_some_iff.mp h
        exact (changeParent_noNew h1).trans (ih h)

theorem destroyObject_noNew (h : destroyObject s oid = some s') : NoNew s s' := by
  simp only [destroyObject, Option.bind_eq_bind, Option.bind_eq_some_iff] at h
  obtain ⟨o, ho, h⟩ := h
  split at h
  · cases h
  · split at h
    · cases h
    · cases h
      intro x hx
      have hfind : ∀ t : State, t.objects = s.objects → valid (clearObject oid t) x = true →
          valid s x = true := by
        intro t ht hx
        have hsame : ∀ y, findObject t y = findObject s y := by
          intro y
          cases y with
          | negSucc n => rfl
          | ofNat n => exact congrArg (fun l : List (Option Object) => l[n]?.join) ht
        rw [valid, findObject_clearObject ((hsame oid).trans ho)] at hx
        split at hx
        · cases hx
        · rwa [hsame] at hx
      split at hx
      · refine hfind _ ?_ hx
        rfl
      · exact hfind s rfl hx

theorem recycleMoving_noNew {call : Calls} (h : recycleMoving s oid call = some (p, s')) :
    NoNew s s' := by
  rw [recycleMoving] at h
  split at h
  · cases h
    exact NoNew.refl s
  · obtain ⟨⟨b, s1⟩, h1, h⟩ := Option.bind_eq_some_iff.mp h
    have hleave : NoNew s s1 := by
      simp only [leavePlaces, Option.bind_eq_bind, Option.bind_eq_some_iff] at h1
      obtain ⟨⟨c, s2⟩, h2, h1⟩ := h1
      refine (moveContents_noNew h2).trans ?_
      split at h1
      · cases h1
        exact NoNew.refl _
      · obtain ⟨o, -, h1⟩ := Option.bind_eq_some_iff.mp h1
        obtain ⟨s3, h3, h1⟩ := Option.bind_eq_some_iff.mp h1
        cases h1
        split at h3
        · exact changeLocation_noNew h3
        · cases h3
          exact NoNew.refl _
    refine hleave.trans ?_
    dsimp only at h
    split at h
    · cases h
      exact NoNew.refl _
    · obtain ⟨s2, h2, h⟩ := Option.bind_eq_some_iff.mp h
      cases h
      simp only [demolish, Option.bind_eq_bind, Option.bind_eq_some_iff] at h2
      obtain ⟨s3, h3, ⟨b', s4⟩, h4, o, -, s5, h5, h6⟩ := h2
      exact (orphanChildren_noNew h3).trans ((changeParent_noNew h4).trans
        ((incrQuota_keeps h5).noNew.trans (destroyObject_noNew h6)))

theorem moveDecided_noNew {d : MoveData} {accepts : Bool} {call : Calls}
    (h : moveDecided s progr d accepts call = some (p, s')) : NoNew s s' := by
  rw [moveDecided] at h
  split at h
  · cases h
    exact NoNew.refl s
  · split at h
    · cases h
      exact NoNew.refl s
    · split at h
      · cases h
        exact NoNew.refl _
      · obtain ⟨ls, -, h⟩ := Option.bind_eq_some_iff.mp h
        split at h
        · cases h
          exact NoNew.refl s
        · obtain ⟨s1, h1, h⟩ := Option.bind_eq_some_iff.mp h
          obtain ⟨p1, hexit, -⟩ := moveExited_eq s1 d call
          rw [hexit] at h
          split at h
          all_goals
            cases h
            exact changeLocation_noNew h1

theorem goOn_noNew {fn : Waiting} {arg : Bool} {call : Calls}
    (h : goOn fn arg call s = some (p, s')) (hfn : fn.CanGoOn) : NoNew s s' := by
  cases fn with
  | move progr d next =>
      obtain ⟨h2, h4⟩ := hfn
      match next, h2, h4 with
      | 2, _, _ => exact moveDecided_noNew h
      | 3, _, _ =>
          obtain ⟨p1, hexit, -⟩ := moveExited_eq s d call
          simp only [goOn, doMove, hexit] at h
          cases h
          exact NoNew.refl _
      | 4, _, _ =>
          cases h
          exact NoNew.refl _
  | recycle progr oid => exact recycleMoving_noNew h

theorem doMove_noNew {d : MoveData} {call : Calls}
    (h : doMove s progr d 1 false call = some (p, s')) : NoNew s s' := by
  simp only [doMove] at h
  split at h
  · cases h
    exact NoNew.refl _
  · split at h
    · cases h
      exact NoNew.refl _
    · split at h
      · cases h
        exact NoNew.refl _
      · split at h
        · exact moveDecided_noNew h
        · split at h
          · cases h
            exact NoNew.refl _
          · cases h
            exact NoNew.refl _
          · exact moveDecided_noNew h

theorem doRecycle_noNew {call : Calls} (h : doRecycle s progr oid 1 call = some (p, s')) :
    NoNew s s' := by
  simp only [doRecycle] at h
  split at h
  · cases h
    exact NoNew.refl _
  · split at h
    · cases h
      exact NoNew.refl _
    · split at h
      · cases h
        exact NoNew.refl _
      · exact recycleMoving_noNew h

theorem bfResetMaxObject_noNew (h : bfResetMaxObject s progr = some (e, s')) : NoNew s s' := by
  rw [bfResetMaxObject] at h
  split at h
  · cases h
    exact NoNew.refl _
  · obtain ⟨s1, h1, h⟩ := Option.bind_eq_some_iff.mp h
    cases h
    rw [resetLastUsedObjid] at h1
    split at h1
    · cases h1
    · cases h1
      intro x hx
      cases x with
      | negSucc n => exact hx
      | ofNat n => exact (congrArg Option.isSome (rdropWhile_join s.objects n)).symm.trans hx

/-! ## Numbers that are given -/

/-- The number that a request gives to an object when it succeeds. -/
def givenNumber (op : Op) (s : State) : Option Objid :=
  match op with
  | .create .. => some s.numObjects
  | .renumber _ old => (freeNumber s old).map Int.ofNat
  | _ => none

/-- The free number is free. -/
theorem freeNumber_free {old : Objid} {n : Nat} (h : freeNumber s old = some n) :
    findObject s (n : Objid) = none := by
  obtain ⟨hlt, hnone, -⟩ := List.findIdx?_eq_some_iff_getElem.mp h
  rw [List.length_take] at hlt
  rw [List.getElem_take] at hnone
  show (s.objects[n]?).join = none
  rw [List.getElem?_eq_getElem (by omega)]
  simpa using hnone

theorem valid_createObject (s : State) (x : Objid) :
    valid (createObject s).2 x = true ↔ valid s x = true ∨ x = (s.numObjects : Objid) := by
  rw [valid, findObject_createObject]
  split
  next hx => exact ⟨fun _ => .inr hx, fun _ => rfl⟩
  next hx => exact ⟨.inl, fun h => h.resolve_right hx⟩

/-- `bf_create`, from the quota on, gives the next number. -/
theorem create_end_numbers {parent owner : Objid}
    (h : (do
      let (left, s) ← (if valid s owner then decrQuota s owner else some (true, s))
      if !left then some (.eQuota, s)
      else
        let (oid, s) := createObject s
        let s := modify oid (fun o => { o with owner := if owner = nothing then oid else owner }) s
        let (_, s) ← changeParent s oid parent
        some (.eNone, s)) = some (e, s'))
    (hx : valid s' x = true) : valid s x = true ∨ e = .eNone ∧ x = (s.numObjects : Objid) := by
  obtain ⟨⟨left, s1⟩, h1, h⟩ := Option.bind_eq_some_iff.mp h
  have hkeeps : Keeps fixedPart s s1 := by
    split at h1
    · exact (decrQuota_keeps h1).toKeeps
    · cases h1
      exact Keeps.refl _ s
  dsimp only at h
  split at h
  · cases h
    exact .inl (hkeeps.noNew x hx)
  · obtain ⟨⟨b, s2⟩, h2, h⟩ := Option.bind_eq_some_iff.mp h
    cases h
    have hold := changeParent_noNew h2 x hx
    rw [(Keeps.modify (g := fixedPart)
      (f := fun o => { o with owner := if owner = nothing then (createObject s1).1 else owner })
      (fun _ => rfl) (createObject s1).1 (createObject s1).2).valid, valid_createObject,
      hkeeps.valid, hkeeps.numObjects] at hold
    exact hold.imp id fun h => ⟨rfl, h⟩

theorem bfCreate_numbers {parent owner : Objid} (h : bfCreate s progr parent owner = some (e, s'))
    (hx : valid s' x = true) :
    valid s x = true ∨ e = .eNone ∧ x = (s.numObjects : Objid) := by
  simp only [bfCreate] at h
  cases hop : findObject s parent with
  | some op =>
      simp only [hop] at h
      split at h
      · cases h
        exact .inl hx
      · exact create_end_numbers h hx
  | none =>
      simp only [hop] at h
      split at h
      · cases h
        exact .inl hx
      · exact create_end_numbers h hx

/-- `bf_renumber` gives the number that was free. -/
theorem bfRenumber_numbers (hw : WellFormed s) {old : Objid}
    (h : bfRenumber s progr old = some (e, s')) (hx : valid s' x = true) :
    valid s x = true ∧ (e = .eNone → ∀ n, freeNumber s old = some n → x ≠ (n : Objid)) ∨
      e = .eNone ∧ ∃ n, freeNumber s old = some n ∧ x = (n : Objid) := by
  rw [bfRenumber] at h
  split at h
  · cases h
    exact .inl ⟨hx, fun h => by cases h⟩
  next hv =>
    split at h
    · cases h
      exact .inl ⟨hx, fun h => by cases h⟩
    · obtain ⟨o, ho⟩ := Option.isSome_iff_exists.mp (show valid s old = true by simpa using hv)
      obtain ⟨⟨k, s1⟩, h1, h⟩ := Option.bind_eq_some_iff.mp h
      cases h
      cases hn : freeNumber s old with
      | none =>
          have hn' : (s.objects.take old.toNat).findIdx? Option.isNone = none := hn
          simp only [renumberObject, hn'] at h1
          cases h1
          exact .inl ⟨hx, fun _ n h => (by cases h)⟩
      | some n =>
          obtain ⟨t, s2, hrun, -, hren, -, hfind, -⟩ := renumberObject_spec hw ho hn
          rw [h1] at hrun
          cases hrun
          by_cases hxn : x = (n : Objid)
          · exact .inr ⟨rfl, n, rfl, hxn⟩
          · refine .inl ⟨?_, fun _ m hm => ?_⟩
            · -- it was the number of the same object
              rw [valid, hfind, Option.isSome_map] at hx
              obtain ⟨ot, hot⟩ := Option.isSome_iff_exists.mp hx
              obtain ⟨o', ho', -⟩ := hren.object hot
              rw [Equiv.symm_swap] at ho'
              by_cases hxo : x = old
              · subst hxo
                rw [Equiv.swap_apply_left, freeNumber_free hn] at ho'
                cases ho'
              · rw [Equiv.swap_apply_of_ne_of_ne hxo hxn] at ho'
                rw [valid, ho']
                rfl
            · cases hm
              exact hxn

/-- A request that fails gives no number, any other no more than the one. -/
theorem request_numbers (hw : WellFormed s) {op : Op} (hop : op.isRecycle = false)
    (h : request op s = some (e, s')) (hx : valid s' x = true) :
    valid s x = true ∧ (e = .eNone → givenNumber op s ≠ some x) ∨
      e = .eNone ∧ givenNumber op s = some x := by
  cases op with
  | create progr parent owner =>
      by_cases hn : x = (s.numObjects : Objid)
      · rcases bfCreate_numbers h hx with hv | ⟨he, -⟩
        · rw [hn, valid, findObject_numObjects] at hv
          cases hv
        · exact .inr ⟨he, congrArg some hn.symm⟩
      · rcases bfCreate_numbers h hx with hv | ⟨-, hn'⟩
        · exact .inl ⟨hv, fun _ heq => hn (Option.some.inj heq).symm⟩
        · exact absurd hn' hn
  | renumber progr old =>
      rcases bfRenumber_numbers hw h hx with ⟨hv, hn⟩ | ⟨he, n, hn, hxn⟩
      · refine .inl ⟨hv, fun he heq => ?_⟩
        obtain ⟨n, hfree, heq⟩ := Option.map_eq_some_iff.mp heq
        exact hn he n hfree heq.symm
      · exact .inr ⟨he, by rw [givenNumber, hn, hxn]; rfl⟩
  | chparent progr what parent =>
      refine .inl ⟨?_, fun _ h => by cases h⟩
      simp only [request, bfChparent] at h
      split at h
      · cases h
        exact hx
      · split at h
        · cases h
          exact hx
        · split at h
          · cases h
            exact hx
          · obtain ⟨os, -, h⟩ := Option.bind_eq_some_iff.mp h
            split at h
            · cases h
              exact hx
            · obtain ⟨⟨b, s1⟩, h1, h⟩ := Option.bind_eq_some_iff.mp h
              cases h
              exact changeParent_noNew h1 x hx
  | recycle progr called oid => cases hop
  | recycleOn called oid => cases hop
  | addProp progr oid pname value info => exact .inl ⟨(request_keeps rfl h).noNew x hx, fun _ h => by cases h⟩
  | setPropInfo progr oid pname info => exact .inl ⟨(request_keeps rfl h).noNew x hx, fun _ h => by cases h⟩
  | deleteProp progr oid pname => exact .inl ⟨(request_keeps rfl h).noNew x hx, fun _ h => by cases h⟩
  | putProp progr oid pname rhs => exact .inl ⟨(request_keeps rfl h).noNew x hx, fun _ h => by cases h⟩
  | clearProp progr oid pname => exact .inl ⟨(request_keeps rfl h).noNew x hx, fun _ h => by cases h⟩

/-! ## What a waiting function can still act on -/

/-- The object that the function was called with. -/
def Waiting.object : Waiting → Objid
  | .move _ d _ => d.what
  | .recycle _ oid => oid

/-- `move` is done with the object when it has called `exitfunc`. -/
def Waiting.pending : Waiting → Bool
  | .move _ _ next => next == 2
  | .recycle _ _ => true

/-- Going on leaves everything as it is, unless the function is still to act on its object,
    and the number is valid. -/
theorem goOn_idle {fn : Waiting} {arg : Bool} {call : Calls} (hfn : fn.CanGoOn)
    (h : goOn fn arg call s = some (p, s'))
    (hidle : ¬ (fn.pending = true ∧ valid s fn.object = true)) : s' = s := by
  cases fn with
  | move progr d next =>
      obtain ⟨h2, h4⟩ := hfn
      match next, h2, h4 with
      | 2, _, _ =>
          have hnone : findObject s d.what = none := by
            cases ho : findObject s d.what with
            | none => rfl
            | some o => exact absurd ⟨rfl, by rw [valid]; exact Option.isSome_iff_exists.mpr ⟨o, ho⟩⟩ hidle
          simp only [goOn, doMove, moveDecided, hnone] at h
          split at h
          · cases h
            rfl
          · cases h
            rfl
      | 3, _, _ =>
          obtain ⟨p1, hexit, -⟩ := moveExited_eq s d call
          simp only [goOn, doMove, hexit] at h
          cases h
          rfl
      | 4, _, _ =>
          cases h
          rfl
  | recycle progr oid =>
      have hv : (!valid s oid) = true := by
        rw [Bool.not_eq_true', ← Bool.not_eq_true]
        exact fun hv => hidle ⟨rfl, hv⟩
      simp only [goOn, doRecycle, recycleMoving, if_pos hv] at h
      cases h
      rfl

/-- A function that waits again is still the same, and no less far. -/
theorem goOn_pending {fn : Waiting} {arg : Bool} {call : Calls} {next : Nat} (hfn : fn.CanGoOn)
    (h : goOn fn arg call s = some (.call next, s')) (hp : (fn.at next).pending = true) :
    fn.pending = true ∧ (fn.at next).object = fn.object := by
  cases fn with
  | move progr d k =>
      obtain rfl : next = 2 := by simpa [Waiting.at, Waiting.pending] using hp
      refine ⟨?_, rfl⟩
      have hexit : ∀ t : State, moveExited t d call ≠ (.call 2, s') := by
        intro t heq
        rw [moveExited] at heq
        split at heq
        · split at heq
          all_goals cases heq
        · cases heq
      obtain ⟨h2, h4⟩ := hfn
      obtain rfl | rfl | rfl : k = 2 ∨ k = 3 ∨ k = 4 := by omega
      · rfl
      · exact absurd (Option.some.inj h) (hexit s)
      · cases h
  | recycle progr oid => exact ⟨rfl, rfl⟩

/-- The numbers that waiting functions are still to act on are those of the objects that
    were checked. -/
def World.Bound (w : World) : Prop :=
  ∀ fr ∈ w.frames, fr.fn.pending = true → valid w.db fr.fn.object = true →
    w.ids fr.fn.object = fr.who

/-- When a waiting function goes on and moves or destroys its object, it is the object that
    was checked. -/
def World.TakesChecked (w : World) : Prop :=
  ∀ fr ∈ w.frames, ∀ arg call p s', goOn fr.fn arg call w.db = some (p, s') →
    (findObject s' fr.fn.object).map Object.location
      ≠ (findObject w.db fr.fn.object).map Object.location → w.ids fr.fn.object = fr.who

theorem World.Bound.takesChecked (hb : w.Bound) (hw : w.Good) : w.TakesChecked := by
  intro fr hfr arg call p s' h hne
  by_cases hp : fr.fn.pending = true ∧ valid w.db fr.fn.object = true
  · exact hb fr hfr hp.1 hp.2
  · rw [goOn_idle (hw.frames fr hfr) h hp] at hne
    exact absurd rfl hne

/-- The event gives no object a number that a waiting function is still to act on. -/
def Undisturbed (w : World) : Event → Prop
  | .request op _ => ∀ n s', givenNumber op w.db = some n → request op w.db = some (.eNone, s') →
      ∀ fr ∈ w.frames, fr.fn.pending = true → fr.fn.object ≠ n
  | _ => True

theorem identify_ne {op : Op} {fresh : Nat} {ids : Objid → Nat} (h : givenNumber op s ≠ some x) :
    identify op s fresh ids x = ids x := by
  cases op with
  | create progr parent owner =>
      exact Function.update_of_ne (fun hx => h (congrArg some hx.symm)) _ _
  | renumber progr old =>
      cases hn : freeNumber s old with
      | none => simp only [identify, hn]
      | some n =>
          simp only [identify, hn]
          refine Function.update_of_ne (fun hx => h ?_) _ _
          rw [givenNumber, hn, hx]
          rfl
  | _ => rfl

/-- Undisturbed, they stay those of the objects that were checked. -/
theorem happen_bound {ev : Event} (hw : w.Good) (hb : w.Bound) (hu : Undisturbed w ev)
    (h : happen ev w = some w') : w'.Bound := by
  cases ev with
  | request op hop =>
      obtain ⟨⟨err, db⟩, hreq, h⟩ := Option.bind_eq_some_iff.mp h
      cases h
      intro fr hfr hp hv
      rcases request_numbers hw.db hop hreq hv with ⟨hv', hgiven⟩ | ⟨rfl, hgiven⟩
      · have hids := hb fr hfr hp hv'
        show (if err = .eNone then identify op w.db w.fresh w.ids else w.ids) _ = _
        split
        next he => rw [identify_ne (hgiven he), hids]
        next => exact hids
      · exact absurd rfl (hu _ db hgiven hreq fr hfr hp)
  | resetMaxObject progr =>
      obtain ⟨⟨err, db⟩, hreq, h⟩ := Option.bind_eq_some_iff.mp h
      cases h
      intro fr hfr hp hv
      exact hb fr hfr hp (bfResetMaxObject_noNew hreq _ hv)
  | move progr what dest call =>
      obtain ⟨⟨p, db⟩, hreq, h⟩ := Option.bind_eq_some_iff.mp h
      cases h
      have hno := doMove_noNew hreq
      have hold : ∀ fr ∈ w.frames, fr.fn.pending = true → valid db fr.fn.object = true →
          w.ids fr.fn.object = fr.who := fun fr hfr hp hv => hb fr hfr hp (hno _ hv)
      cases p with
      | call next =>
          rintro fr (_ | ⟨_, hfr⟩) hp hv
          · rfl
          · exact hold fr hfr hp hv
      | raise e => exact hold
      | value => exact hold
  | recycle progr oid call =>
      obtain ⟨⟨p, db⟩, hreq, h⟩ := Option.bind_eq_some_iff.mp h
      cases h
      have hno := doRecycle_noNew hreq
      have hold : ∀ fr ∈ w.frames, fr.fn.pending = true → valid db fr.fn.object = true →
          w.ids fr.fn.object = fr.who := fun fr hfr hp hv => hb fr hfr hp (hno _ hv)
      cases p with
      | call next =>
          rintro fr (_ | ⟨_, hfr⟩) hp hv
          · rfl
          · exact hold fr hfr hp hv
      | raise e => exact hold
      | value => exact hold
  | resume i arg call =>
      simp only [happen] at h
      split at h
      · cases h
        exact hb
      next fr hfr =>
        obtain ⟨⟨p, db⟩, hreq, h⟩ := Option.bind_eq_some_iff.mp h
        cases h
        have hmem := List.mem_of_getElem? hfr
        have hgo := hw.frames fr hmem
        have hno := goOn_noNew hreq hgo
        have hold : ∀ fr ∈ w.frames.eraseIdx i, fr.fn.pending = true →
            valid db fr.fn.object = true → w.ids fr.fn.object = fr.who :=
          fun fr hfr hp hv => hb fr (List.mem_of_mem_eraseIdx hfr) hp (hno _ hv)
        cases p with
        | call next =>
            rintro fr' (_ | ⟨_, hfr'⟩) hp hv
            · obtain ⟨hp', hobj⟩ := goOn_pending hgo hreq hp
              show w.ids (fr.fn.at next).object = fr.who
              rw [hobj]
              exact hb fr hmem hp' (hobj ▸ hno _ hv)
            · exact hold fr' hfr' hp hv
        | raise e => exact hold
        | value => exact hold
  | abandon i =>
      cases h
      exact fun fr hfr => hb fr (List.mem_of_mem_eraseIdx hfr)

/-- In every run in which no object is given a number that a waiting function is still to act
    on, `move` and `recycle` act on the objects that they have checked. -/
theorem goes_on_with_checked (hw : WellFormed s) {es : List Event}
    (hrun : Run (guarded Undisturbed (ofPart happen)) (World.start s) es w') : w'.TakesChecked := by
  have hstep : ∀ (w : World) (ev : Event) (w' : World), w.Good ∧ w.Bound →
      guarded Undisturbed (ofPart happen) w ev w' → w'.Good ∧ w'.Bound := by
    rintro w ev w' ⟨hgood, hbound⟩ ⟨hu, hstep⟩
    obtain ⟨w1, hstep1, hgood'⟩ := happen_good hgood ev
    obtain rfl : w1 = w' := Option.some.inj (hstep1.symm.trans hstep)
    exact ⟨hgood', happen_bound hgood hbound hu hstep⟩
  have hinv : w'.Good ∧ w'.Bound :=
    hrun.invariant hstep ⟨start_good hw, fun fr hfr => nomatch hfr⟩
  exact hinv.2.takesChecked hinv.1

/-- The family, with a wizard. -/
def wizardDb : State := setObjectFlag 0 .wizard familyDb

theorem wizardDb_wellFormed : WellFormed wizardDb :=
  setObjectFlag_wellFormed familyDb_wellFormed .wizard

/-- The verb `recycle` of object 1 recycles the object itself, so that it is called again;
    this time it returns, and object 1 is gone. -/
def nestedRecycle : List Event :=
  [.recycle 0 1 sampleCalls, .recycle 0 1 sampleCalls, .resume 0 false sampleCalls]

theorem goes_on_with_checked_nested : ∃ w', Run (guarded Undisturbed (ofPart happen))
    (World.start wizardDb) nestedRecycle w' ∧ w'.TakesChecked := by
  obtain ⟨w', hrun, -⟩ := run_good (start_good wizardDb_wellFormed) nestedRecycle
  have hguarded : Run (guarded Undisturbed (ofPart happen)) (World.start wizardDb) nestedRecycle w' := by
    refine hrun.guarded fun w ev hev => ?_
    simp only [nestedRecycle, List.mem_cons, List.not_mem_nil, or_false] at hev
    rcases hev with rfl | rfl | rfl
    all_goals trivial
  exact ⟨w', hguarded, goes_on_with_checked wizardDb_wellFormed hguarded⟩

theorem renumber_not_recycle : (Op.renumber 0 2).isRecycle = false := rfl

/-- Then it renumbers object 2, which gets the number 1, and returns. -/
def staleRecycle : List Event := nestedRecycle ++ [.request (.renumber 0 2) renumber_not_recycle]

/-- Going on, the first `recycle` destroys the object that was number 2. -/
theorem recycle_takes_renumbered :
    ∃ w', Run (ofPart happen) (World.start wizardDb) staleRecycle w' ∧ ¬ w'.TakesChecked := by
  obtain ⟨w', hrun, -⟩ := run_good (start_good wizardDb_wellFormed) staleRecycle
  refine ⟨w', hrun, fun htakes => ?_⟩
  rw [run_ofPart_iff] at hrun
  have hwaits : w'.frames = [⟨.recycle 0 1, 1⟩] ∧ w'.ids 1 = 2 := by
    have h : (staleRecycle.foldlM (fun w ev => happen ev w) (World.start wizardDb)).map
        (fun w : World => (w.frames, w.ids 1)) = some ([⟨.recycle 0 1, 1⟩], 2) := by
      decide +kernel
    rw [hrun] at h
    exact ⟨congrArg Prod.fst (Option.some.inj h), congrArg Prod.snd (Option.some.inj h)⟩
  have hgone : (goOn (.recycle 0 1) true sampleCalls w'.db).map (fun r => findObject r.2 1)
      = some none ∧ (findObject w'.db 1).isSome = true := by
    have h : (staleRecycle.foldlM (fun w ev => happen ev w) (World.start wizardDb)).map
        (fun w : World =>
          ((goOn (.recycle 0 1) true sampleCalls w.db).map (fun r => findObject r.2 1),
            (findObject w.db 1).isSome)) = some (some none, true) := by decide +kernel
    rw [hrun] at h
    exact ⟨congrArg Prod.fst (Option.some.inj h), congrArg Prod.snd (Option.some.inj h)⟩
  obtain ⟨⟨p, s'⟩, hgo, hnone⟩ := Option.map_eq_some_iff.mp hgone.1
  obtain ⟨o, ho⟩ := Option.isSome_iff_exists.mp hgone.2
  have hwho : w'.ids 1 = 1 := by
    refine htakes ⟨.recycle 0 1, 1⟩ (hwaits.1 ▸ List.mem_cons_self) true sampleCalls p s' hgo ?_
    show (findObject s' 1).map Object.location ≠ (findObject w'.db 1).map Object.location
    rw [hnone, ho]
    exact nofun
  rw [hwaits.2] at hwho
  exact nomatch hwho

end Waverous.Db
