import Waverous.DbHierarchy
import Waverous.DbKept
import Waverous.DbRenaming

/-! # The list of players — `db_objects.c`, `objects.c`

    `all_users` is kept beside the flags.  It is edited where a flag is set or cleared,
    where an object is destroyed and where one is renumbered; everything else leaves both
    the list and the flags alone. -/

namespace Waverous.Db

open LinkedForest Runs

variable {s s' s'' : State} {oid x : Objid} {o : Object}

/-- `bf_set_player_flag`; booting the player does nothing to the database. -/
def bfSetPlayerFlag (s : State) (progr oid : Objid) (yes : Var) : Option Res :=
  if !valid s oid then refuse s .eInvarg
  else if !isWizard s progr then refuse s .ePerm
  else some (.eNone, if isTrue yes then setObjectFlag oid .user s else clearObjectFlag oid .user s)

/-- What can happen, with the flags of players. -/
inductive PlayerEvent where
  | setPlayerFlag (progr oid : Objid) (yes : Var)
  | event (e : Event)

def playerHappen (e : PlayerEvent) (w : World) : Option World :=
  match e with
  | .setPlayerFlag progr oid yes => do
      let (_, db) ← bfSetPlayerFlag w.db progr oid yes
      some { w with db := db }
  | .event e => happen e w

/-! ## What leaves players alone -/

theorem isUser_iff (s : State) (x : Objid) :
    isUser s x = true ↔ (findObject s x).map userFlag = some true := by
  rw [isUser]
  cases findObject s x with
  | none => simp
  | some o => simp [userFlag]

theorem Users.of_find (h : Users s) (hu : s'.allUsers = s.allUsers)
    (hf : ∀ x, (findObject s' x).map userFlag = some true ↔
      (findObject s x).map userFlag = some true) : Users s' := by
  constructor
  · rw [hu]
    exact h.nodup
  · intro x
    rw [hu, h.mem_iff, isUser_iff, isUser_iff, hf]

theorem Users.kept (h : Users s) (hk : KeepsUsers userFlag s s') : Users s' :=
  h.of_find hk.users fun x => by rw [hk.find]

theorem Users.fixed (h : Users s) (hk : KeepsUsers fixedPart s s') : Users s' :=
  h.kept (hk.comp Prod.snd)

theorem Users.changeParent {p : Objid} {b : Bool} (h : Users s)
    (hs : changeParent s oid p = some (b, s')) : Users s' :=
  h.kept (changeParent_keeps (fun _ _ => rfl) (fun _ _ => rfl) hs)

theorem Users.changeLocation {p : Objid} (h : Users s) (hs : changeLocation s oid p = some s') :
    Users s' :=
  h.kept (changeLocation_keeps (fun _ _ => rfl) hs)

/-! ## Flags -/

/-- An object becomes a player: it goes to the end of the list, unless it is there. -/
theorem Users.setFlag (h : Users s) (hv : valid s oid = true) : Users (setObjectFlag oid .user s) := by
  obtain ⟨o, ho⟩ := Option.isSome_iff_exists.mp hv
  have hflag : ∀ o : Object, userFlag { o with flags := o.flags ||| 1 <<< Flag.user.bit } = true := by
    intro o
    rw [userFlag, hasFlag, Nat.testBit_or]
    simp [Flag.bit]
  have huser : ∀ x, (findObject (setObjectFlag oid .user s) x).map userFlag = some true ↔
      x = oid ∨ isUser s x = true := by
    intro x
    have hfind : findObject (setObjectFlag oid .user s) x =
        findObject (modify oid
          (fun o => { o with flags := o.flags ||| 1 <<< Flag.user.bit }) s) x := by
      rw [setObjectFlag]
      split <;> rfl
    rw [hfind, findObject_modify, isUser_iff]
    split
    next hx => simp [hx, ho, hflag]
    next hx => simp [hx]
  have hlist : (setObjectFlag oid .user s).allUsers =
      if oid ∈ s.allUsers then s.allUsers else s.allUsers ++ [oid] := by
    rw [setObjectFlag, allUsers_modify]
    by_cases hmem : oid ∈ s.allUsers
    · rw [if_neg fun h => h.2 hmem, if_pos hmem, allUsers_modify]
    · rw [if_pos ⟨rfl, hmem⟩, if_neg hmem]
  constructor
  · rw [hlist]
    split
    · exact h.nodup
    next hmem => exact h.nodup.append (List.nodup_singleton oid) (by simpa using hmem)
  · intro x
    rw [isUser_iff, huser, hlist, ← h.mem_iff]
    split
    next hmem =>
      constructor
      · exact .inr
      · rintro (rfl | hx)
        · exact hmem
        · exact hx
    next hmem => rw [List.mem_append, List.mem_singleton, or_comm]

/-- It is no player any more. -/
theorem Users.clearFlag (h : Users s) : Users (clearObjectFlag oid .user s) := by
  have hflag : ∀ o : Object,
      userFlag { o with flags := if hasFlag o .user then o.flags ^^^ 1 <<< Flag.user.bit
        else o.flags } = false := by
    intro o
    split
    next ho =>
      rw [hasFlag] at ho
      rw [userFlag, hasFlag, Nat.testBit_xor, ho]
      rfl
    next ho => exact Bool.eq_false_iff.mpr ho
  have hlist : (clearObjectFlag oid .user s).allUsers = s.allUsers.erase oid := by
    rw [clearObjectFlag, if_pos rfl, allUsers_modify]
  have huser : ∀ x, (findObject (clearObjectFlag oid .user s) x).map userFlag = some true ↔
      x ≠ oid ∧ isUser s x = true := by
    intro x
    have hfind : findObject (clearObjectFlag oid .user s) x =
        findObject (modify oid (fun o => { o with
          flags := if hasFlag o .user then o.flags ^^^ 1 <<< Flag.user.bit else o.flags }) s) x :=
      rfl
    rw [hfind, findObject_modify, isUser_iff]
    split
    next hx =>
      cases findObject s x with
      | none => simp
      | some o => simp [hx, hflag]
    next hx => simp [hx]
  constructor
  · rw [hlist]
    exact h.nodup.erase oid
  · intro x
    rw [isUser_iff, huser, hlist, h.nodup.mem_erase_iff, h.mem_iff]

/-! ## Objects that come, go and change their number -/

theorem Users.createObject (h : Users s) : Users (createObject s).2 := by
  refine h.of_find rfl fun x => ?_
  rw [findObject_createObject]
  split
  next hx =>
    rw [hx, findObject_numObjects]
    simp [userFlag, hasFlag, emptyObject]
  · exact Iff.rfl

theorem Users.destroyObject (h : Users s) (hs : destroyObject s oid = some s') : Users s' := by
  simp only [Db.destroyObject, Option.bind_eq_bind, Option.bind_eq_some_iff] at hs
  obtain ⟨o, ho, hs⟩ := hs
  split at hs
  · cases hs
  · split at hs
    · cases hs
    · cases hs
      -- the list without the object, whether it was there or not
      have hlist : (if isUser s oid then { s with allUsers := s.allUsers.erase oid } else s) =
          { s with allUsers := s.allUsers.erase oid } := by
        split
        · rfl
        next hno =>
          have hmem : oid ∉ s.allUsers := fun hmem => hno ((h.mem_iff oid).mp hmem)
          rw [List.erase_of_not_mem hmem]
      rw [hlist]
      have hfind := findObject_clearObject (s := { s with allUsers := s.allUsers.erase oid }) ho
      have husers : (clearObject oid { s with allUsers := s.allUsers.erase oid }).allUsers =
          s.allUsers.erase oid := by
        cases oid <;> rfl
      constructor
      · rw [husers]
        exact h.nodup.erase oid
      · intro x
        rw [husers, isUser_iff, hfind, h.nodup.mem_erase_iff, h.mem_iff, isUser_iff]
        split
        next hx => simp [hx]
        next hx => exact and_iff_right hx

theorem fixAllOwners_keeps {old new : Objid} {k n : Nat}
    (h : fixAllOwners old new k n s = some s') : KeepsUsers userFlag s s' := by
  induction k generalizing n s with
  | zero =>
      cases h
      exact .refl _ _
  | succ k ih =>
      rw [fixAllOwners] at h
      split at h
      · exact ih h
      · obtain ⟨count, -, h⟩ := Option.bind_eq_some_iff.mp h
        split at h
        · cases h
        · exact (KeepsUsers.modify (by intro o; rfl) _ s).trans (ih h)

/-- In the list the old number becomes the new one, wherever it stands. -/
theorem Users.renumberObject {old new : Objid} (h : Users s)
    (hs : renumberObject s old = some (new, s')) : Users s' := by
  rw [Db.renumberObject] at hs
  split at hs
  · cases hs
    exact h
  next n hn =>
    simp only [Option.bind_eq_bind, Option.bind_eq_some_iff] at hs
    obtain ⟨o, ho, s2, h2, s3, h3, s4, h4, hs⟩ := hs
    cases hs
    have hfree := leastFree_of_some ho hn
    have hne : (n : Objid) ≠ old := Int.ne_of_lt hfree.lt
    have hnone : findObject s n = none :=
      Option.not_isSome_iff_eq_none.mp (Bool.eq_false_iff.mp hfree.free)
    have hnot : (n : Objid) ∉ s.allUsers := by
      rw [h.mem_iff, isUser, hnone]
      intro h
      cases h
    let s1 := clearObject old (putObject n { o with id := n } s)
    have hlinks : KeepsUsers userFlag s1 s3 := by
      have hdescent : KeepsUsers userFlag s1 s2 :=
        Store.renameLinks_induct (P := KeepsUsers userFlag s1)
          (fun x f t ht => ht.trans (.modify (by intro o; rfl) x t)) h2 (.refl _ s1)
      exact Store.renameLinks_induct (P := KeepsUsers userFlag s1)
        (fun x f t ht => ht.trans (.modify (by intro o; rfl) x t)) h3 hdescent
    have husers1 : s3.allUsers = s.allUsers := by
      rw [hlinks.users]
      show (clearObject old (putObject n { o with id := n } s)).allUsers = s.allUsers
      cases old <;> rfl
    -- the flags have moved with the object
    have hswap : ∀ y, isUser s3 y = true ↔ isUser s (Equiv.swap old (n : Objid) y) = true := by
      intro y
      rw [isUser_iff, isUser_iff, hlinks.find, findObject_replaced ho hfree.nonneg hfree.lt]
      by_cases hy : y = old
      · rw [if_pos hy, hy, Equiv.swap_apply_left, hnone]
      · rw [if_neg hy]
        by_cases hyn : y = n
        · rw [if_pos hyn, hyn, Equiv.swap_apply_right, ho]
          exact Iff.rfl
        · rw [if_neg hyn, Equiv.swap_apply_of_ne_of_ne hy hyn]
    -- and so have the numbers in the list
    have hlist : (if isUser s3 n then { s3 with allUsers := renumberUser old n s3.allUsers }
        else s3) = { s3 with allUsers := s.allUsers.map (Equiv.swap old (n : Objid)) } := by
      rw [← map_newName_eq_swap hnot, husers1]
      split
      · rw [renumberUser_eq h.nodup]
      next hno =>
        have hold : old ∉ s.allUsers := by
          rw [h.mem_iff]
          intro hold
          exact hno ((hswap n).mpr (by rwa [Equiv.swap_apply_right]))
        rw [map_newName_of_not_mem hold, ← husers1]
    rw [hlist] at h4
    refine Users.kept ?_ (fixAllOwners_keeps h4)
    constructor
    · exact h.nodup.map (Equiv.injective _)
    · intro u
      refine Iff.trans ?_ (hswap u).symm
      rw [← h.mem_iff, List.mem_map_of_involutive (Equiv.swap_apply_self old (n : Objid))]

/-! ## Requests -/

theorem Users.create_end {parent owner : Objid} {e : Error} (h : Users s)
    (hs : (do
      let (left, s) ← (if valid s owner then decrQuota s owner else some (true, s))
      if !left then some (.eQuota, s)
      else
        let (oid, s) := Db.createObject s
        let s := modify oid (fun o => { o with owner := if owner = nothing then oid else owner }) s
        let (_, s) ← Db.changeParent s oid parent
        some (.eNone, s)) = some (e, s')) : Users s' := by
  obtain ⟨⟨left, s1⟩, h1, hs⟩ := Option.bind_eq_some_iff.mp hs
  have hquota : Users s1 := by
    split at h1
    · exact h.fixed (decrQuota_keeps h1)
    · cases h1
      exact h
  dsimp only at hs
  split at hs
  · cases hs
    exact hquota
  · obtain ⟨⟨b, s2⟩, h2, hs⟩ := Option.bind_eq_some_iff.mp hs
    cases hs
    refine Users.changeParent ?_ h2
    exact hquota.createObject.kept (.modify (by intro o; rfl) _ _)

theorem Users.bfCreate {progr parent owner : Objid} {e : Error} (h : Users s)
    (hs : bfCreate s progr parent owner = some (e, s')) : Users s' := by
  simp only [Db.bfCreate] at hs
  cases hop : findObject s parent with
  | some op =>
      simp only [hop] at hs
      split at hs
      · cases hs
        exact h
      · exact h.create_end hs
  | none =>
      simp only [hop] at hs
      split at hs
      · cases hs
        exact h
      · exact h.create_end hs

theorem Users.bfChparent {progr what parent : Objid} {e : Error} (h : Users s)
    (hs : bfChparent s progr what parent = some (e, s')) : Users s' := by
  rw [Db.bfChparent] at hs
  split at hs
  · cases hs
    exact h
  · split at hs
    · cases hs
      exact h
    · split at hs
      · cases hs
        exact h
      · obtain ⟨os, -, hs⟩ := Option.bind_eq_some_iff.mp hs
        split at hs
        · cases hs
          exact h
        · obtain ⟨⟨b, s1⟩, h1, hs⟩ := Option.bind_eq_some_iff.mp hs
          cases hs
          exact h.changeParent h1

theorem Users.moveContents {called : Bool} {fuel : Nat} {b : Bool} (h : Users s)
    (hs : moveContents called oid fuel s = some (b, s')) : Users s' := by
  induction fuel generalizing s with
  | zero => exact nomatch hs
  | succ fuel ih =>
      simp only [Db.moveContents, Option.bind_eq_bind, Option.bind_eq_some_iff] at hs
      obtain ⟨o, -, hs⟩ := hs
      split at hs
      · cases hs
        exact h
      · obtain ⟨s1, h1, hs⟩ := Option.bind_eq_some_iff.mp hs
        have hmoved := h.changeLocation h1
        split at hs
        · cases hs
          exact hmoved
        · exact ih hmoved hs

theorem Users.orphanChildren {fuel : Nat} (h : Users s) (hs : orphanChildren oid fuel s = some s') :
    Users s' := by
  induction fuel generalizing s with
  | zero => exact nomatch hs
  | succ fuel ih =>
      simp only [Db.orphanChildren, Option.bind_eq_bind, Option.bind_eq_some_iff] at hs
      obtain ⟨o, -, hs⟩ := hs
      split at hs
      · cases hs
        exact h
      · obtain ⟨⟨b, s1⟩, h1, hs⟩ := Option.bind_eq_some_iff.mp hs
        exact ih (h.changeParent h1) hs

theorem Users.leavePlaces {called : Objid → Bool} {b : Bool} (h : Users s)
    (hs : leavePlaces s called oid = some (b, s')) : Users s' := by
  simp only [Db.leavePlaces, Option.bind_eq_bind, Option.bind_eq_some_iff] at hs
  obtain ⟨⟨wait, s1⟩, h1, hs⟩ := hs
  have hmoved := h.moveContents h1
  dsimp only at hs
  split at hs
  · cases hs
    exact hmoved
  · obtain ⟨o, -, hs⟩ := Option.bind_eq_some_iff.mp hs
    obtain ⟨s2, h2, hs⟩ := Option.bind_eq_some_iff.mp hs
    cases hs
    split at h2
    · exact hmoved.changeLocation h2
    · cases h2
      exact hmoved

theorem Users.demolish (h : Users s) (hs : demolish s oid = some s') : Users s' := by
  simp only [Db.demolish, Option.bind_eq_bind, Option.bind_eq_some_iff] at hs
  obtain ⟨s1, h1, ⟨b, s2⟩, h2, o, -, s3, h3, h4⟩ := hs
  have hparted : Users s2 := (h.orphanChildren h1).changeParent h2
  exact (hparted.fixed (incrQuota_keeps h3)).destroyObject h4

theorem Users.recycleContents {called : Objid → Bool} {e : Error} (h : Users s)
    (hs : recycleContents s called oid = some (e, s')) : Users s' := by
  rw [recycleContents_eq] at hs
  split at hs
  · cases hs
    exact h
  · obtain ⟨⟨b, s1⟩, h1, hs⟩ := Option.bind_eq_some_iff.mp hs
    have hleft := h.leavePlaces h1
    split at hs
    · cases hs
      exact hleft
    · obtain ⟨s2, h2, heq⟩ := Option.map_eq_some_iff.mp hs
      cases heq
      exact hleft.demolish h2

theorem Users.bfRenumber {progr old : Objid} {e : Error} (h : Users s)
    (hs : bfRenumber s progr old = some (e, s')) : Users s' := by
  rw [Db.bfRenumber] at hs
  split at hs
  · cases hs
    exact h
  · split at hs
    · cases hs
      exact h
    · obtain ⟨⟨new, s1⟩, h1, hs⟩ := Option.bind_eq_some_iff.mp hs
      cases hs
      exact h.renumberObject h1

/-- Whatever is requested. -/
theorem Users.request {op : Op} {e : Error} (h : Users s) (hs : request op s = some (e, s')) :
    Users s' := by
  cases op with
  | create progr parent owner => exact h.bfCreate hs
  | chparent progr what parent => exact h.bfChparent hs
  | recycle progr called oid =>
      simp only [Db.request, bfRecycle] at hs
      split at hs
      · cases hs
        exact h
      · split at hs
        · exact h.recycleContents hs
        · cases hs
          exact h
  | recycleOn called oid => exact h.recycleContents hs
  | renumber progr old => exact h.bfRenumber hs
  | addProp progr oid pname value info => exact h.fixed (request_keeps rfl hs)
  | setPropInfo progr oid pname info => exact h.fixed (request_keeps rfl hs)
  | deleteProp progr oid pname => exact h.fixed (request_keeps rfl hs)
  | putProp progr oid pname rhs => exact h.fixed (request_keeps rfl hs)
  | clearProp progr oid pname => exact h.fixed (request_keeps rfl hs)

/-! ## Functions that call verbs -/

theorem Users.recycleMoving {call : Calls} {p : Package} (h : Users s)
    (hs : recycleMoving s oid call = some (p, s')) : Users s' := by
  rw [Db.recycleMoving] at hs
  split at hs
  · cases hs
    exact h
  · obtain ⟨⟨b, s1⟩, h1, hs⟩ := Option.bind_eq_some_iff.mp hs
    have hleft := h.leavePlaces h1
    dsimp only at hs
    split at hs
    · cases hs
      exact hleft
    · obtain ⟨s2, h2, hs⟩ := Option.bind_eq_some_iff.mp hs
      cases hs
      exact hleft.demolish h2

theorem Users.doRecycle {progr : Objid} {next : Nat} {call : Calls} {p : Package} (h : Users s)
    (hs : doRecycle s progr oid next call = some (p, s')) : Users s' := by
  simp only [Db.doRecycle] at hs
  split at hs
  · split at hs
    · cases hs
      exact h
    · split at hs
      · cases hs
        exact h
      · split at hs
        · cases hs
          exact h
        · exact h.recycleMoving hs
  · exact h.recycleMoving hs
  · cases hs

theorem Users.moveExited (h : Users s) (d : MoveData) (call : Calls) :
    Users (moveExited s d call).2 := by
  obtain ⟨p, hexit, -⟩ := moveExited_eq s d call
  rw [hexit]
  exact h

theorem Users.moveDecided {progr : Objid} {d : MoveData} {accepts : Bool} {call : Calls}
    {p : Package} (h : Users s) (hs : moveDecided s progr d accepts call = some (p, s')) :
    Users s' := by
  rw [Db.moveDecided] at hs
  split at hs
  · cases hs
    exact h
  · split at hs
    · cases hs
      exact h
    · split at hs
      · cases hs
        exact h
      · obtain ⟨ls, -, hs⟩ := Option.bind_eq_some_iff.mp hs
        split at hs
        · cases hs
          exact h
        · obtain ⟨s1, h1, hs⟩ := Option.bind_eq_some_iff.mp hs
          have hmoved := h.changeLocation h1
          split at hs
          · cases hs
            exact hmoved
          · cases hs
            exact hmoved
          · have hexit := hmoved.moveExited d call
            rw [Option.some.inj hs] at hexit
            exact hexit

theorem Users.doMove {progr : Objid} {d : MoveData} {next : Nat} {arg : Bool} {call : Calls}
    {p : Package} (h : Users s) (hs : doMove s progr d next arg call = some (p, s')) :
    Users s' := by
  simp only [Db.doMove] at hs
  split at hs
  · split at hs
    · cases hs
      exact h
    · split at hs
      · cases hs
        exact h
      · split at hs
        · cases hs
          exact h
        · split at hs
          · exact h.moveDecided hs
          · split at hs
            · cases hs
              exact h
            · cases hs
              exact h
            · exact h.moveDecided hs
  · exact h.moveDecided hs
  · have hexit := h.moveExited d call
    rw [Option.some.inj hs] at hexit
    exact hexit
  · cases hs
    exact h
  · cases hs

theorem Users.bfResetMaxObject {progr : Objid} {e : Error} (h : Users s)
    (hs : bfResetMaxObject s progr = some (e, s')) : Users s' := by
  rw [Db.bfResetMaxObject] at hs
  split at hs
  · cases hs
    exact h
  · obtain ⟨s1, h1, hs⟩ := Option.bind_eq_some_iff.mp hs
    cases hs
    rw [resetLastUsedObjid] at h1
    split at h1
    · cases h1
    · cases h1
      refine h.of_find rfl fun x => ?_
      cases x with
      | negSucc n => exact Iff.rfl
      | ofNat n =>
          have hfind : findObject { s with objects := s.objects.rdropWhile Option.isNone }
              (Int.ofNat n) = findObject s (Int.ofNat n) := rdropWhile_join s.objects n
          rw [hfind]

theorem Users.bfSetPlayerFlag {progr : Objid} {yes : Var} {e : Error} (h : Users s)
    (hs : bfSetPlayerFlag s progr oid yes = some (e, s')) : Users s' := by
  rw [Db.bfSetPlayerFlag] at hs
  split at hs
  · cases hs
    exact h
  next hv =>
    split at hs
    · cases hs
      exact h
    · cases hs
      split
      · exact h.setFlag (by simpa using hv)
      · exact h.clearFlag

/-! ## Runs -/

/-- One event. -/
theorem Users.playerHappen {w w' : World} {e : PlayerEvent} (h : Users w.db)
    (hs : playerHappen e w = some w') : Users w'.db := by
  cases e with
  | setPlayerFlag progr oid yes =>
      obtain ⟨⟨err, db⟩, h1, hs⟩ := Option.bind_eq_some_iff.mp hs
      cases hs
      exact h.bfSetPlayerFlag h1
  | event e =>
      cases e with
      | request op hop =>
          obtain ⟨⟨err, db⟩, h1, hs⟩ := Option.bind_eq_some_iff.mp hs
          cases hs
          exact h.request h1
      | resetMaxObject progr =>
          obtain ⟨⟨err, db⟩, h1, hs⟩ := Option.bind_eq_some_iff.mp hs
          cases hs
          exact h.bfResetMaxObject h1
      | move progr what place call =>
          obtain ⟨⟨p, db⟩, h1, hs⟩ := Option.bind_eq_some_iff.mp hs
          cases hs
          exact h.doMove h1
      | recycle progr oid call =>
          obtain ⟨⟨p, db⟩, h1, hs⟩ := Option.bind_eq_some_iff.mp hs
          cases hs
          exact h.doRecycle h1
      | resume i arg call =>
          simp only [Db.playerHappen, happen] at hs
          split at hs
          · cases hs
            exact h
          next fr _ =>
            obtain ⟨⟨p, db⟩, h1, hs⟩ := Option.bind_eq_some_iff.mp hs
            cases hs
            cases hfn : fr.fn with
            | move progr d next =>
                rw [hfn] at h1
                exact h.doMove h1
            | recycle progr oid =>
                rw [hfn] at h1
                exact h.recycleMoving h1
      | abandon i =>
          cases hs
          exact h

/-- In a well-formed database each event comes to its end. -/
theorem playerHappen_good {w : World} (hw : w.Good) (e : PlayerEvent) :
    ∃ w', playerHappen e w = some w' ∧ w'.Good := by
  cases e with
  | setPlayerFlag progr oid yes =>
      simp only [playerHappen, bfSetPlayerFlag]
      split
      · exact ⟨w, rfl, hw⟩
      · split
        · exact ⟨w, rfl, hw⟩
        · refine ⟨_, rfl, ?_, hw.frames⟩
          show WellFormed (if isTrue yes then _ else _)
          split
          · exact setObjectFlag_wellFormed hw.db .user
          · exact clearObjectFlag_wellFormed hw.db .user
  | event e => exact happen_good hw e

/-- The list of players has exactly the objects with the flag, each once, in every state that
    is reached; and from a well-formed database the events can come in any order. -/
theorem players_stay_listed {w : World} (h : Users w.db) (es : List PlayerEvent) :
    (∀ w', Run (ofPart playerHappen) w es w' → Users w'.db) ∧
      (w.Good → ∃ w', Run (ofPart playerHappen) w es w') := by
  constructor
  · intro w' hrun
    have hstep : ∀ w e w', Users w.db → ofPart playerHappen w e w' → Users w'.db :=
      fun w e w' h hstep => h.playerHappen hstep
    exact hrun.invariant hstep h
  · intro hw
    clear h
    induction es generalizing w with
    | nil => exact ⟨w, .nil w⟩
    | cons e es ih =>
        obtain ⟨w1, hstep, hw1⟩ := playerHappen_good hw e
        obtain ⟨w', hrun⟩ := ih hw1
        exact ⟨w', .cons hstep hrun⟩

/-- `usersDb`, with a wizard. -/
def rulersDb : State := setObjectFlag 0 .wizard usersDb

theorem rulersDb_users : Users rulersDb := 
  usersDb_users.fixed (setObjectFlag_keeps (f := .wizard) nofun 0 usersDb)

/-- A second player is made, the first one is renumbered, there is a new object, and it too
    becomes a player; then the first one is recycled. -/
def playerEvents : List PlayerEvent :=
  [.setPlayerFlag 0 0 (.int 1), .event (.request (.renumber 0 2) rfl),
    .event (.request (.create 0 nothing 0) rfl), .setPlayerFlag 0 3 (.int 1),
    .event (.recycle 0 1 fun _ _ => .notFound)]

theorem players_stay_listed_sample : ∃ w', Run (ofPart playerHappen) (World.start rulersDb)
    playerEvents w' ∧ w'.db.allUsers = [0, 3] ∧ Users w'.db := by
  have hgood : (World.start rulersDb).Good :=
    start_good (setObjectFlag_wellFormed usersDb_wellFormed .wizard)
  obtain ⟨hstay, hruns⟩ := players_stay_listed (w := World.start rulersDb) rulersDb_users playerEvents
  obtain ⟨w', hrun⟩ := hruns hgood
  have hlist : ((playerEvents.foldlM (fun w e => playerHappen e w) (World.start rulersDb)).map
      fun w => w.db.allUsers) = some [0, 3] := by decide +kernel
  rw [run_ofPart_iff.mp hrun] at hlist
  exact ⟨w', hrun, Option.some.inj hlist, hstay w' hrun⟩

end Waverous.Db
