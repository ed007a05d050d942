import Waverous.DbHierarchy
import Waverous.DbKept
import Waverous.Lib.TwoSpeed

/-! # Validating the hierarchies — `db_file.c`

    The links of the objects that a file has are what the file says.  Those that lead to no
    object are cut, the walks along the others are looked at for circles, and then every
    object claims the objects on its lists; two flags of each object tell of what has not
    been claimed. -/

namespace Waverous.Db

open LinkedForest

/-- `FLAG_FIRST_TEMP`, the flag of `parent`; that of `location` is the next one. -/
def flagFirstTemp : Nat := 14

/-- `flags &= ~mask`. -/
def clearFlags (mask flags : Nat) : Nat := flags ^^^ (flags &&& mask)

/-- `3 << FLAG_FIRST_TEMP`. -/
def tempFlags : Nat := 3 <<< flagFirstTemp

/-! ## Phase 1 -/

/-- `CHECK` of phase 1. -/
def fixLink (s : State) (link : Objid) : Objid :=
  if link ≠ nothing ∧ !valid s link then nothing else link

/-- What phase 1 does to an object. -/
def fixLinks (s : State) (o : Object) : Object :=
  let next := if o.location = nothing ∧ o.next ≠ nothing then nothing else o.next
  { o with
    descent := ⟨fixLink s o.parent, fixLink s o.child, fixLink s o.sibling⟩
    place := ⟨fixLink s o.location, fixLink s o.contents, fixLink s next⟩ }

/-- Phase 1. -/
def checkInvalid (s : State) : State :=
  (List.range s.numObjects).foldl (fun s (oid : Nat) => modify oid (fixLinks s) s) s

/-! ## Phase 2 -/

/-- `CHECK` of phase 2: there is a cycle in the chain. -/
def chainCycle (s : State) (field : Objid → Option Objid) (start : Objid) : Option Bool :=
  meets nothing field s.numObjects start start

/-- Phase 2, for one object; `broken` comes with the database. -/
def checkCycles (r : Bool × State) (oid : Nat) : Option (Bool × State) :=
  let (broken, s) := r
  match findObject s oid with
  | none => some (broken, s)
  | some o => do
      let parent ← chainCycle s (upOf (descent.get s)) o.parent
      let child ← chainCycle s (nextOf (descent.get s)) o.child
      let location ← chainCycle s (upOf (place.get s)) o.location
      let contents ← chainCycle s (nextOf (place.get s)) o.contents
      some (broken || parent || child || location || contents,
        modify oid (fun o => { o with flags := o.flags ||| tempFlags }) s)

/-! ## Phase 3 -/

/-- `CHECK` of phase 3a, from `oidkid` on; `fuel` bounds the rounds. -/
def claimKids (st : Store State Objid) (flag : Nat) (oid : Objid) :
    Nat → Objid → Bool × State → Option (Bool × State)
  | 0, oidkid, r => if oidkid = nothing then some r else none
  | fuel + 1, oidkid, r =>
      if oidkid = nothing then some r
      else do
        let okid : Links Objid ← st.get r.2 oidkid
        let r :=
          if okid.up ≠ oid then (true, r.2)
          else (r.1, modify oidkid (fun o => { o with flags := clearFlags (1 <<< flag) o.flags }) r.2)
        claimKids st flag oid fuel okid.next r

/-- Phase 3a, for one object. -/
def checkKids (r : Bool × State) (oid : Nat) : Option (Bool × State) :=
  match findObject r.2 oid with
  | none => some r
  | some o => do
      let r ← claimKids descent flagFirstTemp oid r.2.numObjects o.child r
      claimKids place (flagFirstTemp + 1) oid r.2.numObjects o.contents r

/-- Phase 3b, for one object. -/
def checkUnclaimed (r : Bool × State) (oid : Nat) : Bool × State :=
  let (broken, s) := r
  match findObject s oid with
  | none => (broken, s)
  | some o =>
      (broken || (o.flags.testBit flagFirstTemp && o.parent != nothing)
          || (o.flags.testBit (flagFirstTemp + 1) && o.location != nothing),
        modify oid (fun o => { o with flags := clearFlags tempFlags o.flags }) s)

/-- `validate_hierarchies`. -/
def validateHierarchies (s : State) : Option (Bool × State) := do
  let oids := List.range s.numObjects
  let (broken, s) ← oids.foldlM checkCycles (false, checkInvalid s)
  if broken then some (false, s)
  else
    let r ← oids.foldlM checkKids (false, s)
    let (broken, s) := oids.foldl checkUnclaimed r
    some (!broken, s)

/-! ## What is repaired -/

/-- A link before and after the repair. -/
def Repair (s : State) (link link' : Objid) (stray : Prop) : Prop :=
  link' = link ∨ link' = nothing ∧ (valid s link = false ∨ stray)

/-- An object before and after: links to invalid objects, and the `next` of an object without
    a location, have become NOTHING; flags that are not temporary are as they were. -/
structure RepairedObject (s : State) (o o' : Object) : Prop where
  parent : Repair s o.parent o'.parent False
  child : Repair s o.child o'.child False
  sibling : Repair s o.sibling o'.sibling False
  location : Repair s o.location o'.location False
  contents : Repair s o.contents o'.contents False
  next : Repair s o.next o'.next (o.location = nothing)
  flags : ∀ i, i ≠ flagFirstTemp → i ≠ flagFirstTemp + 1 → o'.flags.testBit i = o.flags.testBit i
  rest : o' = { o with flags := o'.flags, place := o'.place, descent := o'.descent }

/-- The database before and after. -/
structure Repaired (s s' : State) : Prop where
  objects : ∀ x, Option.Rel (RepairedObject s) (findObject s x) (findObject s' x)
  numObjects : s'.numObjects = s.numObjects
  allUsers : s'.allUsers = s.allUsers
  nextProp : s'.nextProp = s.nextProp

/-! ## Phase 1 cuts what leads nowhere -/

variable {s s' s1 t t' : State} {x : Objid} {o : Object}

theorem findObject_lt (h : findObject s x = some o) : x < (s.numObjects : Objid) := by
  obtain ⟨n, hn, rfl⟩ := List.mem_map.mp (mem_oids h)
  exact Int.ofNat_lt.mpr (List.mem_range.mp hn)

theorem lt_or_self {x : Int} {n : Nat} (hx : x ≠ n) : x < n ↔ x < ((n + 1 : Nat) : Int) := by omega

theorem fixLinks_congr (h : ∀ x, valid t x = valid s x) : fixLinks t = fixLinks s := by
  have hlink : fixLink t = fixLink s := by
    funext link
    rw [fixLink, fixLink, h]
  funext o
  rw [fixLinks, fixLinks, hlink]

theorem checkInvalid_find (s : State) :
    (∀ x, findObject (checkInvalid s) x = (findObject s x).map (fixLinks s)) ∧
      (checkInvalid s).numObjects = s.numObjects ∧ (checkInvalid s).allUsers = s.allUsers ∧
      (checkInvalid s).nextProp = s.nextProp := by
  have hloop : ∀ n, ∃ t, (List.range n).foldl (fun s (oid : Nat) => modify oid (fixLinks s) s) s = t ∧
      (∀ x, findObject t x =
        (findObject s x).map fun o => if x < (n : Objid) then fixLinks s o else o) ∧
      t.numObjects = s.numObjects ∧ t.allUsers = s.allUsers ∧ t.nextProp = s.nextProp := by
    intro n
    induction n with
    | zero =>
        refine ⟨s, rfl, fun x => ?_, rfl, rfl, rfl⟩
        cases hx : findObject s x with
        | none => rfl
        | some o =>
            cases x with
            | negSucc m => exact nomatch hx
            | ofNat m =>
                have hlt : ¬ ((m : Int) < ((0 : Nat) : Int)) := by omega
                exact congrArg some (if_neg hlt).symm
    | succ n ih =>
        obtain ⟨t, hfold, hfind, hnum, hus, hnp⟩ := ih
        have hvalid : ∀ x, valid t x = valid s x := by
          intro x
          rw [valid, hfind, Option.isSome_map, valid]
        refine ⟨modify n (fixLinks t) t, ?_, fun x => ?_, ?_, ?_, ?_⟩
        · rw [List.range_succ, List.foldl_append, hfold]
          rfl
        · rw [findObject_modify, fixLinks_congr hvalid, hfind, Option.map_map]
          by_cases hx : x = (n : Objid)
          · subst hx
            rw [if_pos rfl]
            congr 1
            funext o
            have hlt : ¬ ((n : Int) < (n : Int)) := by omega
            have hlt' : (n : Int) < ((n + 1 : Nat) : Int) := by omega
            rw [Function.comp_apply, if_neg hlt, if_pos hlt']
          · rw [if_neg hx]
            congr 1
            funext o
            exact if_congr (lt_or_self hx) rfl rfl
        · exact (numObjects_modify _ _ _).trans hnum
        · exact (allUsers_modify _ _ _).trans hus
        · exact (nextProp_modify _ _ _).trans hnp
  obtain ⟨t, hfold, hfind, hrest⟩ := hloop s.numObjects
  rw [checkInvalid, hfold]
  refine ⟨fun x => ?_, hrest⟩
  rw [hfind]
  cases hx : findObject s x with
  | none => rfl
  | some o => rw [Option.map_some, Option.map_some, if_pos (findObject_lt hx)]

theorem fixLink_valid (s : State) (link : Objid) :
    fixLink s link = nothing ∨ valid s (fixLink s link) = true := by
  rw [fixLink]
  split
  · exact .inl rfl
  next h =>
    by_cases hn : link = nothing
    · exact .inl hn
    · exact .inr (by simpa [hn] using h)

theorem fixLink_repair (s : State) (link : Objid) : Repair s link (fixLink s link) False := by
  rw [fixLink]
  split
  next h => exact .inr ⟨rfl, .inl (by simpa using h.2)⟩
  · exact .inl rfl

/-- The links of each object lead to objects. -/
structure LinksValid (st : Store State Objid) (s : State) : Prop where
  isNode : ∀ x, (st.get s x).isSome = valid s x
  up : ∀ {x l}, st.get s x = some l → l.up = nothing ∨ valid s l.up = true
  first : ∀ {x l}, st.get s x = some l → l.first = nothing ∨ valid s l.first = true
  next : ∀ {x l}, st.get s x = some l → l.next = nothing ∨ valid s l.next = true

theorem checkInvalid_valid (s : State) (x : Objid) : valid (checkInvalid s) x = valid s x := by
  rw [valid, (checkInvalid_find s).1, Option.isSome_map, valid]

theorem descent_linksValid (s : State) : LinksValid descent (checkInvalid s) := by
  have hobj : ∀ {x l}, descent.get (checkInvalid s) x = some l → ∃ o, (fixLinks s o).descent = l := by
    intro x l h
    obtain ⟨o, ho, hl⟩ := find_of_descent h
    rw [(checkInvalid_find s).1] at ho
    obtain ⟨o1, -, rfl⟩ := Option.map_eq_some_iff.mp ho
    exact ⟨o1, hl⟩
  constructor
  · exact fun x => Option.isSome_map
  all_goals
    intro x l h
    obtain ⟨o, rfl⟩ := hobj h
    rw [checkInvalid_valid]
    exact fixLink_valid s _

theorem place_linksValid (s : State) : LinksValid place (checkInvalid s) := by
  have hobj : ∀ {x l}, place.get (checkInvalid s) x = some l → ∃ o, (fixLinks s o).place = l := by
    intro x l h
    obtain ⟨o, ho, hl⟩ := find_of_place h
    rw [(checkInvalid_find s).1] at ho
    obtain ⟨o1, -, rfl⟩ := Option.map_eq_some_iff.mp ho
    exact ⟨o1, hl⟩
  constructor
  · exact fun x => Option.isSome_map
  all_goals
    intro x l h
    obtain ⟨o, rfl⟩ := hobj h
    rw [checkInvalid_valid]
    exact fixLink_valid s _

/-! ## What the phases look at -/

/-- The objects. -/
def nodes (s : State) : Finset Objid := ((oids s).filter (valid s)).toFinset

theorem mem_nodes {x : Objid} : x ∈ nodes s ↔ valid s x = true := by
  rw [nodes, List.mem_toFinset, List.mem_filter]
  constructor
  · exact And.right
  · intro h
    obtain ⟨o, ho⟩ := Option.isSome_iff_exists.mp h
    exact ⟨mem_oids ho, h⟩

theorem card_nodes (s : State) : (nodes s).card ≤ s.numObjects := by
  calc (nodes s).card ≤ ((oids s).filter (valid s)).length := List.toFinset_card_le _
    _ ≤ (oids s).length := List.length_filter_le _ _
    _ = s.numObjects := length_oids s

/-- Neither the chain up from an object nor its list goes on for ever. -/
def NoCycleAt (g : Graph Objid) (x : Objid) : Prop :=
  ∀ l, g x = some l → Terminates nothing (upOf g) l.up ∧ Terminates nothing (nextOf g) l.first

def NoCycle (g : Graph Objid) : Prop := ∀ x, NoCycleAt g x

/-- `x` is on the list of `p`. -/
def OnList (g : Graph Objid) (p x : Objid) : Prop :=
  ∃ l cs, g p = some l ∧ Seg (nextOf g) l.first cs nothing ∧ x ∈ cs

/-- The objects on a list point to the one that has the list. -/
def KidsRight (g : Graph Objid) : Prop := ∀ p x, OnList g p x → upOf g x = some p

/-- An object that points to one is on its list. -/
def KidsClaimed (g : Graph Objid) : Prop :=
  ∀ x l, g x = some l → l.up ≠ nothing → OnList g l.up x

/-- Each step makes the rest of the walk shorter. -/
theorem seg_of_transGen {f : Objid → Option Objid} {a b : Objid} {cs : List Objid}
    (hnil : f nothing = none) (hseg : Seg f a cs nothing)
    (hab : Relation.TransGen (fun a b => f a = some b) a b) :
    ∃ ds, Seg f b ds nothing ∧ ds.length < cs.length := by
  have hone : ∀ {a b cs}, Seg f a cs nothing → f a = some b →
      ∃ ds, Seg f b ds nothing ∧ ds.length < cs.length := by
    intro a b cs hseg hab
    cases cs with
    | nil =>
        rw [show a = nothing from hseg, hnil] at hab
        exact nomatch hab
    | cons x cs =>
        obtain ⟨rfl, m, hm, hseg⟩ := hseg
        rw [hab] at hm
        cases hm
        exact ⟨cs, hseg, by simp⟩
  induction hab with
  | single hab => exact hone hseg hab
  | tail _ hbc ih =>
      obtain ⟨ds, hds, hlen⟩ := ih
      obtain ⟨es, hes, hlen'⟩ := hone hds hbc
      exact ⟨es, hes, by omega⟩

section Graphs

variable {st : Store State Objid} (h : LinksValid st s)
include h

theorem LinksValid.nothing_none : st.get s nothing = none := by
  have := h.isNode nothing
  rw [show valid s nothing = false from rfl] at this
  exact Option.isSome_eq_false_iff.mp this |> Option.isNone_iff_eq_none.mp

theorem LinksValid.upOf_nothing : upOf (st.get s) nothing = none := by
  rw [upOf, h.nothing_none]
  rfl

theorem LinksValid.nextOf_nothing : nextOf (st.get s) nothing = none := by
  rw [nextOf, h.nothing_none]
  rfl

theorem LinksValid.node {x : Objid} : x ∈ nodes s ↔ ∃ l, st.get s x = some l := by
  rw [mem_nodes, ← h.isNode, Option.isSome_iff_exists]

theorem LinksValid.closed_up : Closed nothing (upOf (st.get s)) (nodes s) := by
  intro x hx
  obtain ⟨l, hl⟩ := h.node.mp hx
  refine ⟨l.up, by rw [upOf, hl]; rfl, ?_⟩
  exact (h.up hl).imp id mem_nodes.mpr

theorem LinksValid.closed_next : Closed nothing (nextOf (st.get s)) (nodes s) := by
  intro x hx
  obtain ⟨l, hl⟩ := h.node.mp hx
  refine ⟨l.next, by rw [nextOf, hl]; rfl, ?_⟩
  exact (h.next hl).imp id mem_nodes.mpr

/-- The chain up ends when it does not come back. -/
theorem LinksValid.ends_up {l : Links Objid} (hx : st.get s x = some l)
    (hacyclic : ∀ x, ¬ Relation.TransGen (fun a b => upOf (st.get s) a = some b) x x) :
    Terminates nothing (upOf (st.get s)) l.up := by
  have hstart := (h.up hx).imp id mem_nodes.mpr
  rw [h.closed_up.terminates_iff hstart h.upOf_nothing]
  by_contra hno
  push Not at hno
  obtain ⟨m, hm1, -, heq⟩ := h.closed_up.caught hstart h.upOf_nothing (Nat.le_refl _) (hno _)
  -- `m` steps lead from the meeting place back to it
  have hwalk : ∀ n, Relation.TransGen (fun a b => upOf (st.get s) a = some b)
      ((hop nothing (upOf (st.get s)))^[m] l.up)
      ((hop nothing (upOf (st.get s)))^[m + (n + 1)] l.up) := by
    have hstep : ∀ n, upOf (st.get s) ((hop nothing (upOf (st.get s)))^[n] l.up) =
        some ((hop nothing (upOf (st.get s)))^[n + 1] l.up) := by
      intro n
      rw [Function.iterate_succ_apply']
      exact (h.closed_up.hop_eq
        ((h.closed_up.hops_mem hstart h.upOf_nothing n).resolve_left (hno n))).1
    intro n
    induction n with
    | zero => exact .single (hstep m)
    | succ n ih => exact ih.tail (hstep (m + (n + 1)))
  obtain ⟨n, rfl⟩ : ∃ n, m = n + 1 := ⟨m - 1, by omega⟩
  have hback := hwalk n
  rw [show n + 1 + (n + 1) = 2 * (n + 1) by omega, ← heq] at hback
  exact hacyclic _ hback

/-- A consistent hierarchy is one that the three phases find nothing wrong with. -/
theorem LinksValid.hierarchy_iff :
    Hierarchy (st.get s) ↔ NoCycle (st.get s) ∧ KidsRight (st.get s) ∧ KidsClaimed (st.get s) := by
  constructor
  · intro hh
    refine ⟨fun x l hx => ?_, ?_, ?_⟩
    · obtain ⟨cs, hcs, -⟩ := hh.list hx
      exact ⟨h.ends_up hx hh.acyclic, cs, hcs⟩
    · rintro p x ⟨l, cs, hp, hcs, hx⟩
      obtain ⟨ds, hds, -, hmem⟩ := hh.list hp
      obtain rfl := hcs.det h.nextOf_nothing hds
      exact (hmem x).mp hx
    · intro x l hx hup
      obtain ⟨lp, hlp⟩ := (hh.up hx).resolve_left hup
      obtain ⟨cs, hcs, -, hmem⟩ := hh.list hlp
      exact ⟨lp, cs, hlp, hcs, (hmem x).mpr (by rw [upOf, hx]; rfl)⟩
  · rintro ⟨hcycle, hright, hclaimed⟩
    constructor
    · intro x l hx
      obtain ⟨cs, hcs⟩ := (hcycle x l hx).2
      refine ⟨cs, hcs, hcs.nodup h.nextOf_nothing, fun c => ?_⟩
      constructor
      · exact fun hc => hright x c ⟨l, cs, hx, hcs, hc⟩
      · intro hup
        obtain ⟨lc, hlc, rfl⟩ := Option.map_eq_some_iff.mp hup
        have hne : lc.up ≠ nothing := by
          intro hn
          rw [hn, h.nothing_none] at hx
          cases hx
        obtain ⟨lp, ds, hlp, hds, hc⟩ := hclaimed c lc hlc hne
        rw [hx] at hlp
        cases hlp
        rwa [hcs.det h.nextOf_nothing hds]
    · intro x l hx
      refine (h.up hx).imp id fun hv => ?_
      rw [← h.isNode] at hv
      exact Option.isSome_iff_exists.mp hv
    · intro x hround
      obtain ⟨y, hxy, -⟩ := Relation.TransGen.head'_iff.mp hround
      obtain ⟨l, hx, rfl⟩ := Option.map_eq_some_iff.mp hxy
      obtain ⟨cs, hcs⟩ := (hcycle x l hx).1
      have hseg : Seg (upOf (st.get s)) x (x :: cs) nothing := ⟨rfl, l.up, hxy, hcs⟩
      obtain ⟨ds, hds, hlen⟩ := seg_of_transGen h.upOf_nothing hseg hround
      rw [hds.det h.upOf_nothing hseg] at hlen
      exact Nat.lt_irrefl _ hlen

end Graphs

/-! ## The phases change flags -/

/-- The object without its temporary flags. -/
def strip (o : Object) : Object := { o with flags := clearFlags tempFlags o.flags }

/-- Nothing but temporary flags has changed. -/
structure Marked (s s' : State) : Prop where
  keeps : Keeps strip s s'
  allUsers : s'.allUsers = s.allUsers
  nextProp : s'.nextProp = s.nextProp

/-- An object has the flag. -/
def flagged (s : State) (flag : Nat) (x : Objid) : Prop :=
  ∃ o, findObject s x = some o ∧ o.flags.testBit flag = true

theorem testBit_clearFlags (mask flags i : Nat) :
    (clearFlags mask flags).testBit i = (flags.testBit i && !mask.testBit i) := by
  rw [clearFlags, Nat.testBit_xor, Nat.testBit_and]
  cases flags.testBit i <;> cases mask.testBit i <;> rfl

theorem testBit_tempFlags (i : Nat) :
    tempFlags.testBit i = decide (i = flagFirstTemp ∨ i = flagFirstTemp + 1) := by
  rw [tempFlags, flagFirstTemp, Nat.testBit_shiftLeft]
  by_cases h : 14 ≤ i
  · obtain ⟨d, rfl⟩ := Nat.exists_eq_add_of_le h
    match d with
    | 0 => rfl
    | 1 => rfl
    | d + 2 =>
        have h3 : Nat.testBit 3 (d + 2) = false := by
          rw [Nat.testBit_succ, Nat.testBit_succ]
          exact Nat.zero_testBit d
        rw [show 14 + (d + 2) - 14 = d + 2 by omega, h3]
        simp
        omega
  · simp [h]
    omega

theorem Marked.refl (s : State) : Marked s s := ⟨Keeps.refl _ s, rfl, rfl⟩

theorem Marked.trans (h : Marked s t) (h' : Marked t t') : Marked s t' :=
  ⟨h.keeps.trans h'.keeps, h'.allUsers.trans h.allUsers, h'.nextProp.trans h.nextProp⟩

theorem Marked.descent (h : Marked s t) : descent.get t = descent.get s :=
  funext fun x => (h.keeps.comp Object.descent).find x

theorem Marked.place (h : Marked s t) : place.get t = place.get s :=
  funext fun x => (h.keeps.comp Object.place).find x

/-- A change of temporary flags. -/
theorem marked_modify {f : Nat → Nat} (hf : ∀ flags, clearFlags tempFlags (f flags) = clearFlags tempFlags flags)
    (oid : Objid) (s : State) : Marked s (modify oid (fun o => { o with flags := f o.flags }) s) := by
  constructor
  · refine Keeps.modify (fun o => ?_) oid s
    rw [strip, strip, hf]
  · exact allUsers_modify _ _ _
  · exact nextProp_modify _ _ _

theorem clear_or (flags : Nat) :
    clearFlags tempFlags (flags ||| tempFlags) = clearFlags tempFlags flags := by
  refine Nat.eq_of_testBit_eq fun i => ?_
  rw [testBit_clearFlags, testBit_clearFlags, Nat.testBit_or]
  cases tempFlags.testBit i <;> simp

theorem clear_clear {mask : Nat} (hmask : ∀ i, mask.testBit i = true → tempFlags.testBit i = true)
    (flags : Nat) : clearFlags tempFlags (clearFlags mask flags) = clearFlags tempFlags flags := by
  refine Nat.eq_of_testBit_eq fun i => ?_
  rw [testBit_clearFlags, testBit_clearFlags, testBit_clearFlags]
  cases hm : mask.testBit i with
  | false => simp
  | true => simp [hmask i hm]

theorem flagged_modify {f : Nat → Nat} {oid : Objid} {flag : Nat} :
    flagged (modify oid (fun o => { o with flags := f o.flags }) s) flag x ↔
      if x = oid then ∃ o, findObject s x = some o ∧ (f o.flags).testBit flag = true
      else flagged s flag x := by
  rw [flagged, findObject_modify]
  split
  · constructor
    · rintro ⟨o', ho', hbit⟩
      obtain ⟨o, ho, rfl⟩ := Option.map_eq_some_iff.mp ho'
      exact ⟨o, ho, hbit⟩
    · rintro ⟨o, ho, hbit⟩
      exact ⟨_, by rw [ho]; rfl, hbit⟩
  · exact Iff.rfl

/-! ### Chains -/

theorem LinksValid.chainCycle_spec {st : Store State Objid} (h : LinksValid st s) {x : Objid}
    {l : Links Objid} (hx : st.get s x = some l) :
    (∃ c, meets nothing (upOf (st.get s)) s.numObjects l.up l.up = some c ∧
      (c = false ↔ Terminates nothing (upOf (st.get s)) l.up)) ∧
    ∃ c, meets nothing (nextOf (st.get s)) s.numObjects l.first l.first = some c ∧
      (c = false ↔ Terminates nothing (nextOf (st.get s)) l.first) := by
  constructor
  · exact h.closed_up.meets_spec ((h.up hx).imp id mem_nodes.mpr) h.upOf_nothing (card_nodes s)
  · exact h.closed_next.meets_spec ((h.first hx).imp id mem_nodes.mpr) h.nextOf_nothing (card_nodes s)

theorem noCycleAt_iff {g : Graph Objid} {l : Links Objid} (hx : g x = some l) :
    NoCycleAt g x ↔ Terminates nothing (upOf g) l.up ∧ Terminates nothing (nextOf g) l.first := by
  constructor
  · exact fun h => h l hx
  · intro h l' hl'
    rw [hx] at hl'
    cases hl'
    exact h

theorem noCycleAt_none {g : Graph Objid} (hx : g x = none) : NoCycleAt g x := by
  intro l hl
  rw [hx] at hl
  exact nomatch hl

/-! ### Lists -/

theorem testBit_one_shift (flag i : Nat) : (1 <<< flag).testBit i = decide (flag = i) := by
  rw [Nat.shiftLeft_eq, Nat.one_mul, Nat.testBit_two_pow]

theorem claimKids_spec {st : Store State Objid} (hst : ∀ {t}, Marked s1 t → st.get t = st.get s1)
    (hl : LinksValid st s1) {flag : Nat} (hflag : tempFlags.testBit flag = true) {oid c : Objid}
    {cs : List Objid} (hseg : Seg (nextOf (st.get s1)) c cs nothing) {fuel : Nat}
    (hfuel : cs.length ≤ fuel) (hm : Marked s1 t) (b : Bool) :
    ∃ b' t', claimKids st flag oid fuel c (b, t) = some (b', t') ∧ Marked s1 t' ∧
      (b' = true ↔ b = true ∨ ∃ k ∈ cs, upOf (st.get s1) k ≠ some oid) ∧
      ∀ i x, flagged t' i x ↔
        flagged t i x ∧ ¬ (i = flag ∧ x ∈ cs ∧ upOf (st.get s1) x = some oid) := by
  induction cs generalizing c fuel b t with
  | nil =>
      have hc : c = nothing := hseg
      subst hc
      refine ⟨b, t, ?_, hm, by simp, by simp⟩
      cases fuel <;> rw [claimKids, if_pos rfl]
  | cons k cs ih =>
      obtain ⟨rfl, m, hnext, hseg⟩ := hseg
      obtain ⟨l, hc, rfl⟩ := Option.map_eq_some_iff.mp hnext
      have hne : c ≠ nothing := by
        rintro rfl
        rw [hl.nothing_none] at hc
        exact nomatch hc
      obtain ⟨fuel, rfl⟩ : ∃ n, fuel = n + 1 :=
        ⟨fuel - 1, by rw [List.length_cons] at hfuel; omega⟩
      have hfuel' : cs.length ≤ fuel := Nat.le_of_succ_le_succ hfuel
      have hup : upOf (st.get s1) c = some l.up := by rw [upOf, hc]; rfl
      rw [claimKids, if_neg hne, hst hm, hc, Option.bind_eq_bind, Option.bind_some]
      by_cases hmine : l.up = oid
      · have hclear : ∀ i, (1 <<< flag).testBit i = true → tempFlags.testBit i = true := by
          intro i hi
          rw [testBit_one_shift, decide_eq_true_eq] at hi
          exact hi ▸ hflag
        obtain ⟨b', t', hrun, hm', hb', hf'⟩ :=
          ih hseg hfuel' (hm.trans (marked_modify (clear_clear hclear) c t)) b
        refine ⟨b', t', ?_, hm', ?_, fun i x => ?_⟩
        · rw [if_neg (not_not_intro hmine)]
          exact hrun
        · rw [hb', List.exists_mem_cons_iff, hup, hmine]
          simp
        · rw [hf', flagged_modify (f := clearFlags (1 <<< flag)), List.mem_cons]
          by_cases hx : x = c
          · subst hx
            rw [if_pos rfl, hup, hmine]
            simp only [testBit_clearFlags, testBit_one_shift, flagged]
            by_cases hi : i = flag
            · subst hi
              simp
            · simp [hi, Ne.symm hi]
          · rw [if_neg hx]
            simp [hx]
      · obtain ⟨b', t', hrun, hm', hb', hf'⟩ := ih hseg hfuel' hm true
        refine ⟨b', t', ?_, hm', ?_, fun i x => ?_⟩
        · rw [if_pos hmine]
          exact hrun
        · rw [hb', List.exists_mem_cons_iff, hup]
          simp [hmine]
        · rw [hf', List.mem_cons]
          by_cases hx : x = c
          · subst hx
            rw [hup]
            simp [hmine]
          · simp [hx]

theorem onList_iff {st : Store State Objid} (hl : LinksValid st s1) {p x : Objid} {l : Links Objid}
    {cs : List Objid} (hpl : st.get s1 p = some l)
    (hcs : Seg (nextOf (st.get s1)) l.first cs nothing) : OnList (st.get s1) p x ↔ x ∈ cs := by
  constructor
  · rintro ⟨l', ds, hl', hds, hx⟩
    rw [hpl] at hl'
    cases hl'
    rwa [hcs.det hl.nextOf_nothing hds]
  · exact fun hx => ⟨l, cs, hpl, hcs, hx⟩

theorem not_onList {g : Graph Objid} {p x : Objid} (hpn : g p = none) : ¬ OnList g p x := by
  rintro ⟨l, cs, hl, -⟩
  rw [hpn] at hl
  exact nomatch hl

/-- A list is no longer than the table. -/
theorem LinksValid.length_le {st : Store State Objid} (hl : LinksValid st s1) {c : Objid}
    {cs : List Objid} (hcs : Seg (nextOf (st.get s1)) c cs nothing) : cs.length ≤ s1.numObjects := by
  have hsub : cs.toFinset ⊆ nodes s1 := by
    intro x hx
    obtain ⟨m, hm⟩ := hcs.succ (List.mem_toFinset.mp hx)
    obtain ⟨l, hl', -⟩ := Option.map_eq_some_iff.mp hm
    exact hl.node.mpr ⟨l, hl'⟩
  calc cs.length = cs.toFinset.card := (List.toFinset_card_of_nodup (hcs.nodup hl.nextOf_nothing)).symm
    _ ≤ (nodes s1).card := Finset.card_le_card hsub
    _ ≤ s1.numObjects := card_nodes s1

/-- What an object does about the objects on one of its lists. -/
theorem claimKids_list {st : Store State Objid} (hst : ∀ {t}, Marked s1 t → st.get t = st.get s1)
    (hl : LinksValid st s1) (hcycle : NoCycle (st.get s1)) {flag : Nat}
    (hflag : tempFlags.testBit flag = true) {oid : Objid} {l : Links Objid}
    (ho : st.get s1 oid = some l) (hm : Marked s1 t) (b : Bool) :
    ∃ b' t', claimKids st flag oid s1.numObjects l.first (b, t) = some (b', t') ∧ Marked s1 t' ∧
      (b' = true ↔ b = true ∨ ∃ k, OnList (st.get s1) oid k ∧ upOf (st.get s1) k ≠ some oid) ∧
      ∀ i x, flagged t' i x ↔
        flagged t i x ∧ ¬ (i = flag ∧ OnList (st.get s1) oid x ∧ upOf (st.get s1) x = some oid) := by
  obtain ⟨cs, hcs⟩ := (hcycle oid l ho).2
  simp only [onList_iff hl ho hcs]
  exact claimKids_spec hst hl hflag hcs (hl.length_le hcs) hm b

/-! ### The phases -/

section Phases

variable (hd : LinksValid descent s1) (hp : LinksValid place s1)
include hd hp

theorem checkCycles_step (hm : Marked s1 t) (b : Bool) (d : Nat) :
    ∃ b' t', checkCycles (b, t) d = some (b', t') ∧ Marked s1 t' ∧
      (b' = true ↔ b = true ∨
        ¬ (NoCycleAt (descent.get s1) d ∧ NoCycleAt (place.get s1) d)) ∧
      ∀ flag x, flagged t' flag x ↔
        flagged t flag x ∨ tempFlags.testBit flag = true ∧ x = (d : Objid) ∧ valid s1 x = true := by
  cases ho : findObject t d with
  | none =>
      have hdn : descent.get s1 d = none := by
        rw [← hm.descent]
        exact congrArg (Option.map Object.descent) ho
      have hpn : place.get s1 d = none := by
        rw [← hm.place]
        exact congrArg (Option.map Object.place) ho
      refine ⟨b, t, by rw [checkCycles, ho], hm, ?_, fun flag x => ?_⟩
      · exact (or_iff_left (not_not_intro ⟨noCycleAt_none hdn, noCycleAt_none hpn⟩)).symm
      · refine (or_iff_left ?_).symm
        rintro ⟨-, rfl, hv⟩
        rw [← hm.keeps.valid, valid, ho] at hv
        cases hv
  | some o =>
      have hod : descent.get s1 d = some o.descent := by rw [← hm.descent]; exact descent_get ho
      have hop : place.get s1 d = some o.place := by rw [← hm.place]; exact place_get ho
      obtain ⟨⟨c1, h1, hc1⟩, c2, h2, hc2⟩ := hd.chainCycle_spec hod
      obtain ⟨⟨c3, h3, hc3⟩, c4, h4, hc4⟩ := hp.chainCycle_spec hop
      refine ⟨b || c1 || c2 || c3 || c4,
        modify d (fun o => { o with flags := o.flags ||| tempFlags }) t, ?_, ?_, ?_, fun flag x => ?_⟩
      · simp only [checkCycles, ho, chainCycle, hm.descent, hm.place, hm.keeps.numObjects, h1, h2,
          h3, h4, Option.bind_eq_bind, Option.bind_some]
      · exact hm.trans (marked_modify clear_or d t)
      · rw [noCycleAt_iff hod, noCycleAt_iff hop, ← hc1, ← hc2, ← hc3, ← hc4]
        cases b <;> cases c1 <;> cases c2 <;> cases c3 <;> cases c4 <;> simp
      · rw [flagged_modify (f := fun flags => flags ||| tempFlags)]
        split
        next hx =>
          subst hx
          have hv : valid s1 (d : Objid) = true := by rw [← hm.keeps.valid, valid, ho]; rfl
          simp only [flagged, ho, Option.some.injEq, exists_eq_left', Nat.testBit_or, Bool.or_eq_true,
            hv, and_true]
        next hx => simp [hx]

theorem checkCycles_run (hm : Marked s1 t) (b : Bool) (ds : List Nat) :
    ∃ b' t', ds.foldlM checkCycles (b, t) = some (b', t') ∧ Marked s1 t' ∧
      (b' = true ↔ b = true ∨ ∃ d ∈ ds,
        ¬ (NoCycleAt (descent.get s1) d ∧ NoCycleAt (place.get s1) d)) ∧
      ∀ flag x, flagged t' flag x ↔ flagged t flag x ∨
        tempFlags.testBit flag = true ∧ (∃ d ∈ ds, x = (d : Objid)) ∧ valid s1 x = true := by
  induction ds generalizing b t with
  | nil => exact ⟨b, t, rfl, hm, by simp, by simp⟩
  | cons d ds ih =>
      obtain ⟨b1, t1, h1, hm1, hb1, hf1⟩ := checkCycles_step hd hp hm b d
      obtain ⟨b2, t2, h2, hm2, hb2, hf2⟩ := ih hm1 b1
      refine ⟨b2, t2, ?_, hm2, ?_, fun flag x => ?_⟩
      · rw [List.foldlM_cons, h1]
        exact h2
      · rw [hb2, hb1, List.exists_mem_cons_iff, or_assoc]
      · rw [hf2, hf1, List.exists_mem_cons_iff, or_assoc, ← and_or_left, ← or_and_right]

theorem checkKids_step (hcd : NoCycle (descent.get s1)) (hcp : NoCycle (place.get s1))
    (hm : Marked s1 t) (b : Bool) (d : Nat) :
    ∃ b' t', checkKids (b, t) d = some (b', t') ∧ Marked s1 t' ∧
      (b' = true ↔ b = true ∨
        (∃ k, OnList (descent.get s1) d k ∧ upOf (descent.get s1) k ≠ some (d : Objid)) ∨
        ∃ k, OnList (place.get s1) d k ∧ upOf (place.get s1) k ≠ some (d : Objid)) ∧
      ∀ i x, flagged t' i x ↔ flagged t i x ∧
        ¬ (i = flagFirstTemp ∧ OnList (descent.get s1) d x ∧
          upOf (descent.get s1) x = some (d : Objid)) ∧
        ¬ (i = flagFirstTemp + 1 ∧ OnList (place.get s1) d x ∧
          upOf (place.get s1) x = some (d : Objid)) := by
  cases ho : findObject t d with
  | none =>
      have hdn : descent.get s1 d = none := by
        rw [← hm.descent]
        exact congrArg (Option.map Object.descent) ho
      have hpn : place.get s1 d = none := by
        rw [← hm.place]
        exact congrArg (Option.map Object.place) ho
      refine ⟨b, t, by rw [checkKids, ho], hm, ?_, fun i x => ?_⟩
      · simp only [not_onList hdn, not_onList hpn, false_and, exists_false, or_false]
      · simp only [not_onList hdn, not_onList hpn, false_and, and_false, not_false_eq_true, and_true]
  | some o =>
      have hod : descent.get s1 d = some o.descent := by rw [← hm.descent]; exact descent_get ho
      have hop : place.get s1 d = some o.place := by rw [← hm.place]; exact place_get ho
      have hfirst : tempFlags.testBit flagFirstTemp = true := by decide
      have hsecond : tempFlags.testBit (flagFirstTemp + 1) = true := by decide
      obtain ⟨b1, t1, h1, hm1, hb1, hf1⟩ :=
        claimKids_list (fun hm => hm.descent) hd hcd hfirst hod hm b
      obtain ⟨b2, t2, h2, hm2, hb2, hf2⟩ :=
        claimKids_list (fun hm => hm.place) hp hcp hsecond hop hm1 b1
      refine ⟨b2, t2, ?_, hm2, ?_, fun i x => ?_⟩
      · simp only [checkKids, ho, hm.keeps.numObjects, h1, hm1.keeps.numObjects, h2,
          Option.bind_eq_bind, Option.bind_some]
      · rw [hb2, hb1, or_assoc]
      · rw [hf2, hf1, and_assoc]

theorem checkKids_run (hcd : NoCycle (descent.get s1)) (hcp : NoCycle (place.get s1))
    (hm : Marked s1 t) (b : Bool) (ds : List Nat) :
    ∃ b' t', ds.foldlM checkKids (b, t) = some (b', t') ∧ Marked s1 t' ∧
      (b' = true ↔ b = true ∨ ∃ d ∈ ds,
        (∃ k, OnList (descent.get s1) d k ∧ upOf (descent.get s1) k ≠ some (d : Objid)) ∨
        ∃ k, OnList (place.get s1) d k ∧ upOf (place.get s1) k ≠ some (d : Objid)) ∧
      ∀ i x, flagged t' i x ↔ flagged t i x ∧
        (∀ d ∈ ds, ¬ (i = flagFirstTemp ∧ OnList (descent.get s1) d x ∧
          upOf (descent.get s1) x = some (d : Objid))) ∧
        ∀ d ∈ ds, ¬ (i = flagFirstTemp + 1 ∧ OnList (place.get s1) d x ∧
          upOf (place.get s1) x = some (d : Objid)) := by
  induction ds generalizing b t with
  | nil => exact ⟨b, t, rfl, hm, by simp, by simp⟩
  | cons d ds ih =>
      obtain ⟨b1, t1, h1, hm1, hb1, hf1⟩ := checkKids_step hd hp hcd hcp hm b d
      obtain ⟨b2, t2, h2, hm2, hb2, hf2⟩ := ih hm1 b1
      refine ⟨b2, t2, ?_, hm2, ?_, fun i x => ?_⟩
      · rw [List.foldlM_cons, h1]
        exact h2
      · rw [hb2, hb1, List.exists_mem_cons_iff, or_assoc]
      · rw [hf2, hf1, List.forall_mem_cons, List.forall_mem_cons, and_assoc, and_assoc, and_and_and_comm]
        tauto

end Phases

/-- What phase 3b finds wrong with an object in one hierarchy. -/
def Unclaimed (st : Store State Objid) (s1 t : State) (flag : Nat) (x : Objid) : Prop :=
  flagged t flag x ∧ ∃ l, st.get s1 x = some l ∧ l.up ≠ nothing

theorem checkUnclaimed_step (hm : Marked s1 t) (b : Bool) (d : Nat) :
    ∃ b' t', checkUnclaimed (b, t) d = (b', t') ∧ Marked s1 t' ∧
      (b' = true ↔ b = true ∨ Unclaimed descent s1 t flagFirstTemp d ∨
        Unclaimed place s1 t (flagFirstTemp + 1) d) ∧
      ∀ i x, flagged t' i x ↔ flagged t i x ∧ ¬ (tempFlags.testBit i = true ∧ x = (d : Objid)) := by
  cases ho : findObject t d with
  | none =>
      have hno : ∀ i, ¬ flagged t i d := by
        rintro i ⟨o, ho', -⟩
        rw [ho] at ho'
        exact nomatch ho'
      refine ⟨b, t, by rw [checkUnclaimed, ho], hm, ?_, fun i x => ?_⟩
      · simp only [Unclaimed, hno, false_and, or_false]
      · refine (and_iff_left_of_imp fun hx => ?_).symm
        rintro ⟨-, rfl⟩
        exact hno i hx
  | some o =>
      have hod : descent.get s1 d = some o.descent := by rw [← hm.descent]; exact descent_get ho
      have hop : place.get s1 d = some o.place := by rw [← hm.place]; exact place_get ho
      refine ⟨_, modify d (fun o => { o with flags := clearFlags tempFlags o.flags }) t,
        by rw [checkUnclaimed, ho], ?_, ?_, fun i x => ?_⟩
      · exact hm.trans (marked_modify (clear_clear fun _ h => h) d t)
      · simp only [Unclaimed, flagged, ho, hod, hop, Option.some.injEq, exists_eq_left',
          Bool.or_eq_true, Bool.and_eq_true, bne_iff_ne, or_assoc]
      · rw [flagged_modify (f := clearFlags tempFlags)]
        split
        next hx =>
          subst hx
          simp only [flagged, ho, Option.some.injEq, exists_eq_left', testBit_clearFlags,
            Bool.and_eq_true, Bool.not_eq_true', and_true, Bool.not_eq_true]
        next hx => simp [hx]

theorem checkUnclaimed_run (hm : Marked s1 t) (b : Bool) {ds : List Nat} (hds : ds.Nodup) :
    ∃ b' t', ds.foldl checkUnclaimed (b, t) = (b', t') ∧ Marked s1 t' ∧
      (b' = true ↔ b = true ∨ ∃ d ∈ ds, Unclaimed descent s1 t flagFirstTemp (d : Objid) ∨
        Unclaimed place s1 t (flagFirstTemp + 1) (d : Objid)) ∧
      ∀ i x, flagged t' i x ↔
        flagged t i x ∧ ¬ (tempFlags.testBit i = true ∧ ∃ d ∈ ds, x = (d : Objid)) := by
  induction ds generalizing b t with
  | nil => exact ⟨b, t, rfl, hm, by simp, by simp⟩
  | cons d ds ih =>
      obtain ⟨hnot, hnd⟩ := List.nodup_cons.mp hds
      obtain ⟨b1, t1, h1, hm1, hb1, hf1⟩ := checkUnclaimed_step hm b d
      obtain ⟨b2, t2, h2, hm2, hb2, hf2⟩ := ih hm1 b1 hnd
      -- the flags of the other objects are still there
      have hother : ∀ st i, ∀ e ∈ ds, Unclaimed st s1 t1 i (e : Objid) ↔ Unclaimed st s1 t i e := by
        intro st i e he
        rw [Unclaimed, Unclaimed, hf1]
        have hne : (e : Objid) ≠ (d : Objid) := by
          rintro heq
          rw [Int.ofNat_inj.mp heq] at he
          exact hnot he
        simp [hne]
      refine ⟨b2, t2, ?_, hm2, ?_, fun i x => ?_⟩
      · rw [List.foldl_cons, h1]
        exact h2
      · rw [hb2, hb1, List.exists_mem_cons_iff, or_assoc]
        refine or_congr Iff.rfl (or_congr Iff.rfl (exists_congr fun e => and_congr_right fun he => ?_))
        rw [hother _ _ e he, hother _ _ e he]
      · rw [hf2, hf1, List.exists_mem_cons_iff, and_assoc, ← not_or, ← and_or_left]

/-! ## The result -/

theorem repairedObject_of_strip {o o' : Object} (h : strip o' = strip (fixLinks s o)) :
    RepairedObject s o o' := by
  have hdescent : o'.descent = (fixLinks s o).descent := by
    show (strip o').descent = (strip (fixLinks s o)).descent
    rw [h]
  have hplace : o'.place = (fixLinks s o).place := by
    show (strip o').place = (strip (fixLinks s o)).place
    rw [h]
  constructor
  · have hlink : o'.parent = fixLink s o.parent := congrArg Links.up hdescent
    rw [hlink]
    exact fixLink_repair s _
  · have hlink : o'.child = fixLink s o.child := congrArg Links.first hdescent
    rw [hlink]
    exact fixLink_repair s _
  · have hlink : o'.sibling = fixLink s o.sibling := congrArg Links.next hdescent
    rw [hlink]
    exact fixLink_repair s _
  · have hlink : o'.location = fixLink s o.location := congrArg Links.up hplace
    rw [hlink]
    exact fixLink_repair s _
  · have hlink : o'.contents = fixLink s o.contents := congrArg Links.first hplace
    rw [hlink]
    exact fixLink_repair s _
  · have hlink : o'.next = fixLink s (if o.location = nothing ∧ o.next ≠ nothing then nothing
        else o.next) := congrArg Links.next hplace
    rw [hlink]
    split
    next hstray => exact .inr ⟨rfl, .inr hstray.1⟩
    · exact (fixLink_repair s o.next).imp id fun h => ⟨h.1, h.2.imp id False.elim⟩
  · intro i h1 h2
    have hbit := congrArg (fun o => o.flags.testBit i) h
    simp only [strip, fixLinks, testBit_clearFlags, testBit_tempFlags, h1, h2, or_self, decide_false,
      Bool.not_false, Bool.and_true] at hbit
    exact hbit
  · have hrest := congrArg (fun p : Object => { p with flags := o'.flags }) h
    calc o' = { strip o' with flags := o'.flags } := rfl
      _ = { strip (fixLinks s o) with flags := o'.flags } := hrest
      _ = { o with flags := o'.flags, place := o'.place, descent := o'.descent } := by
        rw [hplace, hdescent]
        rfl

theorem repaired_of_marked (h : Marked (checkInvalid s) s') : Repaired s s' := by
  obtain ⟨hfind, hnum, hus, hnp⟩ := checkInvalid_find s
  constructor
  · intro x
    have hkeep := h.keeps.find x
    rw [hfind, Option.map_map] at hkeep
    cases ho : findObject s x with
    | none =>
        rw [ho, Option.map_none, Option.map_eq_none_iff] at hkeep
        rw [hkeep]
        exact .none
    | some o =>
        rw [ho, Option.map_some, Option.map_eq_some_iff] at hkeep
        obtain ⟨o', ho', hstrip⟩ := hkeep
        rw [ho']
        exact .some (repairedObject_of_strip hstrip)
  · exact h.keeps.numObjects.trans hnum
  · exact h.allUsers.trans hus
  · exact h.nextProp.trans hnp

theorem mem_range_of_find (h : findObject s x = some o) :
    ∃ d ∈ List.range s.numObjects, x = (d : Objid) := by
  obtain ⟨n, hn, rfl⟩ := List.mem_map.mp (mem_oids h)
  exact ⟨n, hn, rfl⟩

/-- What is true of each object is true of each number of the table, when it is of those
    without an object. -/
theorem forall_range_iff {P : Objid → Prop} (hnone : ∀ x, findObject s x = none → P x) :
    (∀ d ∈ List.range s.numObjects, P (d : Objid)) ↔ ∀ x, P x := by
  constructor
  · intro h x
    cases hx : findObject s x with
    | none => exact hnone x hx
    | some o =>
        obtain ⟨d, hd, rfl⟩ := mem_range_of_find hx
        exact h d hd
  · exact fun h d _ => h d

theorem kidsRight_iff {st : Store State Objid} (hl : LinksValid st s1) :
    (∀ d ∈ List.range s1.numObjects,
      ¬ ∃ k, OnList (st.get s1) d k ∧ upOf (st.get s1) k ≠ some (d : Objid)) ↔
      KidsRight (st.get s1) := by
  have hnone : ∀ x, findObject s1 x = none →
      ¬ ∃ k, OnList (st.get s1) x k ∧ upOf (st.get s1) k ≠ some x := by
    rintro x hx ⟨k, ⟨l, cs, hl', -⟩, -⟩
    have hv := hl.isNode x
    rw [hl', valid, hx] at hv
    cases hv
  rw [forall_range_iff hnone]
  refine forall_congr' fun x => ?_
  simp only [not_exists, not_and, not_not]

/-- The flags that are left tell of the objects that are on no list of theirs. -/
theorem kidsClaimed_iff {st : Store State Objid} (hl : LinksValid st s1) {flag : Nat}
    (hflagged : ∀ x, flagged t flag x ↔ valid s1 x = true ∧ ∀ d ∈ List.range s1.numObjects,
      ¬ (OnList (st.get s1) d x ∧ upOf (st.get s1) x = some (d : Objid))) :
    (∀ d ∈ List.range s1.numObjects, ¬ Unclaimed st s1 t flag (d : Objid)) ↔
      KidsClaimed (st.get s1) := by
  have hobj : ∀ {x l}, st.get s1 x = some l → ∃ o, findObject s1 x = some o := by
    intro x l hx
    have hv := hl.isNode x
    rw [hx] at hv
    exact Option.isSome_iff_exists.mp hv.symm
  have hnone : ∀ x, findObject s1 x = none → ¬ Unclaimed st s1 t flag x := by
    rintro x hx ⟨-, l, hget, -⟩
    obtain ⟨o, ho⟩ := hobj hget
    rw [hx] at ho
    exact nomatch ho
  rw [forall_range_iff hnone]
  constructor
  · intro h x l hx hup
    by_contra hoff
    refine h x ⟨(hflagged x).mpr ⟨?_, ?_⟩, l, hx, hup⟩
    · obtain ⟨o, ho⟩ := hobj hx
      rw [valid, ho]
      rfl
    · rintro d - ⟨hon, hd⟩
      rw [upOf, hx] at hd
      exact hoff (Option.some.inj hd ▸ hon)
  · rintro h x ⟨hflag, l, hx, hup⟩
    have hon := h x l hx hup
    obtain ⟨lp, -, hlp, -⟩ := hon
    obtain ⟨o, ho⟩ := hobj hlp
    obtain ⟨d, hd, hdl⟩ := mem_range_of_find ho
    refine ((hflagged x).mp hflag).2 d hd ⟨hdl ▸ h x l hx hup, ?_⟩
    rw [upOf, hx, ← hdl]
    rfl

theorem not_exists_or_iff {α : Type} {l : List α} {P Q : α → Prop} :
    (¬ ∃ d ∈ l, P d ∨ Q d) ↔ (∀ d ∈ l, ¬ P d) ∧ ∀ d ∈ l, ¬ Q d := by
  constructor
  · intro h
    exact ⟨fun d hd hP => h ⟨d, hd, .inl hP⟩, fun d hd hQ => h ⟨d, hd, .inr hQ⟩⟩
  · rintro ⟨hP, hQ⟩ ⟨d, hd, h | h⟩
    · exact hP d hd h
    · exact hQ d hd h

/-- Phase 3 finds nothing wrong with consistent hierarchies, and only with these. -/
theorem phase3_spec (hd : LinksValid descent s1) (hp : LinksValid place s1)
    (hcd : NoCycle (descent.get s1)) (hcp : NoCycle (place.get s1)) (hm : Marked s1 t)
    (hflag : ∀ i x, flagged t i x ↔
      flagged s1 i x ∨ tempFlags.testBit i = true ∧ valid s1 x = true) :
    ∃ r broken s', (List.range s1.numObjects).foldlM checkKids (false, t) = some r ∧
      (List.range s1.numObjects).foldl checkUnclaimed r = (broken, s') ∧ Marked s1 s' ∧
      (broken = false ↔ Hierarchy (descent.get s1) ∧ Hierarchy (place.get s1)) ∧
      ∀ i x, tempFlags.testBit i = true → ¬ flagged s' i x := by
  obtain ⟨b3, t3, h3, hm3, hb3, hf3⟩ :=
    checkKids_run hd hp hcd hcp hm false (List.range s1.numObjects)
  obtain ⟨b4, t4, h4, hm4, hb4, hf4⟩ := checkUnclaimed_run hm3 b3 (@List.nodup_range s1.numObjects)
  have hset : ∀ i x, tempFlags.testBit i = true → (flagged t i x ↔ valid s1 x = true) := by
    intro i x hi
    rw [hflag, or_iff_right_of_imp ?_]
    · exact and_iff_right hi
    · rintro ⟨o, ho, -⟩
      exact ⟨hi, by rw [valid, ho]; rfl⟩
  have hleftd : ∀ x, flagged t3 flagFirstTemp x ↔ valid s1 x = true ∧
      ∀ d ∈ List.range s1.numObjects, ¬ (OnList (descent.get s1) d x ∧
        upOf (descent.get s1) x = some (d : Objid)) := by
    intro x
    rw [hf3, hset _ x (by decide)]
    simp
  have hleftp : ∀ x, flagged t3 (flagFirstTemp + 1) x ↔ valid s1 x = true ∧
      ∀ d ∈ List.range s1.numObjects, ¬ (OnList (place.get s1) d x ∧
        upOf (place.get s1) x = some (d : Objid)) := by
    intro x
    rw [hf3, hset _ x (by decide)]
    simp
  have hclaimd := kidsClaimed_iff hd hleftd
  have hclaimp := kidsClaimed_iff hp hleftp
  refine ⟨(b3, t3), b4, t4, h3, h4, hm4, ?_, ?_⟩
  · have hright : ¬ b3 = true ↔ KidsRight (descent.get s1) ∧ KidsRight (place.get s1) := by
      rw [hb3, or_iff_right (fun h => Bool.noConfusion h), not_exists_or_iff, kidsRight_iff hd,
        kidsRight_iff hp]
    rw [← Bool.not_eq_true, hb4, not_or, hright, not_exists_or_iff, hclaimd, hclaimp,
      hd.hierarchy_iff, hp.hierarchy_iff]
    constructor
    · rintro ⟨⟨hr1, hr2⟩, hc1, hc2⟩
      exact ⟨⟨hcd, hr1, hc1⟩, hcp, hr2, hc2⟩
    · rintro ⟨⟨-, hr1, hc1⟩, -, hr2, hc2⟩
      exact ⟨⟨hr1, hr2⟩, hc1, hc2⟩
  · intro i x hi hfl
    obtain ⟨hfl3, hno⟩ := (hf4 i x).mp hfl
    obtain ⟨o, ho, -⟩ := hfl
    obtain ⟨d, hd, rfl⟩ := mem_range_of_find ho
    rw [show t4.numObjects = s1.numObjects from hm4.keeps.numObjects] at hd
    exact hno ⟨hi, d, hd, rfl⟩

/-- It ends, whatever the links are; it cuts links that lead nowhere, and it returns true
    exactly when what is left are two consistent hierarchies. -/
theorem validateHierarchies_spec (s : State) :
    ∃ ok s', validateHierarchies s = some (ok, s') ∧ Repaired s s' ∧
      (ok = true ↔ Hierarchy (descent.get s') ∧ Hierarchy (place.get s')) ∧
      (ok = true → ∀ x o, findObject s' x = some o →
        o.flags.testBit flagFirstTemp = false ∧ o.flags.testBit (flagFirstTemp + 1) = false) := by
  have hd := descent_linksValid s
  have hp := place_linksValid s
  have hnum := (checkInvalid_find s).2.1
  have hrepaired : ∀ {s'}, Marked (checkInvalid s) s' → Repaired s s' := repaired_of_marked
  rw [validateHierarchies, ← hnum]
  generalize checkInvalid s = s1 at hd hp hrepaired
  obtain ⟨b2, t2, h2, hm2, hb2, hf2⟩ :=
    checkCycles_run hd hp (Marked.refl s1) false (List.range s1.numObjects)
  have hcycle : b2 = false ↔ NoCycle (descent.get s1) ∧ NoCycle (place.get s1) := by
    have hnone : ∀ x, findObject s1 x = none →
        NoCycleAt (descent.get s1) x ∧ NoCycleAt (place.get s1) x := fun x hx =>
      ⟨noCycleAt_none (congrArg (Option.map Object.descent) hx),
        noCycleAt_none (congrArg (Option.map Object.place) hx)⟩
    rw [← Bool.not_eq_true, hb2, NoCycle, NoCycle, ← forall_and, ← forall_range_iff hnone]
    rw [or_iff_right (fun h => Bool.noConfusion h)]
    push Not
    exact Iff.rfl
  rw [h2]
  simp only [Option.bind_eq_bind, Option.bind_some]
  cases b2 with
  | true =>
      refine ⟨false, t2, rfl, hrepaired hm2, ?_, fun h => nomatch h⟩
      refine iff_of_false (fun h => nomatch h) fun ⟨h1, h2⟩ => ?_
      rw [hm2.descent, hd.hierarchy_iff] at h1
      rw [hm2.place, hp.hierarchy_iff] at h2
      exact nomatch hcycle.mpr ⟨h1.1, h2.1⟩
  | false =>
      obtain ⟨hcd, hcp⟩ := hcycle.mp rfl
      have hflag : ∀ i x, flagged t2 i x ↔
          flagged s1 i x ∨ tempFlags.testBit i = true ∧ valid s1 x = true := by
        intro i x
        rw [hf2]
        refine or_congr Iff.rfl (and_congr_right fun _ => and_iff_right_of_imp fun hv => ?_)
        obtain ⟨o, ho⟩ := Option.isSome_iff_exists.mp hv
        exact mem_range_of_find ho
      obtain ⟨r, broken, s', h3, h4, hm', hok, hclear⟩ := phase3_spec hd hp hcd hcp hm2 hflag
      refine ⟨!broken, s', ?_, hrepaired hm', ?_, fun _ x o ho => ?_⟩
      · simp only [Bool.false_eq_true, if_false, h3, Option.bind_some, h4]
      · rw [hm'.descent, hm'.place, ← hok, Bool.not_eq_true']
      · constructor
        · exact Bool.eq_false_iff.mpr fun hbit => hclear flagFirstTemp x (by decide) ⟨o, ho, hbit⟩
        · exact Bool.eq_false_iff.mpr fun hbit =>
            hclear (flagFirstTemp + 1) x (by decide) ⟨o, ho, hbit⟩

end Waverous.Db
