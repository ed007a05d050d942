import Waverous.DbFrame

/-! # Renumbering as a renaming

    After `db_renumber_object` the database is the image of the old one under the renaming
    of the number (`renumberObject_image`), when values are values.  But the list of all users
    is changed in place, and a property whose value is that very list (what `players` has
    given) changes with it.  Here values are held with that in mind (`Held`), and the claim
    about the database that the properties show is decided by whether one of them holds the
    list (`renumber_is_renaming`). -/

namespace Waverous.Db

open LinkedForest Runs

variable {s s' : State} {x old new : Objid} {o : Object}

/-! ## The image -/

/-- `old` becomes `new`. -/
def newName (old new x : Objid) : Objid := if x = old then new else x

/-- An object in which `old` has become `new`. -/
def renumbered (old new : Objid) (o : Object) : Object :=
  { o with
    id := newName old new o.id
    owner := fixOwner old new o.owner
    place := o.place.map (newName old new)
    descent := o.descent.map (newName old new)
    verbdefs := o.verbdefs.map fun v => { v with owner := fixOwner old new v.owner }
    propval := o.propval.map fun p => { p with owner := fixOwner old new p.owner } }

/-- `s'` is `s` with `new` in the place of `old`, and `old` in the place of `new`, which was
    free. -/
structure Image (old new : Objid) (s s' : State) : Prop where
  objects : ∀ y, findObject s' y = (findObject s (Equiv.swap old new y)).map (renumbered old new)
  users : s'.allUsers = s.allUsers.map (newName old new)
  numObjects : s'.numObjects = s.numObjects
  nextProp : s'.nextProp = s.nextProp

/-- The list of all users has every object with the flag, once. -/
structure Users (s : State) : Prop where
  nodup : s.allUsers.Nodup
  mem_iff : ∀ u, u ∈ s.allUsers ↔ isUser s u = true

/-- `new` is the least free number below `old`. -/
structure LeastFree (s : State) (old new : Objid) : Prop where
  nonneg : 0 ≤ new
  lt : new < old
  free : valid s new = false
  least : ∀ k, 0 ≤ k → k < new → valid s k = true

theorem old_nonneg (ho : findObject s old = some o) : 0 ≤ old := by
  cases old with
  | ofNat k => exact Int.natCast_nonneg k
  | negSucc k => exact nomatch ho

theorem valid_lt (ho : findObject s old = some o) : old.toNat < s.objects.length := by
  obtain ⟨k, rfl⟩ := Int.eq_ofNat_of_zero_le (old_nonneg ho)
  show k < s.objects.length
  by_contra h
  have hnone : findObject s (k : Objid) = none := by
    show (s.objects[k]?).join = none
    rw [List.getElem?_eq_none (Nat.le_of_not_lt h)]
    rfl
  rw [hnone] at ho
  exact nomatch ho

/-- What a place in the table below a valid number holds. -/
theorem valid_take (ho : findObject s old = some o) {k : Nat} (hk : k < (s.objects.take old.toNat).length) :
    valid s (k : Objid) = !(s.objects.take old.toNat)[k].isNone := by
  have hlen := valid_lt ho
  have hk' : k < s.objects.length := by
    rw [List.length_take] at hk
    omega
  rw [List.getElem_take]
  show ((s.objects[k]?).join).isSome = _
  rw [List.getElem?_eq_getElem hk']
  cases s.objects[k] <;> rfl

theorem leastFree_of_some {n : Nat} (ho : findObject s old = some o)
    (hn : (s.objects.take old.toNat).findIdx? Option.isNone = some n) : LeastFree s old n := by
  obtain ⟨hlt, hnone, hleast⟩ := List.findIdx?_eq_some_iff_getElem.mp hn
  have hlen := valid_lt ho
  have hold := old_nonneg ho
  have hlt' : n < old.toNat := by
    rw [List.length_take] at hlt
    omega
  constructor
  · exact Int.natCast_nonneg n
  · rw [← Int.toNat_of_nonneg hold]
    exact Int.ofNat_lt.mpr hlt'
  · rw [valid_take ho hlt, hnone]
    rfl
  · intro k hk hkn
    obtain ⟨k, rfl⟩ := Int.eq_ofNat_of_zero_le hk
    have hkn : k < n := Int.ofNat_lt.mp hkn
    have hnot : (s.objects.take old.toNat)[k].isNone = false := Bool.eq_false_iff.mpr (hleast k hkn)
    rw [valid_take ho (Nat.lt_trans hkn hlt), hnot]
    rfl

theorem all_valid_of_none (ho : findObject s old = some o)
    (hn : (s.objects.take old.toNat).findIdx? Option.isNone = none) :
    ∀ k, 0 ≤ k → k < old → valid s k = true := by
  intro k hk hlt
  obtain ⟨k, rfl⟩ := Int.eq_ofNat_of_zero_le hk
  have hlen := valid_lt ho
  have hk' : k < (s.objects.take old.toNat).length := by
    rw [← Int.toNat_of_nonneg (old_nonneg ho)] at hlt
    have hlt := Int.ofNat_lt.mp hlt
    rw [List.length_take]
    omega
  have hnot := List.findIdx?_eq_none_iff.mp hn _ (List.getElem_mem hk')
  rw [valid_take ho hk', hnot]
  rfl

/-- For a number other than `new` the renaming is an exchange. -/
theorem swap_eq_newName (h : x ≠ new) : Equiv.swap old new x = newName old new x := by
  rw [newName]
  split
  next heq => rw [heq, Equiv.swap_apply_left]
  next hne => exact Equiv.swap_apply_of_ne_of_ne hne h

/-- Links do not lead to free numbers. -/
theorem rename_links {g : Graph Objid} {L : Objid → List Objid} (hf : Forest nothing g L)
    (hnew : g new = none) (hnn : new ≠ nothing) {l : Links Objid} (hl : g x = some l) :
    l.map (Equiv.swap old new) = l.map (newName old new) := by
  have hswap : ∀ y, y = nothing ∨ (∃ m, g y = some m) → Equiv.swap old new y = newName old new y := by
    intro y hy
    have hne : y ≠ new := by
      rintro rfl
      rcases hy with rfl | ⟨m, hm⟩
      · exact hnn rfl
      · exact nomatch hnew.symm.trans hm
    exact swap_eq_newName hne
  have hup : l.up = nothing ∨ ∃ m, g l.up = some m := by
    by_cases h : l.up = nothing
    · exact .inl h
    · exact .inr (hf.up_valid hl h)
  have hfirst := hf.first_leads (p := x) (x := l.first) (by rw [firstOf, hl]; rfl)
  have hnext := hf.next_leads (y := x) (x := l.next) (by rw [nextOf, hl]; rfl)
  rw [Links.map, Links.map, hswap _ hup, hswap _ hfirst, hswap _ hnext]

/-- What an object becomes. -/
theorem Renamed.find_eq {e : Equiv.Perm Objid} (h : Renamed e s s') (y : Objid) :
    findObject s' y = (findObject s (e.symm y)).map fun o =>
      { o with id := y, place := o.place.map e, descent := o.descent.map e } := by
  have hf := h.find y
  have hd : (findObject s' y).map Object.descent = ((findObject s (e.symm y)).map Object.descent).map _ :=
    congrFun h.descent y
  have hp : (findObject s' y).map Object.place = ((findObject s (e.symm y)).map Object.place).map _ :=
    congrFun h.place y
  cases ho : findObject s (e.symm y) with
  | none =>
      rw [ho] at hf
      exact Option.map_eq_none_iff.mp hf
  | some o =>
      rw [ho] at hf hd hp
      obtain ⟨o', ho', hun⟩ := Option.map_eq_some_iff.mp hf
      rw [ho'] at hd hp ⊢
      have hd : o'.descent = o.descent.map e := Option.some.inj hd
      have hp : o'.place = o.place.map e := Option.some.inj hp
      rw [Option.map_some, ← hd, ← hp]
      obtain ⟨id, owner, name, flags, place, descent, verbdefs, propdefs, propval⟩ := o'
      simp only [unlinked, Object.mk.injEq] at hun
      obtain ⟨rfl, rfl, rfl, rfl, -, -, rfl, rfl, rfl⟩ := hun
      rfl

theorem map_newName_of_not_mem {us : List Objid} (h : old ∉ us) : us.map (newName old new) = us := by
  have heq : us.map (newName old new) = us.map id := List.map_congr_left fun v hv => by
    have hne : v ≠ old := fun heq => h (heq ▸ hv)
    exact if_neg hne
  rw [heq, List.map_id]

theorem map_newName_eq_swap {us : List Objid} (h : new ∉ us) :
    us.map (newName old new) = us.map (Equiv.swap old new) :=
  List.map_congr_left fun v hv => by
    have hne : v ≠ new := fun heq => h (heq ▸ hv)
    exact (swap_eq_newName hne).symm

theorem renumberUser_eq {us : List Objid} (h : us.Nodup) :
    renumberUser old new us = us.map (newName old new) := by
  induction us with
  | nil => rfl
  | cons u us ih =>
      obtain ⟨hu, hus⟩ := List.nodup_cons.mp h
      rw [renumberUser, List.map_cons]
      split
      next heq =>
        subst heq
        rw [map_newName_of_not_mem hu, newName, if_pos rfl]
      next hne => rw [ih hus, newName, if_neg hne]

/-- The object that is found at `y` afterwards. -/
theorem withOwners_moved (hw : WellFormed s) (hfree : LeastFree s old new) {y : Objid}
    (ho : findObject s (Equiv.swap old new y) = some o) :
    withOwners old new { o with
      id := y
      place := o.place.map (Equiv.swap old new)
      descent := o.descent.map (Equiv.swap old new) } = renumbered old new o := by
  obtain ⟨L, hf⟩ := hw.descent
  obtain ⟨M, hp⟩ := hw.place
  have hnone : findObject s new = none := Option.not_isSome_iff_eq_none.mp
    (Bool.eq_false_iff.mp hfree.free)
  have hnn : new ≠ nothing := by
    intro h
    have := hfree.nonneg
    rw [h] at this
    exact absurd this (by decide)
  have hid : newName old new o.id = y := by
    rw [hw.ids ho, ← swap_eq_newName, Equiv.swap_apply_self]
    intro heq
    rw [heq, hnone] at ho
    exact nomatch ho
  have hnd : descent.get s new = none := Option.map_eq_none_iff.mpr hnone
  have hnp : place.get s new = none := Option.map_eq_none_iff.mpr hnone
  have hplace : o.place.map (Equiv.swap old new) = _ := rename_links hp hnp hnn (place_get ho)
  have hdescent : o.descent.map (Equiv.swap old new) = _ := rename_links hf hnd hnn (descent_get ho)
  rw [hplace, hdescent, withOwners, fixOwners, renumbered, hid, List.take_length, List.drop_length,
    List.append_nil]

/-- `db_renumber_object` with a free number, when values do not change. -/
theorem renumberObject_image (hw : WellFormed s) (hu : Users s) (ho : findObject s old = some o)
    {n : Nat} (hn : (s.objects.take old.toNat).findIdx? Option.isNone = some n) :
    ∃ s', renumberObject s old = some ((n : Objid), s') ∧ WellFormed s' ∧ Users s' ∧
      Image old n s s' := by
  obtain ⟨t, s', hrun, hw', hren, -, hfind, hus, hnum, hnext⟩ := renumberObject_spec hw ho hn
  have hfree := leastFree_of_some ho hn
  have hobjects : ∀ y, findObject s' y
      = (findObject s (Equiv.swap old (n : Objid) y)).map (renumbered old n) := by
    intro y
    rw [hfind, hren.find_eq, Equiv.symm_swap, Option.map_map]
    cases hy : findObject s (Equiv.swap old (n : Objid) y) with
    | none => rfl
    | some oy => exact congrArg some (withOwners_moved hw hfree hy)
  have huser : ∀ y, isUser s' y = isUser s (Equiv.swap old (n : Objid) y) := by
    intro y
    rw [isUser, hobjects, isUser, Option.any_map]
    rfl
  have hnot : (n : Objid) ∉ s.allUsers := by
    intro hmem
    have hvalid := (hu.mem_iff n).mp hmem
    have hnone : findObject s n = none := Option.not_isSome_iff_eq_none.mp
      (Bool.eq_false_iff.mp hfree.free)
    rw [isUser, hnone] at hvalid
    exact nomatch hvalid
  have husers : s'.allUsers = s.allUsers.map (newName old n) := by
    rw [hus]
    split
    · exact renumberUser_eq hu.nodup
    next hno =>
      have hold : old ∉ s.allUsers := by
        intro hmem
        refine hno ?_
        have := (hu.mem_iff old).mp hmem
        rw [isUser, hren.find_eq, Equiv.symm_swap, Equiv.swap_apply_right, Option.any_map]
        exact this
      exact (map_newName_of_not_mem hold).symm
  refine ⟨s', hrun, hw', ?_, hobjects, husers, hnum, hnext⟩
  have hmap : s'.allUsers = s.allUsers.map (Equiv.swap old (n : Objid)) :=
    husers.trans (map_newName_eq_swap hnot)
  constructor
  · rw [hmap]
    exact hu.nodup.map (Equiv.injective _)
  · intro u
    rw [hmap, huser, ← hu.mem_iff, List.mem_map_of_involutive (Equiv.swap_apply_self old (n : Objid))]

/-! ## The list of all users as a value -/

/-- A value, as it is held: `users` is a reference to the list `all_users`. -/
inductive Held where
  | val (v : Var)
  | users
  | list (l : List Held)

mutual
/-- What the holder sees. -/
def Held.read (us : List Objid) : Held → Var
  | .val v => v
  | .users => .list (us.map .obj)
  | .list l => .list (Held.readList us l)

def Held.readList (us : List Objid) : List Held → List Var
  | [] => []
  | h :: hs => Held.read us h :: Held.readList us hs
end

mutual
/-- There is a reference to `all_users` in it. -/
def Held.hasUsers : Held → Bool
  | .val _ => false
  | .users => true
  | .list l => Held.hasUsersList l

def Held.hasUsersList : List Held → Bool
  | [] => false
  | h :: hs => Held.hasUsers h || Held.hasUsersList hs
end

mutual
/-- What a holder sees changes with the list if and only if the list is in it. -/
theorem Held.read_eq_iff {us us' : List Objid} (hne : us' ≠ us) :
    ∀ h : Held, h.read us' = h.read us ↔ h.hasUsers = false
  | .val v => iff_of_true rfl rfl
  | .users => by
      refine iff_of_false (fun h => hne ?_) fun h => nomatch h
      have hmap : us'.map Var.obj = us.map Var.obj := Var.list.inj h
      exact List.map_injective_iff.mpr (fun _ _ h => Var.obj.inj h) hmap
  | .list l => by
      rw [Held.read, Held.read, Held.hasUsers, ← Held.readList_eq_iff hne l]
      exact ⟨Var.list.inj, congrArg Var.list⟩

theorem Held.readList_eq_iff {us us' : List Objid} (hne : us' ≠ us) :
    ∀ l : List Held, Held.readList us' l = Held.readList us l ↔ Held.hasUsersList l = false
  | [] => iff_of_true rfl rfl
  | h :: hs => by
      rw [Held.readList, Held.readList, Held.hasUsersList, Bool.or_eq_false_iff,
        ← Held.read_eq_iff hne h, ← Held.readList_eq_iff hne hs]
      exact ⟨fun heq => ⟨(List.cons.inj heq).1, (List.cons.inj heq).2⟩,
        fun heq => congr (congrArg List.cons heq.1) heq.2⟩
end

/-- The values of the slots. -/
def withVars (vs : List Var) (o : Object) : Object :=
  { o with propval := List.zipWith (fun p v => { p with var := v }) o.propval vs }

/-- The database and, for each object, how the values of its slots are held. -/
structure Memory where
  base : State
  held : Objid → List Held

/-- The database that is seen. -/
def Memory.view (m : Memory) : State :=
  { m.base with
    objects := m.base.objects.mapIdx fun n oo =>
      oo.map (withVars ((m.held n).map (Held.read m.base.allUsers))) }

/-- `db_renumber_object`; every value goes with its slot, and is read anew. -/
def Memory.renumber (old : Objid) (m : Memory) : Option (Objid × Memory) := do
  let (new, s) ← renumberObject m.view old
  some (new, { base := s, held := fun x => m.held (if x = new then old else x) })

/-- How the slots of an object hold their values. -/
def Memory.slots (m : Memory) (x : Objid) (o : Object) : List Held := (m.held x).take o.propval.length

theorem Memory.findObject_view (m : Memory) (x : Objid) :
    findObject m.view x
      = (findObject m.base x).map (withVars ((m.held x).map (Held.read m.base.allUsers))) := by
  cases x with
  | negSucc n => rfl
  | ofNat n =>
      show ((m.base.objects.mapIdx _)[n]?).join = ((m.base.objects[n]?).join).map _
      rw [List.getElem?_mapIdx]
      cases m.base.objects[n]? with
      | none => rfl
      | some oo => rfl

theorem zipWith_vars {ps : List Pval} {vs : List Var} (h : ps.length ≤ vs.length) :
    List.zipWith (fun p v => { p with var := v }) ps vs = ps ↔
      vs.take ps.length = ps.map Pval.var := by
  induction ps generalizing vs with
  | nil => exact iff_of_true rfl rfl
  | cons p ps ih =>
      cases vs with
      | nil => exact absurd h (Nat.not_succ_le_zero _)
      | cons v vs =>
          rw [List.zipWith_cons_cons, List.length_cons, List.take_succ_cons, List.map_cons,
            List.cons.injEq, List.cons.injEq, ih (Nat.le_of_succ_le_succ h)]
          refine and_congr_left' ⟨fun heq => congrArg Pval.var heq, fun heq => ?_⟩
          rw [heq]

theorem map_zipWith_vars (ps : List Pval) (vs : List Var) :
    (List.zipWith (fun p v => { p with var := v }) ps vs).map Pval.var
      = vs.take (List.zipWith (fun p v => { p with var := v }) ps vs).length := by
  induction ps generalizing vs with
  | nil => rfl
  | cons p ps ih =>
      cases vs with
      | nil => rfl
      | cons v vs =>
          rw [List.zipWith_cons_cons, List.map_cons, ih, List.length_cons, List.take_succ_cons]

theorem withVars_eq_iff {vs : List Var} (h : o.propval.length ≤ vs.length) :
    withVars vs o = o ↔ vs.take o.propval.length = o.propval.map Pval.var := by
  rw [← zipWith_vars h]
  constructor
  · intro heq
    exact congrArg Object.propval heq
  · intro heq
    rw [withVars, heq]

/-- What the slots of an object show. -/
theorem Memory.view_vars {m : Memory} (ho : findObject m.view x = some o) :
    o.propval.length ≤ (m.held x).length ∧
      o.propval.map Pval.var = (m.slots x o).map (Held.read m.view.allUsers) := by
  rw [m.findObject_view] at ho
  obtain ⟨o', -, rfl⟩ := Option.map_eq_some_iff.mp ho
  constructor
  · show (List.zipWith _ _ _).length ≤ _
    rw [List.length_zipWith, List.length_map]
    exact Nat.min_le_right _ _
  · rw [Memory.slots, List.map_take]
    exact map_zipWith_vars o'.propval _

/-- A property of some object holds the list of all users. -/
def Memory.UsersHeld (m : Memory) : Prop :=
  ∃ x o, findObject m.view x = some o ∧ ∃ h ∈ m.slots x o, h.hasUsers = true

/-- What is said of `db_renumber_object`: the least free number is taken, and the database is
    the old one under the renaming; or there is none, and nothing changes. -/
def Renumbers (old new : Objid) (s s' : State) : Prop :=
  (new = old ∧ (∀ k, 0 ≤ k → k < old → valid s k = true) ∧ s' = s) ∨
    (LeastFree s old new ∧ valid s' old = false ∧ Image old new s s')

/-- The slots of an object show the same after the list has become `us`. -/
theorem Memory.reads_iff {m : Memory} (old new : Objid) (ho : findObject m.view x = some o)
    {us : List Objid} :
    withVars ((m.held x).map (Held.read us)) (renumbered old new o) = renumbered old new o ↔
      ∀ h ∈ m.slots x o, h.read us = h.read m.view.allUsers := by
  obtain ⟨hlen, hvars⟩ := Memory.view_vars ho
  have hlen' : (renumbered old new o).propval.length = o.propval.length := List.length_map ..
  have hvars' : (renumbered old new o).propval.map Pval.var = o.propval.map Pval.var :=
    List.map_map ..
  rw [withVars_eq_iff (by rw [hlen', List.length_map]; exact hlen), hvars', hlen', ← List.map_take,
    hvars, ← Memory.slots]
  exact List.map_inj_left

theorem withVars_withVars (vs : List Var) (o : Object) : withVars vs (withVars vs o) = withVars vs o := by
  refine (withVars_eq_iff ?_).mpr (map_zipWith_vars o.propval vs).symm
  show (List.zipWith _ _ _).length ≤ _
  rw [List.length_zipWith]
  exact Nat.min_le_right _ _

/-- Reading anew what has been read shows nothing new. -/
theorem Memory.view_view (m : Memory) : Memory.view ⟨m.view, m.held⟩ = m.view := by
  have hobjects : (Memory.view ⟨m.view, m.held⟩).objects = m.view.objects := by
    show (m.base.objects.mapIdx _).mapIdx _ = m.base.objects.mapIdx _
    rw [List.mapIdx_mapIdx]
    congr 1
    funext n oo
    cases oo with
    | none => rfl
    | some o => exact congrArg some (withVars_withVars _ o)
  show { m.view with objects := (Memory.view ⟨m.view, m.held⟩).objects } = m.view
  rw [hobjects]

/-- The database that is seen is the image if and only if no slot shows anything new. -/
theorem renumber_view_iff {m : Memory} {s : State} (hnone : findObject m.view new = none)
    (himage : Image old new m.view s) :
    Image old new m.view (Memory.view ⟨s, fun x => m.held (if x = new then old else x)⟩) ↔
      ∀ x o, findObject m.view x = some o →
        ∀ h ∈ m.slots x o, h.read s.allUsers = h.read m.view.allUsers := by
  have hslots : ∀ x o, findObject m.view x = some o →
      findObject (Memory.view ⟨s, fun x => m.held (if x = new then old else x)⟩)
          (Equiv.swap old new x) =
        some (withVars ((m.held x).map (Held.read s.allUsers)) (renumbered old new o)) := by
    intro x o ho
    have hx : x ≠ new := by
      rintro rfl
      exact nomatch hnone.symm.trans ho
    have hback : (if Equiv.swap old new x = new then old else Equiv.swap old new x) = x := by
      rw [swap_eq_newName hx, newName]
      split
      next h => rw [if_pos rfl, h]
      next => rfl
    rw [Memory.findObject_view, himage.objects, Equiv.swap_apply_self, ho]
    simp only [hback]
    rfl
  constructor
  · intro h x o ho
    refine (Memory.reads_iff old new ho).mp ?_
    have hx := h.objects (Equiv.swap old new x)
    rw [hslots x o ho, Equiv.swap_apply_self, ho] at hx
    exact Option.some.inj hx
  · intro hreads
    constructor
    · intro y
      cases ho : findObject m.view (Equiv.swap old new y) with
      | none =>
          rw [Memory.findObject_view, himage.objects, ho]
          rfl
      | some o =>
          have hy := hslots _ o ho
          rw [Equiv.swap_apply_self, (Memory.reads_iff old new ho).mpr (hreads _ o ho)] at hy
          exact hy
    · exact himage.users
    · exact (List.length_mapIdx ..).trans himage.numObjects
    · exact himage.nextProp

/-- `db_renumber_object` makes the image of the database that the properties show under the
    renaming, if and only if the object is no user, or there is no free number, or no property
    holds the list of all users. -/
theorem renumber_is_renaming {m : Memory} (hw : WellFormed m.view) (hu : Users m.view)
    (hv : valid m.view old = true) :
    ∃ new m', m.renumber old = some (new, m') ∧
      (Renumbers old new m.view m'.view ↔
        ¬ (isUser m.view old = true ∧ (∃ k, 0 ≤ k ∧ k < old ∧ valid m.view k = false) ∧ m.UsersHeld)) := by
  obtain ⟨o, ho⟩ := Option.isSome_iff_exists.mp hv
  cases hn : (m.view.objects.take old.toNat).findIdx? Option.isNone with
  | none =>
      have hall := all_valid_of_none ho hn
      have hrun : renumberObject m.view old = some (old, m.view) := by
        simp only [renumberObject, hn]
      have hsame : (fun x => m.held (if x = old then old else x)) = m.held := by
        funext x
        split
        next hx => rw [hx]
        next => rfl
      refine ⟨old, ⟨m.view, m.held⟩, ?_, iff_of_true (.inl ⟨rfl, hall, m.view_view⟩) ?_⟩
      · rw [Memory.renumber, hrun]
        exact congrArg (fun held => some (old, (⟨m.view, held⟩ : Memory))) hsame
      · rintro ⟨-, ⟨k, hk, hlt, hfree⟩, -⟩
        cases hfree.symm.trans (hall k hk hlt)
  | some n =>
      obtain ⟨s, hrun, hws, hus, himage⟩ := renumberObject_image hw hu ho hn
      have hfree := leastFree_of_some ho hn
      let m' : Memory := ⟨s, fun x => m.held (if x = n then old else x)⟩
      refine ⟨n, m', ?_, ?_⟩
      · rw [Memory.renumber, hrun]
        rfl
      · have hnone : findObject m.view n = none := Option.not_isSome_iff_eq_none.mp
          (Bool.eq_false_iff.mp hfree.free)
        have hne : (n : Objid) ≠ old := Int.ne_of_lt hfree.lt
        have himage' := renumber_view_iff hnone himage
        have hgone : valid m'.view old = false := by
          rw [valid, Memory.findObject_view, himage.objects, Equiv.swap_apply_left, hnone]
          rfl
        have hleft : Renumbers old n m.view m'.view ↔ Image old n m.view m'.view :=
          ⟨fun h => (h.resolve_left fun h => hne h.1).2.2, fun h => .inr ⟨hfree, hgone, h⟩⟩
        rw [hleft, himage']
        have hexists : ∃ k, 0 ≤ k ∧ k < old ∧ valid m.view k = false :=
          ⟨n, hfree.nonneg, hfree.lt, hfree.free⟩
        by_cases huser : isUser m.view old = true
        · have hmem : old ∈ m.view.allUsers := (hu.mem_iff old).mpr huser
          have hchanged : s.allUsers ≠ m.view.allUsers := by
            intro heq
            rw [← heq, himage.users] at hmem
            obtain ⟨u, -, hu⟩ := List.mem_map.mp hmem
            rw [newName] at hu
            split at hu
            next => exact hne hu
            next h => exact h hu
          constructor
          · rintro hreads ⟨-, -, x, o, ho, h, hh, hhas⟩
            have := (Held.read_eq_iff hchanged h).mp (hreads x o ho h hh)
            cases hhas.symm.trans this
          · intro hnot x o ho h hh
            refine (Held.read_eq_iff hchanged h).mpr (Bool.eq_false_iff.mpr fun hhas => ?_)
            exact hnot ⟨huser, hexists, x, o, ho, h, hh, hhas⟩
        · have hsame : s.allUsers = m.view.allUsers := by
            rw [himage.users, map_newName_of_not_mem fun hmem => huser ((hu.mem_iff old).mp hmem)]
          refine iff_of_true (fun x o _ h _ => ?_) fun h => huser h.1
          rw [hsame]

/-- In the database of `familyDb` the second object is recycled, the third one becomes a user,
    and the list of users is given to the property `p` of the first one. -/
def usersOps : List Op :=
  familyOps ++ [.recycle 0 (fun _ => false) 1, .putProp 0 0 [112] ⟨.list [.obj 2], by decide⟩]

def usersDb : State :=
  setObjectFlag 2 .user ((usersOps.foldlM (fun s op => step op s) emptyDb).getD emptyDb)

/-- The property `p` holds the list itself. -/
def usersMemory : Memory where
  base := usersDb
  held x := if x = 0 then [.users] else if x = 2 then [.val (.int 9), .val .clear] else []

theorem usersMemory_view : usersMemory.view = usersDb := by decide +kernel

theorem usersDb_wellFormed : WellFormed usersDb := by
  obtain ⟨s', hrun, hw⟩ := run_wellFormed emptyDb_wellFormed usersOps
  rw [run_ofPart_iff] at hrun
  rw [usersDb, hrun]
  exact setObjectFlag_wellFormed hw .user

theorem usersDb_users : Users usersDb := by
  have hlist : usersDb.allUsers = [2] := by decide +kernel
  constructor
  · rw [hlist]
    exact List.nodup_singleton 2
  · intro u
    rw [hlist, List.mem_singleton]
    constructor
    · rintro rfl
      decide +kernel
    · intro huser
      have hlt : ∀ n < 3, isUser usersDb (n : Nat) = true → n = 2 := by decide +kernel
      obtain ⟨o, ho⟩ : ∃ o, findObject usersDb u = some o := by
        cases ho : findObject usersDb u with
        | none =>
            rw [isUser, ho] at huser
            exact nomatch huser
        | some o => exact ⟨o, rfl⟩
      have hlen : usersDb.objects.length = 3 := by decide +kernel
      obtain ⟨n, rfl⟩ := Int.eq_ofNat_of_zero_le (old_nonneg ho)
      have hn := valid_lt ho
      rw [hlen] at hn
      exact congrArg Int.ofNat (hlt n hn huser)

/-- The third object gets the number of the second one, and the property changes. -/
theorem renumber_changes_property : ∃ m', usersMemory.renumber 2 = some (1, m') ∧
    ¬ Renumbers 2 1 usersMemory.view m'.view := by
  let s' := ((renumberObject usersDb 2).map Prod.snd).getD usersDb
  have hrun : renumberObject usersDb 2 = some (1, s') := by decide +kernel
  refine ⟨⟨s', fun x => usersMemory.held (if x = 1 then 2 else x)⟩, ?_, ?_⟩
  · rw [Memory.renumber, usersMemory_view, hrun]
    rfl
  · rintro (⟨heq, -⟩ | ⟨-, -, himage⟩)
    · exact absurd heq (by decide)
    · have hobject := congrArg (Option.map fun o => o.propval.map Pval.var) (himage.objects 0)
      revert hobject
      decide +kernel

/-- All values of the same database, each for itself. -/
def plainMemory : Memory where
  base := usersDb
  held x := if x = 0 then [.val (.list [.obj 2])]
    else if x = 2 then [.val (.int 9), .val .clear] else []

theorem plainMemory_view : plainMemory.view = usersDb := by decide +kernel

theorem renumber_is_renaming_plain : ∃ new m', plainMemory.renumber 2 = some (new, m') ∧
    (Renumbers 2 new plainMemory.view m'.view ↔
      ¬ (isUser plainMemory.view 2 = true ∧
        (∃ k, 0 ≤ k ∧ k < 2 ∧ valid plainMemory.view k = false) ∧ plainMemory.UsersHeld)) :=
  renumber_is_renaming (plainMemory_view ▸ usersDb_wellFormed) (plainMemory_view ▸ usersDb_users)
    (by decide +kernel)

end Waverous.Db
