import Waverous.Lib.Runs
import Waverous.Lists

/-! # Lists and strings behave as values — `list.c`, `execute.c`, `db_objects.c`

    One lemma for each function: given operands it owns and holders it does not
    know of, it ends with one owned cell, whose value is that of the function on
    immutable values, and with the values of the other holders as they were
    (`Gives`).  The in-place branches are sound because their count test, with
    counts that are exact, says that the block has no other holder. -/

namespace Waverous.Lists

open RefHeap

/-- The value of a cell, given those of the blocks. -/
abbrev cv (val : Nat → Var) (c : Cell) : Var := cellVal Subtype.val val c

/-- The caller owns the cells `owned`; all other references to the heap are from
    `roots`, the static empty list among them. -/
structure Owns (val : Nat → Var) (h : Heap) (owned roots : List Cell) : Prop where
  counted : Counted h (owned ++ roots)
  consistent : Consistent Subtype.val build val h
  static : RefHeap.Cell.ref 0 ∈ roots
  empty : val 0 = .list []

/-- What a function that consumes its operands has to give: a cell with value
    `v`, and the roots as they were.  A reference may have been lost. -/
def Gives (val : Nat → Var) (roots : List Cell) (r : Cell × Heap) (v : Var) : Prop :=
  ∃ val' junk, Owns val' r.2 [r.1] (roots ++ junk) ∧ cv val' r.1 = v ∧
    ∀ c ∈ roots, cv val' c = cv val c

variable {val : Nat → Var} {h : Heap} {owned roots : List Cell} {c list value : Cell}
  {cs : List Cell}

theorem Owns.perm {owned' : List Cell} (ho : Owns val h owned roots) (hp : owned.Perm owned') :
    Owns val h owned' roots :=
  ⟨ho.counted.of_perm (hp.append_right roots), ho.consistent, ho.static, ho.empty⟩

/-- Some owned cells may be regarded as roots. -/
theorem Owns.shift (owned' : List Cell) (ho : Owns val h (owned ++ owned') roots) :
    Owns val h owned (owned' ++ roots) :=
  ⟨by rw [← List.append_assoc]; exact ho.counted, ho.consistent,
    List.mem_append_right _ ho.static, ho.empty⟩

theorem Owns.unshift {owned' : List Cell} (ho : Owns val h owned (owned' ++ roots))
    (h0 : RefHeap.Cell.ref 0 ∈ roots) : Owns val h (owned ++ owned') roots :=
  ⟨by rw [List.append_assoc]; exact ho.counted, ho.consistent, h0, ho.empty⟩

/-- A scalar costs nothing to own. -/
theorem Owns.imm (ho : Owns val h owned roots) (a : Scalar) :
    Owns val h (.imm a :: owned) roots := by
  refine ⟨fun r => ?_, ho.consistent, ho.static, ho.empty⟩
  rw [List.cons_append, refsTo_cons, refsTo_imm, Nat.zero_add]
  exact ho.counted r

theorem Owns.dropImm {a : Scalar} (ho : Owns val h (.imm a :: owned) roots) :
    Owns val h owned roots := by
  refine ⟨fun r => ?_, ho.consistent, ho.static, ho.empty⟩
  have := ho.counted r
  rw [List.cons_append, refsTo_cons, refsTo_imm, Nat.zero_add] at this
  exact this

theorem Owns.live {r : Nat} (ho : Owns val h owned roots)
    (hr : RefHeap.Cell.ref r ∈ owned ++ roots) : count h r ≠ 0 := ho.counted.live hr

/-! ## Reading -/

theorem build_list (vs : List Var) : build .list vs = .list vs := by cases vs <;> rfl

/-- A part of a value is smaller than the value. -/
theorem size_build (tag : Tag) (vs : List Var) : ∀ v ∈ vs, sizeOf v < sizeOf (build tag vs) := by
  intro v hv
  have hbuild : build tag vs = .list vs := by
    cases tag with
    | str s =>
        cases vs with
        | nil => exact nomatch hv
        | cons _ _ => rfl
    | list => exact build_list vs
  have := List.sizeOf_lt_of_mem hv
  rw [hbuild, Var.list.sizeOf_spec]
  omega

theorem cells_of_listCells {r : Nat} {b : Block Scalar Tag} (hb : h[r]? = some b)
    (hcs : listCells h (.ref r) = some cs) : b.cells = cs := by
  simp only [listCells, hb] at hcs
  split at hcs
  · exact nomatch hcs
  · exact nomatch hcs
  next hb' =>
    cases hb'
    exact Option.some.inj hcs

/-- Counting up changes no contents. -/
theorem listCells_addRef (d c : Cell) (h : Heap) : listCells (addRef d h) c = listCells h c := by
  cases d with
  | imm a => rfl
  | ref r =>
      cases c with
      | imm a => rfl
      | ref r' =>
          simp only [addRef, listCells, List.getElem?_modify]
          by_cases hr : r = r'
          · subst hr
            cases hb : h[r]? with
            | none => rfl
            | some b =>
                obtain ⟨refs, tag, cells⟩ := b
                cases tag with
                | str s => cases cells <;> simp
                | list => simp
          · simp [hr]

theorem readVar_eq (hc : Counted h roots) (hv : Consistent Subtype.val build val h)
    (hlive : ∀ r, c = .ref r → count h r ≠ 0) : readVar h c = cv val c := by
  rw [readVar, decode_eq sizeOf size_build hv hc hlive]
  rfl

/-- The elements of a list are live. -/
theorem Owns.live_cells {r : Nat} (ho : Owns val h owned roots)
    (hcs : listCells h c = some cs) (hr : RefHeap.Cell.ref r ∈ cs) : count h r ≠ 0 := by
  cases c with
  | imm a => exact nomatch hcs
  | ref r' =>
      cases hb : h[r']? with
      | none => simp [listCells, hb] at hcs
      | some b => exact ho.counted.live_of_block hb (cells_of_listCells hb hcs ▸ hr)

theorem Owns.live_of_mem (ho : Owns val h owned roots) (hmem : c ∈ owned ++ roots) (r : Nat)
    (hr : c = .ref r) : count h r ≠ 0 := ho.live (hr ▸ hmem)

section Reading

variable (ho : Owns val h owned roots) (hlive : ∀ r, c = .ref r → count h r ≠ 0)
include ho hlive

theorem Owns.asList_live : asList (cv val c) = (listCells h c).map (List.map (cv val)) := by
  cases c with
  | imm a =>
      obtain ⟨v, hv⟩ := a
      cases v <;> first | rfl | exact nomatch hv
  | ref r =>
      obtain ⟨b, hb, hrefs⟩ := exists_of_count (hlive r rfl)
      have hval : cv val (.ref r) = build b.tag (b.cells.map (cv val)) :=
        ho.consistent r b hb hrefs
      rw [hval]
      obtain ⟨refs, tag, cells⟩ := b
      simp only [listCells, hb]
      cases tag with
      | str s => cases cells <;> rfl
      | list => cases cells <;> rfl

theorem Owns.asStr_live : asStr (cv val c) = strBytes h c := by
  cases c with
  | imm a =>
      obtain ⟨v, hv⟩ := a
      cases v <;> first | rfl | exact nomatch hv
  | ref r =>
      obtain ⟨b, hb, hrefs⟩ := exists_of_count (hlive r rfl)
      have hval : cv val (.ref r) = build b.tag (b.cells.map (cv val)) :=
        ho.consistent r b hb hrefs
      rw [hval]
      obtain ⟨refs, tag, cells⟩ := b
      simp only [strBytes, hb]
      cases tag with
      | str s => cases cells <;> rfl
      | list => cases cells <;> rfl

theorem Owns.asInt_live : asInt (cv val c) = intOf c := by
  cases c with
  | imm a =>
      obtain ⟨v, hv⟩ := a
      cases v <;> rfl
  | ref r =>
      obtain ⟨b, hb, hrefs⟩ := exists_of_count (hlive r rfl)
      have hval : cv val (.ref r) = build b.tag (b.cells.map (cv val)) :=
        ho.consistent r b hb hrefs
      rw [hval]
      obtain ⟨refs, tag, cells⟩ := b
      cases tag with
      | str s => cases cells <;> rfl
      | list => cases cells <;> rfl

theorem Owns.list_val (hcs : listCells h c = some cs) : cv val c = .list (cs.map (cv val)) := by
  have := ho.asList_live hlive
  rw [hcs] at this
  cases hv : cv val c with
  | list vs =>
      rw [hv] at this
      exact congrArg Var.list (Option.some.inj this)
  | _ => rw [hv] at this; exact nomatch this

theorem Owns.ismemberCells (hcs : listCells h list = some cs) :
    ismemberCells c cs h = ismember (cv val c) (cs.map (cv val)) false := by
  have hmap : cs.map (readVar h) = cs.map (cv val) :=
    List.map_congr_left fun d hd =>
      readVar_eq ho.counted ho.consistent fun r hr => ho.live_cells hcs (hr ▸ hd)
  rw [Lists.ismemberCells, readVar_eq ho.counted ho.consistent hlive, hmap]

end Reading

/-! ## Building blocks -/

theorem Owns.free (old : List Cell) (ho : Owns val h (old ++ owned) roots) :
    Owns val (free old h) owned roots :=
  ⟨Counted.free (by rw [← List.append_assoc]; exact ho.counted),
    ho.consistent.within (Within.free old h), ho.static, ho.empty⟩

theorem Owns.refAll (ho : Owns val h owned roots)
    (hlive : ∀ r, RefHeap.Cell.ref r ∈ cs → count h r ≠ 0) :
    Owns val (refAll cs h) (cs ++ owned) roots :=
  ⟨by rw [List.append_assoc]; exact ho.counted.refAll hlive,
    ho.consistent.within (Within.refAll hlive), ho.static, ho.empty⟩

theorem Owns.addRef (ho : Owns val h owned roots)
    (hlive : ∀ r, c = .ref r → count h r ≠ 0) : Owns val (addRef c h) (c :: owned) roots :=
  ⟨ho.counted.addRef hlive, ho.consistent.within (Within.addRef hlive), ho.static, ho.empty⟩

theorem Owns.alloc (cs : List Cell) (tag : Tag) (ho : Owns val h (cs ++ owned) roots) :
    ∃ val', Owns val' (alloc tag cs h).2 ((alloc tag cs h).1 :: owned) roots ∧
      cv val' (RefHeap.alloc tag cs h).1 = build tag (cs.map (cv val)) ∧
      ∀ c ∈ owned ++ roots, cv val' c = cv val c := by
  have hc : Counted h (cs ++ (owned ++ roots)) := by
    rw [← List.append_assoc]
    exact ho.counted
  obtain ⟨val', hv, hnew, hsame⟩ := ho.consistent.alloc tag hc
  refine ⟨val', ⟨hc.alloc tag, hv, ho.static, ?_⟩, hnew, hsame⟩
  exact (hsame _ (List.mem_append_right _ ho.static)).trans ho.empty

theorem Owns.newList (ho : Owns val h (cs ++ owned) roots) :
    ∃ val', Owns val' (newList cs h).2 ((newList cs h).1 :: owned) roots ∧
      cv val' (Lists.newList cs h).1 = .list (cs.map (cv val)) ∧
      ∀ c ∈ owned ++ roots, cv val' c = cv val c := by
  cases cs with
  | nil =>
      have hlive : ∀ r, (RefHeap.Cell.ref 0 : Cell) = .ref r → count h r ≠ 0 := by
        intro r hr
        cases hr
        exact ho.live (List.mem_append_right _ ho.static)
      have hown : Owns val h owned roots := ho
      exact ⟨val, hown.addRef hlive, ho.empty, fun _ _ => rfl⟩
  | cons d ds =>
      obtain ⟨val', hown, hnew, hsame⟩ := ho.alloc (d :: ds) .list
      refine ⟨val', hown, ?_, hsame⟩
      rw [← build_list]
      exact hnew

/-- Giving a cell that is owned. -/
theorem Owns.gives (ho : Owns val h [c] roots) : Gives val roots (c, h) (cv val c) :=
  ⟨val, [], by rw [List.append_nil]; exact ho, rfl, fun _ _ => rfl⟩

/-- A value computed in an intermediate heap. -/
theorem Gives.of_eq {val1 : Nat → Var} {r : Cell × Heap} {v : Var}
    (hg : Gives val1 roots r v) (hsame : ∀ c ∈ roots, cv val1 c = cv val c) :
    Gives val roots r v := by
  obtain ⟨val', junk, ho, hv, hroots⟩ := hg
  exact ⟨val', junk, ho, hv, fun c hc => (hroots c hc).trans (hsame c hc)⟩

/-- Freeing operands that were kept aside. -/
theorem Gives.free (old : List Cell) {r : Cell × Heap} {v : Var}
    (hg : Gives val (old ++ roots) r v) (h0 : RefHeap.Cell.ref 0 ∈ roots) :
    Gives val roots (r.1, free old r.2) v := by
  obtain ⟨val', junk, ho, hv, hroots⟩ := hg
  rw [List.append_assoc] at ho
  refine ⟨val', junk, Owns.free old ?_, hv, fun c hc => hroots c (List.mem_append_right _ hc)⟩
  exact (ho.unshift (List.mem_append_left _ h0)).perm List.perm_append_comm

theorem gives_fail (e : Error) (ho : Owns val h owned roots) :
    Gives val roots (fail e owned h) (.err e) := by
  have hfree : Owns val (RefHeap.free owned h) [] roots := by
    refine Owns.free owned ?_
    rw [List.append_nil]
    exact ho
  exact (hfree.imm ⟨.err e, rfl⟩).gives

theorem gives_newStr (t : Str) (ho : Owns val h owned roots) :
    Gives val roots (newStr t owned h) (.str t) := by
  obtain ⟨val', hown, hnew, hsame⟩ := Owns.alloc [] (.str t) ho
  have hfree := (hown.perm (List.perm_append_singleton _ _).symm).free _
  refine Gives.of_eq ?_ fun c hc => hsame c (List.mem_append_right _ hc)
  have hg := hfree.gives
  rw [hnew] at hg
  exact hg

theorem gives_alloc_str (t : Str) (ho : Owns val h [] roots) :
    Gives val roots (alloc (.str t) [] h) (.str t) := by
  obtain ⟨val', hown, hnew, hsame⟩ := Owns.alloc [] (.str t) ho
  refine Gives.of_eq ?_ hsame
  have hg := hown.gives
  rw [hnew] at hg
  exact hg

theorem gives_newList (ho : Owns val h (cs ++ []) roots) :
    Gives val roots (newList cs h) (.list (cs.map (cv val))) := by
  obtain ⟨val', hown, hnew, hsame⟩ := ho.newList
  refine Gives.of_eq ?_ hsame
  rw [← hnew]
  exact hown.gives

/-- A new list of parts of the owned ones. -/
theorem gives_rebuild (ho : Owns val h owned roots)
    (hlive : ∀ r, RefHeap.Cell.ref r ∈ cs → count h r ≠ 0) :
    Gives val roots (rebuild cs owned h) (.list (cs.map (cv val))) := by
  obtain ⟨val', hown, hnew, hsame⟩ := (ho.refAll hlive).newList
  have hfree := (hown.perm (List.perm_append_singleton _ _).symm).free _
  refine Gives.of_eq ?_ fun c hc => hsame c (List.mem_append_right _ hc)
  have hg := hfree.gives
  rw [hnew] at hg
  exact hg

/-- Storing into a list that one cell alone refers to. -/
theorem Owns.setList {new : List Cell} (used unused : List Cell)
    (ho : Owns val h (list :: (used ++ owned)) roots) (hcs : listCells h list = some cs)
    (h1 : varRefcount h list = 1)
    (hcells : ∀ r, refsTo r new + refsTo r unused = refsTo r cs + refsTo r used) :
    ∃ val', Owns val' (setList list new h) (list :: (unused ++ owned)) roots ∧
      cv val' list = .list (new.map (cv val)) ∧
      ∀ c ∈ owned ++ roots, cv val' c = cv val c := by
  cases list with
  | imm a => exact nomatch hcs
  | ref r =>
      obtain ⟨b, hb, hrefs⟩ := exists_of_count (ho.live List.mem_cons_self)
      have hbcs : b.cells = cs := cells_of_listCells hb hcs
      have hcount : Counted h (RefHeap.Cell.ref r :: (used ++ (owned ++ roots))) := by
        have := ho.counted
        rwa [List.cons_append, List.append_assoc] at this
      obtain ⟨hroots, hheap⟩ := hcount.unique h1
      have hnew : refsTo r new = 0 := by
        have h2 := hcells r
        have h3 := refsTo_cells_le hb r
        rw [refsTo_append] at hroots
        rw [hbcs] at h3
        omega
      obtain ⟨val', hv, hval, hsame⟩ := ho.consistent.setBlock .list hb hcount h1 hnew
      refine ⟨val', ⟨?_, hv, ho.static, ?_⟩, ?_, fun c hc => hsame c ?_⟩
      · -- `used` has gone into the block, and `unused` has come out of it
        have hswap : Counted h (used ++ (RefHeap.Cell.ref r :: (owned ++ roots))) :=
          hcount.of_perm List.perm_middle.symm
        have hset : Counted (setBlock r .list new h)
            (unused ++ (RefHeap.Cell.ref r :: (owned ++ roots))) :=
          hswap.setBlock .list hb fun r' => by rw [hbcs]; exact hcells r'
        have hback := hset.of_perm List.perm_middle
        rw [List.cons_append, List.append_assoc]
        exact hback
      · exact (hsame _ (List.mem_append_right _ (List.mem_append_right _ ho.static))).trans ho.empty
      · rw [← build_list]
        exact hval
      · exact List.mem_append_right _ hc

/-! ## `list.c` -/

theorem gives_doinsert (ho : Owns val h [list, value] roots) (hcs : listCells h list = some cs)
    (pos : Nat) :
    Gives val roots (doinsert list cs value pos h)
      (insertV (cs.map (cv val)) (cv val value) pos) := by
  simp only [doinsert, insertV]
  split
  next hplace =>
    obtain ⟨h1, hpos⟩ := hplace
    -- in place: the value moves into the block
    obtain ⟨val', hown, hval, hsame⟩ := Owns.setList [value] [] ho hcs h1 (fun r => by rw [refsTo_append]; rfl)
    refine Gives.of_eq ?_ hsame
    have hg := hown.gives
    rw [hval, List.map_append] at hg
    subst hpos
    rw [Nat.add_sub_cancel, List.take_of_length_le (by simp), List.drop_of_length_le (by simp)]
    exact hg
  next =>
    have hlive : ∀ r, RefHeap.Cell.ref r ∈ cs.take (pos - 1) ++ cs.drop (pos - 1) →
        count h r ≠ 0 := by
      intro r hr
      rw [List.take_append_drop] at hr
      exact ho.live_cells hcs hr
    have hparts := ho.refAll hlive
    -- the new list is made of the parts and the value
    have hperm : (cs.take (pos - 1) ++ cs.drop (pos - 1) ++ [list, value]).Perm
        ((cs.take (pos - 1) ++ value :: cs.drop (pos - 1)) ++ [list]) := by
      refine List.perm_iff_count.mpr fun a => ?_
      simp only [List.count_append, List.count_cons, List.count_nil]
      omega
    obtain ⟨val', hown, hnew, hsame⟩ := (hparts.perm hperm).newList
    have hfree := (hown.perm (List.perm_append_singleton _ _).symm).free _
    refine Gives.of_eq ?_ fun c hc => hsame c (List.mem_append_right _ hc)
    have hg := hfree.gives
    rw [hnew, List.map_append, List.map_cons, List.map_take, List.map_drop] at hg
    exact hg

theorem gives_listinsert (ho : Owns val h [list, value] roots) (hcs : listCells h list = some cs)
    (pos : Int) :
    Gives val roots (listinsert list cs value pos h)
      (listinsertV (cs.map (cv val)) (cv val value) pos) := by
  rw [listinsert, listinsertV, List.length_map]
  exact gives_doinsert ho hcs _

theorem gives_listappend (ho : Owns val h [list, value] roots)
    (hcs : listCells h list = some cs) :
    Gives val roots (listappend list cs value h)
      (insertV (cs.map (cv val)) (cv val value) ((cs.map (cv val)).length + 1)) := by
  rw [listappend, List.length_map]
  exact gives_doinsert ho hcs _

/-- Parts of an owned list make a new one. -/
theorem gives_rebuild_sub (ho : Owns val h (list :: owned) roots)
    (hcs : listCells h list = some cs) {ds : List Cell} (hds : ∀ d ∈ ds, d ∈ cs) :
    Gives val roots (rebuild ds (list :: owned) h) (.list (ds.map (cv val))) :=
  gives_rebuild ho fun _ hr => ho.live_cells hcs (hds _ hr)

theorem gives_listdelete (ho : Owns val h [list] roots) (hcs : listCells h list = some cs)
    (pos : Nat) :
    Gives val roots (listdelete list cs pos h) (.list ((cs.map (cv val)).eraseIdx (pos - 1))) := by
  rw [List.eraseIdx_map]
  exact gives_rebuild_sub ho hcs fun _ hd => List.mem_of_mem_eraseIdx hd

theorem gives_setadd (ho : Owns val h [list, value] roots) (hcs : listCells h list = some cs) :
    Gives val roots (setadd list cs value h) (setaddV (cs.map (cv val)) (cv val value)) := by
  have hmember : ismemberCells value cs h
      = ismember (cv val value) (cs.map (cv val)) false :=
    ho.ismemberCells (ho.live_of_mem (by simp)) hcs
  rw [setadd, setaddV, hmember]
  split
  · have hfree := (ho.perm (List.Perm.swap value list [])).free [value]
    have hg := hfree.gives
    rw [ho.list_val (ho.live_of_mem (by simp)) hcs] at hg
    exact hg
  · exact gives_listappend ho hcs

theorem gives_setremove (ho : Owns val h [list] roots) (hcs : listCells h list = some cs)
    (hvalue : ∀ r, value = .ref r → count h r ≠ 0) :
    Gives val roots (setremove list cs value h) (setremoveV (cs.map (cv val)) (cv val value)) := by
  have hmember : ismemberCells value cs h
      = ismember (cv val value) (cs.map (cv val)) false :=
    ho.ismemberCells hvalue hcs
  simp only [setremove, setremoveV, hmember]
  split
  · exact gives_listdelete ho hcs _
  · have hg := ho.gives
    rw [ho.list_val (ho.live_of_mem (by simp)) hcs] at hg
    exact hg

theorem gives_listset (ho : Owns val h [list, value] roots) (hcs : listCells h list = some cs)
    (h1 : varRefcount h list = 1) {pos : Nat} (hpos : pos - 1 < cs.length) :
    Gives val roots (listset list cs value pos h)
      (.list ((cs.map (cv val)).set (pos - 1) (cv val value))) := by
  have hold : cs.getD (pos - 1) noCell = cs[pos - 1] := by
    rw [List.getD_eq_getElem?_getD, List.getElem?_eq_getElem hpos]
    rfl
  obtain ⟨val', hown, hval, hsame⟩ := Owns.setList [value] [cs[pos - 1]] ho hcs h1
    fun r => refsTo_set r hpos value
  have hfree := (hown.perm (List.perm_append_singleton list [cs[pos - 1]]).symm).free
  have hg := hfree.gives
  rw [hval, List.map_set] at hg
  rw [listset, hold]
  exact Gives.of_eq hg hsame

/-! ### A fresh copy has no other holder -/

theorem rebuild_fresh (ho : Owns val h owned roots)
    (hlive : ∀ r, RefHeap.Cell.ref r ∈ cs → count h r ≠ 0) (hne : cs ≠ []) :
    varRefcount (rebuild cs owned h).2 (rebuild cs owned h).1 = 1 ∧
      listCells (rebuild cs owned h).2 (rebuild cs owned h).1 = some cs := by
  obtain ⟨d, ds, rfl⟩ := List.exists_cons_of_ne_nil hne
  obtain ⟨val', junk, hown, -, -⟩ := gives_rebuild ho hlive
  set h1 := refAll (d :: ds) h with hh1
  let h2 := h1 ++ [({ refs := 1, tag := Tag.list, cells := d :: ds } : Block Scalar Tag)]
  have hrebuild : rebuild (d :: ds) owned h = (.ref h1.length, RefHeap.free owned h2) := rfl
  have hnew : h2[h1.length]? = some { refs := 1, tag := .list, cells := d :: ds } := by simp [h2]
  rw [hrebuild] at hown ⊢
  have hcount : count (RefHeap.free owned h2) h1.length ≠ 0 := hown.live List.mem_cons_self
  constructor
  · have hle := count_freeAll_le (owned.length + (heapCells h2).length) owned h2 h1.length
    rw [count_eq hnew] at hle
    show count (RefHeap.free owned h2) h1.length = 1
    have hle' : count (RefHeap.free owned h2) h1.length ≤ 1 := hle
    omega
  · obtain ⟨b', hb', hrefs'⟩ := exists_of_count hcount
    obtain ⟨b, hb, -, htag, hcells⟩ := Within.free owned h2 _ b' hb' hrefs'
    rw [hnew] at hb
    cases hb
    obtain ⟨refs, tag, cells⟩ := b'
    simp only [] at htag hcells
    subst htag hcells
    show listCells (RefHeap.free owned h2) (.ref h1.length) = some (d :: ds)
    simp only [listCells, hb']

theorem Gives.junk {val1 : Nat → Var} {junk : List Cell} {r : Cell × Heap} {v : Var}
    (hg : Gives val1 (roots ++ junk) r v) (hsame : ∀ c ∈ roots, cv val1 c = cv val c) :
    Gives val roots r v := by
  obtain ⟨val', junk', ho, hv, hroots⟩ := hg
  rw [List.append_assoc] at ho
  exact ⟨val', junk ++ junk', ho, hv,
    fun c hc => (hroots c (List.mem_append_left _ hc)).trans (hsame c hc)⟩

/-- `var_dup` and then `listset` on the copy. -/
theorem gives_dup_listset (owned : List Cell) (ho : Owns val h (owned ++ [value]) roots)
    (hlive : ∀ r, RefHeap.Cell.ref r ∈ cs → count h r ≠ 0) {pos : Nat}
    (hpos : pos - 1 < cs.length) :
    Gives val roots (listset (rebuild cs owned h).1 cs value pos (rebuild cs owned h).2)
      (.list ((cs.map (cv val)).set (pos - 1) (cv val value))) := by
  have hne : cs ≠ [] := by
    rintro rfl
    exact absurd hpos (Nat.not_lt_zero _)
  obtain ⟨hfresh, hcells⟩ := rebuild_fresh (ho.shift [value]) hlive hne
  obtain ⟨val', junk, hown, hval, hsame⟩ := gives_rebuild (ho.shift [value]) hlive
  rw [List.append_assoc] at hown
  have hboth := hown.unshift (List.mem_append_left _ ho.static)
  have hlist := (hboth.list_val (hboth.live_of_mem (by simp)) hcells).symm.trans hval
  have hset := gives_listset hboth hcells hfresh hpos
  rw [Var.list.inj hlist, hsame value (by simp)] at hset
  exact hset.junk fun c hc => hsame c (List.mem_append_right _ hc)

/-! ## Opcodes and built-in functions -/

/-- An error, with the operands freed in any order. -/
theorem gives_fail_perm (e : Error) {operands : List Cell} (ho : Owns val h owned roots)
    (hp : owned.Perm operands) : Gives val roots (fail e operands h) (.err e) :=
  gives_fail e (ho.perm hp)

theorem gives_opListAddTail (ho : Owns val h [list, value] roots) :
    Gives val roots (opListAddTail list value h) (addTailV (cv val list) (cv val value)) := by
  rw [opListAddTail, addTailV, ho.asList_live (ho.live_of_mem (by simp))]
  cases hcs : listCells h list with
  | none => exact gives_fail .eType ho
  | some cs => exact gives_listappend ho hcs

theorem gives_opListAppend (ho : Owns val h [list, value] roots) :
    Gives val roots (opListAppend list value h) (appendV (cv val list) (cv val value)) := by
  rw [opListAppend, appendV, ho.asList_live (ho.live_of_mem (by simp)), ho.asList_live (c := value) (ho.live_of_mem (by simp))]
  cases hcs : listCells h list with
  | none => exact gives_fail_perm .eType ho (List.Perm.swap _ _ _)
  | some cs =>
      cases hds : listCells h value with
      | none => exact gives_fail_perm .eType ho (List.Perm.swap _ _ _)
      | some ds =>
          simp only [Option.map_some, ← List.map_append]
          refine gives_rebuild ho fun r hr => ?_
          rcases List.mem_append.mp hr with hr | hr
          · exact ho.live_cells hcs hr
          · exact ho.live_cells hds hr

/-- An index that is a number is a scalar, and need not be freed. -/
theorem Owns.dropInt {n : Int} (ho : Owns val h (c :: owned) roots) (hn : intOf c = some n) :
    Owns val h owned roots := by
  cases c with
  | imm a => exact ho.dropImm
  | ref r => exact nomatch hn

theorem gives_opIndexset {index : Cell} (ho : Owns val h [list, index, value] roots) :
    Gives val roots (opIndexset list index value h)
      (indexsetV (cv val list) (cv val index) (cv val value)) := by
  have hrev : [list, index, value].Perm [value, index, list] :=
    (List.reverse_perm [list, index, value]).symm
  have hfail : ∀ e, Gives val roots (fail e [value, index, list] h) (.err e) := fun e =>
    gives_fail_perm e ho hrev
  rw [opIndexset, indexsetV, ho.asList_live (ho.live_of_mem (by simp)), ho.asStr_live (ho.live_of_mem (by simp)),
    ho.asInt_live (c := index) (ho.live_of_mem (by simp)), ho.asStr_live (c := value) (ho.live_of_mem (by simp))]
  cases hn : intOf index with
  | none =>
      cases hcs : listCells h list <;> cases hs : strBytes h list <;> exact hfail .eType
  | some n =>
      have hown : Owns val h [list, value] roots :=
        (ho.perm (List.Perm.swap index list [value])).dropInt hn
      cases hcs : listCells h list with
      | none =>
          cases hs : strBytes h list with
          | none => exact hfail .eType
          | some t =>
              cases hv : strBytes h value with
              | none => exact hfail .eType
              | some u =>
                  simp only [Option.map_none]
                  split
                  · exact hfail .eRange
                  · -- a string is copied before it is changed
                    match u with
                    | [] => exact hfail .eInvarg
                    | [b] => exact gives_newStr _ hown
                    | _ :: _ :: _ => exact hfail .eInvarg
      | some cs =>
          simp only [Option.map_some, List.length_map]
          split
          · exact hfail .eRange
          next hrange =>
            have hpos : n.toNat - 1 < cs.length := by omega
            split
            next h1 => exact gives_listset hown hcs h1 hpos
            next =>
              exact gives_dup_listset [list] hown
                (fun r hr => hown.live_cells hcs hr) hpos

theorem gives_opRangeset {lower upper : Cell}
    (ho : Owns val h [list, lower, upper, value] roots) :
    Gives val roots (opRangeset list lower upper value h)
      (rangesetV (cv val list) (cv val lower) (cv val upper) (cv val value)) := by
  have hfail : ∀ e, Gives val roots (fail e [list, upper, lower, value] h) (.err e) := fun e =>
    gives_fail_perm e ho ((List.Perm.swap upper lower [value]).cons list)
  rw [opRangeset, rangesetV, ho.asList_live (ho.live_of_mem (by simp)), ho.asStr_live (ho.live_of_mem (by simp)),
    ho.asInt_live (c := lower) (ho.live_of_mem (by simp)), ho.asInt_live (c := upper) (ho.live_of_mem (by simp)),
    ho.asList_live (c := value) (ho.live_of_mem (by simp)), ho.asStr_live (c := value) (ho.live_of_mem (by simp))]
  cases hi : intOf lower with
  | none => exact hfail .eType
  | some i =>
      cases hj : intOf upper with
      | none => exact hfail .eType
      | some j =>
          have hown : Owns val h [list, value] roots :=
            ((ho.perm (List.Perm.swap lower list [upper, value])).dropInt hi
              |>.perm (List.Perm.swap upper list [value])).dropInt hj
          have hstr : ∀ t u : Str, Gives val roots
              (if (t.length : Int) + 1 < i ∨ j < 0 then
                fail .eRange [list, upper, lower, value] h
              else newStr (t.take (i - 1).toNat ++ (u ++ t.drop j.toNat)) [list, value] h)
              (if (t.length : Int) + 1 < i ∨ j < 0 then .err .eRange
              else .str (t.take (i - 1).toNat ++ (u ++ t.drop j.toNat))) := by
            intro t u
            split
            · exact hfail .eRange
            · exact gives_newStr _ hown
          cases hcs : listCells h list with
          | none =>
              cases listCells h value <;> cases strBytes h list <;> cases strBytes h value <;>
                first | exact hfail .eType | exact hstr _ _
          | some cs =>
              cases hds : listCells h value with
              | none =>
                  cases strBytes h list <;> cases strBytes h value <;>
                    first | exact hfail .eType | exact hstr _ _
              | some ds =>
                  simp only [Option.map_some, List.length_map]
                  split
                  · exact hfail .eRange
                  · rw [← List.map_take, ← List.map_drop, ← List.map_append, ← List.map_append]
                    refine gives_rebuild hown fun r hr => ?_
                    rcases List.mem_append.mp hr with hr | hr
                    · exact hown.live_cells hcs (List.mem_of_mem_take hr)
                    · rcases List.mem_append.mp hr with hr | hr
                      · exact hown.live_cells hds hr
                      · exact hown.live_cells hcs (List.mem_of_mem_drop hr)

/-- An operand that is lost instead of being freed. -/
theorem Gives.lose {r : Cell × Heap} {v : Var} (hg : Gives val (c :: roots) r v)
    (h0 : RefHeap.Cell.ref 0 ∈ roots) : Gives val roots r v := by
  obtain ⟨val', junk, ho, hv, hroots⟩ := hg
  refine ⟨val', c :: junk, ?_, hv, fun d hd => hroots d (List.mem_cons_of_mem c hd)⟩
  refine ⟨ho.counted.of_perm ?_, ho.consistent, List.mem_append_left _ h0, ho.empty⟩
  exact List.Perm.append_left _ List.perm_middle.symm

theorem gives_opRangeRef {lower upper : Cell} (ho : Owns val h [list, lower, upper] roots) :
    Gives val roots (opRangeRef list lower upper h)
      (rangeRefV (cv val list) (cv val lower) (cv val upper)) := by
  have hrev : [list, lower, upper].Perm [upper, lower, list] :=
    (List.reverse_perm [list, lower, upper]).symm
  have hrange : Gives val roots (fail .eRange [upper, lower, list] h) (.err .eRange) :=
    gives_fail_perm .eRange ho hrev
  have htype : Gives val roots (fail .eType [upper, lower] h) (.err .eType) := by
    have hkept : Owns val h [upper, lower] (list :: roots) :=
      (ho.perm hrev).shift [list]
    exact (gives_fail .eType hkept).lose ho.static
  rw [opRangeRef, rangeRefV, ho.asList_live (ho.live_of_mem (by simp)), ho.asStr_live (ho.live_of_mem (by simp)),
    ho.asInt_live (c := lower) (ho.live_of_mem (by simp)), ho.asInt_live (c := upper) (ho.live_of_mem (by simp))]
  cases hi : intOf lower with
  | none => exact htype
  | some i =>
      cases hj : intOf upper with
      | none => exact htype
      | some j =>
          have hown : Owns val h [list] roots :=
            ((ho.perm (List.Perm.swap lower list [upper])).dropInt hi
              |>.perm (List.Perm.swap upper list [])).dropInt hj
          cases hcs : listCells h list with
          | none =>
              cases hs : strBytes h list with
              | none => exact htype
              | some t =>
                  simp only [Option.map_none]
                  split
                  · exact hrange
                  · exact gives_newStr _ hown
          | some cs =>
              simp only [Option.map_some, List.length_map]
              split
              · exact hrange
              · rw [sublist]
                split
                · exact gives_rebuild_sub hown hcs fun _ hd => nomatch hd
                · rw [← List.map_take, ← List.map_drop]
                  exact gives_rebuild_sub hown hcs fun _ hd =>
                    List.mem_of_mem_take (List.mem_of_mem_drop hd)

theorem gives_applyBuiltin {f : Builtin} {arglist : Cell} {pos : Option Int} {r : Cell × Heap}
    (ho : Owns val h [arglist] roots) (hcs : listCells h list = some cs)
    (hlist : ∀ r, list = .ref r → count h r ≠ 0) (hvalue : ∀ r, value = .ref r → count h r ≠ 0)
    (hr : applyBuiltin f arglist list cs value pos h = some r) :
    ∃ v, applyBuiltinV f (cs.map (cv val)) (cv val value) pos = some v ∧ Gives val roots r v := by
  have hl : listCells (refAll [list, value] h) list = some cs := by
    simp only [refAll, List.foldl_cons, List.foldl_nil, listCells_addRef]
    exact hcs
  have hl1 : listCells (addRef list h) list = some cs := by
    rw [listCells_addRef]
    exact hcs
  -- the operands of the function are owned, the argument list waits to be freed
  have hboth : Owns val (refAll [list, value] h) [list, value] (arglist :: roots) := by
    refine Owns.shift [arglist] (ho.refAll fun r hr => ?_)
    rcases List.mem_cons.mp hr with hr | hr
    · exact hlist r hr.symm
    · exact hvalue r (List.mem_singleton.mp hr).symm
  have hone : Owns val (addRef list h) [list] (arglist :: roots) :=
    Owns.shift [arglist] (ho.addRef hlist)
  have hvalue' : ∀ r, value = .ref r → count (addRef list h) r ≠ 0 := fun r hr =>
    count_addRef_ne_zero (hvalue r hr)
  have hdone : ∀ {r : Cell × Heap} {v : Var}, Gives val (arglist :: roots) r v →
      Gives val roots (r.1, RefHeap.free [arglist] r.2) v := fun hg =>
    Gives.free [arglist] hg ho.static
  have hrange : Gives val roots (fail .eRange [arglist] h) (.err .eRange) := gives_fail .eRange ho
  cases f with
  | setadd =>
      cases hr
      exact ⟨_, rfl, hdone (gives_setadd hboth hl)⟩
  | setremove =>
      cases hr
      exact ⟨_, rfl, hdone (gives_setremove hone hl1 hvalue')⟩
  | listappend =>
      cases pos with
      | none =>
          cases hr
          exact ⟨_, rfl, hdone (gives_listappend hboth hl)⟩
      | some n =>
          cases hr
          exact ⟨_, rfl, hdone (gives_listinsert hboth hl _)⟩
  | listinsert =>
      cases pos with
      | none =>
          cases hr
          exact ⟨_, rfl, hdone (gives_listinsert hboth hl _)⟩
      | some n =>
          cases hr
          exact ⟨_, rfl, hdone (gives_listinsert hboth hl _)⟩
  | listdelete =>
      obtain ⟨n, hn, hr⟩ := Option.map_eq_some_iff.mp hr
      subst hr
      simp only [applyBuiltinV, ho.asInt_live hvalue, hn, Option.map_some, List.length_map]
      refine ⟨_, rfl, ?_⟩
      split
      · exact hrange
      · exact hdone (gives_listdelete hone hl1 _)
  | listset =>
      cases pos with
      | none => exact nomatch hr
      | some n =>
          cases hr
          simp only [applyBuiltinV, List.length_map]
          refine ⟨_, rfl, ?_⟩
          split
          · exact hrange
          next hn =>
            have hv : Owns val (addRef value h) ([] ++ [value]) (arglist :: roots) :=
              Owns.shift [arglist] (ho.addRef hvalue)
            exact hdone (gives_dup_listset [] hv
              (fun r hr => count_addRef_ne_zero (ho.live_cells hcs hr)) (by omega))

theorem gives_callBuiltin {f : Builtin} {arglist : Cell} {r : Cell × Heap}
    (ho : Owns val h [arglist] roots) (hr : callBuiltin f arglist h = some r) :
    ∃ v, callBuiltinV f (cv val arglist) = some v ∧ Gives val roots r v := by
  simp only [callBuiltin, Option.bind_eq_bind, Option.bind_eq_some_iff] at hr
  obtain ⟨args, hargs, list, hlist, value, hvalue, cs, hcs, hr⟩ := hr
  have hlive : ∀ d ∈ args, ∀ r, d = .ref r → count h r ≠ 0 := fun d hd _ he =>
    ho.live_cells hargs (he ▸ hd)
  have hlistlive := hlive list (List.mem_of_getElem? hlist)
  have hvaluelive := hlive value (List.mem_of_getElem? hvalue)
  obtain ⟨v, hv, hg⟩ := gives_applyBuiltin ho hcs hlistlive hvaluelive hr
  refine ⟨v, ?_, hg⟩
  -- the two sides read the same arguments
  have hargsV : cv val arglist = .list (args.map (cv val)) :=
    ho.list_val (ho.live_of_mem (by simp)) hargs
  have hlistV : cv val list = .list (cs.map (cv val)) := ho.list_val hlistlive hcs
  have h0 : (args.map (cv val))[0]? = some (cv val list) := by
    rw [List.getElem?_map, hlist]
    rfl
  have h1 : (args.map (cv val))[1]? = some (cv val value) := by
    rw [List.getElem?_map, hvalue]
    rfl
  have hposV : ((args.map (cv val))[2]?).bind asInt = (args[2]?).bind intOf := by
    rw [List.getElem?_map]
    cases hp : args[2]? with
    | none => rfl
    | some d => exact ho.asInt_live (hlive d (List.mem_of_getElem? hp))
  simp only [callBuiltinV, hargsV, asList, h0, h1, hlistV, hposV, Option.bind_eq_bind,
    Option.bind_some]
  exact hv

/-! ## Operations on holders -/

/-- Between the parts of an operation: the cells it has taken out have the values
    `vs`, and the holders hold the values `p`. -/
def Sim (s : State) (owned : List Cell) (vs p : List Var) : Prop :=
  ∃ val junk, Owns val s.heap owned (s.holders ++ junk) ∧ s.holders[0]? = some (.ref 0) ∧
    owned.map (cv val) = vs ∧ s.holders.map (cv val) = p

variable {s s' : State} {vs p : List Var}

/-- A holder with nothing in it holds no reference. -/
theorem refsTo_set_noCell {cs : List Cell} {i : Nat} (hi : cs[i]? = some c) (r : Nat) :
    refsTo r (c :: cs.set i noCell) = refsTo r cs := by
  obtain ⟨hlt, rfl⟩ := List.getElem?_eq_some_iff.mp hi
  have := refsTo_set r hlt noCell
  rw [refsTo_cons]
  rw [noCell, refsTo_imm] at this
  rw [noCell]
  omega

/-- Taking a cell out of a holder. -/
theorem Owns.takeOut {holders junk : List Cell} {i : Nat}
    (ho : Owns val h owned (holders ++ junk)) (h0 : holders[0]? = some (.ref 0)) (hi0 : i ≠ 0)
    (hi : holders[i]? = some c) : Owns val h (c :: owned) (holders.set i noCell ++ junk) := by
  refine ⟨fun r => ?_, ho.consistent, ?_, ho.empty⟩
  · have hc := ho.counted r
    have hset := refsTo_set_noCell hi r
    rw [refsTo_cons] at hset
    rw [List.cons_append, refsTo_cons, refsTo_append, refsTo_append]
    rw [refsTo_append, refsTo_append] at hc
    omega
  · refine List.mem_append_left _ (List.mem_of_getElem? (i := 0) ?_)
    rw [List.getElem?_set_ne hi0]
    exact h0

theorem Sim.take {i : Nat} (hs : Sim s owned vs p) (ht : take i s = some (c, s')) :
    ∃ v p', takeV i p = some (v, p') ∧ Sim s' (c :: owned) (v :: vs) p' := by
  obtain ⟨val, junk, ho, h0, rfl, rfl⟩ := hs
  simp only [Lists.take] at ht
  split at ht
  next h2 =>
    obtain ⟨d, hd, heq⟩ := Option.map_eq_some_iff.mp ht
    cases heq
    refine ⟨cv val c, (s.holders.map (cv val)).set i .none, ?_, val, junk, ?_, ?_, rfl, ?_⟩
    · rw [takeV, if_pos h2, List.getElem?_map, hd]
      rfl
    · exact ho.takeOut h0 (by omega) hd
    · rw [List.getElem?_set_ne (by omega)]
      exact h0
    · rw [List.map_set]
      rfl
  · exact nomatch ht

theorem Sim.takeAll {is : List Nat} {cs : List Cell} (hs : Sim s owned vs p)
    (ht : takeAll is s = some (cs, s')) :
    ∃ ws p', takeAllV is p = some (ws, p') ∧ ws.length = cs.length ∧
      Sim s' (cs.reverse ++ owned) (ws.reverse ++ vs) p' := by
  induction is generalizing s owned vs p cs with
  | nil =>
      cases ht
      exact ⟨[], p, rfl, rfl, hs⟩
  | cons i is ih =>
      simp only [Lists.takeAll, Option.bind_eq_bind, Option.bind_eq_some_iff] at ht
      obtain ⟨⟨c, s1⟩, hc, ⟨ds, s2⟩, hds, heq⟩ := ht
      cases heq
      obtain ⟨v, p1, hv, hs1⟩ := hs.take hc
      obtain ⟨ws, p2, hws, hlen, hs2⟩ := ih hs1 hds
      refine ⟨v :: ws, p2, ?_, by simp [hlen], ?_⟩
      · simp only [takeAllV, hv, hws, Option.bind_eq_bind, Option.bind_some]
      · simpa only [List.reverse_cons, List.append_assoc, List.singleton_append] using hs2

/-- Storing a result, whose computation left the other holders alone. -/
theorem Sim.store {i : Nat} {r : Cell × Heap} {v : Var} {junk : List Cell}
    (h0 : s.holders[0]? = some (.ref 0)) (hg : Gives val (s.holders ++ junk) r v)
    (hst : store i r s = some s') :
    ∃ p', storeV i v (s.holders.map (cv val)) = some p' ∧ Sim s' [] [] p' := by
  obtain ⟨val', junk', ho, rfl, hsame⟩ := hg
  simp only [Lists.store] at hst
  split at hst
  next h2 =>
    obtain ⟨old, hold, heq⟩ := Option.map_eq_some_iff.mp hst
    cases heq
    refine ⟨(s.holders.map (cv val)).set i (cv val' r.1), ?_, val', junk ++ junk', ?_, ?_, rfl, ?_⟩
    · rw [storeV, if_pos h2, List.getElem?_map, hold]
      rfl
    · -- the old value of the holder is freed
      have h0' : (s.holders.set i r.1)[0]? = some (RefHeap.Cell.ref 0) := by
        rw [List.getElem?_set_ne (by omega)]
        exact h0
      have hown : Owns val' r.2 ([old] ++ []) (s.holders.set i r.1 ++ (junk ++ junk')) := by
        refine ⟨fun q => ?_, ho.consistent, ?_, ho.empty⟩
        · have hc := ho.counted q
          obtain ⟨hlt, hget⟩ := List.getElem?_eq_some_iff.mp hold
          have hset := refsTo_set q hlt r.1
          rw [hget] at hset
          rw [List.append_nil, refsTo_append, refsTo_append, refsTo_append]
          rw [refsTo_append, refsTo_append, refsTo_append] at hc
          omega
        · exact List.mem_append_left _ (List.mem_of_getElem? h0')
      exact hown.free [old]
    · rw [List.getElem?_set_ne (by omega)]
      exact h0
    · rw [List.map_set]
      have hmap : s.holders.map (cv val') = s.holders.map (cv val) :=
        List.map_congr_left fun c hc => hsame c (List.mem_append_left _ hc)
      rw [hmap]
  · exact nomatch hst

/-- A reference to what a holder holds. -/
theorem Owns.copy {junk : List Cell} (ho : Owns val s.heap [] (s.holders ++ junk)) {c : Cell}
    (hlive : ∀ r, c = .ref r → count s.heap r ≠ 0) :
    Gives val (s.holders ++ junk) (c, RefHeap.addRef c s.heap) (cv val c) :=
  (ho.addRef hlive).gives

/-- An operation that stores what it made of all the cells it has taken out. -/
theorem Sim.consume {i : Nat} {owned : List Cell} {r : Cell × Heap} {v : Var}
    (hs : Sim s owned vs p)
    (hg : ∀ {val roots}, Owns val s.heap owned roots → owned.map (cv val) = vs →
      Gives val roots r v)
    (hst : Lists.store i r s = some s') :
    ∃ p', storeV i v p = some p' ∧ Sim s' [] [] p' := by
  obtain ⟨val, junk, ho, h0, hvs, rfl⟩ := hs
  exact Sim.store h0 (hg ho hvs) hst

/-- A holder holds the value of its cell. -/
theorem Sim.holder {i : Nat} (hs : Sim s [] [] p) (hi : s.holders[i]? = some c) :
    ∃ val junk, Owns val s.heap [] (s.holders ++ junk) ∧ s.holders[0]? = some (.ref 0) ∧
      s.holders.map (cv val) = p ∧ p[i]? = some (cv val c) ∧
      ∀ r, c = .ref r → count s.heap r ≠ 0 := by
  obtain ⟨val, junk, ho, h0, -, rfl⟩ := hs
  have hmem : c ∈ s.holders ++ junk := List.mem_append_left _ (List.mem_of_getElem? hi)
  refine ⟨val, junk, ho, h0, rfl, ?_, ho.live_of_mem (c := c) hmem⟩
  rw [List.getElem?_map, hi, Option.map_some]

/-! ## Renumbering -/

/-- Only `db_renumber_object` writes into a list that may have other holders: it
    needs that it has none, or that it does not contain the old number. -/
def Unshared (s : State) : Op → Prop
  | .renumber old _ =>
      ∀ c cs, s.holders[1]? = some c → listCells s.heap c = some cs → objCell old ∈ cs →
        varRefcount s.heap c = 1
  | _ => True

theorem renumberCells_map (val : Nat → Var) (old new : Objid) (cs : List Cell)
    (hobj : ∀ c ∈ cs, cv val c = .obj old → c = objCell old) :
    (renumberCells old new cs).map (cv val) = renumberV old new (cs.map (cv val)) := by
  induction cs with
  | nil => rfl
  | cons c cs ih =>
      simp only [renumberCells, List.map_cons, renumberV]
      by_cases hc : c = objCell old
      · subst hc
        have hv : cv val (objCell old) = .obj old := rfl
        rw [if_pos rfl, if_pos hv]
        rfl
      · have hv : ¬ cv val c = .obj old := fun hv => hc (hobj c List.mem_cons_self hv)
        rw [if_neg hc, if_neg hv, List.map_cons,
          ih fun d hd => hobj d (List.mem_cons_of_mem c hd)]

theorem renumberCells_not_mem {old new : Objid} {cs : List Cell} (h : objCell old ∉ cs) :
    renumberCells old new cs = cs := by
  induction cs with
  | nil => rfl
  | cons c cs ih =>
      have hc : c ≠ objCell old := fun hc => h (hc ▸ List.mem_cons_self)
      rw [renumberCells, if_neg hc, ih fun hm => h (List.mem_cons_of_mem c hm)]

theorem refsTo_renumberCells (old new : Objid) (cs : List Cell) (r : Nat) :
    refsTo r (renumberCells old new cs) = refsTo r cs := by
  induction cs with
  | nil => rfl
  | cons c cs ih =>
      rw [renumberCells]
      split
      next hc =>
        subst hc
        rw [refsTo_cons, refsTo_cons r (objCell old)]
        rfl
      next => rw [refsTo_cons r c (renumberCells old new cs), refsTo_cons r c cs, ih]

/-- A cell with an object number is that number. -/
theorem Owns.objCell_of (ho : Owns val h owned roots) {oid : Objid}
    (hlive : ∀ r, c = .ref r → count h r ≠ 0) (hc : cv val c = .obj oid) : c = objCell oid := by
  cases c with
  | imm a =>
      obtain ⟨v, hv⟩ := a
      have hvo : v = .obj oid := hc
      subst hvo
      rfl
  | ref r =>
      obtain ⟨b, hb, hrefs⟩ := exists_of_count (hlive r rfl)
      have hval : cv val (.ref r) = build b.tag (b.cells.map (cv val)) :=
        ho.consistent r b hb hrefs
      rw [hc] at hval
      obtain ⟨refs, tag, cells⟩ := b
      cases tag with
      | str t => cases cells <;> exact nomatch hval
      | list => cases cells <;> exact nomatch hval

/-- Writing the elements a list has. -/
theorem Owns.setList_same (ho : Owns val h owned roots) (hcs : listCells h list = some cs) :
    Owns val (Lists.setList list cs h) owned roots := by
  cases list with
  | imm a => exact ho
  | ref r =>
      cases hb : h[r]? with
      | none => simp [listCells, hb] at hcs
      | some b =>
          have hbcs : b.cells = cs := cells_of_listCells hb hcs
          have hc : Counted (setBlock r .list cs h) ([] ++ (owned ++ roots)) :=
            ho.counted.setBlock .list hb fun q => by rw [hbcs]
          refine ⟨hc, ?_, ho.static, ho.empty⟩
          intro i d hd hrefs
          replace hd : (h.modify r fun b => { b with tag := .list, cells := cs })[i]? = some d :=
            hd
          rw [modify_eq_set hb] at hd
          by_cases hi : r = i
          · subst hi
            rw [List.getElem?_set_self (List.getElem?_eq_some_iff.mp hb).1] at hd
            cases hd
            have hlive : ∀ q, (RefHeap.Cell.ref r : Cell) = .ref q → count h q ≠ 0 := by
              intro q hq
              cases hq
              rw [count_eq hb]
              exact hrefs
            rw [build_list]
            exact ho.list_val hlive hcs
          · rw [List.getElem?_set_ne hi] at hd
            exact ho.consistent i d hd hrefs

/-- `all_users` gets a new value. -/
theorem Sim.setUsers {r : Cell × Heap} {v : Var} {junk : List Cell}
    (h0 : s.holders[0]? = some (.ref 0)) (h1 : s.holders[1]? = some list)
    (hg : Gives val (s.holders.set 1 noCell ++ junk) r v) :
    Sim (setAllUsers r s) [] [] ((s.holders.map (cv val)).set 1 v) := by
  obtain ⟨val', junk', ho, rfl, hsame⟩ := hg
  have h0' : (s.holders.set 1 r.1)[0]? = some (RefHeap.Cell.ref 0) := by
    rw [List.getElem?_set_ne (by omega)]
    exact h0
  refine ⟨val', junk ++ junk', ⟨fun q => ?_, ho.consistent, ?_, ho.empty⟩, h0', rfl, ?_⟩
  · have hc := ho.counted q
    obtain ⟨hlt, hget⟩ := List.getElem?_eq_some_iff.mp h1
    have hset := refsTo_set q hlt r.1
    have hset' := refsTo_set q hlt noCell
    rw [hget] at hset hset'
    have hno : refsTo q [noCell] = 0 := refsTo_imm q _
    show count r.2 q
      = refsTo q ([] ++ (s.holders.set 1 r.1 ++ (junk ++ junk'))) + refsTo q (heapCells r.2)
    rw [List.nil_append, refsTo_append, refsTo_append]
    rw [refsTo_append, refsTo_append, refsTo_append] at hc
    omega
  · exact List.mem_append_left _ (List.mem_of_getElem? h0')
  · show (s.holders.set 1 r.1).map (cv val') = _
    rw [List.map_set]
    refine List.ext_getElem? fun i => ?_
    by_cases hi : 1 = i
    · subst hi
      rw [List.getElem?_set, List.getElem?_set, List.length_map, List.length_map, if_pos rfl,
        if_pos rfl]
    · rw [List.getElem?_set_ne hi, List.getElem?_set_ne hi, List.getElem?_map, List.getElem?_map]
      cases hc : s.holders[i]? with
      | none => rfl
      | some c =>
          have hmem : c ∈ s.holders.set 1 noCell ++ junk := by
            refine List.mem_append_left _ (List.mem_of_getElem? (i := i) ?_)
            rw [List.getElem?_set_ne hi]
            exact hc
          rw [Option.map_some, Option.map_some, hsame c hmem]

/-- `db_renumber_object` on a list of users that has no other holder. -/
theorem Sim.renumber {old new : Objid} (hs : Sim s [] [] p)
    (hun : Unshared s (.renumber old new)) (hst : Lists.step (.renumber old new) s = some s') :
    ∃ p', stepV (.renumber old new) p = some p' ∧ Sim s' [] [] p' := by
  obtain ⟨val, junk, ho, h0, -, rfl⟩ := hs
  simp only [Lists.step, Option.bind_eq_bind, Option.bind_eq_some_iff] at hst
  obtain ⟨list, hlist, cs, hcs, heq⟩ := hst
  cases heq
  have hmem : list ∈ s.holders ++ junk := List.mem_append_left _ (List.mem_of_getElem? hlist)
  have hlive := ho.live_of_mem (c := list) hmem
  have hval : cv val list = .list (cs.map (cv val)) := ho.list_val hlive hcs
  have hnew : (renumberCells old new cs).map (cv val) = renumberV old new (cs.map (cv val)) :=
    renumberCells_map val old new cs fun c hc hv =>
      ho.objCell_of (fun r hr => ho.live_cells hcs (hr ▸ hc)) hv
  have hV : stepV (.renumber old new) (s.holders.map (cv val))
      = some ((s.holders.map (cv val)).set 1 (.list (renumberV old new (cs.map (cv val))))) := by
    have h1 : (s.holders.map (cv val))[1]? = some (.list (cs.map (cv val))) := by
      rw [List.getElem?_map, hlist, Option.map_some, hval]
    simp only [stepV, h1, asList, Option.bind_eq_bind, Option.bind_some]
  refine ⟨_, hV, ?_⟩
  have hout : Owns val s.heap [list] (s.holders.set 1 noCell ++ junk) :=
    ho.takeOut h0 (by omega) hlist
  have hset : s.holders.set 1 list = s.holders := by
    obtain ⟨hlt, hget⟩ := List.getElem?_eq_some_iff.mp hlist
    rw [← hget, List.set_getElem_self]
  have hgoal : Gives val (s.holders.set 1 noCell ++ junk)
      (list, setList list (renumberCells old new cs) s.heap)
      (.list (renumberV old new (cs.map (cv val)))) := by
    by_cases hin : objCell old ∈ cs
    · -- the only holder of the list sees it change
      obtain ⟨val', hown, hv, hsame⟩ := Owns.setList [] [] hout hcs (hun list cs hlist hcs hin)
        fun r => by rw [refsTo_renumberCells old new]
      rw [hnew] at hv
      have hg := hown.gives
      rw [hv] at hg
      exact hg.of_eq hsame
    · rw [renumberCells_not_mem hin] at hnew ⊢
      have hg := (hout.setList_same hcs).gives
      rw [hval, hnew] at hg
      exact hg
  have hsim := Sim.setUsers h0 hlist hgoal
  rw [setAllUsers, hset] at hsim
  exact hsim

theorem Sim.setUser {oid : Objid} (hs : Sim s [] [] p)
    (hst : Lists.step (.setUser oid) s = some s') :
    ∃ p', stepV (.setUser oid) p = some p' ∧ Sim s' [] [] p' := by
  obtain ⟨val, junk, ho, h0, -, rfl⟩ := hs
  simp only [Lists.step, Option.bind_eq_bind, Option.bind_eq_some_iff] at hst
  obtain ⟨list, hlist, cs, hcs, heq⟩ := hst
  cases heq
  have hmem : list ∈ s.holders ++ junk := List.mem_append_left _ (List.mem_of_getElem? hlist)
  have hval : cv val list = .list (cs.map (cv val)) :=
    ho.list_val (ho.live_of_mem (c := list) hmem) hcs
  have hout : Owns val s.heap [list, objCell oid] (s.holders.set 1 noCell ++ junk) :=
    ((ho.takeOut h0 (by omega) hlist).imm _).perm (List.Perm.swap _ _ _)
  have hg : Gives val (s.holders.set 1 noCell ++ junk) (setadd list cs (objCell oid) s.heap)
      (setaddV (cs.map (cv val)) (.obj oid)) := gives_setadd hout hcs
  refine ⟨_, ?_, Sim.setUsers h0 hlist hg⟩
  have h1 : (s.holders.map (cv val))[1]? = some (.list (cs.map (cv val))) := by
    rw [List.getElem?_map, hlist, Option.map_some, hval]
  simp only [stepV, h1, asList, Option.bind_eq_bind, Option.bind_some]

theorem Sim.clearUser {oid : Objid} (hs : Sim s [] [] p)
    (hst : Lists.step (.clearUser oid) s = some s') :
    ∃ p', stepV (.clearUser oid) p = some p' ∧ Sim s' [] [] p' := by
  obtain ⟨val, junk, ho, h0, -, rfl⟩ := hs
  simp only [Lists.step, Option.bind_eq_bind, Option.bind_eq_some_iff] at hst
  obtain ⟨list, hlist, cs, hcs, heq⟩ := hst
  cases heq
  have hmem : list ∈ s.holders ++ junk := List.mem_append_left _ (List.mem_of_getElem? hlist)
  have hval : cv val list = .list (cs.map (cv val)) :=
    ho.list_val (ho.live_of_mem (c := list) hmem) hcs
  have hout : Owns val s.heap [list] (s.holders.set 1 noCell ++ junk) :=
    ho.takeOut h0 (by omega) hlist
  have hg : Gives val (s.holders.set 1 noCell ++ junk) (setremove list cs (objCell oid) s.heap)
      (setremoveV (cs.map (cv val)) (.obj oid)) :=
    gives_setremove hout hcs fun r hr => nomatch hr
  refine ⟨_, ?_, Sim.setUsers h0 hlist hg⟩
  have h1 : (s.holders.map (cv val))[1]? = some (.list (cs.map (cv val))) := by
    rw [List.getElem?_map, hlist, Option.map_some, hval]
  simp only [stepV, h1, asList, Option.bind_eq_bind, Option.bind_some]

/-! ## Runs -/

/-- Every operation on the heap is the operation on values. -/
theorem Sim.step {op : Op} (hs : Sim s [] [] p) (hun : Unshared s op)
    (hst : Lists.step op s = some s') : ∃ p', stepV op p = some p' ∧ Sim s' [] [] p' := by
  cases op with
  | ref src dst | players dst =>
      simp only [Lists.step, Option.bind_eq_bind, Option.bind_eq_some_iff] at hst
      obtain ⟨c, hc, hst⟩ := hst
      obtain ⟨val, junk, ho, h0, rfl, hv, hlive⟩ := hs.holder hc
      simp only [stepV, hv, Option.bind_eq_bind, Option.bind_some]
      exact Sim.store h0 (ho.copy hlive) hst
  | move src dst =>
      simp only [Lists.step, Option.bind_eq_bind, Option.bind_eq_some_iff] at hst
      obtain ⟨⟨c, s1⟩, hc, hst⟩ := hst
      obtain ⟨v, p1, hv, hs1⟩ := hs.take hc
      simp only [stepV, hv, Option.bind_eq_bind, Option.bind_some]
      refine hs1.consume (fun ho hvs => ?_) hst
      cases hvs
      exact ho.gives
  | free i =>
      exact hs.consume (fun ho _ => (ho.imm ⟨.none, rfl⟩).gives) hst
  | imm a dst =>
      exact hs.consume (fun ho _ => (ho.imm a).gives) hst
  | newStr t dst =>
      exact hs.consume (fun ho _ => gives_alloc_str t ho) hst
  | newList srcs dst =>
      simp only [Lists.step, Option.bind_eq_bind, Option.bind_eq_some_iff] at hst
      obtain ⟨⟨cs, s1⟩, hcs, hst⟩ := hst
      obtain ⟨ws, p1, hws, -, hs1⟩ := hs.takeAll hcs
      simp only [stepV, hws, Option.bind_eq_bind, Option.bind_some]
      refine hs1.consume (fun {val roots} ho hvs => ?_) hst
      have hws' : cs.map (cv val) = ws := by
        simpa only [List.append_nil, List.map_reverse, List.reverse_inj] using hvs
      subst hws'
      exact gives_newList (ho.perm ((List.reverse_perm cs).append_right []))
  | elem src i dst =>
      simp only [Lists.step, Option.bind_eq_bind, Option.bind_eq_some_iff] at hst
      obtain ⟨list, hlist, cs, hcs, c, hc, hst⟩ := hst
      obtain ⟨val, junk, ho, h0, rfl, hv, hlive⟩ := hs.holder hlist
      have hvs : asList (cv val list) = some (cs.map (cv val)) := by
        rw [ho.asList_live hlive, hcs, Option.map_some]
      have hci : (cs.map (cv val))[i]? = some (cv val c) := by
        rw [List.getElem?_map, hc, Option.map_some]
      simp only [stepV, hv, hvs, hci, Option.bind_eq_bind, Option.bind_some]
      refine Sim.store h0 (ho.copy fun r hr => ?_) hst
      exact ho.live_cells hcs (hr ▸ List.mem_of_getElem? hc)
  | listAddTail list tail =>
      simp only [Lists.step, Option.bind_eq_bind, Option.bind_eq_some_iff] at hst
      obtain ⟨⟨t, s1⟩, ht, ⟨l, s2⟩, hl, hst⟩ := hst
      obtain ⟨tv, p1, htv, hs1⟩ := hs.take ht
      obtain ⟨lv, p2, hlv, hs2⟩ := hs1.take hl
      simp only [stepV, htv, hlv, Option.bind_eq_bind, Option.bind_some]
      refine hs2.consume (fun ho hvs => ?_) hst
      cases hvs
      exact gives_opListAddTail ho
  | listAppend list tail =>
      simp only [Lists.step, Option.bind_eq_bind, Option.bind_eq_some_iff] at hst
      obtain ⟨⟨t, s1⟩, ht, ⟨l, s2⟩, hl, hst⟩ := hst
      obtain ⟨tv, p1, htv, hs1⟩ := hs.take ht
      obtain ⟨lv, p2, hlv, hs2⟩ := hs1.take hl
      simp only [stepV, htv, hlv, Option.bind_eq_bind, Option.bind_some]
      refine hs2.consume (fun ho hvs => ?_) hst
      cases hvs
      exact gives_opListAppend ho
  | indexset list index value =>
      simp only [Lists.step, Option.bind_eq_bind, Option.bind_eq_some_iff] at hst
      obtain ⟨⟨v, s1⟩, hv, ⟨i, s2⟩, hi, ⟨l, s3⟩, hl, hst⟩ := hst
      obtain ⟨vv, p1, hvv, hs1⟩ := hs.take hv
      obtain ⟨iv, p2, hiv, hs2⟩ := hs1.take hi
      obtain ⟨lv, p3, hlv, hs3⟩ := hs2.take hl
      simp only [stepV, hvv, hiv, hlv, Option.bind_eq_bind, Option.bind_some]
      refine hs3.consume (fun ho hvs => ?_) hst
      cases hvs
      exact gives_opIndexset ho
  | rangeset base lower upper value =>
      simp only [Lists.step, Option.bind_eq_bind, Option.bind_eq_some_iff] at hst
      obtain ⟨⟨v, s1⟩, hv, ⟨j, s2⟩, hj, ⟨i, s3⟩, hi, ⟨b, s4⟩, hb, hst⟩ := hst
      obtain ⟨vv, p1, hvv, hs1⟩ := hs.take hv
      obtain ⟨jv, p2, hjv, hs2⟩ := hs1.take hj
      obtain ⟨iv, p3, hiv, hs3⟩ := hs2.take hi
      obtain ⟨bv, p4, hbv, hs4⟩ := hs3.take hb
      simp only [stepV, hvv, hjv, hiv, hbv, Option.bind_eq_bind, Option.bind_some]
      refine hs4.consume (fun ho hvs => ?_) hst
      cases hvs
      exact gives_opRangeset ho
  | rangeRef base lower upper =>
      simp only [Lists.step, Option.bind_eq_bind, Option.bind_eq_some_iff] at hst
      obtain ⟨⟨j, s1⟩, hj, ⟨i, s2⟩, hi, ⟨b, s3⟩, hb, hst⟩ := hst
      obtain ⟨jv, p1, hjv, hs1⟩ := hs.take hj
      obtain ⟨iv, p2, hiv, hs2⟩ := hs1.take hi
      obtain ⟨bv, p3, hbv, hs3⟩ := hs2.take hb
      simp only [stepV, hjv, hiv, hbv, Option.bind_eq_bind, Option.bind_some]
      refine hs3.consume (fun ho hvs => ?_) hst
      cases hvs
      exact gives_opRangeRef ho
  | builtin f arglist =>
      simp only [Lists.step, Option.bind_eq_bind, Option.bind_eq_some_iff] at hst
      obtain ⟨⟨a, s1⟩, ha, r, hr, hst⟩ := hst
      obtain ⟨av, p1, hav, hs1⟩ := hs.take ha
      obtain ⟨val, junk, ho, h0, hvs, rfl⟩ := hs1
      cases hvs
      obtain ⟨v, hv, hg⟩ := gives_callBuiltin ho hr
      simp only [stepV, hav, hv, Option.bind_eq_bind, Option.bind_some]
      exact Sim.store h0 hg hst
  | setUser oid => exact hs.setUser hst
  | clearUser oid => exact hs.clearUser hst
  | renumber old new => exact hs.renumber hun hst

theorem Sim.values (hs : Sim s [] [] p) : Lists.values s = p := by
  obtain ⟨val, junk, ho, -, -, rfl⟩ := hs
  refine List.map_congr_left fun c hc => readVar_eq ho.counted ho.consistent fun r hr => ?_
  exact ho.live (hr ▸ List.mem_append_left junk hc)

theorem Sim.init (n : Nat) : ∃ p, Sim (State.init n) [] [] p := by
  refine ⟨_, fun _ => .list [], [], ⟨fun r => ?_, ?_, List.mem_cons_self, rfl⟩, rfl, rfl, rfl⟩
  · have hnone : refsTo r (List.replicate n noCell) = 0 := by
      induction n with
      | zero => rfl
      | succ n ih => rw [List.replicate_succ, refsTo_cons, ih, noCell, refsTo_imm]
    show count (State.init 0).heap r
      = refsTo r ((.ref 0 :: .ref 0 :: List.replicate n noCell) ++ []) + refsTo r (heapCells _)
    rw [List.append_nil, refsTo_cons, refsTo_cons r (.ref 0) (List.replicate n noCell), hnone]
    rcases r with _ | r
    · rfl
    · rfl
  · rintro (_ | r) b hb -
    · cases hb
      rfl
    · exact nomatch hb

/-- The holders that an operation is asked to change: its operands, which it
    consumes, and the holder of its result. -/
def Op.writes : Op → List Nat
  | .ref _ dst | .elem _ _ dst | .imm _ dst | .newStr _ dst | .players dst => [dst]
  | .move src dst => [src, dst]
  | .free i => [i]
  | .newList srcs dst => dst :: srcs
  | .listAddTail list tail | .listAppend list tail => [list, tail]
  | .indexset list index value => [list, index, value]
  | .rangeset base «from» «to» value => [base, «from», «to», value]
  | .rangeRef base «from» «to» => [base, «from», «to»]
  | .builtin _ arglist => [arglist]
  | .setUser _ | .clearUser _ | .renumber _ _ => [1]

section Frame

variable {i j : Nat} {v : Var} {p' : List Var}

theorem takeV_frame (h : takeV i p = some (v, p')) (hj : j ≠ i) : p'[j]? = p[j]? := by
  rw [takeV] at h
  split at h
  · obtain ⟨d, -, heq⟩ := Option.map_eq_some_iff.mp h
    cases heq
    exact List.getElem?_set_ne (Ne.symm hj)
  · exact nomatch h

theorem takeAllV_frame {is : List Nat} {ws : List Var} (h : takeAllV is p = some (ws, p'))
    (hj : j ∉ is) : p'[j]? = p[j]? := by
  induction is generalizing p ws with
  | nil =>
      cases h
      rfl
  | cons i is ih =>
      simp only [takeAllV, Option.bind_eq_bind, Option.bind_eq_some_iff] at h
      obtain ⟨⟨w, p1⟩, hw, ⟨ws', p2⟩, hws, heq⟩ := h
      cases heq
      rw [List.mem_cons, not_or] at hj
      exact (ih hws hj.2).trans (takeV_frame hw hj.1)

theorem storeV_frame (h : storeV i v p = some p') (hj : j ≠ i) : p'[j]? = p[j]? := by
  rw [storeV] at h
  split at h
  · obtain ⟨d, -, heq⟩ := Option.map_eq_some_iff.mp h
    cases heq
    exact List.getElem?_set_ne (Ne.symm hj)
  · exact nomatch h

/-- An operation on values changes the holders it was asked to change. -/
theorem stepV_frame {op : Op} (h : stepV op p = some p') (hj : j ∉ op.writes) :
    p'[j]? = p[j]? := by
  cases op <;>
    simp only [stepV, Op.writes, List.mem_cons, List.not_mem_nil, or_false, not_or,
      Option.bind_eq_bind, Option.bind_eq_some_iff] at h hj
  case ref | players =>
      obtain ⟨v, -, h⟩ := h
      exact storeV_frame h hj
  case free | imm | newStr => exact storeV_frame h hj
  case move =>
      obtain ⟨⟨v, p1⟩, hv, h⟩ := h
      exact (storeV_frame h hj.2).trans (takeV_frame hv hj.1)
  case newList =>
      obtain ⟨⟨vs, p1⟩, hvs, h⟩ := h
      exact (storeV_frame h hj.1).trans (takeAllV_frame hvs hj.2)
  case elem =>
      obtain ⟨list, -, vs, -, v, -, h⟩ := h
      exact storeV_frame h hj
  case listAddTail | listAppend =>
      obtain ⟨⟨t, p1⟩, ht, ⟨l, p2⟩, hl, h⟩ := h
      exact (storeV_frame h hj.1).trans ((takeV_frame hl hj.1).trans (takeV_frame ht hj.2))
  case indexset | rangeRef =>
      obtain ⟨⟨a, p1⟩, ha, ⟨b, p2⟩, hb, ⟨c, p3⟩, hc, h⟩ := h
      have hab := (takeV_frame hb hj.2.1).trans (takeV_frame ha hj.2.2)
      exact (storeV_frame h hj.1).trans ((takeV_frame hc hj.1).trans hab)
  case rangeset =>
      obtain ⟨⟨a, p1⟩, ha, ⟨b, p2⟩, hb, ⟨c, p3⟩, hc, ⟨d, p4⟩, hd, h⟩ := h
      have hab := (takeV_frame hb hj.2.2.1).trans (takeV_frame ha hj.2.2.2)
      have hcd := (takeV_frame hd hj.1).trans (takeV_frame hc hj.2.1)
      exact (storeV_frame h hj.1).trans (hcd.trans hab)
  case builtin =>
      obtain ⟨⟨a, p1⟩, ha, r, -, h⟩ := h
      exact (storeV_frame h hj).trans (takeV_frame ha hj)
  case setUser | clearUser | renumber =>
      obtain ⟨list, -, vs, -, h⟩ := h
      cases h
      exact List.getElem?_set_ne (Ne.symm hj)

end Frame

/-- In every run that renumbers a player only while `all_users` has its list for
    itself, or while the list does not have the player, lists and strings are
    values: the run is a run of the operations on values, and what one more
    operation changes is what it was asked to change. -/
theorem lists_are_values {n : Nat} {ops : List Op}
    (hrun : Runs.Run (Runs.guarded Unshared (Runs.ofPart step)) (State.init n) ops s) :
    Runs.Run (Runs.ofPart stepV) (values (State.init n)) ops (values s) ∧
      ∀ op s', Unshared s op → step op s = some s' →
        stepV op (values s) = some (values s') ∧
          ∀ i, i ∉ op.writes → (values s')[i]? = (values s)[i]? := by
  obtain ⟨p, hinit⟩ := Sim.init n
  obtain ⟨p', hpure, hs⟩ := hrun.simulation (R := fun s p => Sim s [] [] p)
    (fun _ _ _ _ hs hstep => hs.step hstep.1 hstep.2) hinit
  rw [hinit.values, hs.values]
  refine ⟨hpure, fun op s' hun hst => ?_⟩
  obtain ⟨p'', hV, hs'⟩ := hs.step hun hst
  rw [hs'.values]
  exact ⟨hV, fun i hi => stepV_frame hV hi⟩

/-- A player is registered, its number is read with `players()`, and the player is
    renumbered after `between`. -/
def renumberAfter (between : List Op) : List Op :=
  [.setUser 5, .players 2] ++ between ++ [.renumber 5 3]

/-- Once the list that `players()` returned is freed, the renumbering is that of a
    value. -/
theorem lists_are_values_freed :
    ∃ s, Runs.Run (Runs.guarded Unshared (Runs.ofPart step)) (State.init 1)
        (renumberAfter [.free 2]) s ∧
      Runs.Run (Runs.ofPart stepV) (values (State.init 1)) (renumberAfter [.free 2]) (values s) := by
  have hrun : ∃ s, Runs.Run (Runs.guarded Unshared (Runs.ofPart step)) (State.init 1)
      (renumberAfter [.free 2]) s := by
    refine ⟨_, .cons ⟨trivial, rfl⟩ <| .cons ⟨trivial, rfl⟩ <| .cons ⟨trivial, rfl⟩ <|
      .cons ⟨?_, rfl⟩ (.nil _)⟩
    rintro c cs hc - -
    cases hc
    rfl
  obtain ⟨s, hs⟩ := hrun
  exact ⟨s, hs, (lists_are_values hs).1⟩

/-- While the caller of `players()` still has the list, its copy is renumbered too. -/
theorem renumber_changes_copy :
    ∃ s, Runs.Run (Runs.ofPart step) (State.init 1) (renumberAfter []) s ∧
      ¬ Runs.Run (Runs.ofPart stepV) (values (State.init 1)) (renumberAfter []) (values s) := by
  simp only [Runs.run_ofPart_iff]
  decide

end Waverous.Lists
