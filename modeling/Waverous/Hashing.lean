import Waverous.Utils

/-! # Equality and hashing — `utils.c`

    The comparisons take one and the same string, or list, to be equal to itself without a look at
    it.  So strings and lists have their addresses here: where two have one address, they are the
    same.  Whether `char` is signed is up to the machine. -/

namespace Waverous

/-- A `char` as an `int`. -/
def charInt (signed : Bool) (c : UInt8) : Int :=
  if signed ∧ 128 ≤ c.toNat then c.toNat - 256 else c.toNat

/-- A string and its address. -/
structure StrPtr where
  address : Nat
  chars : Str
  deriving DecidableEq, Repr

/-- A MOO value, with the addresses of strings and lists. -/
inductive VarPtr where
  | int (num : Int32)
  | obj (oid : Objid)
  | err (e : Error)
  | float (bits : UInt64)
  | str (s : StrPtr)
  | list (address : Nat) (l : List VarPtr)

section

variable (signed : Bool)

/-- The loop of `mystrcasecmp`; behind a string there is its NUL. -/
def mystrcasecmpLoop : Str → Str → Int
  | [], t =>
      if cmap 0 = cmap (t.headD 0) then 0
      else charInt signed (cmap 0) - charInt signed (cmap (t.headD 0))
  | c :: s, t =>
      if cmap c = cmap (t.headD 0) then
        if c = 0 then 0 else mystrcasecmpLoop s t.tail
      else charInt signed (cmap c) - charInt signed (cmap (t.headD 0))

/-- `mystrcasecmp`. -/
def mystrcasecmp (ss tt : StrPtr) : Int :=
  if ss.address = tt.address then 0 else mystrcasecmpLoop signed ss.chars tt.chars

/-- `str_hash`. -/
def strHashOn (s : Str) : UInt32 :=
  s.foldl (fun ans c => (ans <<< 3) + (ans >>> 28) + UInt32.ofInt (charInt signed (cmap c))) 0

mutual
/-- `equality`. -/
def VarPtr.equality (caseMatters : Bool) : VarPtr → VarPtr → Bool
  | .float a, .float b => floatEq a b
  | .int a, .int b => a == b
  | .obj a, .obj b => a == b
  | .err a, .err b => a == b
  | .str a, .str b => if caseMatters then a.chars == b.chars else mystrcasecmp signed a b == 0
  | .list p l, .list q l' =>
      if l.length ≠ l'.length then false
      else if p = q then true
      else VarPtr.equalityList caseMatters l l'
  | _, _ => false

/-- The loop of `equality` over two lists of one length. -/
def VarPtr.equalityList (caseMatters : Bool) : List VarPtr → List VarPtr → Bool
  | a :: as, b :: bs =>
      if VarPtr.equality caseMatters a b = false then false
      else VarPtr.equalityList caseMatters as bs
  | _, _ => true
end

end

/-! ## What is in memory -/

/-- What is at each address. -/
structure Heap where
  strs : Nat → Str
  lists : Nat → List VarPtr

/-- The string is at its address, and ends with its NUL. -/
def Heap.HoldsStr (heap : Heap) (s : StrPtr) : Prop := heap.strs s.address = s.chars ∧ 0 ∉ s.chars

mutual
/-- The strings and lists of a value are at their addresses. -/
def Heap.Holds (heap : Heap) : VarPtr → Prop
  | .str s => heap.HoldsStr s
  | .list p l => heap.lists p = l ∧ heap.HoldsList l
  | _ => True

def Heap.HoldsList (heap : Heap) : List VarPtr → Prop
  | [] => True
  | v :: l => heap.Holds v ∧ heap.HoldsList l
end

mutual
/-- There is no floating-point number in a value. -/
def VarPtr.FloatFree : VarPtr → Prop
  | .float _ => False
  | .list _ l => VarPtr.FloatFreeList l
  | _ => True

def VarPtr.FloatFreeList : List VarPtr → Prop
  | [] => True
  | v :: l => v.FloatFree ∧ VarPtr.FloatFreeList l
end

/-- The strings in memory. -/
abbrev Heap.Strings (heap : Heap) := { s : StrPtr // heap.HoldsStr s }

/-- The values in memory without floating-point numbers. -/
abbrev Heap.FloatFreeValues (heap : Heap) := { v : VarPtr // heap.Holds v ∧ v.FloatFree }

mutual
/-- What a value is compared by: itself without the addresses and, if case does not matter, its
    strings in lower case. -/
def VarPtr.key (caseMatters : Bool) : VarPtr → Var
  | .int num => .int num
  | .obj oid => .obj oid
  | .err e => .err e
  | .float bits => .float bits
  | .str s => .str (if caseMatters then s.chars else s.chars.map cmap)
  | .list _ l => .list (VarPtr.keyList caseMatters l)

def VarPtr.keyList (caseMatters : Bool) : List VarPtr → List Var
  | [] => []
  | v :: l => v.key caseMatters :: VarPtr.keyList caseMatters l
end

/-! ## Strings -/

section

variable {signed : Bool} {heap : Heap}

theorem charInt_inj {c d : UInt8} : charInt signed c = charInt signed d ↔ c = d := by
  have hc := c.toNat_lt
  have hd := d.toNat_lt
  rw [← UInt8.toNat_inj]
  cases signed with
  | false =>
      rw [charInt, charInt, if_neg nofun, if_neg nofun]
      omega
  | true =>
      simp only [charInt, true_and]
      omega

theorem cmap_eq_zero {c : UInt8} : cmap c = 0 ↔ c = 0 := by
  rw [cmap]
  split
  next h =>
    have hle := UInt8.le_iff_toNat_le.mp h.1
    have hge := UInt8.le_iff_toNat_le.mp h.2
    rw [← UInt8.toNat_inj, ← UInt8.toNat_inj, UInt8.toNat_add]
    have h65 : (65 : UInt8).toNat = 65 := rfl
    have h90 : (90 : UInt8).toNat = 90 := rfl
    have h32 : (32 : UInt8).toNat = 32 := rfl
    have h0 : (0 : UInt8).toNat = 0 := rfl
    omega
  next => rfl

/-- The loop compares the strings in lower case. -/
theorem mystrcasecmpLoop_eq_zero {s t : Str} (hs : 0 ∉ s) (ht : 0 ∉ t) :
    mystrcasecmpLoop signed s t = 0 ↔ s.map cmap = t.map cmap := by
  induction s generalizing t with
  | nil =>
      cases t with
      | nil => exact iff_of_true rfl rfl
      | cons d t =>
          have hd : ¬ cmap 0 = cmap d := fun h => ht (List.mem_cons.mpr (.inl (cmap_eq_zero.mp h.symm).symm))
          rw [mystrcasecmpLoop, List.headD_cons, if_neg hd, Int.sub_eq_zero, charInt_inj]
          exact iff_of_false hd nofun
  | cons c s ih =>
      have hc : c ≠ 0 := fun h => hs (List.mem_cons.mpr (.inl h.symm))
      cases t with
      | nil =>
          have hne : ¬ cmap c = cmap 0 := fun h => hc (cmap_eq_zero.mp h)
          rw [mystrcasecmpLoop, List.headD_nil, if_neg hne, Int.sub_eq_zero, charInt_inj]
          exact iff_of_false hne nofun
      | cons d t =>
          rw [mystrcasecmpLoop, List.headD_cons, List.tail_cons, List.map_cons, List.map_cons,
            List.cons.injEq]
          by_cases heq : cmap c = cmap d
          · rw [if_pos heq, if_neg hc,
              ih (fun h => hs (List.mem_cons_of_mem c h)) (fun h => ht (List.mem_cons_of_mem d h))]
            exact (and_iff_right heq).symm
          · rw [if_neg heq, Int.sub_eq_zero, charInt_inj]
            exact iff_of_false heq fun h => heq h.1

theorem mystrcasecmp_eq_zero {a b : StrPtr} (ha : heap.HoldsStr a) (hb : heap.HoldsStr b) :
    mystrcasecmp signed a b = 0 ↔ a.chars.map cmap = b.chars.map cmap := by
  rw [mystrcasecmp]
  split
  next hsame =>
    -- one address, one string
    rw [← ha.1, ← hb.1, hsame]
    exact iff_of_true rfl rfl
  next => exact mystrcasecmpLoop_eq_zero ha.2 hb.2

/-- The hash is one of the string in lower case. -/
theorem strHashOn_congr {s t : Str} (h : s.map cmap = t.map cmap) :
    strHashOn signed s = strHashOn signed t := by
  have hmap : ∀ s : Str, strHashOn signed s = (s.map cmap).foldl
      (fun (ans : UInt32) c => (ans <<< 3) + (ans >>> 28) + UInt32.ofInt (charInt signed c)) 0 := by
    intro s
    rw [List.foldl_map]
    rfl
  rw [hmap s, hmap t, h]

/-- Where characters are not signed, the hash is the one that the properties are found by. -/
theorem strHashOn_unsigned (s : Str) : strHashOn false s = strHash s := by
  have hchar : ∀ c : UInt8, UInt32.ofInt (charInt false c) = c.toUInt32 := by
    intro c
    have hc := c.toNat_lt
    rw [charInt, if_neg nofun, ← UInt32.toNat_inj, UInt8.toNat_toUInt32, UInt32.ofInt, UInt32.toNat_ofNat']
    omega
  rw [strHashOn, strHash]
  congr 1
  ext ans c
  rw [hchar]

end

/-! ## Values -/

section

variable {signed caseMatters : Bool} {heap : Heap}

theorem VarPtr.length_keyList (l : List VarPtr) : (keyList caseMatters l).length = l.length := by
  induction l with
  | nil => rfl
  | cons v l ih =>
      rw [keyList, List.length_cons, List.length_cons, ih]

theorem StrPtr.equality_iff {a b : StrPtr} (ha : heap.HoldsStr a) (hb : heap.HoldsStr b) :
    (if caseMatters then a.chars == b.chars else mystrcasecmp signed a b == 0) = true ↔
      (if caseMatters then a.chars else a.chars.map cmap) =
        if caseMatters then b.chars else b.chars.map cmap := by
  cases caseMatters with
  | true => exact beq_iff_eq
  | false => exact beq_iff_eq.trans (mystrcasecmp_eq_zero ha hb)

mutual
/-- Values in memory are equal just when what they are compared by is. -/
theorem VarPtr.equality_iff : ∀ {a b : VarPtr}, heap.Holds a → heap.Holds b → a.FloatFree →
    (VarPtr.equality signed caseMatters a b = true ↔ a.key caseMatters = b.key caseMatters)
  | .float _, _, _, _, hfree => hfree.elim
  | .int _, b, _, _, _ | .obj _, b, _, _, _ | .err _, b, _, _, _ => by
      cases b <;> simp [VarPtr.equality, VarPtr.key]
  | .str a, b, ha, hb, _ => by
      cases b with
      | str b =>
          rw [VarPtr.equality, VarPtr.key, VarPtr.key, Var.str.injEq]
          exact StrPtr.equality_iff ha hb
      | _ => exact iff_of_false nofun nofun
  | .list p l, b, ha, hb, hfree => by
      cases b with
      | list q l' =>
          rw [VarPtr.equality, VarPtr.key, VarPtr.key, Var.list.injEq]
          by_cases hlength : l.length = l'.length
          · rw [if_neg (not_not_intro hlength)]
            by_cases hsame : p = q
            · -- one address, one list
              rw [if_pos hsame, ← ha.1, ← hb.1, hsame]
              exact iff_of_true rfl rfl
            · rw [if_neg hsame]
              exact VarPtr.equalityList_iff hlength ha.2 hb.2 hfree
          · rw [if_pos hlength]
            refine iff_of_false nofun fun h => hlength ?_
            have hkeys := congrArg List.length h
            rwa [VarPtr.length_keyList, VarPtr.length_keyList] at hkeys
      | _ => exact iff_of_false nofun nofun

theorem VarPtr.equalityList_iff : ∀ {l l' : List VarPtr}, l.length = l'.length →
    heap.HoldsList l → heap.HoldsList l' → FloatFreeList l →
    (VarPtr.equalityList signed caseMatters l l' = true ↔
      keyList caseMatters l = keyList caseMatters l')
  | [], [], _, _, _, _ => iff_of_true rfl rfl
  | a :: as, b :: bs, hlength, has, hbs, hfree => by
      have hfirst : VarPtr.equality signed caseMatters a b = true ↔ _ :=
        VarPtr.equality_iff has.1 hbs.1 hfree.1
      have hrest : VarPtr.equalityList signed caseMatters as bs = true ↔ _ :=
        VarPtr.equalityList_iff (Nat.succ.inj hlength) has.2 hbs.2 hfree.2
      rw [VarPtr.equalityList, keyList, keyList, List.cons.injEq, ← hfirst, ← hrest]
      cases VarPtr.equality signed caseMatters a b <;> simp
end

mutual
/-- Values that are the same with regard to case are the same without it. -/
theorem VarPtr.key_false_of_true : ∀ {a b : VarPtr}, a.key true = b.key true →
    a.key false = b.key false
  | .int _, b, h | .obj _, b, h | .err _, b, h | .float _, b, h | .str _, b, h => by
      cases b <;> simp_all [VarPtr.key]
  | .list p l, b, h => by
      cases b with
      | list q l' =>
          rw [VarPtr.key, VarPtr.key, Var.list.injEq] at h ⊢
          exact VarPtr.keyList_false_of_true h
      | _ => exact nomatch h

theorem VarPtr.keyList_false_of_true : ∀ {l l' : List VarPtr}, keyList true l = keyList true l' →
    keyList false l = keyList false l'
  | [], [], _ => rfl
  | a :: as, b :: bs, h => by
      rw [keyList, keyList, List.cons.injEq] at h
      rw [keyList, keyList, VarPtr.key_false_of_true h.1, VarPtr.keyList_false_of_true h.2]
end

mutual
/-- The comparison without addresses does not differ on values without floating-point numbers. -/
theorem VarPtr.equality_key : ∀ {a b : VarPtr}, a.FloatFree →
    (Waverous.equality caseMatters (a.key true) (b.key true) = true ↔
      a.key caseMatters = b.key caseMatters)
  | .float _, _, hfree => hfree.elim
  | .int _, b, _ | .obj _, b, _ | .err _, b, _ => by
      cases b <;> simp [Waverous.equality, VarPtr.key]
  | .str a, b, _ => by
      cases b <;> cases caseMatters <;> simp [Waverous.equality, VarPtr.key, strcaseEq_iff]
  | .list p l, b, hfree => by
      cases b with
      | list q l' =>
          rw [VarPtr.key, VarPtr.key, Waverous.equality, VarPtr.key, VarPtr.key, Var.list.injEq]
          exact VarPtr.equalityList_key hfree
      | _ => exact iff_of_false nofun nofun

theorem VarPtr.equalityList_key : ∀ {l l' : List VarPtr}, FloatFreeList l →
    (Waverous.equalityList caseMatters (keyList true l) (keyList true l') = true ↔
      keyList caseMatters l = keyList caseMatters l')
  | [], [], _ => iff_of_true rfl rfl
  | [], _ :: _, _ => iff_of_false nofun nofun
  | _ :: _, [], _ => iff_of_false nofun nofun
  | a :: as, b :: bs, hfree => by
      rw [keyList, keyList, Waverous.equalityList, Bool.and_eq_true, VarPtr.equality_key hfree.1,
        VarPtr.equalityList_key hfree.2, keyList, keyList, List.cons.injEq]
end

end

/-- The shortcuts by addresses make no difference to values without floating-point numbers. -/
theorem VarPtr.equality_eq {signed caseMatters : Bool} {heap : Heap} (a b : heap.FloatFreeValues) :
    VarPtr.equality signed caseMatters a b = Waverous.equality caseMatters (a.1.key true) (b.1.key true) := by
  rw [Bool.eq_iff_iff, VarPtr.equality_iff a.2.1 b.2.1 a.2.2, VarPtr.equality_key a.2.2]

/-- What is compared by its key is compared by an equivalence. -/
theorem equivalence_of_key {α β : Type} {r : α → α → Prop} {key : α → β}
    (h : ∀ a b, r a b ↔ key a = key b) : Equivalence r := by
  constructor
  · intro a
    exact (h a a).mpr rfl
  · intro a b hab
    exact (h b a).mpr ((h a b).mp hab).symm
  · intro a b c hab hbc
    exact (h a c).mpr (((h a b).mp hab).trans ((h b c).mp hbc))

/-- Strings that `mystrcasecmp` finds equal have the same hash, it and `equality` are equivalences,
    the latter with and without regard to case, and values that are equal with regard to case are
    equal without it. -/
theorem hashing_respects_equality (signed : Bool) (heap : Heap) :
    (∀ a b : heap.Strings, mystrcasecmp signed a b = 0 →
      strHashOn signed a.1.chars = strHashOn signed b.1.chars) ∧
    Equivalence (fun a b : heap.Strings => mystrcasecmp signed a b = 0) ∧
    (∀ caseMatters, Equivalence fun a b : heap.FloatFreeValues =>
      VarPtr.equality signed caseMatters a b = true) ∧
    ∀ a b : heap.FloatFreeValues, VarPtr.equality signed true a b = true →
      VarPtr.equality signed false a b = true := by
  refine ⟨?_, ?_, ?_, ?_⟩
  · intro a b h
    exact strHashOn_congr ((mystrcasecmp_eq_zero a.2 b.2).mp h)
  · exact equivalence_of_key fun a b => mystrcasecmp_eq_zero a.2 b.2
  · intro caseMatters
    exact equivalence_of_key fun a b => VarPtr.equality_iff a.2.1 b.2.1 a.2.2
  · intro a b h
    rw [VarPtr.equality_iff a.2.1 b.2.1 a.2.2] at h ⊢
    exact VarPtr.key_false_of_true h

end Waverous
