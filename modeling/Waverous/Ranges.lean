import Waverous.Execute
import Waverous.Lib.Blocks

/-! # Ranges of lists and strings — `execute.c`, `list.c`

    The checks are made by the opcodes OP_RANGE_REF and EOP_RANGESET, the lengths are added
    up by the functions that copy.  Those are followed here to the last `int` and to the
    blocks that `mymalloc` returns, which takes its size as an `unsigned`. -/

namespace Waverous.Ranges

open Blocks

/-! ## Memory -/

/-- `sizeof(Var)`, with pointers of 64 bits. -/
def sizeofVar : Int := 16

/-- `refcount_overhead(M_LIST)` and `refcount_overhead(M_STRING)`. -/
def listOverhead : Int := 8

def stringOverhead : Int := 4

/-- `mymalloc`: how many bytes there are at the pointer it returns. -/
def mymalloc (size overhead : Int) : Int :=
  let size := size % 4294967296
  let size := if size = 0 then 1 else size
  (size + overhead) % 4294967296 - overhead

/-- `new_list`; the elements come after the one with the length. -/
def newList (size : Int) : Except Fault (Block Var) :=
  if size = 0 then .ok ⟨0, []⟩
  else do
    let elements ← asInt (size + 1)
    let bytes := mymalloc (elements * sizeofVar) listOverhead
    if bytes < sizeofVar then .error .write else .ok ⟨bytes / sizeofVar - 1, []⟩

/-- `mymalloc(size, M_STRING)`. -/
def newString (size : Int) : Block UInt8 := ⟨mymalloc size stringOverhead, []⟩

/-- `s[offset] = 0`. -/
def terminate (s : Block UInt8) : Except Fault (List UInt8) :=
  if s.data.length < s.room then .ok s.data else .error .write

/-! ## Copying -/

/-- The rounds of `for (index = first; index <= last; index++)`. -/
def rounds (first last : Int) : Nat := (last - first + 1).toNat

/-- `list.v.list[index]`. -/
def listElement (list : List Var) (index : Int) : Except Fault Var := readAt list 1 index

/-- `str.v.str[index]`. -/
def strChar (str : List UInt8) (index : Int) : Except Fault UInt8 := readAt str 0 index

/-- `lenleft`. -/
def lenLeft («from» : Int) : Except Fault Int :=
  if «from» > 1 then asInt («from» - 1) else .ok 0

/-- `lenright`. -/
def lenRight (baseLen «to» : Int) : Except Fault Int :=
  if baseLen > «to» then asInt (baseLen - «to») else .ok 0

/-- `listrangeset`. -/
def listrangeset (base : List Var) («from» «to» : Int) (value : List Var) :
    Except Fault (List Var) := do
  let lenmiddle := castInt value.length
  let lenleft ← lenLeft «from»
  let lenright ← lenRight (castInt base.length) «to»
  let newsize ← asInt (lenleft + lenmiddle)
  let newsize ← asInt (newsize + lenright)
  let ans ← newList newsize
  let ans ← copyLoop (listElement base) (rounds 1 lenleft) 1 ans
  let ans ← copyLoop (listElement value) (rounds 1 lenmiddle) 1 ans
  let ans ← copyLoop (fun index => asInt («to» + index) >>= listElement base)
    (rounds 1 lenright) 1 ans
  .ok ans.data

/-- `strrangeset`. -/
def strrangeset (base : List UInt8) («from» «to» : Int) (value : List UInt8) :
    Except Fault (List UInt8) := do
  let lenmiddle := castInt value.length
  let lenleft ← lenLeft «from»
  let lenright ← lenRight (castInt base.length) «to»
  let newsize ← asInt (lenleft + lenmiddle)
  let newsize ← asInt (newsize + lenright)
  let size ← asInt (newsize + 1)
  let s := newString size
  let s ← copyLoop (strChar base) (rounds 0 (lenleft - 1)) 0 s
  let s ← copyLoop (strChar value) (rounds 0 (lenmiddle - 1)) 0 s
  let s ← copyLoop (fun index => asInt (index + «to») >>= strChar base)
    (rounds 0 (lenright - 1)) 0 s
  terminate s

/-- `sublist`. -/
def sublist (list : List Var) (lower upper : Int) : Except Fault (List Var) :=
  if lower > upper then .ok []
  else do
    let size ← asInt (upper - lower)
    let size ← asInt (size + 1)
    let r ← newList size
    let r ← copyLoop (listElement list) (rounds lower upper) lower r
    .ok r.data

/-- `substr`. -/
def substr (str : List UInt8) (lower upper : Int) : Except Fault (List UInt8) :=
  if lower > upper then .ok []
  else do
    let size ← asInt (upper - lower)
    let size ← asInt (size + 2)
    let first ← asInt (lower - 1)
    let s ← copyLoop (strChar str) (rounds first (upper - 1)) first (newString size)
    terminate s

/-! ## The opcodes -/

/-- `rangeset_check`. -/
def rangesetCheck («end» «from» «to» : Int) : Except Fault Bool := do
  let past ← asInt («end» + 1)
  .ok (decide («from» > past ∨ «to» < 0))

section

variable (debug : Bool)

/-- PUSH. -/
def pushed (frame : RunFrame) (ans : Except Fault Var) : Except Fault Next := do
  let v ← ans
  .ok (.opcode (frame.push v))

/-- EOP_RANGESET once the types are those of a range. -/
def rangeset (len «from» «to» : Int) (ans : Except Fault Var) (frame : RunFrame) :
    Except Fault Next := do
  let refused ← rangesetCheck len «from» «to»
  if refused then .ok (pushError debug .eRange frame) else pushed frame ans

/-- EOP_RANGESET; `none` if there are no four values on the stack. -/
def eopRangeset (frame : RunFrame) : Option (Except Fault Next) :=
  match frame.rts with
  | value :: «to» :: «from» :: base :: rts =>
      let frame := { frame with rts := rts }
      some (match base, «from», «to», value with
        | .list base, .int «from», .int «to», .list value =>
            rangeset debug (castInt base.length) «from».toInt «to».toInt
              (.list <$> listrangeset base «from».toInt «to».toInt value) frame
        | .str base, .int «from», .int «to», .str value =>
            rangeset debug (castInt base.length) «from».toInt «to».toInt
              (.str <$> strrangeset base «from».toInt «to».toInt value) frame
        | _, _, _, _ => .ok (pushError debug .eType frame))
  | _ => none

/-- OP_RANGE_REF once the types are those of a range. -/
def rangeRef (len «from» «to» : Int) (ans : Except Fault Var) (frame : RunFrame) :
    Except Fault Next :=
  if «from» ≤ «to» ∧ («from» ≤ 0 ∨ «from» > len ∨ «to» ≤ 0 ∨ «to» > len) then
    .ok (pushError debug .eRange frame)
  else pushed frame ans

/-- OP_RANGE_REF; `none` if there are no three values on the stack. -/
def opRangeRef (frame : RunFrame) : Option (Except Fault Next) :=
  match frame.rts with
  | «to» :: «from» :: base :: rts =>
      let frame := { frame with rts := rts }
      some (match base, «from», «to» with
        | .list base, .int «from», .int «to» =>
            rangeRef debug (castInt base.length) «from».toInt «to».toInt
              (.list <$> sublist base «from».toInt «to».toInt) frame
        | .str base, .int «from», .int «to» =>
            rangeRef debug (castInt base.length) «from».toInt «to».toInt
              (.str <$> substr base «from».toInt «to».toInt) frame
        | _, _, _ => .ok (pushError debug .eType frame))
  | _ => none

end

/-! ## What a range is -/

/-- The two types that have ranges. -/
inductive Kind where
  | list | str
  deriving DecidableEq

/-- What a value is made of. -/
abbrev Kind.Elem : Kind → Type
  | .list => Var
  | .str => UInt8

def Kind.var : (k : Kind) → List k.Elem → Var
  | .list, l => .list l
  | .str, s => .str s

/-- The block that `n` elements need, with its reference count. -/
def Kind.blockSize : Kind → Int → Int
  | .list, n => (n + 1) * sizeofVar + listOverhead
  | .str, n => n + 1 + stringOverhead

/-- A list or a string, in a block whose size is an `unsigned`. -/
structure Seq (k : Kind) where
  elems : List k.Elem
  inBlock : k.blockSize elems.length < 4294967296

def Seq.length {k : Kind} (s : Seq k) : Int := s.elems.length

/-- `l[i..j]`. -/
def slice {α : Type} (l : List α) (i j : Int) : List α := (l.take j.toNat).drop (i - 1).toNat

/-- What the two opcodes are to do, with an error for exactly the ranges that the checks
    are to refuse and no step that is undefined. -/
structure RangeLaw (debug : Bool) {k : Kind} (base value : Seq k) («from» «to» : Int32)
    (frame : RunFrame) : Prop where
  ref : opRangeRef debug
      { frame with rts := .int «to» :: .int «from» :: k.var base.elems :: frame.rts } =
    some (.ok (if «from».toInt ≤ «to».toInt ∧ ¬ (1 ≤ «from».toInt ∧ «to».toInt ≤ base.length)
      then pushError debug .eRange frame
      else .opcode (frame.push (k.var (slice base.elems «from».toInt «to».toInt)))))
  set : eopRangeset debug
      { frame with
        rts := k.var value.elems :: .int «to» :: .int «from» :: k.var base.elems :: frame.rts } =
    some (.ok (if base.length + 1 < «from».toInt ∨ «to».toInt < 0
      then pushError debug .eRange frame
      else .opcode (frame.push (k.var (slice base.elems 1 («from».toInt - 1) ++ value.elems ++
        slice base.elems («to».toInt + 1) base.length)))))
  setOther : ∀ other, (∀ l, other ≠ k.var l) →
    eopRangeset debug
      { frame with rts := other :: .int «to» :: .int «from» :: k.var base.elems :: frame.rts } =
    some (.ok (pushError debug .eType frame))

/-- A block for `n` elements can be had: its size is an `int` where it is computed, and an
    `unsigned` for `mymalloc`. -/
def Kind.Room : Kind → Int → Prop
  | .list, n => (n + 1) * sizeofVar + listOverhead < 4294967296
  | .str, n => n + 1 ≤ intMax

/-- The length of `base[1..from-1]`, the value and `base[to+1..$]`. -/
def newLength (baseLen valueLen «from» «to» : Int) : Int :=
  max («from» - 1) 0 + valueLen + max (baseLen - «to») 0

/-- When the lengths that a range and an assignment to it come to are within bounds. -/
structure RangesFit {k : Kind} (base value : Seq k) («from» «to» : Int) : Prop where
  ref : 1 ≤ «from» → «from» ≤ «to» → «to» ≤ base.length →
    «to» ≤ castInt base.elems.length ∧ k.Room («to» - «from» + 1)
  check : castInt base.elems.length ≠ intMax
  set : 0 ≤ «to» → «from» ≤ base.length + 1 →
    base.length < intMax ∧ k.Room (newLength base.length value.length «from» «to»)

/-! ## Blocks that are large enough -/

theorem mymalloc_eq {size overhead : Int} (hsize : 0 < size) (hover : 0 ≤ overhead)
    (h : size + overhead < 4294967296) : mymalloc size overhead = size := by
  rw [mymalloc]
  have hmod : size % 4294967296 = size := Int.emod_eq_of_lt (by omega) (by omega)
  simp only [hmod]
  rw [if_neg (by omega), Int.emod_eq_of_lt (by omega) h]
  omega

/-- A block is as large as was asked for only when the sum did not wrap around. -/
theorem mymalloc_inv {size overhead : Int} (h : size ≤ mymalloc size overhead) :
    size + overhead < 4294967296 := by
  rw [mymalloc] at h
  have := Int.emod_lt_of_pos
    ((if size % 4294967296 = 0 then 1 else size % 4294967296) + overhead)
    (show (0 : Int) < 4294967296 by decide)
  omega

theorem newList_ok {size : Int} (hsize : 0 ≤ size) (h : Kind.list.Room size) :
    newList size = .ok ⟨size, []⟩ := by
  rw [Kind.Room, sizeofVar, listOverhead] at h
  rw [newList]
  split
  · case isTrue h0 => rw [h0]
  · case isFalse h0 =>
      have hint : asInt (size + 1) = .ok (size + 1) := by
        apply asInt_ok
        rw [intMin, intMax]
        omega
      have hbytes : mymalloc ((size + 1) * sizeofVar) listOverhead = (size + 1) * 16 :=
        mymalloc_eq (by rw [sizeofVar]; omega) (by decide) (by rwa [sizeofVar, listOverhead])
      rw [hint, ok_bind, hbytes, sizeofVar, if_neg (by omega)]
      congr 2
      omega

/-- A list that has come to its block without a fault fits in it. -/
theorem newList_inv {size : Int} {b : Block Var} (h : newList size = .ok b)
    (hfull : size ≤ b.room) : Kind.list.Room size := by
  rw [Kind.Room, sizeofVar, listOverhead]
  rw [newList] at h
  split at h
  · case isTrue h0 => omega
  · case isFalse h0 =>
      obtain ⟨n, hn, h⟩ := bind_eq_ok h
      obtain ⟨rfl, -⟩ := asInt_eq_ok hn
      simp only at h
      split at h
      · cases h
      · injection h with h
        subst h
        rw [sizeofVar] at hfull
        simp only at hfull
        have hinv : (size + 1) * 16 ≤ mymalloc ((size + 1) * 16) listOverhead := by omega
        exact mymalloc_inv hinv

theorem newList_empty {size : Int} {b : Block Var} (h : newList size = .ok b) :
    b.data = [] ∧ 0 ≤ b.room := by
  rw [newList] at h
  split at h
  · injection h with h
    rw [← h]
    exact ⟨rfl, Int.le_refl 0⟩
  · obtain ⟨n, -, h⟩ := bind_eq_ok h
    simp only at h
    split at h
    · cases h
    · case isFalse hbytes =>
        injection h with h
        rw [← h]
        refine ⟨rfl, ?_⟩
        rw [sizeofVar] at hbytes ⊢
        simp only
        omega

/-! ## Copying inside the blocks -/

theorem getElem?_slice {α : Type} {l : List α} {i j : Int} {n : Nat} {a : α}
    (h : (slice l i j)[n]? = some a) : l[(i - 1).toNat + n]? = some a := by
  rw [slice, List.getElem?_drop, List.getElem?_take] at h
  split at h
  · exact h
  · cases h

theorem slice_length {α : Type} {l : List α} {i j : Int} (hi : 1 ≤ i) (hj : j ≤ l.length) :
    (slice l i j).length = (j - i + 1).toNat := by
  rw [slice, List.length_drop, List.length_take]
  omega

theorem slice_empty {α : Type} {l : List α} {i j : Int} (hij : j < i) : slice l i j = [] := by
  rw [slice]
  exact List.drop_eq_nil_of_le (by rw [List.length_take]; omega)

/-- The first loop of a range assignment. -/
theorem slice_left_length {α : Type} {l : List α} {«from» : Int}
    (hfrom : «from» ≤ l.length + 1) :
    (slice l 1 («from» - 1)).length = (max («from» - 1) 0).toNat := by
  rw [slice_length (by omega) (by omega)]
  omega

/-- And the last one. -/
theorem slice_right_length {α : Type} {l : List α} {«to» : Int} (hto : 0 ≤ «to») :
    (slice l («to» + 1) l.length).length = (max (l.length - «to») 0).toNat := by
  rw [slice_length (by omega) (by omega)]
  omega

theorem lenLeft_eq {«from» : Int} (h : «from» ≤ intMax) :
    lenLeft «from» = .ok (max («from» - 1) 0) := by
  rw [intMax] at h
  rw [lenLeft]
  split
  · rw [asInt_ok (by rw [intMin, intMax]; omega)]
    congr 1
    omega
  · congr 1
    omega

theorem lenRight_eq {baseLen «to» : Int} (hto : 0 ≤ «to») (h : baseLen ≤ intMax) :
    lenRight baseLen «to» = .ok (max (baseLen - «to») 0) := by
  rw [intMax] at h
  rw [lenRight]
  split
  · rw [asInt_ok (by rw [intMin, intMax]; omega)]
    congr 1
    omega
  · congr 1
    omega

/-- Three loops that fill a block. -/
theorem threeLoops_ok {α : Type} (r1 r2 r3 : Int → Except Fault α) (first : Int)
    {xs ys zs : List α} (room : Int) {n1 n2 n3 : Nat}
    (hn1 : n1 = xs.length) (hn2 : n2 = ys.length) (hn3 : n3 = zs.length)
    (hfirst : 0 ≤ first ∧ first ≤ 1)
    (h1 : ∀ (j : Nat) a, xs[j]? = some a → r1 (first + j) = .ok a)
    (h2 : ∀ (j : Nat) a, ys[j]? = some a → r2 (first + j) = .ok a)
    (h3 : ∀ (j : Nat) a, zs[j]? = some a → r3 (first + j) = .ok a)
    (hint : (xs.length + ys.length + zs.length : Int) + 1 ≤ intMax)
    (hroom : (xs.length + ys.length + zs.length : Int) ≤ room) :
    (copyLoop r1 n1 first ⟨room, []⟩ >>= fun b =>
      copyLoop r2 n2 first b >>= fun b => copyLoop r3 n3 first b) =
      .ok ⟨room, xs ++ ys ++ zs⟩ := by
  have hmin : intMin ≤ first := by rw [intMin]; omega
  subst hn1 hn2 hn3
  rw [copyLoop_ok h1 hmin (by omega) (by simp; omega), ok_bind,
    copyLoop_ok h2 hmin (by omega) (by simp; omega), ok_bind,
    copyLoop_ok h3 hmin (by omega) (by simp; omega), List.nil_append]

/-- Three loops that end well. -/
theorem threeLoops_inv {α : Type} {r1 r2 r3 : Int → Except Fault α} {first : Int}
    {n1 n2 n3 : Nat} {b0 b1 b2 b3 : Block α} (h0 : b0.data = [])
    (h1 : copyLoop r1 n1 first b0 = .ok b1) (h2 : copyLoop r2 n2 first b1 = .ok b2)
    (h3 : copyLoop r3 n3 first b2 = .ok b3) :
    b3.room = b0.room ∧ b3.data.length = n1 + n2 + n3 ∧
      (0 ≤ b0.room → (b3.data.length : Int) ≤ b0.room) := by
  obtain ⟨hr1, hl1, hi1⟩ := copyLoop_length h1
  obtain ⟨hr2, hl2, hi2⟩ := copyLoop_length h2
  obtain ⟨hr3, hl3, hi3⟩ := copyLoop_length h3
  rw [h0, List.length_nil] at hl1 hi1
  refine ⟨by rw [hr3, hr2, hr1], by omega, fun h => ?_⟩
  have := hi3 (hi2 (hi1 h))
  rwa [hr3, hr2, hr1] at this

theorem listrangeset_ok {base value : List Var} {«from» «to» : Int}
    (hfrom : «from» ≤ base.length + 1) (hto : 0 ≤ «to») (hlen : (base.length : Int) < intMax)
    (hroom : Kind.list.Room (newLength base.length value.length «from» «to»)) :
    listrangeset base «from» «to» value =
      .ok (slice base 1 («from» - 1) ++ value ++ slice base («to» + 1) base.length) := by
  have hleft := slice_left_length hfrom
  have hright := slice_right_length (l := base) hto
  have hnew : newList (newLength base.length value.length «from» «to») = _ :=
    newList_ok (by rw [newLength]; omega) hroom
  rw [Kind.Room, sizeofVar, listOverhead, newLength] at hroom
  rw [newLength] at hnew
  rw [intMax] at hlen
  rw [listrangeset, castInt_of_le (by rw [intMax]; omega), castInt_of_le (by rw [intMax]; omega),
    lenLeft_eq (by rw [intMax]; omega), ok_bind, lenRight_eq hto (by rw [intMax]; omega), ok_bind,
    asInt_ok (by rw [intMin, intMax]; omega), ok_bind,
    asInt_ok (by rw [intMin, intMax]; omega), ok_bind, hnew, ok_bind]
  have hn1 : rounds 1 (max («from» - 1) 0) = (slice base 1 («from» - 1)).length := by
    rw [hleft, rounds]
    omega
  have hn2 : rounds 1 value.length = value.length := by
    rw [rounds]
    omega
  have hn3 : rounds 1 (max (base.length - «to») 0) =
      (slice base («to» + 1) base.length).length := by
    rw [hright, rounds]
    omega
  have hloops := threeLoops_ok (listElement base) (listElement value)
    (fun index => asInt («to» + index) >>= listElement base) 1
    (max («from» - 1) 0 + value.length + max (base.length - «to») 0) hn1 hn2 hn3 (by omega)
    (fun j a h => readAt_ok (getElem?_slice h) (by omega))
    (fun j a h => readAt_ok h rfl)
    (fun j a h => asInt_readAt (getElem?_slice h) (by omega) (by omega) (by rw [intMax]; omega))
    (by rw [intMax]; omega) (by omega)
  obtain ⟨b1, h1, hloops⟩ := bind_eq_ok hloops
  obtain ⟨b2, h2, h3⟩ := bind_eq_ok hloops
  rw [h1, ok_bind, h2, ok_bind, h3, ok_bind]

theorem terminate_ok {s : Block UInt8} (h : (s.data.length : Int) < s.room) :
    terminate s = .ok s.data := if_pos h

theorem terminate_inv {s : Block UInt8} {r : List UInt8} (h : terminate s = .ok r) :
    r = s.data := by
  rw [terminate] at h
  split at h
  · injection h with h
    exact h.symm
  · cases h

/-- A string block has what is asked for, an `int`. -/
theorem newString_room {size : Int} (hsize : 0 < size) (hint : size ≤ intMax) :
    newString size = ⟨size, []⟩ := by
  rw [intMax] at hint
  rw [newString, mymalloc_eq hsize (by decide) (by rw [stringOverhead]; omega)]

theorem strrangeset_ok {base value : List UInt8} {«from» «to» : Int}
    (hfrom : «from» ≤ base.length + 1) (hto : 0 ≤ «to») (hlen : (base.length : Int) < intMax)
    (hroom : Kind.str.Room (newLength base.length value.length «from» «to»)) :
    strrangeset base «from» «to» value =
      .ok (slice base 1 («from» - 1) ++ value ++ slice base («to» + 1) base.length) := by
  have hleft := slice_left_length hfrom
  have hright := slice_right_length (l := base) hto
  rw [Kind.Room, intMax, newLength] at hroom
  rw [intMax] at hlen
  rw [strrangeset, castInt_of_le (by rw [intMax]; omega), castInt_of_le (by rw [intMax]; omega),
    lenLeft_eq (by rw [intMax]; omega), ok_bind, lenRight_eq hto (by rw [intMax]; omega), ok_bind,
    asInt_ok (by rw [intMin, intMax]; omega), ok_bind,
    asInt_ok (by rw [intMin, intMax]; omega), ok_bind,
    asInt_ok (by rw [intMin, intMax]; omega), ok_bind,
    newString_room (by omega) (by rw [intMax]; omega)]
  have hn1 : rounds 0 (max («from» - 1) 0 - 1) = (slice base 1 («from» - 1)).length := by
    rw [hleft, rounds]
    omega
  have hn2 : rounds 0 (value.length - 1) = value.length := by
    rw [rounds]
    omega
  have hn3 : rounds 0 (max (base.length - «to») 0 - 1) =
      (slice base («to» + 1) base.length).length := by
    rw [hright, rounds]
    omega
  have hloops := threeLoops_ok (strChar base) (strChar value)
    (fun index => asInt (index + «to») >>= strChar base) 0
    (max («from» - 1) 0 + value.length + max (base.length - «to») 0 + 1) hn1 hn2 hn3 (by omega)
    (fun j a h => readAt_ok (getElem?_slice h) (by omega))
    (fun j a h => readAt_ok h rfl)
    (fun j a h => asInt_readAt (getElem?_slice h) (by omega) (by omega) (by rw [intMax]; omega))
    (by rw [intMax]; omega) (by omega)
  obtain ⟨b1, h1, hloops⟩ := bind_eq_ok hloops
  obtain ⟨b2, h2, h3⟩ := bind_eq_ok hloops
  show (copyLoop (strChar base) _ 0 ⟨_, []⟩ >>= _) = _
  rw [h1, ok_bind, h2, ok_bind, h3, ok_bind]
  exact terminate_ok (by simp only [List.length_append]; omega)

theorem lenLeft_inv {«from» l : Int} (h : lenLeft «from» = .ok l) : l = max («from» - 1) 0 := by
  rw [lenLeft] at h
  split at h
  · obtain ⟨rfl, -⟩ := asInt_eq_ok h
    omega
  · injection h with h
    omega

theorem lenRight_inv {baseLen «to» r : Int} (h : lenRight baseLen «to» = .ok r) :
    r = max (baseLen - «to») 0 := by
  rw [lenRight] at h
  split at h
  · obtain ⟨rfl, -⟩ := asInt_eq_ok h
    omega
  · injection h with h
    omega

/-- The length of a result, by the lengths as the function has them. -/
def copiedLength (baseLen valueLen : Nat) («from» «to» : Int) : Int :=
  max («from» - 1) 0 + max (castInt valueLen) 0 + max (castInt baseLen - «to») 0

theorem listrangeset_inv {base value r : List Var} {«from» «to» : Int}
    (h : listrangeset base «from» «to» value = .ok r) :
    r.length = copiedLength base.length value.length «from» «to» ∧
      (0 ≤ castInt value.length → Kind.list.Room r.length) := by
  rw [listrangeset] at h
  obtain ⟨left, hleft, h⟩ := bind_eq_ok h
  obtain ⟨right, hright, h⟩ := bind_eq_ok h
  obtain ⟨n1, hn1, h⟩ := bind_eq_ok h
  obtain ⟨n2, hn2, h⟩ := bind_eq_ok h
  obtain ⟨b0, h0, h⟩ := bind_eq_ok h
  obtain ⟨b1, h1, h⟩ := bind_eq_ok h
  obtain ⟨b2, h2, h⟩ := bind_eq_ok h
  obtain ⟨b3, h3, h⟩ := bind_eq_ok h
  injection h with h
  subst h
  obtain ⟨hdata, hroom⟩ := newList_empty h0
  obtain ⟨-, hlen, hin⟩ := threeLoops_inv hdata h1 h2 h3
  have hleft := lenLeft_inv hleft
  have hright := lenRight_inv hright
  obtain ⟨hn1, -⟩ := asInt_eq_ok hn1
  obtain ⟨hn2, -⟩ := asInt_eq_ok hn2
  rw [rounds, rounds, rounds] at hlen
  have hin := hin hroom
  constructor
  · rw [copiedLength]
    omega
  · intro hvalue
    have hsize : n2 = b3.data.length := by omega
    rw [← hsize]
    exact newList_inv h0 (by omega)

theorem strrangeset_inv {base value r : List UInt8} {«from» «to» : Int}
    (h : strrangeset base «from» «to» value = .ok r) :
    r.length = copiedLength base.length value.length «from» «to» ∧
      (0 ≤ castInt value.length → Kind.str.Room r.length) := by
  rw [strrangeset] at h
  obtain ⟨left, hleft, h⟩ := bind_eq_ok h
  obtain ⟨right, hright, h⟩ := bind_eq_ok h
  obtain ⟨n1, hn1, h⟩ := bind_eq_ok h
  obtain ⟨n2, hn2, h⟩ := bind_eq_ok h
  obtain ⟨size, hsize, h⟩ := bind_eq_ok h
  obtain ⟨b1, h1, h⟩ := bind_eq_ok h
  obtain ⟨b2, h2, h⟩ := bind_eq_ok h
  obtain ⟨b3, h3, h⟩ := bind_eq_ok h
  obtain rfl := terminate_inv h
  obtain ⟨-, hlen, -⟩ := threeLoops_inv rfl h1 h2 h3
  have hleft := lenLeft_inv hleft
  have hright := lenRight_inv hright
  obtain ⟨hn1, -⟩ := asInt_eq_ok hn1
  obtain ⟨hn2, -⟩ := asInt_eq_ok hn2
  obtain ⟨-, -, hmax⟩ := asInt_eq_ok hsize
  rw [rounds, rounds, rounds] at hlen
  constructor
  · rw [copiedLength]
    omega
  · intro hvalue
    rw [Kind.Room]
    omega

theorem sublist_ok {list : List Var} {lower upper : Int} (hlower : 1 ≤ lower)
    (hle : lower ≤ upper) (hupper : upper ≤ list.length)
    (hroom : Kind.list.Room list.length) :
    sublist list lower upper = .ok (slice list lower upper) := by
  have hlen := slice_length hlower hupper
  rw [Kind.Room, sizeofVar, listOverhead] at hroom
  rw [sublist, if_neg (by omega), asInt_ok (by rw [intMin, intMax]; omega), ok_bind,
    asInt_ok (by rw [intMin, intMax]; omega), ok_bind,
    newList_ok (by omega) (by rw [Kind.Room, sizeofVar, listOverhead]; omega), ok_bind, rounds,
    ← hlen]
  have hread : ∀ (j : Nat) a, (slice list lower upper)[j]? = some a →
      listElement list (lower + j) = .ok a :=
    fun j a h => readAt_ok (getElem?_slice h) (by omega)
  rw [copyLoop_ok hread (by rw [intMin]; omega) (by rw [intMax]; omega) (by simp; omega)]
  rfl

theorem substr_ok {str : List UInt8} {lower upper : Int} (hlower : 1 ≤ lower)
    (hle : lower ≤ upper) (hupper : upper ≤ str.length) (hint : upper ≤ intMax)
    (hroom : Kind.str.Room (upper - lower + 1)) :
    substr str lower upper = .ok (slice str lower upper) := by
  have hlen := slice_length hlower hupper
  have hrounds : rounds (lower - 1) (upper - 1) = (slice str lower upper).length := by
    rw [rounds, hlen]
    omega
  rw [intMax] at hint
  rw [Kind.Room, intMax] at hroom
  rw [substr, if_neg (by omega), asInt_ok (by rw [intMin, intMax]; omega), ok_bind,
    asInt_ok (by rw [intMin, intMax]; omega), ok_bind,
    asInt_ok (by rw [intMin, intMax]; omega), ok_bind,
    newString_room (by omega) (by rw [intMax]; omega), hrounds]
  have hread : ∀ (j : Nat) a, (slice str lower upper)[j]? = some a →
      strChar str (lower - 1 + j) = .ok a :=
    fun j a h => readAt_ok (getElem?_slice h) (by omega)
  rw [copyLoop_ok hread (by rw [intMin]; omega) (by rw [intMax]; omega) (by simp; omega), ok_bind]
  exact terminate_ok (by simp; omega)

theorem substr_inv {str r : List UInt8} {lower upper : Int} (hle : lower ≤ upper)
    (h : substr str lower upper = .ok r) : Kind.str.Room (upper - lower + 1) := by
  rw [substr, if_neg (by omega)] at h
  obtain ⟨n1, hn1, h⟩ := bind_eq_ok h
  obtain ⟨n2, hn2, -⟩ := bind_eq_ok h
  obtain ⟨rfl, -⟩ := asInt_eq_ok hn1
  obtain ⟨-, -, hmax⟩ := asInt_eq_ok hn2
  rw [Kind.Room]
  omega

/-! ## The law -/

/-- `listrangeset` or `strrangeset`. -/
def Kind.rangeset : (k : Kind) → List k.Elem → Int → Int → List k.Elem →
    Except Fault (List k.Elem)
  | .list => listrangeset
  | .str => strrangeset

/-- `sublist` or `substr`. -/
def Kind.ref : (k : Kind) → List k.Elem → Int → Int → Except Fault (List k.Elem)
  | .list => sublist
  | .str => substr

variable {debug : Bool} {k : Kind} {frame : RunFrame}

theorem Kind.rangeset_ok {base value : List k.Elem} {«from» «to» : Int}
    (hfrom : «from» ≤ base.length + 1) (hto : 0 ≤ «to») (hlen : (base.length : Int) < intMax)
    (hroom : k.Room (newLength base.length value.length «from» «to»)) :
    k.rangeset base «from» «to» value =
      .ok (slice base 1 («from» - 1) ++ value ++ slice base («to» + 1) base.length) := by
  cases k with
  | list => exact listrangeset_ok hfrom hto hlen hroom
  | str => exact strrangeset_ok hfrom hto hlen hroom

theorem Kind.rangeset_inv {base value r : List k.Elem} {«from» «to» : Int}
    (h : k.rangeset base «from» «to» value = .ok r) :
    r.length = copiedLength base.length value.length «from» «to» ∧
      (0 ≤ castInt value.length → k.Room r.length) := by
  cases k with
  | list => exact listrangeset_inv h
  | str => exact strrangeset_inv h

theorem Kind.var_injective {l l' : List k.Elem} (h : k.var l = k.var l') : l = l' := by
  cases k with
  | list => injection h
  | str => injection h

/-- A refusal is no answer. -/
theorem pushError_ne_push (e : Error) (l : List k.Elem) :
    pushError debug e frame ≠ .opcode (frame.push (k.var l)) := by
  rw [pushError]
  split
  · intro h
    cases h
  · intro h
    injection h with h
    injection h with _ h _
    injection h with h _
    cases k <;> cases h

theorem pushed_ok (l : List k.Elem) :
    pushed frame (k.var <$> (.ok l : Except Fault (List k.Elem))) =
      .ok (.opcode (frame.push (k.var l))) := rfl

theorem pushed_inv {ans : Except Fault (List k.Elem)} {l : List k.Elem}
    (h : pushed frame (k.var <$> ans) = .ok (.opcode (frame.push (k.var l)))) : ans = .ok l := by
  cases ans with
  | error e => cases h
  | ok l' =>
      rw [pushed_ok] at h
      injection h with h
      injection h with h
      injection h with _ h _
      injection h with h _
      rw [Kind.var_injective h]

theorem rangesetCheck_ok {«end» : Nat} {«from» «to» : Int} (h : castInt «end» ≠ intMax) :
    rangesetCheck (castInt «end») «from» «to» =
      .ok (decide («from» > castInt «end» + 1 ∨ «to» < 0)) := by
  have hb := castInt_bounds «end»
  rw [rangesetCheck, asInt_ok (by rw [intMin] at *; omega), ok_bind]

theorem rangesetCheck_inv {len «from» «to» : Int} {refused : Bool}
    (h : rangesetCheck len «from» «to» = .ok refused) : len + 1 ≤ intMax := by
  obtain ⟨past, hpast, -⟩ := bind_eq_ok h
  obtain ⟨-, -, hmax⟩ := asInt_eq_ok hpast
  exact hmax

theorem set_law_iff {base value : List k.Elem} {«from» «to» : Int} (hmax : «to» ≤ intMax) :
    rangeset debug (castInt base.length) «from» «to»
        (k.var <$> k.rangeset base «from» «to» value) frame =
      .ok (if base.length + 1 < «from» ∨ «to» < 0 then pushError debug .eRange frame
        else .opcode (frame.push (k.var (slice base 1 («from» - 1) ++ value ++
          slice base («to» + 1) base.length)))) ↔
    castInt base.length ≠ intMax ∧ (0 ≤ «to» → «from» ≤ base.length + 1 →
      (base.length : Int) < intMax ∧ k.Room (newLength base.length value.length «from» «to»)) := by
  have hbase := castInt_le base.length
  have hvalue := castInt_le value.length
  constructor
  · intro h
    obtain ⟨refused, hcheck, h⟩ := bind_eq_ok h
    have hpast := rangesetCheck_inv hcheck
    refine ⟨by omega, fun hto hfrom => ?_⟩
    have haccept : ¬ ((base.length : Int) + 1 < «from» ∨ «to» < 0) := by omega
    rw [if_neg haccept] at h
    cases refused with
    | true =>
        injection h with h
        exact absurd h (pushError_ne_push _ _)
    | false =>
        obtain ⟨hlen, hroom⟩ := Kind.rangeset_inv (pushed_inv h)
        rw [List.length_append, List.length_append, slice_left_length hfrom,
          slice_right_length hto] at hlen hroom
        rw [copiedLength] at hlen
        have hv : (value.length : Int) ≤ intMax := by
          by_contra hv
          have := castInt_lt (Int.not_le.mp hv)
          omega
        have hb : (base.length : Int) ≤ intMax := by
          by_contra hb
          have := castInt_lt (Int.not_le.mp hb)
          omega
        rw [castInt_of_le hb] at hpast
        rw [castInt_of_le hv] at hroom
        refine ⟨by omega, ?_⟩
        have hsum : newLength base.length value.length «from» «to» =
            (((max («from» - 1) 0).toNat + value.length +
              (max (base.length - «to») 0).toNat : Nat) : Int) := by
          rw [newLength]
          omega
        rw [hsum]
        exact hroom (by omega)
  · rintro ⟨hcheck, hset⟩
    rw [rangeset, rangesetCheck_ok hcheck, ok_bind]
    by_cases hrefuse : base.length + 1 < «from» ∨ «to» < 0
    · rw [if_pos hrefuse, decide_eq_true (by omega)]
      rfl
    · obtain ⟨hlen, hroom⟩ := hset (by omega) (by omega)
      rw [if_neg hrefuse, castInt_of_le (by omega), decide_eq_false (by omega),
        Kind.rangeset_ok (by omega) (by omega) hlen hroom]
      rfl

theorem Kind.ref_ok {l : List k.Elem} {«from» «to» : Int} (hfrom : 1 ≤ «from»)
    (hle : «from» ≤ «to») (hto : «to» ≤ l.length) (hmax : «to» ≤ intMax)
    (hblock : k.blockSize l.length < 4294967296) (hroom : k.Room («to» - «from» + 1)) :
    k.ref l «from» «to» = .ok (slice l «from» «to») := by
  cases k with
  | list => exact sublist_ok hfrom hle hto hblock
  | str => exact substr_ok hfrom hle hto hmax hroom

theorem Kind.ref_inv {l r : List k.Elem} {«from» «to» : Int} (hfrom : 1 ≤ «from»)
    (hle : «from» ≤ «to») (hto : «to» ≤ l.length)
    (hblock : k.blockSize l.length < 4294967296) (h : k.ref l «from» «to» = .ok r) :
    k.Room («to» - «from» + 1) := by
  cases k with
  | list =>
      -- a part of a list has room where the list has
      rw [Kind.blockSize, sizeofVar, listOverhead] at hblock
      rw [Kind.Room, sizeofVar, listOverhead]
      omega
  | str => exact substr_inv hle h

theorem Kind.ref_empty {l : List k.Elem} {«from» «to» : Int} (h : «to» < «from») :
    k.ref l «from» «to» = .ok (slice l «from» «to») := by
  rw [slice_empty h]
  cases k with
  | list => exact if_pos h
  | str => exact if_pos h

theorem ref_law_iff {l : List k.Elem} {«from» «to» : Int} (hmax : «to» ≤ intMax)
    (hblock : k.blockSize l.length < 4294967296) :
    rangeRef debug (castInt l.length) «from» «to» (k.var <$> k.ref l «from» «to») frame =
      .ok (if «from» ≤ «to» ∧ ¬ (1 ≤ «from» ∧ «to» ≤ l.length)
        then pushError debug .eRange frame
        else .opcode (frame.push (k.var (slice l «from» «to»)))) ↔
    (1 ≤ «from» → «from» ≤ «to» → «to» ≤ l.length →
      «to» ≤ castInt l.length ∧ k.Room («to» - «from» + 1)) := by
  have hcast := castInt_le l.length
  rw [rangeRef]
  constructor
  · intro h hfrom hle hto
    have haccept : ¬ («from» ≤ «to» ∧ ¬ (1 ≤ «from» ∧ «to» ≤ l.length)) := by omega
    rw [if_neg haccept] at h
    split at h
    · injection h with h
      exact absurd h (pushError_ne_push _ _)
    · exact ⟨by omega, Kind.ref_inv hfrom hle hto hblock (pushed_inv h)⟩
  · intro h
    by_cases hrefuse : «from» ≤ «to» ∧ ¬ (1 ≤ «from» ∧ «to» ≤ l.length)
    · rw [if_pos hrefuse, if_pos (by omega)]
    · rw [if_neg hrefuse]
      by_cases hle : «from» ≤ «to»
      · obtain ⟨hto, hroom⟩ := h (by omega) hle (by omega)
        rw [if_neg (by omega),
          Kind.ref_ok (by omega) hle (by omega) hmax hblock hroom, pushed_ok]
      · rw [if_neg (by omega), Kind.ref_empty (by omega), pushed_ok]

theorem opRangeRef_var (l : List k.Elem) («from» «to» : Int32) :
    opRangeRef debug
        { frame with rts := .int «to» :: .int «from» :: k.var l :: frame.rts } =
      some (rangeRef debug (castInt l.length) «from».toInt «to».toInt
        (k.var <$> k.ref l «from».toInt «to».toInt) frame) := by
  cases k <;> rfl

theorem eopRangeset_var (base value : List k.Elem) («from» «to» : Int32) :
    eopRangeset debug
        { frame with
          rts := k.var value :: .int «to» :: .int «from» :: k.var base :: frame.rts } =
      some (rangeset debug (castInt base.length) «from».toInt «to».toInt
        (k.var <$> k.rangeset base «from».toInt «to».toInt value) frame) := by
  cases k <;> rfl

/-- A list is no replacement in a string, nor a string in a list. -/
theorem eopRangeset_other {other : Var} (h : ∀ l, other ≠ k.var l) (base : List k.Elem)
    («from» «to» : Int32) :
    eopRangeset debug
        { frame with rts := other :: .int «to» :: .int «from» :: k.var base :: frame.rts } =
      some (.ok (pushError debug .eType frame)) := by
  cases k with
  | list =>
      cases other with
      | list l => exact absurd rfl (h l)
      | _ => rfl
  | str =>
      cases other with
      | str s => exact absurd rfl (h s)
      | _ => rfl

/-- Lists and strings obey the same law, as long as the lengths that the opcodes come to
    are within bounds. -/
theorem ranges_law_iff (debug : Bool) {k : Kind} (base value : Seq k) («from» «to» : Int32)
    (frame : RunFrame) :
    RangeLaw debug base value «from» «to» frame ↔
      RangesFit base value «from».toInt «to».toInt := by
  have hmax : «to».toInt ≤ intMax := «to».toInt_le
  constructor
  · rintro ⟨ref, set, -⟩
    rw [opRangeRef_var, Option.some_inj] at ref
    rw [eopRangeset_var, Option.some_inj] at set
    obtain ⟨check, set⟩ := (set_law_iff hmax).mp set
    exact ⟨(ref_law_iff hmax base.inBlock).mp ref, check, set⟩
  · rintro ⟨ref, check, set⟩
    constructor
    · rw [opRangeRef_var, Option.some_inj]
      exact (ref_law_iff hmax base.inBlock).mpr ref
    · rw [eopRangeset_var, Option.some_inj]
      exact (set_law_iff hmax).mpr ⟨check, set⟩
    · exact fun other h => eopRangeset_other h base.elems «from» «to»

/-- `2^27` elements, which fit in a block. -/
def longList : Seq .list where
  elems := List.replicate 134217728 (.int 0)
  inBlock := by
    rw [List.length_replicate]
    decide

/-- `longList[2^27 + 1..0] = {}` asks for twice the list, and `mymalloc` is given 16 bytes. -/
theorem ranges_law_fails :
    ¬ RangeLaw false longList (⟨[], by decide⟩ : Seq .list) 134217729 0 ⟨0, [], []⟩ := by
  rintro ⟨-, set, -⟩
  rw [eopRangeset_var, Option.some_inj] at set
  have hlen : longList.elems.length = 134217728 := List.length_replicate
  obtain ⟨-, hset⟩ := (set_law_iff (show (0 : Int32).toInt ≤ intMax by decide)).mp set
  rw [hlen] at hset
  obtain ⟨-, hroom⟩ := hset (by decide) (by decide)
  exact absurd hroom (by rw [Kind.Room]; decide)

end Waverous.Ranges
