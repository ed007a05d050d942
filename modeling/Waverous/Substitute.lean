import Waverous.Strings
import Waverous.Lib.Blocks

/-! # `substitute` and its stream — `list.c`, `streams.c`

    The text is put together in a stream of the template's length, which gets twice as long
    whenever it is full.  The length of a stream is an `int`. -/

namespace Waverous

open Blocks

/-! ## Streams -/

/-- `Stream`: `buflen`, and the block of the buffer with what has been written. -/
structure Stream where
  buflen : Int
  block : Block UInt8

namespace Stream

/-- What `mymalloc` allocates: a block of no length has room for one character. -/
def room (size : Int) : Int := if size = 0 then 1 else size

/-- `new_stream`. -/
def new (size : Int) : Stream := ⟨size, ⟨room size, []⟩⟩

/-- `grow`; the text is copied to the new block. -/
def grow (s : Stream) (newlen : Int) : Except Fault Stream :=
  if (s.block.data.length : Int) ≤ room newlen then .ok ⟨newlen, ⟨room newlen, s.block.data⟩⟩
  else .error .write

/-- The `if` of `stream_add_char`. -/
def reserve (s : Stream) : Except Fault Stream := do
  let n ← asInt (s.block.data.length + 1)
  if n ≥ s.buflen then do
    let newlen ← asInt (s.buflen * 2)
    s.grow newlen
  else .ok s

/-- `stream_add_char`. -/
def addChar (s : Stream) (c : UInt8) : Except Fault Stream := do
  let s ← s.reserve
  let block ← s.block.put c
  .ok { s with block := block }

/-- `reset_stream`: the text, behind which the NUL is written. -/
def reset (s : Stream) : Except Fault Str := do
  let _ ← s.block.put 0
  .ok s.block.data

end Stream

/-! ## `bf_substitute` -/

/-- `for (where = start; where <= end; where++)`, which goes round so often. -/
def copyRange (subject : Str) : Nat → Int → Stream → Except Fault Stream
  | 0, _, s => .ok s
  | rounds + 1, «where», s => do
      let c ← readAt subject 0 «where»
      let s ← s.addChar c
      copyRange subject rounds («where» + 1) s

/-- The pair that the character behind `%` stands for. -/
def pairFor (pairs : List (Int32 × Int32)) (c : UInt8) : Option (Int32 × Int32) :=
  if 48 ≤ c ∧ c ≤ 57 then pairs[(c - 48).toNat]? else none

section

variable (pairs : List (Int32 × Int32)) (subject : Str)

/-- What is added for the character behind `%`; the inner `none` is `invarg = 1`. -/
def addFor (c : UInt8) (s : Stream) : Except Fault (Option Stream) :=
  if c = 37 then some <$> s.addChar 37
  else
    match pairFor pairs c with
    | none => .ok none
    | some pair =>
        let start := pair.1.toInt - 1
        let «end» := pair.2.toInt - 1
        some <$> copyRange subject («end» - start + 1).toNat start s

/-- The `while` of `bf_substitute`; the inner `none` if `invarg` has been set. -/
def substituteOnto : Str → Stream → Except Fault (Option Stream)
  | [], s => .ok (some s)
  | [37], _ => .ok none
  | 37 :: c :: template, s => do
      match ← addFor pairs subject c s with
      | none => .ok none
      | some s => substituteOnto template s
  | c :: template, s => do
      let s ← s.addChar c
      substituteOnto template s

/-- `bf_substitute`, behind `check_subs_list`. -/
def substituteChecked (template : Str) : Except Fault (Except Error Var) := do
  let size ← asInt template.length
  let r ← substituteOnto pairs subject template (.new size)
  match r with
  | none => .ok (.error .eInvarg)
  | some s => do
      let text ← s.reset
      .ok (.ok (.str text))

end

/-- `bf_substitute`, with its stream. -/
def bfSubstituteStream (template : Str) (subs : List Var) : Except Fault (Except Error Var) :=
  match checkSubsList subs with
  | none => .ok (.error .eInvarg)
  | some (pairs, subject) => substituteChecked pairs subject template

/-! ## What is to be made of the template -/

/-- The part of the subject from the one position to the other, counted from 1. -/
def PartOf (subject : Str) (pair : Int32 × Int32) (part : Str) : Prop :=
  (pair = (0, -1) ∧ part = []) ∨
  ∃ before after, subject = before ++ part ++ after ∧ (before.length : Int) + 1 = pair.1.toInt ∧
    (before.length : Int) + part.length = pair.2.toInt

/-- The text a template stands for. -/
inductive Substituted (pairs : List (Int32 × Int32)) (subject : Str) : Str → Str → Prop where
  | nil : Substituted pairs subject [] []
  | char {c : UInt8} {template text : Str} : c ≠ 37 → Substituted pairs subject template text →
      Substituted pairs subject (c :: template) (c :: text)
  | percent {template text : Str} : Substituted pairs subject template text →
      Substituted pairs subject (37 :: 37 :: template) (37 :: text)
  | part {c : UInt8} {pair : Int32 × Int32} {part template text : Str} : 48 ≤ c ∧ c ≤ 57 →
      pairs[(c - 48).toNat]? = some pair → PartOf subject pair part →
      Substituted pairs subject template text →
      Substituted pairs subject (37 :: c :: template) (part ++ text)

/-- Some `%` is followed by another character or by nothing. -/
def BadPercent (pairs : List (Int32 × Int32)) (subject template : Str) : Prop :=
  ∃ before text after, template = before ++ 37 :: after ∧ Substituted pairs subject before text ∧
    ∀ c rest, after = c :: rest → c ≠ 37 ∧ ¬ (48 ≤ c ∧ c ≤ 57)

/-- How many characters the template stands for, up to a `%` that stands for none. -/
def expandedLength (pairs : List (Int32 × Int32)) : Str → Nat
  | [] => 0
  | [37] => 0
  | 37 :: c :: template =>
      if c = 37 then 1 + expandedLength pairs template
      else
        match pairFor pairs c with
        | none => 0
        | some pair => (pair.2.toInt - pair.1.toInt + 1).toNat + expandedLength pairs template
  | _ :: template => 1 + expandedLength pairs template

/-- So many characters are less than the size doubled some times, which is an `int`. -/
def FitsDoubled (size n : Nat) : Prop := ∃ j, (size * 2 ^ j : Int) ≤ intMax ∧ n < size * 2 ^ j

theorem FitsDoubled.mono {size n m : Nat} (h : FitsDoubled size m) (hle : n ≤ m) : FitsDoubled size n := by
  obtain ⟨j, hmax, hlt⟩ := h
  exact ⟨j, hmax, Nat.lt_of_le_of_lt hle hlt⟩

/-! ## Writing to a stream -/

namespace Stream

/-- The stream is the first one, doubled, and there is room behind the text. -/
structure Good (size : Nat) (s : Stream) : Prop where
  doubled : ∃ j, s.buflen = size * 2 ^ j
  room : s.block.room = s.buflen
  small : s.buflen ≤ intMax
  free : (s.block.data.length : Int) < s.buflen

/-- The text as it would be added character by character. -/
def addAll (s : Stream) (xs : Str) : Except Fault Stream := xs.foldlM addChar s

variable {size : Nat} {s : Stream}

theorem Good.fits (h : Good size s) : FitsDoubled size s.block.data.length := by
  obtain ⟨j, hj⟩ := h.doubled
  have hfree := h.free
  rw [hj] at hfree
  exact ⟨j, hj ▸ h.small, by exact_mod_cast hfree⟩

theorem put_good (h : Good size s) (hfree : (s.block.data.length : Int) + 1 < s.buflen) (c : UInt8) :
    s.block.put c = .ok ⟨s.block.room, s.block.data ++ [c]⟩ ∧
      Good size { s with block := ⟨s.block.room, s.block.data ++ [c]⟩ } := by
  refine ⟨put_ok (by rw [h.room]; omega) c, h.doubled, h.room, h.small, ?_⟩
  show ((s.block.data ++ [c]).length : Int) < s.buflen
  rw [List.length_append, List.length_singleton]
  omega

theorem asInt_length (h : Good size s) :
    asInt ((s.block.data.length : Int) + 1) = .ok ((s.block.data.length : Int) + 1) := by
  have hfree := h.free
  have hsmall := h.small
  exact asInt_ok ⟨by rw [intMin]; omega, by omega⟩

theorem reserve_free (h : Good size s) (hfree : (s.block.data.length : Int) + 1 < s.buflen) :
    s.reserve = .ok s := by
  rw [reserve, asInt_length h, ok_bind, if_neg (Int.not_le.mpr hfree)]

/-- A stream that is full gets twice as long. -/
theorem reserve_full (h : Good size s) (hfull : s.buflen ≤ (s.block.data.length : Int) + 1)
    (hmax : s.buflen * 2 ≤ intMax) :
    s.reserve = .ok ⟨s.buflen * 2, ⟨s.buflen * 2, s.block.data⟩⟩ ∧
      Good size ⟨s.buflen * 2, ⟨s.buflen * 2, s.block.data⟩⟩ := by
  obtain ⟨j, hj⟩ := h.doubled
  have hfree := h.free
  have hnew : asInt (s.buflen * 2) = .ok (s.buflen * 2) := asInt_ok ⟨by rw [intMin]; omega, hmax⟩
  have hroom : room (s.buflen * 2) = s.buflen * 2 := if_neg (by omega)
  constructor
  · rw [reserve, asInt_length h, ok_bind, if_pos hfull, hnew, ok_bind, grow, hroom,
      if_pos (by omega)]
  · exact ⟨⟨j + 1, by rw [hj, pow_succ, mul_assoc]⟩, rfl, hmax,
      show (s.block.data.length : Int) < s.buflen * 2 by omega⟩

/-- That it does not is for want of an `int`. -/
theorem reserve_overflow (h : Good size s) (hfull : s.buflen ≤ (s.block.data.length : Int) + 1)
    (hmax : ¬ s.buflen * 2 ≤ intMax) :
    s.reserve = .error .overflow ∧ ¬ FitsDoubled size (s.block.data.length + 1) := by
  obtain ⟨j, hj⟩ := h.doubled
  have hfree := h.free
  have hnew : asInt (s.buflen * 2) = .error .overflow := asInt_error fun hin => hmax hin.2
  constructor
  · rw [reserve, asInt_length h, ok_bind, if_pos hfull, hnew]
    rfl
  · -- the size doubled `k` times would be more than it is now, and so twice that at least
    rintro ⟨k, hk, hlt⟩
    have heq : s.block.data.length + 1 = size * 2 ^ j := by
      have : (s.block.data.length : Int) + 1 = size * 2 ^ j := by omega
      exact_mod_cast this
    rw [heq] at hlt
    have hjk : j < k := (Nat.pow_lt_pow_iff_right (by decide)).mp (Nat.lt_of_mul_lt_mul_left hlt)
    have hdouble : size * 2 ^ (j + 1) ≤ size * 2 ^ k :=
      Nat.mul_le_mul_left _ (Nat.pow_le_pow_right (by decide) hjk)
    have hle : (size : Int) * 2 ^ (j + 1) ≤ size * 2 ^ k := by exact_mod_cast hdouble
    rw [pow_succ, ← mul_assoc, ← hj] at hle
    exact hmax (Int.le_trans hle hk)

theorem addChar_reserve {s1 : Stream} {c : UInt8} (hres : s.reserve = .ok s1) (h : Good size s1)
    (hfree : (s1.block.data.length : Int) + 1 < s1.buflen) (hdata : s1.block.data = s.block.data) :
    ∃ s', s.addChar c = .ok s' ∧ Good size s' ∧ s'.block.data = s.block.data ++ [c] := by
  obtain ⟨hput, hgood⟩ := put_good h hfree c
  refine ⟨_, ?_, hgood, congrArg (· ++ [c]) hdata⟩
  rw [addChar, hres, ok_bind, hput, ok_bind]

theorem addChar_spec (h : Good size s) (c : UInt8) :
    (∃ s', s.addChar c = .ok s' ∧ Good size s' ∧ s'.block.data = s.block.data ++ [c]) ∨
    (s.addChar c = .error .overflow ∧ ¬ FitsDoubled size (s.block.data.length + 1)) := by
  have hfree := h.free
  by_cases hfull : s.buflen ≤ (s.block.data.length : Int) + 1
  · by_cases hmax : s.buflen * 2 ≤ intMax
    · obtain ⟨hres, hgood⟩ := reserve_full h hfull hmax
      refine .inl (addChar_reserve hres hgood ?_ rfl)
      show (s.block.data.length : Int) + 1 < s.buflen * 2
      omega
    · obtain ⟨hres, hnot⟩ := reserve_overflow h hfull hmax
      refine .inr ⟨?_, hnot⟩
      rw [addChar, hres]
      rfl
  · exact .inl (addChar_reserve (reserve_free h (Int.not_le.mp hfull)) h (Int.not_le.mp hfull) rfl)

theorem addAll_append (xs ys : Str) : s.addAll (xs ++ ys) = s.addAll xs >>= (addAll · ys) :=
  List.foldlM_append

theorem addAll_spec (h : Good size s) (xs : Str) :
    (∃ s', s.addAll xs = .ok s' ∧ Good size s' ∧ s'.block.data = s.block.data ++ xs) ∨
    (s.addAll xs = .error .overflow ∧ ¬ FitsDoubled size (s.block.data.length + xs.length)) := by
  induction xs generalizing s with
  | nil => exact .inl ⟨s, rfl, h, (List.append_nil _).symm⟩
  | cons c xs ih =>
      rw [addAll, List.foldlM_cons, List.length_cons]
      rcases addChar_spec h c with ⟨s', hrun, hgood, hdata⟩ | ⟨hrun, hnot⟩
      · rw [hrun, ok_bind]
        rcases ih hgood with ⟨s2, hrun2, hgood2, hdata2⟩ | ⟨hrun2, hnot2⟩
        · exact .inl ⟨s2, hrun2, hgood2, by rw [hdata2, hdata, List.append_assoc]; rfl⟩
        · refine .inr ⟨hrun2, ?_⟩
          rw [hdata, List.length_append, List.length_singleton] at hnot2
          rwa [show s.block.data.length + (xs.length + 1) = s.block.data.length + 1 + xs.length by omega]
      · rw [hrun]
        exact .inr ⟨rfl, fun hfits => hnot (hfits.mono (by omega))⟩

end Stream

/-! ## The text and the stream -/

/-- A pair that `invalid_pair` lets through. -/
def ValidPair (subject : Str) (pair : Int32 × Int32) : Prop :=
  pair = (0, -1) ∨ (0 < pair.1.toInt ∧ pair.1.toInt - 1 ≤ pair.2.toInt ∧
    pair.2.toInt ≤ subject.length)

/-- The text up to a `%` that stands for nothing, and whether there is one. -/
def expand (pairs : List (Int32 × Int32)) (subject : Str) : Str → Str × Bool
  | [] => ([], false)
  | [37] => ([], true)
  | 37 :: c :: template =>
      if c = 37 then (37 :: (expand pairs subject template).1, (expand pairs subject template).2)
      else
        match pairFor pairs c with
        | none => ([], true)
        | some pair => (copyPair subject pair ++ (expand pairs subject template).1,
            (expand pairs subject template).2)
  | c :: template => (c :: (expand pairs subject template).1, (expand pairs subject template).2)

section

variable {pairs : List (Int32 × Int32)} {subject : Str} {pair : Int32 × Int32} {c : UInt8}

theorem copyRange_eq {n i : Nat} (h : i + n ≤ subject.length) (s : Stream) :
    copyRange subject n i s = s.addAll ((subject.drop i).take n) := by
  induction n generalizing i s with
  | zero =>
      rw [List.take_zero]
      rfl
  | succ n ih =>
      have hlt : i < subject.length := by omega
      rw [List.drop_eq_getElem_cons hlt, List.take_succ_cons, copyRange,
        readAt_ok (List.getElem?_eq_getElem hlt) (Int.zero_add _).symm, ok_bind, Stream.addAll,
        List.foldlM_cons]
      cases s.addChar subject[i] with
      | error f => rfl
      | ok s' => exact ih (i := i + 1) (by omega) s'

/-- The loop over a part reads the characters of the part. -/
theorem copyRange_pair (h : ValidPair subject pair) (s : Stream) :
    copyRange subject (pair.2.toInt - 1 - (pair.1.toInt - 1) + 1).toNat (pair.1.toInt - 1) s =
      s.addAll (copyPair subject pair) := by
  rcases h with rfl | ⟨hpos, hle, hmax⟩
  · rfl
  · obtain ⟨i, hi⟩ : ∃ i : Nat, pair.1.toInt - 1 = i := ⟨(pair.1.toInt - 1).toNat, by omega⟩
    rw [copyPair, hi, Int.toNat_natCast]
    exact copyRange_eq (by omega) s

theorem copyPair_partOf (h : ValidPair subject pair) : PartOf subject pair (copyPair subject pair) := by
  rcases h with rfl | ⟨hpos, hle, hmax⟩
  · exact .inl ⟨rfl, rfl⟩
  · refine .inr ⟨subject.take (pair.1.toInt - 1).toNat, subject.drop pair.2.toInt.toNat, ?_, ?_, ?_⟩
    · have hend : pair.2.toInt.toNat =
          (pair.1.toInt - 1).toNat + (pair.2.toInt - 1 - (pair.1.toInt - 1) + 1).toNat := by omega
      rw [copyPair, hend, ← List.drop_drop, List.append_assoc, List.take_append_drop,
        List.take_append_drop]
    · rw [List.length_take]
      omega
    · rw [copyPair, List.length_take, List.length_take, List.length_drop]
      omega

theorem length_copyPair (h : ValidPair subject pair) :
    (copyPair subject pair).length = (pair.2.toInt - pair.1.toInt + 1).toNat := by
  rcases h with rfl | ⟨hpos, hle, hmax⟩
  · rfl
  · rw [copyPair, List.length_take, List.length_drop]
    omega

variable (pairs) in
/-- What a template is: a percent sign with what stands behind it, or another character. -/
theorem template_cases {P : Str → Prop} (nil : P []) (last : P [37])
    (percent : ∀ t, P t → P (37 :: 37 :: t))
    (none : ∀ c t, c ≠ 37 → pairFor pairs c = none → P (37 :: c :: t))
    (some : ∀ c p t, c ≠ 37 → pairFor pairs c = some p → P t → P (37 :: c :: t))
    (char : ∀ c t, c ≠ 37 → P t → P (c :: t)) (template : Str) : P template := by
  induction template using expand.induct pairs with
  | case1 => exact nil
  | case2 => exact last
  | case3 t ih => exact percent t ih
  | case4 c t hc hnone => exact none c t hc hnone
  | case5 c t hc p hsome ih => exact some c p t hc hsome ih
  | case6 c t hlast hmore ih =>
      refine char c t ?_ ih
      rintro rfl
      cases t with
      | nil => exact hlast rfl rfl
      | cons d t => exact hmore d t rfl rfl

theorem expand_percent (t : Str) : expand pairs subject (37 :: 37 :: t) =
    (37 :: (expand pairs subject t).1, (expand pairs subject t).2) := by
  simp [expand]

theorem expand_none (t : Str) (hc : c ≠ 37) (h : pairFor pairs c = none) :
    expand pairs subject (37 :: c :: t) = ([], true) := by
  simp [expand, hc, h]

theorem expand_some (t : Str) (hc : c ≠ 37) (h : pairFor pairs c = some pair) :
    expand pairs subject (37 :: c :: t) =
      (copyPair subject pair ++ (expand pairs subject t).1, (expand pairs subject t).2) := by
  simp [expand, hc, h]

theorem expand_char (t : Str) (hc : c ≠ 37) : expand pairs subject (c :: t) =
    (c :: (expand pairs subject t).1, (expand pairs subject t).2) := by
  rw [expand]
  · exact fun h _ => hc h
  · exact fun _ _ h _ => hc h

theorem length_expand (hvalid : ∀ p ∈ pairs, ValidPair subject p) (template : Str) :
    (expand pairs subject template).1.length = expandedLength pairs template := by
  induction template using template_cases pairs with
  | nil => rfl
  | last => rfl
  | percent t ih =>
      rw [expand_percent, List.length_cons, ih]
      simp [expandedLength, Nat.add_comm]
  | none c t hc h =>
      rw [expand_none t hc h]
      simp [expandedLength, hc, h]
  | some c p t hc h ih =>
      have hp : p ∈ pairs := by
        rw [pairFor] at h
        split at h
        · exact List.mem_of_getElem? h
        · exact nomatch h
      rw [expand_some t hc h, List.length_append, ih, length_copyPair (hvalid p hp)]
      simp [expandedLength, hc, h]
  | char c t hc ih =>
      rw [expand_char t hc, List.length_cons, ih, expandedLength]
      · exact Nat.add_comm _ _
      · exact fun h _ => hc h
      · exact fun _ _ h _ => hc h

/-- The loop adds the text to the stream, and stops at a bad percent sign. -/
theorem substituteOnto_eq (hvalid : ∀ p ∈ pairs, ValidPair subject p) (template : Str) (s : Stream) :
    substituteOnto pairs subject template s =
      s.addAll (expand pairs subject template).1 >>= fun s' =>
        .ok (if (expand pairs subject template).2 then none else some s') := by
  induction template using template_cases pairs generalizing s with
  | nil => rfl
  | last => rfl
  | percent t ih =>
      have hadd : addFor pairs subject 37 s = some <$> s.addChar 37 := if_pos rfl
      rw [expand_percent, substituteOnto, hadd, Stream.addAll, List.foldlM_cons]
      cases s.addChar 37 with
      | error f => rfl
      | ok s' => exact ih s'
  | none c t hc h =>
      have hadd : addFor pairs subject c s = .ok none := by rw [addFor, if_neg hc, h]
      rw [expand_none t hc h, substituteOnto, hadd]
      rfl
  | some c p t hc h ih =>
      have hp : p ∈ pairs := by
        rw [pairFor] at h
        split at h
        · exact List.mem_of_getElem? h
        · exact nomatch h
      have hadd : addFor pairs subject c s = some <$> s.addAll (copyPair subject p) := by
        rw [addFor, if_neg hc, h]
        exact congrArg (some <$> ·) (copyRange_pair (hvalid p hp) s)
      rw [expand_some t hc h, substituteOnto, hadd, Stream.addAll_append]
      cases s.addAll (copyPair subject p) with
      | error f => rfl
      | ok s' => exact ih s'
  | char c t hc ih =>
      rw [expand_char t hc, substituteOnto, Stream.addAll, List.foldlM_cons]
      · cases s.addChar c with
        | error f => rfl
        | ok s' => exact ih s'
      · exact fun h _ => hc h
      · exact fun _ _ h _ => hc h

theorem pairFor_digit (hlen : pairs.length = 10) (h : 48 ≤ c ∧ c ≤ 57) :
    ∃ p, pairFor pairs c = some p ∧ pairs[(c - 48).toNat]? = some p := by
  have hlt : (c - 48).toNat < pairs.length := by
    obtain ⟨h1, h2⟩ := h
    rw [UInt8.le_iff_toNat_le] at h1 h2
    rw [hlen, UInt8.toNat_sub_of_le _ _ (UInt8.le_iff_toNat_le.mpr h1)]
    have h48 : (48 : UInt8).toNat = 48 := rfl
    have h57 : (57 : UInt8).toNat = 57 := rfl
    omega
  refine ⟨pairs[(c - 48).toNat], ?_, List.getElem?_eq_getElem hlt⟩
  rw [pairFor, if_pos h, List.getElem?_eq_getElem hlt]

theorem pairFor_some (h : pairFor pairs c = some pair) :
    (48 ≤ c ∧ c ≤ 57) ∧ pairs[(c - 48).toNat]? = some pair ∧ pair ∈ pairs := by
  rw [pairFor] at h
  split at h
  next hc => exact ⟨hc, h, List.mem_of_getElem? h⟩
  next => exact nomatch h

/-- Without a bad percent sign the text is the one that the template stands for. -/
theorem expand_substituted (hvalid : ∀ p ∈ pairs, ValidPair subject p) (template : Str)
    (h : (expand pairs subject template).2 = false) :
    Substituted pairs subject template (expand pairs subject template).1 := by
  induction template using template_cases pairs with
  | nil => exact .nil
  | last => exact nomatch h
  | percent t ih =>
      rw [expand_percent] at h ⊢
      exact .percent (ih h)
  | none c t hc hp =>
      rw [expand_none t hc hp] at h
      exact nomatch h
  | some c p t hc hp ih =>
      obtain ⟨hdigit, hget, hmem⟩ := pairFor_some hp
      rw [expand_some t hc hp] at h ⊢
      exact .part hdigit hget (copyPair_partOf (hvalid p hmem)) (ih h)
  | char c t hc ih =>
      rw [expand_char t hc] at h ⊢
      exact .char hc (ih h)

theorem expand_bad (hvalid : ∀ p ∈ pairs, ValidPair subject p) (hlen : pairs.length = 10)
    (template : Str) (h : (expand pairs subject template).2 = true) :
    BadPercent pairs subject template := by
  induction template using template_cases pairs with
  | nil => exact nomatch h
  | last => exact ⟨[], [], [], rfl, .nil, fun _ _ h => nomatch h⟩
  | percent t ih =>
      rw [expand_percent] at h
      obtain ⟨before, text, after, rfl, hsub, hbad⟩ := ih h
      exact ⟨37 :: 37 :: before, _, after, rfl, .percent hsub, hbad⟩
  | none c t hc hp =>
      refine ⟨[], [], c :: t, rfl, .nil, ?_⟩
      rintro _ _ ⟨⟩
      refine ⟨hc, fun hdigit => ?_⟩
      obtain ⟨p, hp', -⟩ := pairFor_digit hlen hdigit
      exact nomatch hp.symm.trans hp'
  | some c p t hc hp ih =>
      obtain ⟨hdigit, hget, hmem⟩ := pairFor_some hp
      rw [expand_some t hc hp] at h
      obtain ⟨before, text, after, rfl, hsub, hbad⟩ := ih h
      exact ⟨37 :: c :: before, _, after, rfl,
        .part hdigit hget (copyPair_partOf (hvalid p hmem)) hsub, hbad⟩
  | char c t hc ih =>
      rw [expand_char t hc] at h
      obtain ⟨before, text, after, rfl, hsub, hbad⟩ := ih h
      exact ⟨c :: before, _, after, rfl, .char hc hsub, hbad⟩

/-- There is no way around a bad percent sign. -/
theorem expand_of_bad {template : Str} (h : BadPercent pairs subject template) :
    (expand pairs subject template).2 = true := by
  obtain ⟨before, text, after, rfl, hsub, hbad⟩ := h
  induction hsub with
  | nil =>
      cases after with
      | nil => rfl
      | cons c rest =>
          obtain ⟨hc, hdigit⟩ := hbad c rest rfl
          have hnone : pairFor pairs c = none := if_neg hdigit
          rw [List.nil_append, expand_none rest hc hnone]
  | char hc _ ih =>
      rw [List.cons_append, expand_char _ hc]
      exact ih
  | percent _ ih =>
      rw [List.cons_append, List.cons_append, expand_percent]
      exact ih
  | @part c _ _ _ _ hdigit hget _ _ ih =>
      have hc : c ≠ 37 := by
        rintro rfl
        exact absurd hdigit (by decide)
      rw [List.cons_append, List.cons_append, expand_some _ hc ((if_pos hdigit).trans hget)]
      exact ih

end

/-! ## The result -/

section

variable {pairs : List (Int32 × Int32)} {subject template : Str} {subs : List Var}

theorem validPair_iff {num1 num2 : Int32} :
    validPair num1 num2 subject.length = true ↔ ValidPair subject (num1, num2) := by
  rw [validPair, decide_eq_true_eq, ValidPair, Prod.mk.injEq]

theorem checkPairs_spec {vs : List Var} (h : vs.mapM (checkPair subject.length) = some pairs) :
    pairs.length = vs.length ∧ ∀ p ∈ pairs, ValidPair subject p := by
  induction vs generalizing pairs with
  | nil =>
      cases h
      exact ⟨rfl, List.forall_mem_nil _⟩
  | cons v vs ih =>
      simp only [List.mapM_cons, Option.bind_eq_bind, Option.bind_eq_some_iff] at h
      obtain ⟨p, hp, ps, hps, heq⟩ := h
      cases heq
      obtain ⟨hlen, hvalid⟩ := ih hps
      refine ⟨congrArg (· + 1) hlen, List.forall_mem_cons.mpr ⟨?_, hvalid⟩⟩
      rw [checkPair.eq_def] at hp
      split at hp
      · obtain ⟨hpair, heq⟩ := Option.ite_none_right_eq_some.mp hp
        cases heq
        exact validPair_iff.mp hpair
      · exact nomatch hp

theorem checkSubsList_spec (h : checkSubsList subs = some (pairs, subject)) :
    pairs.length = 10 ∧ ∀ p ∈ pairs, ValidPair subject p := by
  rw [checkSubsList.eq_def] at h
  split at h
  next num1 num2 vs subj =>
    obtain ⟨⟨hlen, hwhole⟩, h⟩ := Option.ite_none_right_eq_some.mp h
    obtain ⟨ps, hps, heq⟩ := Option.bind_eq_some_iff.mp h
    cases heq
    obtain ⟨hlen', hvalid⟩ := checkPairs_spec hps
    exact ⟨congrArg (· + 1) (hlen'.trans hlen),
      List.forall_mem_cons.mpr ⟨validPair_iff.mp hwhole, hvalid⟩⟩
  next => exact nomatch h

/-- The call ends without a fault: with E_INVARG for a bad percent sign, and else with the text. -/
def SubstitutedRight (pairs : List (Int32 × Int32)) (subject template : Str)
    (run : Except Fault (Except Error Var)) : Prop :=
  ∃ r, run = .ok r ∧ (r = .error .eInvarg ↔ BadPercent pairs subject template) ∧
    (∀ e, r = .error e → e = .eInvarg) ∧
    ∀ v, r = .ok v → ∃ text, v = .str text ∧ Substituted pairs subject template text

/-- The stream holds the text, and there is room for the NUL. -/
theorem finish_right (hvalid : ∀ p ∈ pairs, ValidPair subject p) (hlen : pairs.length = 10)
    {s : Stream} (hroom : (s.block.data.length : Int) < s.block.room)
    (hdata : s.block.data = (expand pairs subject template).1)
    (hrun : substituteOnto pairs subject template (.new template.length) =
      .ok (if (expand pairs subject template).2 then none else some s))
    (hsize : (template.length : Int) ≤ intMax) :
    SubstitutedRight pairs subject template (substituteChecked pairs subject template) := by
  have hint : asInt template.length = .ok (template.length : Int) :=
    asInt_ok ⟨by rw [intMin]; omega, hsize⟩
  rw [SubstitutedRight, substituteChecked, hint, ok_bind, hrun, ok_bind]
  cases hbad : (expand pairs subject template).2 with
  | true =>
      refine ⟨.error .eInvarg, rfl, ⟨fun _ => expand_bad hvalid hlen template hbad, fun _ => rfl⟩,
        ?_, fun _ h => (by cases h)⟩
      rintro e ⟨⟩
      rfl
  | false =>
      have hreset : s.reset = .ok s.block.data := by
        rw [Stream.reset, put_ok hroom]
        rfl
      refine ⟨.ok (.str s.block.data), ?_, ⟨fun h => (by cases h), fun h => ?_⟩,
        fun _ h => (by cases h), ?_⟩
      · show (s.reset >>= fun text => Except.ok (Except.ok (Var.str text))) = _
        rw [hreset]
        rfl
      · have hbad' := expand_of_bad h
        rw [hbad] at hbad'
        cases hbad'
      · rintro v ⟨⟩
        exact ⟨_, rfl, hdata ▸ expand_substituted hvalid template hbad⟩

theorem new_good {size : Nat} (hpos : 0 < size) (hsize : (size : Int) ≤ intMax) :
    Stream.Good size (.new size) where
  doubled := ⟨0, by rw [pow_zero, mul_one]; rfl⟩
  room := if_neg (by omega)
  small := hsize
  free := by
    show (0 : Int) < size
    omega

theorem substituteChecked_iff (hvalid : ∀ p ∈ pairs, ValidPair subject p) (hlen : pairs.length = 10) :
    SubstitutedRight pairs subject template (substituteChecked pairs subject template) ↔
      template = [] ∨ FitsDoubled template.length (expandedLength pairs template) := by
  by_cases hnil : template = []
  · subst hnil
    refine ⟨fun _ => .inl rfl, fun _ => ?_⟩
    have hroom : ((Stream.new 0).block.data.length : Int) < (Stream.new 0).block.room := by decide
    exact finish_right hvalid hlen hroom rfl rfl (by decide)
  · have hpos : 0 < template.length := List.length_pos_iff.mpr hnil
    rw [← length_expand hvalid template]
    by_cases hsize : (template.length : Int) ≤ intMax
    · have hgood := new_good hpos hsize
      rcases Stream.addAll_spec hgood (expand pairs subject template).1 with
        ⟨s, hadd, hgood', hdata⟩ | ⟨hadd, hnot⟩
      · have hdata' : s.block.data = (expand pairs subject template).1 := hdata
        refine ⟨fun _ => .inr (hdata' ▸ hgood'.fits), fun _ => ?_⟩
        refine finish_right hvalid hlen (hgood'.room ▸ hgood'.free) hdata' ?_ hsize
        rw [substituteOnto_eq hvalid, hadd]
        rfl
      · have hnot' : ¬ FitsDoubled template.length (expand pairs subject template).1.length := by
          have hzero : (0 : Nat) + (expand pairs subject template).1.length = _ := Nat.zero_add _
          exact hzero ▸ hnot
        refine ⟨?_, fun h => absurd (h.resolve_left hnil) hnot'⟩
        rintro ⟨r, hrun, -⟩
        have hint : asInt template.length = .ok (template.length : Int) :=
          asInt_ok ⟨by rw [intMin]; omega, hsize⟩
        rw [substituteChecked, hint, ok_bind, substituteOnto_eq hvalid, hadd] at hrun
        cases hrun
    · constructor
      · rintro ⟨r, hrun, -⟩
        rw [substituteChecked, asInt_error fun h => hsize h.2] at hrun
        cases hrun
      · rintro (h | ⟨j, hmax, -⟩)
        · exact absurd h hnil
        · have hone : (1 : Int) ≤ 2 ^ j := by exact_mod_cast Nat.one_le_two_pow
          have hle := Int.mul_le_mul_of_nonneg_left hone (Int.natCast_nonneg template.length)
          rw [mul_one] at hle
          exact absurd (Int.le_trans hle hmax) hsize

/-- The call does what it is to do when the text is shorter than the template's length doubled some
    times, as long as that is an `int`; and only then, but for the empty template. -/
theorem substitute_iff (hsubs : checkSubsList subs = some (pairs, subject)) (template : Str) :
    SubstitutedRight pairs subject template (bfSubstituteStream template subs) ↔
      template = [] ∨ FitsDoubled template.length (expandedLength pairs template) := by
  obtain ⟨hlen, hvalid⟩ := checkSubsList_spec hsubs
  rw [bfSubstituteStream, hsubs]
  exact substituteChecked_iff hvalid hlen

end

/-- What `match` returns when a pattern matches all of a subject and has no subpatterns. -/
def wholeSubs (length : Int32) (subject : Str) : List Var :=
  [.int 1, .int length, .list (List.replicate 9 (.list [.int 0, .int (-1)])), .str subject]

theorem substitute_brackets : SubstitutedRight ((1, 3) :: List.replicate 9 (0, -1))
    (Str.ofString "abc") (Str.ofString "<%0>")
    (bfSubstituteStream (Str.ofString "<%0>") (wholeSubs 3 (Str.ofString "abc"))) :=
  (substitute_iff (by rfl) (Str.ofString "<%0>")).mpr (.inr ⟨1, by decide, by decide⟩)

theorem checkSubsList_whole {length : Int32} {subject : Str}
    (h : length.toInt = subject.length) : checkSubsList (wholeSubs length subject) =
      some ((1, length) :: List.replicate 9 (0, -1), subject) := by
  have hwhole : validPair 1 length subject.length = true :=
    validPair_iff.mpr (.inr ⟨show (0 : Int) < 1 by decide, by rw [h]; exact Int.natCast_nonneg _, Int.le_of_eq h⟩)
  have hnone : validPair 0 (-1) subject.length = true := validPair_iff.mpr (.inl rfl)
  have hpairs : (List.replicate 9 (Var.list [.int 0, .int (-1)])).mapM (checkPair subject.length) =
      some (List.replicate 9 (0, -1)) := by
    simp [List.replicate, checkPair, hnone]
  rw [wholeSubs, checkSubsList, if_pos ⟨rfl, hwhole⟩, hpairs]
  rfl

/-- The length of the stream is no `int` any more when four times a text of 2^28 characters has
    been added to it. -/
theorem substitute_overflows : ¬ ∀ template subs pairs subject,
    checkSubsList subs = some (pairs, subject) →
    SubstitutedRight pairs subject template (bfSubstituteStream template subs) := by
  intro h
  have hlength : (268435456 : Int32).toInt = (List.replicate 268435456 (97 : UInt8)).length := by
    rw [List.length_replicate]
    rfl
  have hsubs := checkSubsList_whole hlength
  obtain ⟨hlen, hvalid⟩ := checkSubsList_spec hsubs
  have hright := h (Str.ofString "%0%0%0%0") _ _ _ hsubs
  rw [bfSubstituteStream, hsubs] at hright
  rcases (substituteChecked_iff hvalid hlen).mp hright with hnil | ⟨j, hmax, hlt⟩
  · exact absurd hnil (by decide)
  · have hexpanded : expandedLength ((1, 268435456) :: List.replicate 9 (0, -1))
        (Str.ofString "%0%0%0%0") = 1073741824 := by rfl
    rw [hexpanded] at hlt
    have hlt' : 2 ^ 27 < 2 ^ j := by
      have : 1073741824 < 8 * 2 ^ j := hlt
      omega
    have hj := Nat.pow_le_pow_right (n := 2) (by decide)
      ((Nat.pow_lt_pow_iff_right (by decide)).mp hlt')
    have hmax' : (8 : Int) * 2 ^ j ≤ 2147483647 := hmax
    have : (8 * 2 ^ j : Nat) ≤ 2147483647 := by exact_mod_cast hmax'
    omega

end Waverous
