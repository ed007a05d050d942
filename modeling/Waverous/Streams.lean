import Waverous.Structures

/-! # Bytes and text — `streams.c`, `utils.c`

    A stream is the bytes that have been put into it.  `raw_bytes_to_binary` writes every
    byte that does not print as a tilde and two digits, and `binary_to_raw_bytes` reads
    that back. -/

namespace Waverous

/-- `isgraph`, in the C locale. -/
def isgraph (c : UInt8) : Bool := decide (33 ≤ c ∧ c ≤ 126)

/-- The digit that `itoa` writes. -/
def digit (d : Nat) : UInt8 := UInt8.ofNat (if d < 10 then 48 + d else 55 + d)

/-- The `while` of `itoa`; each round divides by the radix. -/
def itoaLoop (radix : Nat) : Nat → Nat → Str → Str
  | 0, _, ptr => ptr
  | fuel + 1, n, ptr =>
      if n = 0 then ptr else itoaLoop radix fuel (n / radix) (digit (n % radix) :: ptr)

/-- `itoa`. -/
def itoa (n : Int32) (radix : Nat) : Str :=
  if n = 0 then Str.ofString "0"
  else if n = -2147483648 then
    match radix with
    | 16 => Str.ofString "-7FFFFFFF"
    | 10 => Str.ofString "-2147483648"
    | 8 => Str.ofString "-17777777777"
    | _ => Str.ofString "0"
  else
    let ptr := itoaLoop radix 32 n.toInt.natAbs []
    if n < 0 then 45 :: ptr else ptr

/-- `isspace`. -/
def isspace (c : UInt8) : Bool := decide (c = 32 ∨ 9 ≤ c ∧ c ≤ 13)

/-- `isdigit`. -/
def isdigit (c : UInt8) : Bool := decide (48 ≤ c ∧ c ≤ 57)

/-- The number that digits make. -/
def digitsValue (digits : Str) : Nat := digits.foldl (fun n c => 10 * n + (c.toNat - 48)) 0

/-- A `long` holds no more. -/
def clampLong (n : Int) : Int := max (-9223372036854775808) (min 9223372036854775807 n)

/-- `strtol` in base 10: the number, and what stands behind it. -/
def strtol (s : Str) : Int × Str :=
  let t := s.dropWhile isspace
  let negative := t.head? == some 45
  let t := if negative || t.head? == some 43 then t.tail else t
  let digits := t.takeWhile isdigit
  if digits = [] then (0, s)
  else
    let n : Int := digitsValue digits
    (clampLong (if negative then -n else n), t.dropWhile isdigit)

/-- `stream_delete_char`. -/
def streamDeleteChar (s : Str) : Str := s.dropLast

/-- `"~%02x"`. -/
def escape (c : UInt8) : Str := [126, digit (c.toNat / 16), digit (c.toNat % 16)]

/-- `raw_bytes_to_binary`. -/
def rawBytesToBinary (buffer : Str) : Str :=
  buffer.flatMap fun c => if c ≠ 126 ∧ (isgraph c = true ∨ c = 32) then [c] else escape c

/-- A digit, after `toupper`. -/
def hexValue (c : UInt8) : Option UInt8 :=
  let c := if 97 ≤ c ∧ c ≤ 122 then c - 32 else c
  if 48 ≤ c ∧ c ≤ 57 then some (c - 48)
  else if 65 ≤ c ∧ c ≤ 70 then some (c - 65 + 10)
  else none

/-- `binary_to_raw_bytes`; `none` is the null pointer. -/
def binaryToRawBytes : Str → Option Str
  | [] => some []
  | 126 :: c :: d :: ptr => do
      let c ← hexValue c
      let d ← hexValue d
      let rest ← binaryToRawBytes ptr
      some ((c * 16 + d) :: rest)
  | c :: ptr => if c = 126 then none else (binaryToRawBytes ptr).map (c :: ·)

example : rawBytesToBinary [97, 126, 10, 255, 32] = Str.ofString "a~7E~0A~FF " := by decide

example : binaryToRawBytes (Str.ofString "a~7e~0a~FF ") = some [97, 126, 10, 255, 32] := by decide

/-! ## Reading back -/

theorem hexValue_digit : ∀ d < 16, hexValue (digit d) = some (UInt8.ofNat d) := by decide

theorem byte_of_halves (c : UInt8) :
    UInt8.ofNat (c.toNat / 16) * 16 + UInt8.ofNat (c.toNat % 16) = c := by
  have hc := c.toNat_lt
  apply UInt8.toNat_inj.mp
  simp only [UInt8.toNat_add, UInt8.toNat_mul, UInt8.toNat_ofNat']
  show ((c.toNat / 16 % 256 * 16) % 256 + c.toNat % 16 % 256) % 256 = c.toNat
  omega

theorem binaryToRawBytes_cons {c : UInt8} (hc : c ≠ 126) (ptr : Str) :
    binaryToRawBytes (c :: ptr) = (binaryToRawBytes ptr).map (c :: ·) := by
  rw [binaryToRawBytes.eq_def]
  split
  next h => exact nomatch h
  next h =>
    cases h
    exact absurd rfl hc
  next h =>
    cases h
    rw [if_neg hc]

theorem binaryToRawBytes_escape (c : UInt8) (ptr : Str) :
    binaryToRawBytes (escape c ++ ptr) = (binaryToRawBytes ptr).map (c :: ·) := by
  have hc := c.toNat_lt
  have hhigh := hexValue_digit (c.toNat / 16) (by omega)
  have hlow := hexValue_digit (c.toNat % 16) (by omega)
  show binaryToRawBytes (126 :: digit (c.toNat / 16) :: digit (c.toNat % 16) :: ptr) = _
  simp only [binaryToRawBytes, hhigh, hlow, byte_of_halves, Option.bind_eq_bind, Option.bind_some]
  cases binaryToRawBytes ptr <;> rfl

/-- Text without a tilde stands for itself. -/
theorem binaryToRawBytes_text {text : Str} (h : (126 : UInt8) ∉ text) (ptr : Str) :
    binaryToRawBytes (text ++ ptr) = (binaryToRawBytes ptr).map (text ++ ·) := by
  induction text with
  | nil =>
      simp only [List.nil_append]
      exact Option.map_id'.symm
  | cons c text ih =>
      have hc : c ≠ 126 := fun hc => h (hc ▸ List.mem_cons_self)
      rw [List.cons_append, binaryToRawBytes_cons hc, ih fun ht => h (List.mem_cons_of_mem c ht),
        Option.map_map]
      rfl

/-- What is written is read back. -/
theorem binaryToRawBytes_append (bytes : Str) (ptr : Str) :
    binaryToRawBytes (rawBytesToBinary bytes ++ ptr) = (binaryToRawBytes ptr).map (bytes ++ ·) := by
  induction bytes with
  | nil =>
      simp only [List.nil_append]
      exact Option.map_id'.symm
  | cons c bytes ih =>
      rw [rawBytesToBinary, List.flatMap_cons, List.append_assoc, ← rawBytesToBinary]
      have hmap : (binaryToRawBytes (rawBytesToBinary bytes ++ ptr)).map (c :: ·)
          = (binaryToRawBytes ptr).map (c :: bytes ++ ·) := by
        rw [ih, Option.map_map]
        rfl
      split
      next h => exact (binaryToRawBytes_cons h.1 _).trans hmap
      next => exact (binaryToRawBytes_escape c _).trans hmap

/-- `binary_to_raw_bytes` undoes `raw_bytes_to_binary`. -/
theorem binaryToRawBytes_rawBytesToBinary (bytes : Str) :
    binaryToRawBytes (rawBytesToBinary bytes) = some bytes := by
  have h := binaryToRawBytes_append bytes []
  rw [List.append_nil] at h
  rw [h]
  simp [binaryToRawBytes]

theorem hexValue_tilde : hexValue 126 = none := by decide

/-- Every tilde of a string that can be read is the first of three characters for one byte. -/
theorem binaryToRawBytes_length {binary bytes : Str} (h : binaryToRawBytes binary = some bytes) :
    binary.length = bytes.length + 2 * binary.count 126 := by
  induction binary using binaryToRawBytes.induct generalizing bytes with
  | case1 =>
      cases h
      rfl
  | case2 c d ptr ih =>
      simp only [binaryToRawBytes, Option.bind_eq_bind, Option.bind_eq_some_iff] at h
      obtain ⟨c', hc, d', hd, rest, hrest, heq⟩ := h
      cases heq
      have hc' : c ≠ 126 := by
        rintro rfl
        exact nomatch hexValue_tilde.symm.trans hc
      have hd' : d ≠ 126 := by
        rintro rfl
        exact nomatch hexValue_tilde.symm.trans hd
      have := ih hrest
      rw [List.count_cons_self, List.count_cons_of_ne hc', List.count_cons_of_ne hd']
      simp only [List.length_cons]
      omega
  | case3 ptr hptr =>
      -- a tilde with less than two characters behind it
      rcases ptr with _ | ⟨c, _ | ⟨d, ptr⟩⟩
      · exact nomatch h
      · exact nomatch h
      · exact (hptr c d ptr rfl rfl).elim
  | case4 c ptr hptr hc ih =>
      rw [binaryToRawBytes_cons hc] at h
      obtain ⟨rest, hrest, rfl⟩ := Option.map_eq_some_iff.mp h
      rw [List.count_cons_of_ne hc, List.length_cons, List.length_cons, ih hrest]
      omega

end Waverous
