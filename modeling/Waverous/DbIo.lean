import Waverous.Lib.Reads
import Waverous.Strings

/-! # The database file as text — `db_io.c`

    A file is its bytes, and none of them is NUL.  A reader is at some place of the file, and
    has what is left of it; it fails at the end of the file and where the code would be wrong
    about what it has read.  What `printf` and `strtod` make of floating-point numbers is a
    parameter. -/

namespace Waverous

open Readers

/-- A reader of a file. -/
abbrev FileReader := Reader UInt8

/-- `'\n'`. -/
def newline : UInt8 := 10

/-! ## Reading -/

/-- `fgets` with room for `n` bytes and the NUL. -/
def fgets : Nat → Str → Str × Str
  | 0, input => ([], input)
  | _ + 1, [] => ([], [])
  | n + 1, c :: input =>
      if c = newline then ([newline], input)
      else
        let (s, input) := fgets n input
        (c :: s, input)

/-- `dbio_read_line`; at the end of the file there is no line. -/
def dbioReadLine (n : Nat) : FileReader Str := fun input =>
  if input = [] then none else some (fgets (n - 1) input)

/-- `dbio_read_num`; a bad number is only logged. -/
def dbioReadNum : FileReader Int32 := do
  let s ← dbioReadLine 20
  pure (Int32.ofInt (strtol s).1)

/-- `dbio_read_objid`. -/
def dbioReadObjid : FileReader Objid := do
  let n ← dbioReadNum
  pure n.toInt

/-- `try_again` of `dbio_read_string`; each round takes a bufferful. -/
def readPieces : Nat → Str → FileReader Str
  | 0, _ => fail
  | fuel + 1, str => do
      let buffer ← dbioReadLine 1024
      if buffer.length = 1023 ∧ buffer.getLast? ≠ some newline then
        readPieces fuel (str ++ buffer)
      else pure (str ++ if buffer.getLast? = some newline then buffer.dropLast else buffer)

/-- `dbio_read_string`. -/
def dbioReadString : FileReader Str := fun input => readPieces (input.length + 1) [] input

/-- What the C library makes of floating-point numbers: `%.19g` and `strtod`. -/
structure FloatText where
  write : UInt64 → Str
  read : Str → UInt64

/-- `enum error` of a number. -/
def errorOf (n : Int32) : Option Error :=
  [Error.eNone, .eType, .eDiv, .ePerm, .ePropnf, .eVerbnf, .eVarnf, .eInvind, .eRecmove, .eMaxrec,
    .eRange, .eArgs, .eNacc, .eInvarg, .eQuota, .eFloat][n.toInt.toNat]?

/-- `dbio_read_var`; `fuel` bounds the nesting of lists. -/
def readVar (ft : FloatText) : Nat → FileReader Var
  | 0 => fail
  | fuel + 1 => do
      let l ← dbioReadNum
      match l.toInt with
      | 0 => do
          let n ← dbioReadNum
          pure (.int n)
      | 1 => do
          let n ← dbioReadNum
          pure (.obj n.toInt)
      | 2 => do
          let s ← dbioReadString
          pure (.str s)
      | 3 => do
          let n ← dbioReadNum
          match errorOf n with
          | some e => pure (.err e)
          | none => fail
      | 4 => do
          let n ← dbioReadNum
          if n < 0 then fail
          else do
            let vs ← times (readVar ft fuel) n.toInt.toNat
            pure (.list vs)
      | 5 => pure .clear
      | 6 => pure .none
      | 7 => do
          let n ← dbioReadNum
          if n < 0 then fail else pure (.catch n.toInt.toNat)
      | 8 => do
          let n ← dbioReadNum
          if n < 0 then fail else pure (.finally n.toInt.toNat)
      | 9 => do
          let s ← dbioReadLine 40
          pure (.float (ft.read s))
      | _ => pure zero

/-- `dbio_read_var`. -/
def dbioReadVar (ft : FloatText) : FileReader Var := fun input => readVar ft (input.length + 1) input

/-! ## Writing -/

/-- `%d`. -/
def formatInt (n : Int) : Str := if n < 0 then 45 :: decimal n.natAbs else decimal n.natAbs

/-- `dbio_write_num`. -/
def dbioWriteNum (n : Int32) : Str := formatInt n.toInt ++ [newline]

/-- `dbio_write_objid`. -/
def dbioWriteObjid (oid : Objid) : Str := dbioWriteNum (Int32.ofInt oid)

/-- `dbio_write_string`. -/
def dbioWriteString (s : Str) : Str := s ++ [newline]

/-- The number of an error, which is its place in `enum error`. -/
def errorNum : Error → Int32
  | .eNone => 0 | .eType => 1 | .eDiv => 2 | .ePerm => 3 | .ePropnf => 4 | .eVerbnf => 5
  | .eVarnf => 6 | .eInvind => 7 | .eRecmove => 8 | .eMaxrec => 9 | .eRange => 10 | .eArgs => 11
  | .eNacc => 12 | .eInvarg => 13 | .eQuota => 14 | .eFloat => 15

mutual
/-- `dbio_write_var`. -/
def dbioWriteVar (ft : FloatText) : Var → Str
  | .int n => dbioWriteNum 0 ++ dbioWriteNum n
  | .obj oid => dbioWriteNum 1 ++ dbioWriteObjid oid
  | .str s => dbioWriteNum 2 ++ dbioWriteString s
  | .err e => dbioWriteNum 3 ++ dbioWriteNum (errorNum e)
  | .list l => dbioWriteNum 4 ++ (dbioWriteNum (Int32.ofNat l.length) ++ dbioWriteVars ft l)
  | .clear => dbioWriteNum 5
  | .none => dbioWriteNum 6
  | .catch n => dbioWriteNum 7 ++ dbioWriteNum (Int32.ofNat n)
  | .finally n => dbioWriteNum 8 ++ dbioWriteNum (Int32.ofNat n)
  | .float bits => dbioWriteNum 9 ++ (ft.write bits ++ [newline])

def dbioWriteVars (ft : FloatText) : List Var → Str
  | [] => []
  | v :: vs => dbioWriteVar ft v ++ dbioWriteVars ft vs
end

/-! ## Numbers -/

theorem decimal_digits (n : Nat) : ∀ c ∈ decimal n, isdigit c = true := by
  intro c hc
  obtain ⟨d, hd, rfl⟩ := List.mem_map.mp hc
  have hdigit := Nat.isDigit_of_mem_toDigits (by decide) (by decide) hd
  rw [Char.isDigit, Bool.and_eq_true, decide_eq_true_eq, decide_eq_true_eq] at hdigit
  have h48 : 48 ≤ d.toNat := hdigit.1
  have h57 : d.toNat ≤ 57 := hdigit.2
  rw [isdigit, decide_eq_true_eq, UInt8.le_iff_toNat_le, UInt8.le_iff_toNat_le, UInt8.toNat_ofNat']
  show 48 ≤ d.toNat % 256 ∧ d.toNat % 256 ≤ 57
  omega

theorem decimal_ne_nil (n : Nat) : decimal n ≠ [] := by
  intro h
  exact Nat.toDigits_ne_nil (List.map_eq_nil_iff.mp h)

theorem digitsValue_decimal (n : Nat) : digitsValue (decimal n) = n := by
  have hchars : ∀ (l : List Char) (k : Nat), (∀ c ∈ l, c.isDigit = true) →
      (l.map fun c => UInt8.ofNat c.toNat).foldl (fun n c => 10 * n + (c.toNat - 48)) k =
        Nat.ofDigitChars 10 l k := by
    intro l
    induction l with
    | nil => intro k _; rfl
    | cons c l ih =>
        intro k hl
        obtain ⟨hc, hl⟩ := List.forall_mem_cons.mp hl
        rw [Char.isDigit, Bool.and_eq_true, decide_eq_true_eq, decide_eq_true_eq] at hc
        have h57 : c.toNat ≤ 57 := hc.2
        have hbyte : (UInt8.ofNat c.toNat).toNat = c.toNat := by
          rw [UInt8.toNat_ofNat']
          exact Nat.mod_eq_of_lt (by omega)
        rw [List.map_cons, List.foldl_cons, ih _ hl, Nat.ofDigitChars_cons, hbyte]
        rfl
  rw [digitsValue, decimal, hchars _ 0 fun c hc =>
    Nat.isDigit_of_mem_toDigits (by decide) (by decide) hc]
  exact Nat.ofDigitChars_ten_toDigits

/-- What follows a number does not go on with it. -/
def NoDigit (rest : Str) : Prop := ∀ c ∈ rest.head?, isdigit c = false

theorem takeWhile_digits {ds rest : Str} (hds : ∀ c ∈ ds, isdigit c = true) (hrest : NoDigit rest) :
    (ds ++ rest).takeWhile isdigit = ds ∧ (ds ++ rest).dropWhile isdigit = rest := by
  have hstop : rest.takeWhile isdigit = [] ∧ rest.dropWhile isdigit = rest := by
    cases rest with
    | nil => exact ⟨rfl, rfl⟩
    | cons c rest =>
        have hc := hrest c rfl
        rw [List.takeWhile_cons, List.dropWhile_cons, hc]
        exact ⟨rfl, rfl⟩
  rw [List.takeWhile_append_of_pos hds, List.dropWhile_append_of_pos hds, hstop.1, hstop.2,
    List.append_nil]
  exact ⟨rfl, rfl⟩

theorem isspace_of_isdigit {c : UInt8} (h : isdigit c = true) : isspace c = false ∧ c ≠ 45 ∧ c ≠ 43 := by
  rw [isdigit, decide_eq_true_eq, UInt8.le_iff_toNat_le, UInt8.le_iff_toNat_le] at h
  have hnat : 48 ≤ c.toNat ∧ c.toNat ≤ 57 := h
  refine ⟨?_, ?_, ?_⟩
  · rw [isspace, decide_eq_false_iff_not]
    rintro (rfl | ⟨h9, h13⟩)
    · exact absurd hnat.1 (by decide)
    · rw [UInt8.le_iff_toNat_le] at h13
      have h13' : c.toNat ≤ 13 := h13
      omega
  · rintro rfl
    exact absurd hnat.1 (by decide)
  · rintro rfl
    exact absurd hnat.1 (by decide)

/-- The number at the front of a text, if there is one: `%d` and `%u` before they convert it. -/
def scanNum (input : Str) : Option Int × Str :=
  let t := input.dropWhile isspace
  let negative := t.head? == some 45
  let t := if negative || t.head? == some 43 then t.tail else t
  let digits := t.takeWhile isdigit
  if digits = [] then (none, t)
  else
    let n : Int := digitsValue digits
    (some (if negative then -n else n), t.dropWhile isdigit)

theorem strtol_eq (s : Str) :
    strtol s = match scanNum s with
      | (some n, rest) => (clampLong n, rest)
      | (none, _) => (0, s) := by
  rw [strtol, scanNum]
  dsimp only
  split
  · by_cases hdigits : (s.dropWhile isspace).tail.takeWhile isdigit = []
    · rw [if_pos hdigits, if_pos hdigits]
    · rw [if_neg hdigits, if_neg hdigits]
  · by_cases hdigits : (s.dropWhile isspace).takeWhile isdigit = []
    · rw [if_pos hdigits, if_pos hdigits]
    · rw [if_neg hdigits, if_neg hdigits]

theorem scanNum_formatInt (n : Int) {rest : Str} (hrest : NoDigit rest) :
    scanNum (formatInt n ++ rest) = (some n, rest) := by
  have hds := decimal_digits n.natAbs
  obtain ⟨htake, hdrop⟩ := takeWhile_digits hds hrest
  obtain ⟨d, ds, hcons⟩ := List.exists_cons_of_ne_nil (decimal_ne_nil n.natAbs)
  obtain ⟨hspace, hminus, hplus⟩ := isspace_of_isdigit (hds d (by rw [hcons]; exact List.mem_cons_self))
  by_cases hneg : n < 0
  · have hvalue : -((digitsValue (decimal n.natAbs) : Nat) : Int) = n := by
      rw [digitsValue_decimal]
      omega
    have hstart : (45 :: (decimal n.natAbs ++ rest)).dropWhile isspace =
        45 :: (decimal n.natAbs ++ rest) := rfl
    simp only [scanNum, formatInt, if_pos hneg, List.cons_append, hstart, List.head?_cons,
      List.tail_cons, htake, hdrop, decimal_ne_nil, if_false, hvalue, BEq.rfl, Bool.true_or, if_true]
  · have hvalue : ((digitsValue (decimal n.natAbs) : Nat) : Int) = n := by
      rw [digitsValue_decimal]
      omega
    have hstart : (decimal n.natAbs ++ rest).dropWhile isspace = decimal n.natAbs ++ rest := by
      rw [hcons, List.cons_append, List.dropWhile_cons, hspace]
      rfl
    have hhead : (decimal n.natAbs ++ rest).head? = some d := by rw [hcons]; rfl
    have hm : (some d == some (45 : UInt8)) = false := by simpa using hminus
    have hp : (some d == some (43 : UInt8)) = false := by simpa using hplus
    simp only [scanNum, formatInt, if_neg hneg, hstart, hhead, hm, hp, htake, hdrop, decimal_ne_nil,
      if_false, hvalue, Bool.or_self, Bool.false_eq_true]

/-- A number in a `long` is read back. -/
theorem strtol_formatInt {n : Int} (hn : -9223372036854775808 ≤ n ∧ n ≤ 9223372036854775807)
    {rest : Str} (hrest : NoDigit rest) : strtol (formatInt n ++ rest) = (n, rest) := by
  have hclamp : clampLong n = n := by rw [clampLong]; omega
  rw [strtol_eq, scanNum_formatInt n hrest]
  dsimp only
  rw [hclamp]

/-! ## Lines -/

/-- A line that there is room for. -/
theorem fgets_line {line : Str} (rest : Str) (hline : newline ∉ line) {n : Nat} (hn : line.length < n) :
    fgets n (line ++ newline :: rest) = (line ++ [newline], rest) := by
  induction line generalizing n with
  | nil =>
      obtain ⟨_, rfl⟩ := Nat.exists_eq_add_of_lt hn
      rfl
  | cons c line ih =>
      rw [List.mem_cons, not_or] at hline
      rw [List.length_cons] at hn
      obtain ⟨n, rfl⟩ : ∃ m, n = m + 1 := ⟨n - 1, by omega⟩
      rw [List.cons_append, fgets, if_neg (Ne.symm hline.1), ih hline.2 (by omega)]
      rfl

/-- A bufferful of a longer line. -/
theorem fgets_part {part : Str} (rest : Str) (hpart : newline ∉ part) :
    fgets part.length (part ++ rest) = (part, rest) := by
  induction part with
  | nil => cases rest <;> rfl
  | cons c part ih =>
      rw [List.mem_cons, not_or] at hpart
      rw [List.length_cons, List.cons_append, fgets, if_neg (Ne.symm hpart.1), ih hpart.2]

theorem reads_line (line : Str) (hline : newline ∉ line) {n : Nat} (hn : line.length + 1 < n) :
    Reads (dbioReadLine n) (line ++ [newline]) (line ++ [newline]) := by
  intro rest _
  rw [dbioReadLine, if_neg (by simp), List.append_assoc, List.singleton_append,
    fgets_line rest hline (by omega)]

theorem not_newline_of_digit {c : UInt8} (h : isdigit c = true) : c ≠ newline := by
  rintro rfl
  exact absurd (isspace_of_isdigit h).1 (by decide)

theorem newline_not_mem_formatInt (n : Int) : newline ∉ formatInt n := by
  have hds : newline ∉ decimal n.natAbs := fun h =>
    not_newline_of_digit (decimal_digits _ _ h) rfl
  rw [formatInt]
  split
  · rw [List.mem_cons, not_or]
    exact ⟨by decide, hds⟩
  · exact hds

theorem length_formatInt {n : Int} (hn : n.natAbs < 10000000000) : (formatInt n).length ≤ 11 := by
  have hlen : (decimal n.natAbs).length ≤ 10 := by
    rw [decimal, List.length_map]
    exact (Nat.length_toDigits_le_iff (by decide) (by decide)).mpr hn
  rw [formatInt]
  split
  · rw [List.length_cons]
    omega
  · omega

theorem noDigit_newline (rest : Str) : NoDigit (newline :: rest) := by
  intro c hc
  cases hc
  decide

/-- A number is read back. -/
theorem reads_num (n : Int32) : Reads dbioReadNum (dbioWriteNum n) n := by
  have hmin : -2147483648 ≤ n.toInt := n.minValue_le_toInt
  have hmax : n.toInt ≤ 2147483647 := n.toInt_le
  have hlen : (formatInt n.toInt).length ≤ 11 := length_formatInt (by omega)
  have hline : Reads (dbioReadLine 20) (dbioWriteNum n) (dbioWriteNum n) :=
    reads_line _ (newline_not_mem_formatInt _) (by omega)
  have hvalue : strtol (dbioWriteNum n) = (n.toInt, [newline]) :=
    strtol_formatInt (by omega) (noDigit_newline [])
  rw [← List.append_nil (dbioWriteNum n)]
  refine hline.bind ?_
  rw [hvalue, Int32.ofInt_toInt]
  exact reads_pure n

theorem reads_objid {oid : Objid} (h : -2147483648 ≤ oid ∧ oid ≤ 2147483647) :
    Reads dbioReadObjid (dbioWriteObjid oid) oid := by
  have hint : (Int32.ofInt oid).toInt = oid :=
    Int32.toInt_ofInt_of_le h.1 (Int.lt_add_one_of_le h.2)
  rw [← List.append_nil (dbioWriteObjid oid)]
  refine (reads_num _).bind ?_
  rw [hint]
  exact reads_pure oid

/-! ## Strings -/

/-- The pieces of a line are put together again. -/
theorem readPieces_line {line rest : Str} (hline : newline ∉ line) {fuel : Nat}
    (hfuel : line.length < fuel) (str : Str) :
    readPieces fuel str (line ++ newline :: rest) = some (str ++ line, rest) := by
  induction fuel generalizing line str with
  | zero => exact absurd hfuel (Nat.not_lt_zero _)
  | succ fuel ih =>
      have hne : line ++ newline :: rest ≠ [] := by simp
      by_cases hlong : 1023 ≤ line.length
      · -- a bufferful, without a newline
        have hsplit : line = line.take 1023 ++ line.drop 1023 := (List.take_append_drop 1023 line).symm
        have hlen : (line.take 1023).length = 1023 := by rw [List.length_take]; omega
        have htake : newline ∉ line.take 1023 := fun h => hline (List.mem_of_mem_take h)
        have hdrop : newline ∉ line.drop 1023 := fun h => hline (List.mem_of_mem_drop h)
        have hget : fgets 1023 (line ++ newline :: rest) =
            (line.take 1023, line.drop 1023 ++ newline :: rest) := by
          have hpart := fgets_part (line.drop 1023 ++ newline :: rest) htake
          rw [hlen, ← List.append_assoc, ← hsplit] at hpart
          exact hpart
        have hlast : (line.take 1023).getLast? ≠ some newline := fun h =>
          htake (List.mem_of_getLast? h)
        have hrest := ih hdrop (by rw [List.length_drop]; omega) (str ++ line.take 1023)
        simp only [readPieces, bind, StateT.bind, dbioReadLine, if_neg hne, Nat.add_one_sub_one,
          hget, Option.bind_some, hlen, hlast, ne_eq, not_false_eq_true, and_self, if_true, hrest]
        rw [List.append_assoc, ← hsplit]
      · have hget := fgets_line rest hline (n := 1023) (by omega)
        have hlast : (line ++ [newline]).getLast? = some newline := by
          rw [List.getLast?_append]
          rfl
        simp only [readPieces, bind, StateT.bind, dbioReadLine, if_neg hne, Nat.add_one_sub_one,
          hget, Option.bind_some, hlast, ne_eq, not_true_eq_false, and_false, if_false, if_true,
          List.dropLast_concat]
        rfl

/-- A string is read back, however long it is. -/
theorem reads_string {s : Str} (hs : newline ∉ s) : Reads dbioReadString (dbioWriteString s) s := by
  intro rest _
  rw [dbioReadString, dbioWriteString, List.append_assoc, List.singleton_append,
    readPieces_line hs]
  · rfl
  · rw [List.length_append]
    omega

/-! ## Values -/

/-- What an `int` holds. -/
def FitsInt (n : Int) : Prop := -2147483648 ≤ n ∧ n ≤ 2147483647

instance : DecidablePred FitsInt := fun _ => inferInstanceAs (Decidable (_ ∧ _))

mutual
/-- A value of the C types, without a float and without a newline in a string. -/
def Storable : Var → Prop
  | .obj oid => FitsInt oid
  | .str s => newline ∉ s
  | .list l => l.length ≤ 2147483647 ∧ AllStorable l
  | .catch n => n ≤ 2147483647
  | .finally n => n ≤ 2147483647
  | .float _ => False
  | .int _ | .err _ | .clear | .none => True

def AllStorable : List Var → Prop
  | [] => True
  | v :: vs => Storable v ∧ AllStorable vs
end

mutual
def decidableStorable : (v : Var) → Decidable (Storable v)
  | .obj oid => inferInstanceAs (Decidable (FitsInt oid))
  | .str s => inferInstanceAs (Decidable (newline ∉ s))
  | .list l =>
      have := decidableAllStorable l
      inferInstanceAs (Decidable (l.length ≤ 2147483647 ∧ AllStorable l))
  | .catch n => inferInstanceAs (Decidable (n ≤ 2147483647))
  | .finally n => inferInstanceAs (Decidable (n ≤ 2147483647))
  | .float _ => inferInstanceAs (Decidable False)
  | .int _ | .err _ | .clear | .none => inferInstanceAs (Decidable True)

def decidableAllStorable : (l : List Var) → Decidable (AllStorable l)
  | [] => inferInstanceAs (Decidable True)
  | v :: vs =>
      have := decidableStorable v
      have := decidableAllStorable vs
      inferInstanceAs (Decidable (Storable v ∧ AllStorable vs))
end

instance : DecidablePred Storable := decidableStorable

theorem errorOf_errorNum (e : Error) : errorOf (errorNum e) = some e := by
  cases e <;> rfl

theorem toInt_ofNat_of_le {n : Nat} (h : n ≤ 2147483647) :
    ¬ Int32.ofNat n < 0 ∧ (Int32.ofNat n).toInt.toNat = n := by
  have hint : (Int32.ofNat n).toInt = n := Int32.toInt_ofNat_of_lt (Nat.lt_succ_of_le h)
  rw [Int32.lt_iff_toInt_lt, hint]
  exact ⟨by rw [Int32.toInt_zero]; omega, Int.toNat_natCast n⟩

section

variable {ft : FloatText}

mutual
/-- A value is read back; the fuel for the nesting comes from its text. -/
theorem reads_var : ∀ (v : Var) {fuel : Nat}, Storable v → (dbioWriteVar ft v).length ≤ fuel →
    Reads (readVar ft (fuel + 1)) (dbioWriteVar ft v) v
  | .int n, fuel, _, _ => by
      rw [dbioWriteVar, ← List.append_nil (dbioWriteNum n)]
      exact (reads_num 0).bind ((reads_num n).bind (reads_pure _))
  | .obj oid, fuel, hv, _ => by
      have hint : (Int32.ofInt oid).toInt = oid :=
        Int32.toInt_ofInt_of_le hv.1 (Int.lt_add_one_of_le hv.2)
      have hread := (reads_num (Int32.ofInt oid)).map fun n => Var.obj n.toInt
      rw [hint] at hread
      exact (reads_num 1).bind hread
  | .str str, fuel, hv, _ => by
      rw [dbioWriteVar, ← List.append_nil (dbioWriteString str)]
      exact (reads_num 2).bind ((reads_string hv).bind (reads_pure _))
  | .err e, fuel, _, _ => by
      rw [dbioWriteVar, ← List.append_nil (dbioWriteNum (errorNum e))]
      refine (reads_num 3).bind ((reads_num (errorNum e)).bind ?_)
      rw [errorOf_errorNum]
      exact reads_pure _
  | .list l, fuel, hv, hfuel => by
      obtain ⟨hlen, hl⟩ := hv
      obtain ⟨hneg, hcount⟩ := toInt_ofNat_of_le hlen
      rw [dbioWriteVar, List.length_append, List.length_append] at hfuel
      have htag : 0 < (dbioWriteNum 4).length := by decide
      obtain ⟨fuel, rfl⟩ : ∃ k, fuel = k + 1 := ⟨fuel - 1, by omega⟩
      have hread : Reads (times (readVar ft (fuel + 1)) l.length) (dbioWriteVars ft l) l :=
        reads_vars l hl (by omega)
      rw [dbioWriteVar, ← List.append_nil (dbioWriteVars ft l)]
      refine (reads_num 4).bind ((reads_num (Int32.ofNat l.length)).bind ?_)
      rw [if_neg hneg, hcount]
      exact hread.bind (reads_pure _)
  | .clear, fuel, _, _ => by
      rw [dbioWriteVar, ← List.append_nil (dbioWriteNum 5)]
      exact (reads_num 5).bind (reads_pure _)
  | .none, fuel, _, _ => by
      rw [dbioWriteVar, ← List.append_nil (dbioWriteNum 6)]
      exact (reads_num 6).bind (reads_pure _)
  | .catch n, fuel, hv, _ => by
      obtain ⟨hneg, hcount⟩ := toInt_ofNat_of_le hv
      rw [dbioWriteVar, ← List.append_nil (dbioWriteNum (Int32.ofNat n))]
      refine (reads_num 7).bind ((reads_num (Int32.ofNat n)).bind ?_)
      rw [if_neg hneg, hcount]
      exact reads_pure _
  | .finally n, fuel, hv, _ => by
      obtain ⟨hneg, hcount⟩ := toInt_ofNat_of_le hv
      rw [dbioWriteVar, ← List.append_nil (dbioWriteNum (Int32.ofNat n))]
      refine (reads_num 8).bind ((reads_num (Int32.ofNat n)).bind ?_)
      rw [if_neg hneg, hcount]
      exact reads_pure _
  | .float _, _, hv, _ => hv.elim

theorem reads_vars : ∀ (vs : List Var) {fuel : Nat}, AllStorable vs →
    (dbioWriteVars ft vs).length ≤ fuel →
    Reads (times (readVar ft (fuel + 1)) vs.length) (dbioWriteVars ft vs) vs
  | [], fuel, _, _ => reads_pure []
  | v :: vs, fuel, hvs, hfuel => by
      rw [dbioWriteVars, List.length_append] at hfuel
      have hv : Reads (readVar ft (fuel + 1)) (dbioWriteVar ft v) v := reads_var v hvs.1 (by omega)
      have hrest : Reads (times (readVar ft (fuel + 1)) vs.length) (dbioWriteVars ft vs) vs :=
        reads_vars vs hvs.2 (by omega)
      rw [dbioWriteVars, ← List.append_nil (dbioWriteVars ft vs)]
      exact hv.bind (hrest.bind (reads_pure _))
end

/-- Whatever comes behind it, a value is read back. -/
theorem reads_dbioReadVar {v : Var} (hv : Storable v) :
    Reads (dbioReadVar ft) (dbioWriteVar ft v) v := by
  intro rest hrest
  have hlen : (dbioWriteVar ft v).length ≤ (dbioWriteVar ft v ++ rest).length := by
    rw [List.length_append]
    omega
  exact reads_var v hv hlen rest hrest

end

end Waverous
