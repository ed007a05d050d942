import Waverous.Streams
import Waverous.Utils

/-! # Making strings — `list.c`, `unparse.c`, `utils.c`, `execute.c`

    The functions and operations that make new strings out of their arguments: printing of
    values, the binary codecs, `substitute`, `strsub`, `chr`, and assignment to an index or a
    range.  A floating-point number is printed as `printf` prints it with `%.15g`, by exact
    arithmetic on its value. -/

namespace Waverous

/-! ## Floating-point numbers -/

/-- `%u`. -/
def decimal (n : Nat) : Str := (Nat.toDigits 10 n).map fun c => UInt8.ofNat c.toNat

/-- A quotient, rounded to the nearest integer, and to the even one of two. -/
def roundHalfEven (num den : Nat) : Nat :=
  let q := num / den
  let r := num % den
  if den < 2 * r ∨ 2 * r = den ∧ q % 2 = 1 then q + 1 else q

/-- The exponent of the first decimal digit of a quotient. -/
def leadingExponent (num den : Nat) : Int :=
  let x : Int := ((Nat.toDigits 10 num).length : Int) - (Nat.toDigits 10 den).length
  let fits := if 0 ≤ x then den * 10 ^ x.toNat ≤ num else den ≤ num * 10 ^ (-x).toNat
  if fits then x else x - 1

/-- The first 15 digits, rounded, and the exponent of the first one. -/
def digits15 (num den : Nat) : Nat × Int :=
  let x := leadingExponent num den
  let d :=
    if 0 ≤ 14 - x then roundHalfEven (num * 10 ^ (14 - x).toNat) den
    else roundHalfEven num (den * 10 ^ (x - 14).toNat)
  if d = 10 ^ 15 then (10 ^ 14, x + 1) else (d, x)

/-- Digits behind the point, without the zeros at their end. -/
def fraction (digits : Str) : Str :=
  match (digits.reverse.dropWhile (· == 48)).reverse with
  | [] => []
  | digits => 46 :: digits

/-- `%.15g` of a positive number. -/
def formatPositive (num den : Nat) : Str :=
  let (d, x) := digits15 num den
  let digits := decimal d
  if -4 ≤ x ∧ x < 15 then
    if 0 ≤ x then digits.take (x.toNat + 1) ++ fraction (digits.drop (x.toNat + 1))
    else 48 :: fraction (List.replicate ((-x).toNat - 1) 48 ++ digits)
  else
    let exponent := decimal x.natAbs
    digits.take 1 ++ fraction (digits.drop 1) ++ 101 :: (if x < 0 then 45 else 43) ::
      ((if exponent.length < 2 then [48] else []) ++ exponent)

/-- `%.15g` of the double with these bits. -/
def formatG (bits : UInt64) : Str :=
  let exponent := (bits.toNat / 2 ^ 52) % 2 ^ 11
  let frac := bits.toNat % 2 ^ 52
  let sign := if bits.toNat / 2 ^ 63 = 1 then [45] else []
  sign ++
    if exponent = 2047 then Str.ofString (if frac = 0 then "inf" else "nan")
    else if exponent = 0 ∧ frac = 0 then [48]
    else if exponent = 0 then formatPositive frac (2 ^ 1074)
    else if exponent < 1075 then formatPositive (2 ^ 52 + frac) (2 ^ (1075 - exponent))
    else formatPositive ((2 ^ 52 + frac) * 2 ^ (exponent - 1075)) 1

/-- `%g` in `stream_printf`. -/
def printG (bits : UInt64) : Str :=
  let buffer := (formatG bits).take 39
  if (46 : UInt8) ∉ buffer ∧ (101 : UInt8) ∉ buffer then buffer ++ Str.ofString ".0" else buffer

example : printG 0x3FB999999999999A = Str.ofString "0.1" ∧
    printG 0xC059000000000000 = Str.ofString "-100.0" ∧
    printG 0x54B249AD2594C37D = Str.ofString "1e+100" := by decide +kernel

/-! ## Printing -/

/-- `unparse_error`. -/
def unparseError : Error → Str
  | .eNone => Str.ofString "No error"
  | .eType => Str.ofString "Type mismatch"
  | .eDiv => Str.ofString "Division by zero"
  | .ePerm => Str.ofString "Permission denied"
  | .ePropnf => Str.ofString "Property not found"
  | .eVerbnf => Str.ofString "Verb not found"
  | .eVarnf => Str.ofString "Variable not found"
  | .eInvind => Str.ofString "Invalid indirection"
  | .eRecmove => Str.ofString "Recursive move"
  | .eMaxrec => Str.ofString "Too many verb calls"
  | .eRange => Str.ofString "Range error"
  | .eArgs => Str.ofString "Incorrect number of arguments"
  | .eNacc => Str.ofString "Move refused by destination"
  | .eInvarg => Str.ofString "Invalid argument"
  | .eQuota => Str.ofString "Resource limit exceeded"
  | .eFloat => Str.ofString "Floating-point arithmetic error"

/-- `error_name`. -/
def errorName : Error → Str
  | .eNone => Str.ofString "E_NONE"
  | .eType => Str.ofString "E_TYPE"
  | .eDiv => Str.ofString "E_DIV"
  | .ePerm => Str.ofString "E_PERM"
  | .ePropnf => Str.ofString "E_PROPNF"
  | .eVerbnf => Str.ofString "E_VERBNF"
  | .eVarnf => Str.ofString "E_VARNF"
  | .eInvind => Str.ofString "E_INVIND"
  | .eRecmove => Str.ofString "E_RECMOVE"
  | .eMaxrec => Str.ofString "E_MAXREC"
  | .eRange => Str.ofString "E_RANGE"
  | .eArgs => Str.ofString "E_ARGS"
  | .eNacc => Str.ofString "E_NACC"
  | .eInvarg => Str.ofString "E_INVARG"
  | .eQuota => Str.ofString "E_QUOTA"
  | .eFloat => Str.ofString "E_FLOAT"

/-- `%d`. -/
def printInt (num : Int32) : Str := itoa num 10

/-- `#%d`. -/
def printObj (oid : Objid) : Str := 35 :: itoa (Int32.ofInt oid) 10

/-- The `switch` of `list2str`; `none` is the panic. -/
def valueText : Var → Option Str
  | .int num => some (printInt num)
  | .obj oid => some (printObj oid)
  | .str s => some s
  | .err e => some (unparseError e)
  | .float bits => some (printG bits)
  | .list _ => some (Str.ofString "{list}")
  | _ => none

/-- `list2str`. -/
def list2str : List Var → Option Str
  | [] => some []
  | v :: args => do
      let s ← valueText v
      let rest ← list2str args
      some (s ++ rest)

/-- A string between quotes. -/
def quote (s : Str) : Str :=
  34 :: (s.flatMap fun c => if c = 34 ∨ c = 92 then [92, c] else [c]) ++ [34]

mutual
/-- `print_to_stream`. -/
def printToStream : Var → Str
  | .int num => printInt num
  | .obj oid => printObj oid
  | .err e => errorName e
  | .float bits => printG bits
  | .str s => quote s
  | .list l => 123 :: printList l true ++ [125]
  | _ => Str.ofString ">>Unknown value<<"

/-- The elements of a list; before all but the first there is `, `. -/
def printList : List Var → Bool → Str
  | [], _ => []
  | v :: vs, isFirst =>
      (if isFirst then [] else Str.ofString ", ") ++ printToStream v ++ printList vs false
end

example : printToStream (.list [.int (-7), .str (Str.ofString "a\"b"), .list [], .obj 3]) =
    Str.ofString "\x7b-7, \"a\\\"b\", \x7b\x7d, #3\x7d" := by decide

/-! ## The binary codecs -/

mutual
/-- `encode_binary`; `none` is a value that cannot be encoded. -/
def encodeBinary : Var → Option Str
  | .int num => if 0 ≤ num ∧ num < 256 then some [UInt8.ofNat num.toInt.toNat] else none
  | .str s => some s
  | .list l => encodeBinaryList l
  | _ => none

def encodeBinaryList : List Var → Option Str
  | [] => some []
  | v :: vs => do
      let s ← encodeBinary v
      let rest ← encodeBinaryList vs
      some (s ++ rest)
end

/-- The loop of `bf_decode_binary`; `s` is the stream, which has been begun if `inString`. -/
def decodeRuns : Str → Bool → Str → List Var
  | s, inString, [] => if inString then [.str s] else []
  | s, inString, c :: bytes =>
      if isgraph c ∨ c = 32 ∨ c = 9 then decodeRuns (s ++ [c]) true bytes
      else
        (if inString then [.str s] else []) ++ .int (Int32.ofNat c.toNat) :: decodeRuns [] false bytes

/-! ## Parts of strings and lists -/

/-- `invalid_pair`, negated. -/
def validPair (num1 num2 : Int32) (max : Nat) : Bool :=
  decide (num1 = 0 ∧ num2 = -1 ∨
    0 < num1.toInt ∧ num1.toInt - 1 ≤ num2.toInt ∧ num2.toInt ≤ max)

/-- One of the nine pairs of `check_subs_list`. -/
def checkPair (max : Nat) : Var → Option (Int32 × Int32)
  | .list [.int num1, .int num2] => if validPair num1 num2 max then some (num1, num2) else none
  | _ => none

/-- `check_subs_list`: the pairs, that of the whole first, and the subject. -/
def checkSubsList (subs : List Var) : Option (List (Int32 × Int32) × Str) :=
  match subs with
  | [.int num1, .int num2, .list pairs, .str subj] => do
      if pairs.length = 9 ∧ validPair num1 num2 subj.length then
        let ps ← pairs.mapM (checkPair subj.length)
        some ((num1, num2) :: ps, subj)
      else none
  | _ => none

/-- The characters of the subject that a pair stands for. -/
def copyPair (subject : Str) (pair : Int32 × Int32) : Str :=
  let start := pair.1.toInt - 1
  let «end» := pair.2.toInt - 1
  (subject.drop start.toNat).take («end» - start + 1).toNat

/-- The loop of `bf_substitute`; `none` is E_INVARG. -/
def substituteLoop (pairs : List (Int32 × Int32)) (subject : Str) : Str → Option Str
  | [] => some []
  | 37 :: c :: template => do
      let part ← (if c = 37 then some [37]
        else if 48 ≤ c ∧ c ≤ 57 then (pairs[(c - 48).toNat]?).map (copyPair subject)
        else none)
      let rest ← substituteLoop pairs subject template
      some (part ++ rest)
  | c :: template =>
      if c = 37 then none else (substituteLoop pairs subject template).map (c :: ·)

/-- `!strncmp(source, what, lwhat)` or, without regard to case, `!mystrncasecmp(..)`. -/
def startsWith (what source : Str) (caseCounts : Bool) : Bool :=
  if caseCounts then what.isPrefixOf source else (what.map cmap).isPrefixOf (source.map cmap)

/-- `strsub`: while `skip` is positive, characters of a match are passed over. -/
def strsub (what withStr : Str) (caseCounts : Bool) : Nat → Str → Str
  | _, [] => []
  | skip + 1, _ :: source => strsub what withStr caseCounts skip source
  | 0, c :: source =>
      if startsWith what (c :: source) caseCounts then
        withStr ++ strsub what withStr caseCounts (what.length - 1) source
      else c :: strsub what withStr caseCounts 0 source

/-- `strrangeset` and `listrangeset`. -/
def setRange {α : Type} (base : List α) («from» «to» : Int32) (value : List α) : List α :=
  base.take («from».toInt - 1).toNat ++ value ++ base.drop «to».toInt.toNat

/-- `rangeset_check`. -/
def rangesetCheck («end» : Nat) («from» «to» : Int32) : Bool :=
  decide (((«end» : Int) + 1 < «from».toInt) ∨ «to».toInt < 0)

/-! ## The operations -/

/-- An operation that makes strings, with its arguments as far as they have been checked. -/
inductive StringOp where
  | chr (num : Int32)
  | decodeBinary (string : Str) (fully : Option Var)
  | encodeBinary (args : List Var)
  | substitute (template : Str) (subs : List Var)
  | strsub (source what withStr : Str) (caseMatters : Option Var)
  /-- EOP_RANGESET -/
  | rangeset (base «from» «to» value : Var)
  /-- OP_INDEXSET -/
  | indexset (list index value : Var)
  | tostr (args : List Var)
  | toliteral (value : Var)

/-- `bf_chr`; a string ends at its first NUL. -/
def bfChr (wizard : Bool) (num : Int32) : Except Error Var :=
  if wizard = false then .error .ePerm
  else if num = 10 then .error .eInvarg
  else
    let c := UInt8.ofInt num.toInt
    .ok (.str (if c = 0 then [] else [c]))

/-- `bf_decode_binary`. -/
def bfDecodeBinary (string : Str) (fully : Option Var) : Except Error Var :=
  match binaryToRawBytes string with
  | none => .error .eInvarg
  | some bytes =>
      if fully.any isTrue then .ok (.list (bytes.map fun c => .int (Int32.ofNat c.toNat)))
      else .ok (.list (decodeRuns [] false bytes))

/-- `bf_encode_binary`. -/
def bfEncodeBinary (args : List Var) : Except Error Var :=
  match encodeBinaryList args with
  | none => .error .eInvarg
  | some bytes => .ok (.str (rawBytesToBinary bytes))

/-- `bf_substitute`. -/
def bfSubstitute (template : Str) (subs : List Var) : Except Error Var :=
  match checkSubsList subs with
  | none => .error .eInvarg
  | some (pairs, subject) =>
      match substituteLoop pairs subject template with
      | none => .error .eInvarg
      | some s => .ok (.str s)

/-- `bf_strsub`. -/
def bfStrsub (source what withStr : Str) (caseMatters : Option Var) : Except Error Var :=
  if what = [] then .error .eInvarg
  else .ok (.str (strsub what withStr (caseMatters.any isTrue) 0 source))

/-- EOP_RANGESET. -/
def eopRangeset (base «from» «to» value : Var) : Except Error Var :=
  match base, «from», «to», value with
  | .list base, .int «from», .int «to», .list value =>
      if rangesetCheck base.length «from» «to» then .error .eRange
      else .ok (.list (setRange base «from» «to» value))
  | .str base, .int «from», .int «to», .str value =>
      if rangesetCheck base.length «from» «to» then .error .eRange
      else .ok (.str (setRange base «from» «to» value))
  | _, _, _, _ => .error .eType

/-- OP_INDEXSET. -/
def opIndexset (list index value : Var) : Except Error Var :=
  match list, index, value with
  | .list l, .int i, value =>
      if i.toInt < 1 ∨ (l.length : Int) < i.toInt then .error .eRange
      else .ok (.list (l.set (i.toInt - 1).toNat value))
  | .str s, .int i, .str value =>
      if i.toInt < 1 ∨ (s.length : Int) < i.toInt then .error .eRange
      else
        match value with
        | [c] => .ok (.str (s.set (i.toInt - 1).toNat c))
        | _ => .error .eInvarg
  | _, _, _ => .error .eType

/-- Perform an operation; `wizard` is whether the programmer is one, and `none` is a panic. -/
def StringOp.run (wizard : Bool) : StringOp → Option (Except Error Var)
  | .chr num => some (bfChr wizard num)
  | .decodeBinary string fully => some (bfDecodeBinary string fully)
  | .encodeBinary args => some (bfEncodeBinary args)
  | .substitute template subs => some (bfSubstitute template subs)
  | .strsub source what withStr caseMatters => some (bfStrsub source what withStr caseMatters)
  | .rangeset base «from» «to» value => some (eopRangeset base «from» «to» value)
  | .indexset list index value => some (opIndexset list index value)
  | .tostr args => (list2str args).map fun s => .ok (.str s)
  | .toliteral value => some (.ok (.str (printToStream value)))

example : (StringOp.substitute (Str.ofString "<%1> %0") [.int 1, .int 3, .list (.list [.int 2, .int 3] ::
    List.replicate 8 (.list [.int 0, .int (-1)])), .str (Str.ofString "abc")]).run false =
    some (.ok (.str (Str.ofString "<bc> abc"))) := by rfl

end Waverous
