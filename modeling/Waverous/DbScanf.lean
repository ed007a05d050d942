import Waverous.DbIo

/-! # Formatted numbers — `dbio_printf` and `dbio_scanf` of `db_io.c`

    The same kind of format writes a line of numbers and reads it.  A blank in a format takes
    every blank there is, also those of the lines that follow, and a letter in it passes over
    blanks before the letter. -/

namespace Waverous

open Readers

/-- A directive of a format: a blank, any other character, `%d`, `%u` or `%c`. -/
inductive Directive where
  | space (c : UInt8)
  | lit (c : UInt8)
  | int
  | unsigned
  | char
  deriving DecidableEq, Repr

/-- The directives of a format. -/
def directives : List Char → List Directive
  | '%' :: 'd' :: cs => .int :: directives cs
  | '%' :: 'u' :: cs => .unsigned :: directives cs
  | '%' :: 'c' :: cs => .char :: directives cs
  | c :: cs =>
      let b := UInt8.ofNat c.toNat
      (if isspace b then .space b else .lit b) :: directives cs
  | [] => []

/-- A format of the source. -/
def Directive.format (s : String) : List Directive := directives s.toList

/-! ## Writing -/

/-- `dbio_printf`. -/
def dbioPrintf : List Directive → List Int → Str
  | [], _ => []
  | .space c :: ds, args => c :: dbioPrintf ds args
  | .lit c :: ds, args => c :: dbioPrintf ds args
  | .int :: ds, a :: args => formatInt a ++ dbioPrintf ds args
  | .unsigned :: ds, a :: args => formatInt a ++ dbioPrintf ds args
  | .char :: ds, a :: args => UInt8.ofNat a.toNat :: dbioPrintf ds args
  | _ :: _, [] => []

/-- The number of arguments of a format. -/
def arity : List Directive → Nat
  | [] => 0
  | .space _ :: ds => arity ds
  | .lit _ :: ds => arity ds
  | _ :: ds => arity ds + 1

theorem dbioPrintf_append {ds args} (hargs : args.length = arity ds) (ds' : List Directive)
    (args' : List Int) :
    dbioPrintf (ds ++ ds') (args ++ args') = dbioPrintf ds args ++ dbioPrintf ds' args' := by
  induction ds generalizing args with
  | nil =>
      rw [List.eq_nil_of_length_eq_zero hargs]
      rfl
  | cons d ds ih =>
      cases d with
      | space c => exact congrArg (List.cons c) (ih hargs)
      | lit c => exact congrArg (List.cons c) (ih hargs)
      | int =>
          cases args with
          | nil => cases hargs
          | cons a args =>
              rw [List.cons_append, List.cons_append, dbioPrintf, dbioPrintf,
                ih (Nat.succ.inj hargs), List.append_assoc]
      | unsigned =>
          cases args with
          | nil => cases hargs
          | cons a args =>
              rw [List.cons_append, List.cons_append, dbioPrintf, dbioPrintf,
                ih (Nat.succ.inj hargs), List.append_assoc]
      | char =>
          cases args with
          | nil => cases hargs
          | cons a args => exact congrArg (List.cons _) (ih (Nat.succ.inj hargs))

/-! ## Reading -/

/-- No more than an `unsigned long` holds. -/
def clampUnsignedLong (n : Int) : Int :=
  if n.natAbs ≤ 18446744073709551615 then n else 18446744073709551615

/-- One directive: what it stores, if it does not fail. -/
def Directive.scan : Directive → Str → Option (List Int) × Str
  | .space _, input => (some [], input.dropWhile isspace)
  | .lit c, input =>
      let t := input.dropWhile isspace
      if t.head? = some c then (some [], t.tail) else (none, t)
  | .int, input =>
      let (n, rest) := scanNum input
      (n.map fun n => [(Int32.ofInt (clampLong n)).toInt], rest)
  | .unsigned, input =>
      let (n, rest) := scanNum input
      (n.map fun n => [(UInt32.ofInt (clampUnsignedLong n)).toNat], rest)
  | .char, [] => (none, [])
  | .char, c :: rest => (some [c.toNat], rest)

/-- `dbio_scanf`: what was stored before the end of the format or a failure. -/
def dbioScanf : List Directive → FileReader (List Int)
  | [], input => some ([], input)
  | d :: ds, input =>
      match d.scan input with
      | (none, rest) => some ([], rest)
      | (some args, rest) => do
          let (args', rest) ← dbioScanf ds rest
          some (args ++ args', rest)

/-! ## What was written is read -/

/-- The arguments are of the format, and a character is a blank. -/
def Fits : List Directive → List Int → Prop
  | [], args => args = []
  | .space _ :: ds, args => Fits ds args
  | .lit _ :: ds, args => Fits ds args
  | .int :: ds, a :: args => FitsInt a ∧ Fits ds args
  | .unsigned :: ds, a :: args => (0 ≤ a ∧ a ≤ 4294967295) ∧ Fits ds args
  | .char :: ds, a :: args => (a = 32 ∨ a = 10) ∧ Fits ds args
  | _ :: _, [] => False

/-- What may follow a directive: no blanks after a blank, no digits after a number. -/
def Directive.Before : Directive → Str → Prop
  | .space _, text => ∀ c ∈ text.head?, isspace c = false
  | .int, text => NoDigit text
  | .unsigned, text => NoDigit text
  | _, _ => True

/-- What may follow a format. -/
def FormatBefore (ds : List Directive) (rest : Str) : Prop := ∀ d ∈ ds.getLast?, d.Before rest

/-- The directive that follows does not go on where this one ends. -/
def Directive.apart : Directive → Directive → Bool
  | .space _, .space _ => false
  | .space _, .char => false
  | .int, .lit c => !isdigit c
  | .unsigned, .lit c => !isdigit c
  | .int, .int => false
  | .int, .unsigned => false
  | .unsigned, .int => false
  | .unsigned, .unsigned => false
  | _, _ => true

/-- A directive that stands for itself. -/
def Directive.proper : Directive → Bool
  | .space c => isspace c
  | .lit c => !isspace c
  | _ => true

/-- A format that reads what it has written. -/
def Readable : List Directive → Bool
  | [] => true
  | [d] => d.proper
  | d :: d' :: ds => d.proper && d.apart d' && Readable (d' :: ds)

theorem dropWhile_isspace {text : Str} (h : ∀ c ∈ text.head?, isspace c = false) :
    text.dropWhile isspace = text := by
  cases text with
  | nil => rfl
  | cons c text => rw [List.dropWhile_cons, h c rfl]; rfl

section

variable {text : Str}

theorem scan_space {b c : UInt8} (hb : isspace b = true) (h : (Directive.space c).Before text) :
    Directive.scan (.space c) (b :: text) = (some [], text) := by
  show (some [], (b :: text).dropWhile isspace) = _
  rw [List.dropWhile_cons, if_pos hb, dropWhile_isspace h]

theorem scan_lit {c : UInt8} (hc : isspace c = false) :
    Directive.scan (.lit c) (c :: text) = (some [], text) := by
  have hdrop : (c :: text).dropWhile isspace = c :: text :=
    dropWhile_isspace fun d hd => by cases hd; exact hc
  rw [Directive.scan, hdrop]
  exact if_pos rfl

theorem scan_int {a : Int} (ha : FitsInt a) (h : NoDigit text) :
    Directive.scan .int (formatInt a ++ text) = (some [a], text) := by
  obtain ⟨hmin, hmax⟩ := ha
  have hlong : clampLong a = a := by rw [clampLong]; omega
  have hint : (Int32.ofInt a).toInt = a := Int32.toInt_ofInt_of_le hmin (Int.lt_add_one_of_le hmax)
  rw [Directive.scan, scanNum_formatInt a h]
  dsimp only [Option.map_some]
  rw [hlong, hint]

theorem scan_unsigned {a : Int} (ha : 0 ≤ a ∧ a ≤ 4294967295) (h : NoDigit text) :
    Directive.scan .unsigned (formatInt a ++ text) = (some [a], text) := by
  obtain ⟨hmin, hmax⟩ := ha
  have hlong : clampUnsignedLong a = a := by rw [clampUnsignedLong, if_pos (by omega)]
  have hnum : ((UInt32.ofInt a).toNat : Int) = a := by
    show ((UInt32.ofNat (a % 4294967296).toNat).toNat : Int) = a
    rw [UInt32.toNat_ofNat']
    omega
  rw [Directive.scan, scanNum_formatInt a h]
  dsimp only [Option.map_some]
  rw [hlong, hnum]

end

theorem before_formatInt (a : Int) (text : Str) (c : UInt8) :
    (Directive.space c).Before (formatInt a ++ text) := by
  have hne : formatInt a ≠ [] := by
    rw [formatInt]
    split
    · exact List.cons_ne_nil _ _
    · exact decimal_ne_nil _
  intro b hb
  obtain ⟨d, ds, hcons⟩ := List.exists_cons_of_ne_nil hne
  rw [hcons] at hb
  cases hb
  rw [formatInt] at hcons
  split at hcons
  · cases hcons
    decide
  · have hmem : b ∈ decimal a.natAbs := hcons ▸ List.mem_cons_self
    exact (isspace_of_isdigit (decimal_digits _ b hmem)).1

theorem noDigit_space {b : UInt8} (hb : isspace b = true) (text : Str) : NoDigit (b :: text) := by
  intro c hc
  cases hc
  rw [Bool.eq_false_iff]
  intro hdigit
  rw [(isspace_of_isdigit hdigit).1] at hb
  cases hb

theorem noDigit_lit {b : UInt8} (hb : (!isdigit b) = true) (text : Str) : NoDigit (b :: text) := by
  intro c hc
  cases hc
  exact (Bool.not_eq_true' _).mp hb

/-- What is written for one directive stands before what is written for the next. -/
theorem before_next {d d' : Directive} {ds : List Directive} {args : List Int} {rest : Str}
    (hapart : d.apart d' = true) (hproper : d'.proper = true) (hargs : Fits (d' :: ds) args) :
    d.Before (dbioPrintf (d' :: ds) args ++ rest) := by
  cases d' with
  | space c =>
      cases d with
      | space _ => cases hapart
      | int => exact noDigit_space hproper _
      | unsigned => exact noDigit_space hproper _
      | lit _ => trivial
      | char => trivial
  | lit c =>
      cases d with
      | space _ =>
          intro b hb
          cases hb
          exact (Bool.not_eq_true' _).mp hproper
      | int => exact noDigit_lit hapart _
      | unsigned => exact noDigit_lit hapart _
      | lit _ => trivial
      | char => trivial
  | int =>
      cases args with
      | nil => cases hargs
      | cons a args =>
          rw [dbioPrintf, List.append_assoc]
          cases d with
          | space _ => exact before_formatInt a _ _
          | int => cases hapart
          | unsigned => cases hapart
          | lit _ => trivial
          | char => trivial
  | unsigned =>
      cases args with
      | nil => cases hargs
      | cons a args =>
          rw [dbioPrintf, List.append_assoc]
          cases d with
          | space _ => exact before_formatInt a _ _
          | int => cases hapart
          | unsigned => cases hapart
          | lit _ => trivial
          | char => trivial
  | char =>
      cases args with
      | nil => cases hargs
      | cons a args =>
          have hblank : isspace (UInt8.ofNat a.toNat) = true := by
            obtain ⟨rfl | rfl, -⟩ := hargs
            · rfl
            · rfl
          cases d with
          | space _ => cases hapart
          | int => exact noDigit_space hblank _
          | unsigned => exact noDigit_space hblank _
          | lit _ => trivial
          | char => trivial

/-- One directive takes what was written for it. -/
theorem scan_text {d : Directive} {ds : List Directive} {args : List Int} {rest : Str}
    (hproper : d.proper = true) (hargs : Fits (d :: ds) args)
    (hnext : ∀ args', Fits ds args' → d.Before (dbioPrintf ds args' ++ rest)) :
    ∃ stored args', args = stored ++ args' ∧ Fits ds args' ∧
      d.scan (dbioPrintf (d :: ds) args ++ rest) = (some stored, dbioPrintf ds args' ++ rest) := by
  cases d with
  | space c => exact ⟨[], args, rfl, hargs, scan_space hproper (hnext args hargs)⟩
  | lit c => exact ⟨[], args, rfl, hargs, scan_lit ((Bool.not_eq_true' _).mp hproper)⟩
  | int =>
      cases args with
      | nil => cases hargs
      | cons a args =>
          refine ⟨[a], args, rfl, hargs.2, ?_⟩
          rw [dbioPrintf, List.append_assoc]
          exact scan_int hargs.1 (hnext args hargs.2)
  | unsigned =>
      cases args with
      | nil => cases hargs
      | cons a args =>
          refine ⟨[a], args, rfl, hargs.2, ?_⟩
          rw [dbioPrintf, List.append_assoc]
          exact scan_unsigned hargs.1 (hnext args hargs.2)
  | char =>
      cases args with
      | nil => cases hargs
      | cons a args =>
          refine ⟨[a], args, rfl, hargs.2, ?_⟩
          obtain ⟨rfl | rfl, -⟩ := hargs
          · rfl
          · rfl

/-- **A format reads what it has written.** -/
theorem reads_dbioScanf {ds : List Directive} {args : List Int} (hds : Readable ds = true)
    (hargs : Fits ds args) :
    ReadsBefore (FormatBefore ds) (dbioScanf ds) (dbioPrintf ds args) args := by
  induction ds generalizing args with
  | nil =>
      cases hargs
      exact fun _ _ => rfl
  | cons d ds ih =>
      intro rest hrest
      obtain ⟨hproper, hnext, hlater, hrest'⟩ : d.proper = true ∧
          (∀ args', Fits ds args' → d.Before (dbioPrintf ds args' ++ rest)) ∧
          Readable ds = true ∧ FormatBefore ds rest := by
        cases ds with
        | nil => exact ⟨hds, fun _ _ => hrest d rfl, rfl, nofun⟩
        | cons d' ds =>
            rw [Readable, Bool.and_eq_true, Bool.and_eq_true] at hds
            obtain ⟨⟨hproper, hapart⟩, hds⟩ := hds
            have hproper' : d'.proper = true := by
              cases ds with
              | nil => exact hds
              | cons _ _ =>
                  rw [Readable, Bool.and_eq_true, Bool.and_eq_true] at hds
                  exact hds.1.1
            refine ⟨hproper, fun args' => before_next hapart hproper', hds, fun e he => hrest e ?_⟩
            rw [List.getLast?_cons_cons]
            exact he
      obtain ⟨stored, args', rfl, hargs', hscan⟩ := scan_text hproper hargs hnext
      rw [dbioScanf, hscan]
      dsimp only
      rw [ih hlater hargs' rest hrest']
      rfl

/-- No blank comes first. -/
def NoBlank (text : Str) : Prop := ∀ c ∈ text.head?, isspace c = false

instance : DecidablePred NoBlank := fun text =>
  inferInstanceAs (Decidable (∀ c ∈ text.head?, isspace c = false))

/-- A format that ends with a newline also takes the blanks behind it. -/
theorem reads_format (ds : List Directive) (args : List Int) {c : UInt8} (hds : Readable ds = true)
    (hlast : ds.getLast? = some (.space c)) (hargs : Fits ds args) :
    ReadsBefore NoBlank (dbioScanf ds) (dbioPrintf ds args) args := by
  refine (reads_dbioScanf hds hargs).mono fun rest hrest d hd => ?_
  rw [hlast] at hd
  cases hd
  exact hrest

/-- A format that ends with `%c`, which reads a blank. -/
theorem reads_char_format {ds : List Directive} {args : List Int} (hds : Readable ds = true)
    (hlast : ds.getLast? = some .char) (hargs : Fits ds args) :
    Reads (dbioScanf ds) (dbioPrintf ds args) args := by
  refine (reads_dbioScanf hds hargs).mono fun rest _ d hd => ?_
  rw [hlast] at hd
  cases hd
  trivial

end Waverous
