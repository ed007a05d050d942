import Waverous.DbIo
import Waverous.Grammar
import Waverous.Utils

/-! # The lexer — `parser.y`, `keywords.gperf`

    The client gives the characters of the text and then `EOF` for ever.  A character that is put
    back is one that has not been taken, so what is left of the text is the unget buffer and the
    client's characters together.  The number of the line is counted in white space only, and a
    comment may end later than at the first `*` and slash in it. -/

namespace Waverous

/-- `DB_Version`. -/
inductive DbVersion where
  | prehistory | exceptions | breakCont | float | bfBugFixed
  deriving DecidableEq

def DbVersion.num : DbVersion → Nat
  | prehistory => 0
  | exceptions => 1
  | breakCont => 2
  | float => 3
  | bfBugFixed => 4

instance : LE DbVersion := ⟨fun a b => a.num ≤ b.num⟩

instance (a b : DbVersion) : Decidable (a ≤ b) := inferInstanceAs (Decidable (a.num ≤ b.num))

/-! ## Keywords -/

/-- `struct keyword`. -/
structure Keyword where
  name : String
  version : DbVersion
  token : Token

/-- The word set of `keywords.gperf`. -/
def keywords : List Keyword :=
  [⟨"if", .prehistory, .if⟩, ⟨"else", .prehistory, .else⟩, ⟨"elseif", .prehistory, .elseif⟩,
    ⟨"endif", .prehistory, .endif⟩, ⟨"for", .prehistory, .for⟩, ⟨"in", .prehistory, .in⟩,
    ⟨"endfor", .prehistory, .endfor⟩, ⟨"fork", .prehistory, .fork⟩,
    ⟨"endfork", .prehistory, .endfork⟩, ⟨"return", .prehistory, .return⟩,
    ⟨"while", .prehistory, .while⟩, ⟨"endwhile", .prehistory, .endwhile⟩,
    ⟨"try", .exceptions, .try⟩, ⟨"except", .exceptions, .except⟩,
    ⟨"finally", .exceptions, .finally⟩, ⟨"endtry", .exceptions, .endtry⟩,
    ⟨"ANY", .exceptions, .any⟩, ⟨"break", .breakCont, .break⟩,
    ⟨"continue", .breakCont, .continue⟩, ⟨"E_NONE", .prehistory, .error .eNone⟩,
    ⟨"E_TYPE", .prehistory, .error .eType⟩, ⟨"E_DIV", .prehistory, .error .eDiv⟩,
    ⟨"E_PERM", .prehistory, .error .ePerm⟩, ⟨"E_PROPNF", .prehistory, .error .ePropnf⟩,
    ⟨"E_VERBNF", .prehistory, .error .eVerbnf⟩, ⟨"E_VARNF", .prehistory, .error .eVarnf⟩,
    ⟨"E_INVIND", .prehistory, .error .eInvind⟩, ⟨"E_RECMOVE", .prehistory, .error .eRecmove⟩,
    ⟨"E_MAXREC", .prehistory, .error .eMaxrec⟩, ⟨"E_RANGE", .prehistory, .error .eRange⟩,
    ⟨"E_ARGS", .prehistory, .error .eArgs⟩, ⟨"E_NACC", .prehistory, .error .eNacc⟩,
    ⟨"E_INVARG", .prehistory, .error .eInvarg⟩, ⟨"E_QUOTA", .prehistory, .error .eQuota⟩,
    ⟨"E_FLOAT", .float, .error .eFloat⟩]

/-- `find_keyword`. -/
def findKeyword (word : Str) : Option Keyword :=
  keywords.find? fun k => strcaseEq (Str.ofString k.name) word

/-! ## The state -/

/-- What a call of the parser is given. -/
structure LexEnv where
  languageVersion : DbVersion
  /-- The client has a function for warnings. -/
  warning : Bool
  strtod : Str → UInt64
  /-- `IS_REAL`. -/
  isReal : UInt64 → Bool

/-- What the client is told. -/
structure Message where
  isWarning : Bool
  text : Str
  deriving DecidableEq

structure Lexer where
  /-- What is left of the text. -/
  rest : Str
  lineno : Nat
  nerrors : Nat
  mustRenameKeywords : Bool
  messages : List Message
  deriving DecidableEq

/-- `parse_program` before `yyparse`. -/
def Lexer.init (text : Str) : Lexer := ⟨text, 1, 0, false, []⟩

/-- `fmt_error`. -/
def fmtError (lineno : Nat) (s : Str) : Str :=
  Str.ofString "Line " ++ (decimal lineno ++ (Str.ofString ":  " ++ s))

/-- `error`. -/
def Lexer.error (s : Lexer) (msg : Str) : Lexer :=
  { s with nerrors := s.nerrors + 1, messages := s.messages ++ [⟨false, fmtError s.lineno msg⟩] }

/-- `yyerror`. -/
def Lexer.yyerror (s : Lexer) (msg : String) : Lexer := s.error (Str.ofString msg)

/-- `warning`. -/
def Lexer.warning (env : LexEnv) (s : Lexer) (msg : Str) : Lexer :=
  if env.warning then { s with messages := s.messages ++ [⟨true, fmtError s.lineno msg⟩] }
  else s.error msg

/-! ## Tokens

    Each of these has taken `c`, and `none` is the end of the program. -/

def isalpha (c : UInt8) : Bool := decide (65 ≤ c ∧ c ≤ 90 ∨ 97 ≤ c ∧ c ≤ 122)

/-- What goes on with an identifier. -/
def isIdChar (c : UInt8) : Bool := isalpha c || isdigit c || c == 95

/-- The `int` of digits, which wraps. -/
def intOfDigits (digits : Str) : Int32 :=
  digits.foldl (fun n c => n * 10 + Int32.ofNat (c.toNat - 48)) 0

/-- `follow`. -/
def follow (s : Lexer) (expect : UInt8) (ifyes ifno : Token) : Option Token × Lexer :=
  match s.rest with
  | [] => (some ifno, s)
  | c :: rest => if c = expect then (some ifyes, { s with rest }) else (some ifno, s)

/-- The `switch` at the end of `yylex`. -/
def lexOperator (s : Lexer) (c : UInt8) : Option Token × Lexer :=
  if c = 62 then follow s 61 .ge (.char '>')
  else if c = 60 then follow s 61 .le (.char '<')
  else if c = 61 then
    if s.rest.head? = some 61 then follow s 61 .eq (.char '=') else follow s 62 .arrow (.char '=')
  else if c = 33 then follow s 61 .ne (.char '!')
  else if c = 124 then follow s 124 .or (.char '|')
  else if c = 38 then follow s 38 .and (.char '&')
  else if c = 46 then follow s 46 .to (.char '.')
  else (some (.char (Char.ofNat c.toNat)), s)

/-- Behind `#`. -/
def lexObject (s : Lexer) : Option Token × Lexer :=
  let negative := s.rest.head? = some 45
  let rest := if negative then s.rest.tail else s.rest
  let digits := rest.takeWhile isdigit
  if digits = [] then (none, { s with rest }.yyerror "Malformed object number")
  else
    let oid := intOfDigits digits
    (some (.object (if negative then -oid else oid).toInt),
      { s with rest := rest.dropWhile isdigit })

/-- A number so far: it is a floating-point one, its text, and what is left. -/
structure Numeral where
  isFloat : Bool
  text : Str
  rest : Str

/-- The point of a number whose digits before it are known; `none` is no number at all. -/
def lexPoint (env : LexEnv) (digits rest : Str) : Option Numeral :=
  match rest with
  | 46 :: s =>
      if .float ≤ env.languageVersion then
        let fraction := s.takeWhile isdigit
        if fraction ≠ [] then some ⟨true, digits ++ 46 :: fraction, s.dropWhile isdigit⟩
        else if digits = [] then none
        else if s.head? ≠ some 46 then some ⟨true, digits ++ [46], s⟩
        else some ⟨false, digits, rest⟩
      else some ⟨false, digits, rest⟩
  | _ => some ⟨false, digits, rest⟩

/-- The sign of an exponent, and what is left. -/
def lexSign : Str → Str × Str
  | [] => ([], [])
  | c :: s => if c = 43 ∨ c = 45 then ([c], s) else ([], c :: s)

/-- The exponent of a number; without digits, it fails at what is left. -/
def lexExponent (env : LexEnv) (n : Numeral) : Except Str Numeral :=
  match n.rest with
  | e :: s =>
      if .float ≤ env.languageVersion ∧ (e = 101 ∨ e = 69) then
        let r := lexSign s
        let digits := r.2.takeWhile isdigit
        if digits = [] then .error r.2
        else .ok ⟨true, n.text ++ e :: (r.1 ++ digits), r.2.dropWhile isdigit⟩
      else .ok n
  | [] => .ok n

def lexNumber (env : LexEnv) (s : Lexer) (c : UInt8) : Option Token × Lexer :=
  let digits := (c :: s.rest).takeWhile isdigit
  match lexPoint env digits ((c :: s.rest).dropWhile isdigit) with
  | none => lexOperator s 46
  | some n =>
      match lexExponent env n with
      | .error rest => (none, { s with rest }.yyerror "Malformed floating-point literal")
      | .ok n =>
          let s := { s with rest := n.rest }
          if n.isFloat then
            let d := env.strtod n.text
            if env.isReal d then (some (.float d), s)
            else (some (.float 0), s.yyerror "Floating-point literal out of range")
          else (some (.integer (intOfDigits digits)), s)

def lexWord (env : LexEnv) (s : Lexer) (c : UInt8) : Option Token × Lexer :=
  let buf := c :: s.rest.takeWhile isIdChar
  let s := { s with rest := s.rest.dropWhile isIdChar }
  match findKeyword buf with
  | some k =>
      if k.version ≤ env.languageVersion then (some k.token, s)
      else
        -- a new keyword as an identifier
        let s := if s.mustRenameKeywords then s
          else s.warning env (Str.ofString "Renaming old use of new keyword: " ++ buf)
        (some (.id buf), { s with mustRenameKeywords := true })
  | none => (some (.id buf), s)

/-- The loop over a string: what is in it, whether it is closed, and what is left.  A newline that
    it meets is taken. -/
def stringLoop : Str → Str × Bool × Str
  | [] => ([], false, [])
  | 34 :: s => ([], true, s)
  | 92 :: 10 :: s | 10 :: s => ([], false, s)
  | [92] => ([], false, [])
  | 92 :: c :: s | c :: s => (c :: (stringLoop s).1, (stringLoop s).2)

/-- Behind a quote; the stream ends at a NUL in it. -/
def lexString (s : Lexer) : Option Token × Lexer :=
  let r := stringLoop s.rest
  let t := { s with rest := r.2.2 }
  (some (.string (r.1.takeWhile (· ≠ 0))), if r.2.1 then t else t.yyerror "Missing quote")

/-- What `yylex` does with the first character behind white space and comments. -/
def lexToken (env : LexEnv) (s : Lexer) : Option Token × Lexer :=
  match s.rest with
  | [] => (none, s)
  | c :: rest =>
      let s := { s with rest }
      if c = 47 then (some (.char '/'), s)
      else if c = 35 then lexObject s
      else if isdigit c ∨ c = 46 ∧ .float ≤ env.languageVersion then lexNumber env s c
      else if isalpha c ∨ c = 95 then lexWord env s c
      else if c = 34 then lexString s
      else lexOperator s c

/-! ## White space and comments -/

/-- The loop over white space, which counts the lines; it has read one character more. -/
def skipSpace : Nat → Str → Nat × Str
  | lineno, [] => (lineno, [])
  | lineno, c :: s =>
      let lineno' := if c = newline then lineno + 1 else lineno
      if isspace c then skipSpace lineno' s else (lineno', c :: s)

/-- The loop over a comment; `none` is `EOF`. -/
def commentLoop : Str → Option Str
  | [] => none
  | 42 :: 47 :: s => some s
  | 42 :: _ :: s | _ :: s => commentLoop s

theorem skipSpace_eq (lineno : Nat) (s : Str) : skipSpace lineno s =
    (lineno + (s.takeWhile isspace).count newline, s.dropWhile isspace) := by
  induction s generalizing lineno with
  | nil => rfl
  | cons c s ih =>
      rw [skipSpace]
      by_cases hc : isspace c = true
      · rw [if_pos hc, ih, List.takeWhile_cons_of_pos hc, List.dropWhile_cons_of_pos hc,
          List.count_cons]
        by_cases h10 : c = newline
        · rw [if_pos h10, if_pos (beq_iff_eq.mpr h10), Nat.add_assoc, Nat.add_comm 1]
        · rw [if_neg h10, if_neg (mt beq_iff_eq.mp h10), Nat.add_zero]
      · have h10 : c ≠ newline := by
          rintro rfl
          exact hc rfl
        rw [if_neg hc, if_neg h10, List.takeWhile_cons_of_neg hc, List.dropWhile_cons_of_neg hc]
        rfl

theorem commentLoop_pair {c : UInt8} (h : c ≠ 47) (s : Str) :
    commentLoop (42 :: c :: s) = commentLoop s := by
  rw [commentLoop]
  exact h

theorem commentLoop_other {c : UInt8} (h : c ≠ 42) (s : Str) :
    commentLoop (c :: s) = commentLoop s := by
  rw [commentLoop]
  · exact fun _ hc _ => h hc
  · exact fun _ _ hc _ => h hc

/-- What the loop meets in a comment. -/
theorem comment_cases {P : Str → Prop} (nil : P []) (closed : ∀ s, P (42 :: 47 :: s))
    (pair : ∀ c s, c ≠ 47 → P s → P (42 :: c :: s)) (last : P [42])
    (other : ∀ c s, c ≠ 42 → P s → P (c :: s)) (s : Str) : P s := by
  induction s using commentLoop.induct with
  | case1 => exact nil
  | case2 s => exact closed s
  | case3 c s hc ih => exact pair c s hc ih
  | case4 c s hc hc' ih =>
      by_cases h : c = 42
      · cases s with
        | nil => exact h ▸ last
        | cons d s => exact absurd rfl (hc' d s h)
      · exact other c s h ih

theorem commentLoop_length {s t : Str} (h : commentLoop s = some t) : t.length < s.length := by
  induction s using comment_cases with
  | nil => exact nomatch h
  | closed s =>
      obtain rfl : s = t := Option.some.inj h
      show s.length < s.length + 1 + 1
      omega
  | pair c s hc ih =>
      rw [commentLoop_pair hc] at h
      have := ih h
      show t.length < s.length + 1 + 1
      omega
  | last => exact nomatch h
  | other c s hc ih =>
      rw [commentLoop_other hc] at h
      exact Nat.lt_succ_of_lt (ih h)

/-- What is behind the opening of a comment. -/
def opened : Str → Option Str
  | 47 :: 42 :: body => some body
  | _ => none

theorem opened_length {s body : Str} (h : opened s = some body) : body.length < s.length := by
  unfold opened at h
  split at h
  · cases h
    show body.length < body.length + 1 + 1
    omega
  · exact nomatch h

/-- `start_over` to the token: the number of the line, and what is left; `none` is the end of the
    program in a comment. -/
def startOver (lineno : Nat) (s : Str) : Nat × Option Str :=
  let r := skipSpace lineno s
  match _h : opened r.2 with
  | none => (r.1, some r.2)
  | some body =>
      match _h' : commentLoop body with
      | none => (r.1, none)
      | some rest => startOver r.1 rest
termination_by s.length
decreasing_by
  have hopened := opened_length _h
  have hclosed := commentLoop_length _h'
  have hle := (List.dropWhile_suffix isspace (l := s)).length_le
  rw [show r.2 = s.dropWhile isspace from congrArg Prod.snd (skipSpace_eq lineno s)] at hopened
  omega

/-- `yylex`. -/
def yylex (env : LexEnv) (s : Lexer) : Option Token × Lexer :=
  match startOver s.lineno s.rest with
  | (lineno, none) =>
      (none, { s with lineno, rest := [] }.yyerror "End of program while in a comment")
  | (lineno, some rest) => lexToken env { s with lineno, rest }

/-- The state after the first `n` calls for a text. -/
def lexed (env : LexEnv) (text : Str) : Nat → Lexer
  | 0 => .init text
  | n + 1 => (yylex env (lexed env text n)).2

end Waverous
