import Waverous.Lexer
import Mathlib.Algebra.Ring.Parity
import Mathlib.Data.List.TakeWhile
import Mathlib.Data.Nat.Find

/-! # Comments and lines of a text — `parser.y`

    A comment ends at the first `*` and slash in it if the run of `*` before that slash is odd.
    The number of the line is right as long as no comment has a newline and no string is broken
    off by one: each of these takes a newline and does not count it. -/

namespace Waverous

/-! ## What is asked of a call -/

/-- The first `*` and slash in what follows the opening of a comment. -/
structure IsFirstEnd (body inner rest : Str) : Prop where
  eq : body = inner ++ 42 :: 47 :: rest
  first : ∀ inner' rest', body = inner' ++ 42 :: 47 :: rest' → inner.length ≤ inner'.length

/-- A comment that is not ended. -/
def Unterminated (body : Str) : Prop := ∀ inner rest, body ≠ inner ++ 42 :: 47 :: rest

/-- A call whose text is `s` goes into a comment, in front of `body`. -/
inductive Enters : Str → Str → Prop where
  | here {s body : Str} : opened (s.dropWhile isspace) = some body → Enters s body
  | later {s body rest body' : Str} : opened (s.dropWhile isspace) = some body →
      commentLoop body = some rest → Enters rest body' → Enters s body'

/-- The number of the line is one more than the newlines that have been taken. -/
def LineRight (text : Str) (s : Lexer) : Prop :=
  ∃ consumed, text = consumed ++ s.rest ∧ s.lineno = 1 + consumed.count newline

/-- What `s'` has told the client and `s` has not yet, each with the number of this line. -/
def ToldAt (line : Nat) (s s' : Lexer) : Prop :=
  ∃ new, s'.messages = s.messages ++ new ∧ ∀ m ∈ new, ∃ msg, m.text = fmtError line msg

/-- A call leaves each comment behind its first end, or reports that it has none; its errors,
    and those of the parser before the next call, have the right line. -/
structure CallRight (env : LexEnv) (text : Str) (s : Lexer) : Prop where
  comments : ∀ body, Enters s.rest body → ∀ rest,
    commentLoop body = some rest ↔ ∃ inner, IsFirstEnd body inner rest
  unterminated : ∀ body, Enters s.rest body → Unterminated body →
    (yylex env s).1 = none ∧ ∃ line, (yylex env s).2.messages =
      s.messages ++ [⟨false, fmtError line (Str.ofString "End of program while in a comment")⟩]
  line : LineRight text (yylex env s).2
  errors : ToldAt (yylex env s).2.lineno s (yylex env s).2

/-! ## When it is so -/

/-- The `*` at the end. -/
def stars (inner : Str) : Nat := (inner.reverse.takeWhile (· == 42)).length

/-- What follows the quote of a string that a newline breaks off: there is one, behind a backslash
    or not, before any quote that is not. -/
inductive Broken : Str → Prop where
  | here {s : Str} : Broken (newline :: s)
  | plain {c : UInt8} {s : Str} : c ≠ 34 → c ≠ 92 → Broken s → Broken (c :: s)
  | backslash {s : Str} : Broken (92 :: newline :: s)
  | escaped {c : UInt8} {s : Str} : Broken s → Broken (92 :: c :: s)

def BrokenOff (s : Str) : Prop := ∃ body, s = 34 :: body ∧ Broken body

/-- The comments in front of the next token have no newlines, and an odd number of `*` before
    the first slash that ends them; the token is no string with a newline. -/
inductive Clean : Str → Prop where
  | unterminated {s body : Str} : opened (s.dropWhile isspace) = some body → Unterminated body →
      newline ∉ body → Clean s
  | comment {s body inner rest : Str} : opened (s.dropWhile isspace) = some body →
      IsFirstEnd body inner rest → Even (stars inner) → newline ∉ inner → Clean rest → Clean s
  | token {s : Str} : opened (s.dropWhile isspace) = none → ¬ BrokenOff (s.dropWhile isspace) →
      Clean s

/-! ## Comments -/

theorem stars_cons (c : UInt8) (l : Str) :
    stars (c :: l) = if stars l = l.length ∧ c = 42 then l.length + 1 else stars l := by
  rw [stars, List.reverse_cons, List.takeWhile_append, ← stars, List.length_reverse]
  by_cases hl : stars l = l.length
  · rw [if_pos hl, List.length_append, List.length_reverse, List.takeWhile_cons]
    by_cases hc : c = 42
    · rw [if_pos (beq_iff_eq.mpr hc), if_pos ⟨hl, hc⟩]
      rfl
    · rw [if_neg (mt beq_iff_eq.mp hc), if_neg fun h => hc h.2, hl]
      rfl
  · rw [if_neg hl, if_neg fun h => hl h.1]
    rfl

theorem stars_cons_of_ne {c : UInt8} (h : c ≠ 42) (l : Str) : stars (c :: l) = stars l := by
  rw [stars_cons, if_neg fun hc => h hc.2]

/-- The loop takes the `*` in pairs. -/
theorem even_stars_pair (c : UInt8) (l : Str) :
    Even (stars (42 :: c :: l)) ↔ Even (stars l) := by
  rw [stars_cons, stars_cons c]
  by_cases hl : stars l = l.length ∧ c = 42
  · rw [if_pos hl, List.length_cons, if_pos ⟨rfl, rfl⟩, hl.1, add_assoc, Nat.even_add]
    exact iff_true_right (by decide)
  · rw [if_neg hl]
    split
    next h =>
      have hle : stars l ≤ l.length := by
        rw [stars, ← l.length_reverse]
        exact (List.takeWhile_prefix _).length_le
      rw [List.length_cons] at h
      omega
    next => rfl

theorem commentLoop_some {body rest : Str} (h : commentLoop body = some rest) :
    ∃ inner, body = inner ++ 42 :: 47 :: rest := by
  induction body using comment_cases with
  | nil => exact nomatch h
  | closed s => exact ⟨[], by rw [Option.some.inj h]; rfl⟩
  | pair c s hc ih =>
      rw [commentLoop_pair hc] at h
      obtain ⟨inner, rfl⟩ := ih h
      exact ⟨42 :: c :: inner, rfl⟩
  | last => exact nomatch h
  | other c s hc ih =>
      rw [commentLoop_other hc] at h
      obtain ⟨inner, rfl⟩ := ih h
      exact ⟨c :: inner, rfl⟩

theorem Unterminated.none {body : Str} (h : Unterminated body) : commentLoop body = none := by
  cases hloop : commentLoop body with
  | none => rfl
  | some rest =>
      obtain ⟨inner, heq⟩ := commentLoop_some hloop
      exact absurd heq (h inner rest)

theorem IsFirstEnd.tail {c d : UInt8} {s inner rest : Str}
    (h : IsFirstEnd (c :: s) (d :: inner) rest) : IsFirstEnd s inner rest :=
  ⟨(List.cons.inj h.eq).2, fun inner' rest' heq =>
    Nat.le_of_succ_le_succ (h.first (c :: inner') rest' (congrArg (c :: ·) heq))⟩

/-- The first end is the one where the loop ends if it has an even number of `*` before it. -/
theorem IsFirstEnd.loop {body inner rest : Str} (h : IsFirstEnd body inner rest) :
    commentLoop body = some rest ↔ Even (stars inner) := by
  induction body using comment_cases generalizing inner with
  | nil => exact absurd h.eq (by cases inner <;> exact nofun)
  | closed s =>
      have hnil : inner = [] := List.length_eq_zero_iff.mp (Nat.le_zero.mp (h.first [] s rfl))
      subst hnil
      obtain rfl : s = rest := (List.cons.inj (List.cons.inj h.eq).2).2
      exact iff_of_true rfl ⟨0, rfl⟩
  | pair c s hc ih =>
      rw [commentLoop_pair hc]
      match inner, h with
      | [], h => exact absurd (List.cons.inj (List.cons.inj h.eq).2).1 hc
      | [d], h =>
          -- the `*` that is followed by the slash has been taken with the one before it
          obtain ⟨rfl, heq⟩ := List.cons.inj h.eq
          obtain ⟨rfl, rfl⟩ := List.cons.inj heq
          refine iff_of_false (fun hloop => ?_) (by decide)
          rw [commentLoop_other (by decide)] at hloop
          exact Nat.lt_irrefl _ (commentLoop_length hloop)
      | d :: e :: inner, h =>
          obtain ⟨rfl, hrest⟩ := List.cons.inj h.eq
          obtain ⟨rfl, -⟩ := List.cons.inj hrest
          rw [ih h.tail.tail, even_stars_pair]
  | last =>
      have hlen : 1 = inner.length + (rest.length + 1 + 1) :=
        (congrArg List.length h.eq).trans List.length_append
      omega
  | other c s hc ih =>
      rw [commentLoop_other hc]
      match inner, h with
      | [], h => exact absurd (List.cons.inj h.eq).1 hc
      | d :: inner, h =>
          obtain ⟨rfl, -⟩ := List.cons.inj h.eq
          rw [ih h.tail, stars_cons_of_ne hc]

/-! ## White space and comments -/

section

variable {lineno : Nat} {s body rest : Str}

theorem startOver_token (h : opened (s.dropWhile isspace) = none) : startOver lineno s =
    (lineno + (s.takeWhile isspace).count newline, some (s.dropWhile isspace)) := by
  rw [startOver, skipSpace_eq]
  split
  next => rfl
  next h' => exact absurd (h'.symm.trans h) (by simp)

theorem startOver_eof (h : opened (s.dropWhile isspace) = some body)
    (hloop : commentLoop body = none) :
    startOver lineno s = (lineno + (s.takeWhile isspace).count newline, none) := by
  rw [startOver, skipSpace_eq]
  split
  next h' => exact absurd (h'.symm.trans h) (by simp)
  next body' h' =>
    obtain rfl := Option.some.inj (h'.symm.trans h)
    split
    next => rfl
    next h'' => exact absurd (h''.symm.trans hloop) (by simp)

/-- The call goes on behind a comment. -/
theorem startOver_comment (h : opened (s.dropWhile isspace) = some body)
    (hloop : commentLoop body = some rest) :
    startOver lineno s = startOver (lineno + (s.takeWhile isspace).count newline) rest := by
  rw [startOver, skipSpace_eq]
  split
  next h' => exact absurd (h'.symm.trans h) (by simp)
  next body' h' =>
    obtain rfl := Option.some.inj (h'.symm.trans h)
    split
    next h'' => exact absurd (h''.symm.trans hloop) (by simp)
    next rest' h'' =>
      obtain rfl := Option.some.inj (h''.symm.trans hloop)
      rfl

theorem opened_some {s : Str} (h : opened s = some body) : s = 47 :: 42 :: body := by
  unfold opened at h
  split at h
  · rw [Option.some.inj h]
  · exact nomatch h

/-- The newlines of white space and a comment. -/
theorem count_opened (h : opened (s.dropWhile isspace) = some body) :
    s.count newline = (s.takeWhile isspace).count newline + body.count newline := by
  have hsplit := List.takeWhile_append_dropWhile (p := isspace) (l := s)
  rw [opened_some h] at hsplit
  calc s.count newline = (s.takeWhile isspace ++ 47 :: 42 :: body).count newline := by rw [hsplit]
    _ = _ := by
      rw [List.count_append, List.count_cons_of_ne (by decide), List.count_cons_of_ne (by decide)]

theorem count_dropSpace (s : Str) :
    s.count newline = (s.takeWhile isspace).count newline + (s.dropWhile isspace).count newline := by
  rw [← List.count_append, List.takeWhile_append_dropWhile]

theorem IsFirstEnd.count {inner : Str} (h : IsFirstEnd body inner rest) :
    body.count newline = inner.count newline + rest.count newline := by
  rw [h.eq, List.count_append, List.count_cons_of_ne (by decide), List.count_cons_of_ne (by decide)]

/-- Induction over the comments in front of a token. -/
theorem startOver_cases {P : Str → Prop}
    (token : ∀ s, opened (s.dropWhile isspace) = none → P s)
    (eof : ∀ s body, opened (s.dropWhile isspace) = some body → commentLoop body = none → P s)
    (comment : ∀ s body rest, opened (s.dropWhile isspace) = some body →
      commentLoop body = some rest → P rest → P s) (s : Str) : P s := by
  induction hlen : s.length using Nat.strong_induction_on generalizing s with
  | _ n ih =>
      cases h : opened (s.dropWhile isspace) with
      | none => exact token s h
      | some body =>
          cases hloop : commentLoop body with
          | none => exact eof s body h hloop
          | some rest =>
              have hopened := opened_length h
              have hclosed := commentLoop_length hloop
              have hle := (List.dropWhile_suffix isspace (l := s)).length_le
              exact comment s body rest h hloop (ih rest.length (by omega) rest rfl)

/-- What is left is the end of the text, and no more newlines are counted than are taken. -/
theorem startOver_taken (lineno : Nat) (s : Str) :
    (startOver lineno s).2.getD [] <:+ s ∧
      (startOver lineno s).1 + ((startOver lineno s).2.getD []).count newline ≤
        lineno + s.count newline := by
  induction s using startOver_cases generalizing lineno with
  | token s h =>
      rw [startOver_token h, count_dropSpace s]
      exact ⟨List.dropWhile_suffix isspace, Nat.le_of_eq (Nat.add_assoc ..)⟩
  | eof s body h hloop =>
      rw [startOver_eof h hloop, count_dropSpace s, ← Nat.add_assoc]
      exact ⟨List.nil_suffix, Nat.le_add_right ..⟩
  | comment s body rest h hloop ih =>
      obtain ⟨inner, hbody⟩ := commentLoop_some hloop
      obtain ⟨hsuffix, hle⟩ := ih (lineno + (s.takeWhile isspace).count newline)
      have hdrop := opened_some h
      rw [startOver_comment h hloop, count_opened h]
      constructor
      · refine hsuffix.trans (List.IsSuffix.trans ⟨47 :: 42 :: (inner ++ [42, 47]), ?_⟩
          (List.dropWhile_suffix isspace))
        rw [hdrop, hbody, List.cons_append, List.cons_append, List.append_assoc]
        rfl
      · have hcount : rest.count newline ≤ body.count newline := by
          rw [hbody]
          exact ((List.suffix_cons 47 rest).trans ((List.suffix_cons 42 _).trans
            (List.suffix_append inner _))).sublist.count_le newline
        omega

end

/-! ## A call is right on clean text -/

theorem exists_firstEnd {body inner rest : Str} (h : body = inner ++ 42 :: 47 :: rest) :
    ∃ inner rest, IsFirstEnd body inner rest := by
  classical
  have hex : ∃ n, ∃ inner rest, body = inner ++ 42 :: 47 :: rest ∧ inner.length = n :=
    ⟨_, inner, rest, h, rfl⟩
  obtain ⟨inner, rest, heq, hlen⟩ := Nat.find_spec hex
  exact ⟨inner, rest, heq, fun inner' rest' heq' =>
    hlen ▸ Nat.find_min' hex ⟨inner', rest', heq', rfl⟩⟩

theorem IsFirstEnd.unique {body inner rest inner' rest' : Str} (h : IsFirstEnd body inner rest)
    (h' : IsFirstEnd body inner' rest') : inner' = inner ∧ rest' = rest := by
  have hlen : inner'.length = inner.length :=
    Nat.le_antisymm (h'.first _ _ h.eq) (h.first _ _ h'.eq)
  obtain ⟨rfl, hrest⟩ := List.append_inj (h'.eq.symm.trans h.eq) hlen
  exact ⟨rfl, (List.cons.inj (List.cons.inj hrest).2).2⟩

/-- Each comment of a call ends at its first end. -/
def SkipsRight (s : Str) : Prop := ∀ body, Enters s body → ∀ rest,
  commentLoop body = some rest ↔ ∃ inner, IsFirstEnd body inner rest

section

variable {s body rest : Str}

theorem Enters.opened {body' : Str} (h : Enters s body') :
    ∃ body, opened (s.dropWhile isspace) = some body := by
  cases h with
  | here h => exact ⟨_, h⟩
  | later h _ _ => exact ⟨_, h⟩

theorem skipsRight_token (h : opened (s.dropWhile isspace) = none) : SkipsRight s := by
  intro body hbody
  obtain ⟨body', h'⟩ := hbody.opened
  exact absurd (h'.symm.trans h) nofun

theorem skipsRight_eof (h : opened (s.dropWhile isspace) = some body)
    (hloop : commentLoop body = none) : SkipsRight s ↔ Unterminated body := by
  constructor
  · intro hright inner rest heq
    obtain ⟨inner, rest, hfirst⟩ := exists_firstEnd heq
    exact absurd (hloop.symm.trans ((hright body (.here h) rest).mpr ⟨inner, hfirst⟩)) nofun
  · intro hopen body' hbody' rest
    cases hbody' with
    | here h' =>
        obtain rfl := Option.some.inj (h'.symm.trans h)
        exact iff_of_false (fun h => nomatch hloop.symm.trans h) fun ⟨inner, hfirst⟩ =>
          hopen inner rest hfirst.eq
    | later h' hloop' _ =>
        obtain rfl := Option.some.inj (h'.symm.trans h)
        exact absurd (hloop'.symm.trans hloop) nofun

theorem skipsRight_comment (h : opened (s.dropWhile isspace) = some body)
    (hloop : commentLoop body = some rest) :
    SkipsRight s ↔ (∃ inner, IsFirstEnd body inner rest) ∧ SkipsRight rest := by
  constructor
  · intro hright
    exact ⟨(hright body (.here h) rest).mp hloop, fun body' hbody' =>
      hright body' (.later h hloop hbody')⟩
  · rintro ⟨⟨inner, hfirst⟩, hright⟩ body' hbody' rest'
    cases hbody' with
    | here h' =>
        obtain rfl := Option.some.inj (h'.symm.trans h)
        constructor
        · intro hloop'
          obtain rfl := Option.some.inj (hloop'.symm.trans hloop)
          exact ⟨inner, hfirst⟩
        · rintro ⟨inner', hfirst'⟩
          rw [(hfirst.unique hfirst').2]
          exact hloop
    | later h' hloop' hbody' =>
        obtain rfl := Option.some.inj (h'.symm.trans h)
        obtain rfl := Option.some.inj (hloop'.symm.trans hloop)
        exact hright body' hbody' rest'

theorem clean_token (h : opened (s.dropWhile isspace) = none) :
    Clean s ↔ ¬ BrokenOff (s.dropWhile isspace) := by
  constructor
  · intro hclean
    cases hclean with
    | unterminated h' _ _ => exact absurd (h'.symm.trans h) nofun
    | comment h' _ _ _ _ => exact absurd (h'.symm.trans h) nofun
    | token _ hbroken => exact hbroken
  · exact .token h

theorem clean_eof (h : opened (s.dropWhile isspace) = some body)
    (hloop : commentLoop body = none) : Clean s ↔ Unterminated body ∧ newline ∉ body := by
  constructor
  · intro hclean
    cases hclean with
    | unterminated h' hopen hline =>
        obtain rfl := Option.some.inj (h'.symm.trans h)
        exact ⟨hopen, hline⟩
    | comment h' hfirst heven _ _ =>
        obtain rfl := Option.some.inj (h'.symm.trans h)
        exact absurd (hloop.symm.trans (hfirst.loop.mpr heven)) nofun
    | token h' _ => exact absurd (h'.symm.trans h) nofun
  · rintro ⟨hopen, hline⟩
    exact .unterminated h hopen hline

theorem clean_comment (h : opened (s.dropWhile isspace) = some body)
    (hloop : commentLoop body = some rest) :
    Clean s ↔ ∃ inner, IsFirstEnd body inner rest ∧ newline ∉ inner ∧ Clean rest := by
  constructor
  · intro hclean
    cases hclean with
    | unterminated h' hopen _ =>
        obtain rfl := Option.some.inj (h'.symm.trans h)
        exact absurd (hopen.none.symm.trans hloop) nofun
    | comment h' hfirst heven hline hclean =>
        obtain rfl := Option.some.inj (h'.symm.trans h)
        obtain rfl := Option.some.inj ((hfirst.loop.mpr heven).symm.trans hloop)
        exact ⟨_, hfirst, hline, hclean⟩
    | token h' _ => exact absurd (h'.symm.trans h) nofun
  · rintro ⟨inner, hfirst, hline, hclean⟩
    exact .comment h hfirst (hfirst.loop.mp hloop) hline hclean

end

/-- Text is clean just if its comments are left where they should be, each newline is counted, and
    no string at its token is broken off. -/
theorem clean_iff (lineno : Nat) (s : Str) : Clean s ↔ SkipsRight s ∧
    (startOver lineno s).1 + ((startOver lineno s).2.getD []).count newline =
      lineno + s.count newline ∧
    ∀ t, (startOver lineno s).2 = some t → ¬ BrokenOff t := by
  induction s using startOver_cases generalizing lineno with
  | token s h =>
      rw [startOver_token h, clean_token h, count_dropSpace s]
      constructor
      · intro hbroken
        refine ⟨skipsRight_token h, Nat.add_assoc .., fun t ht => ?_⟩
        exact Option.some.inj ht ▸ hbroken
      · rintro ⟨-, -, hbroken⟩
        exact hbroken _ rfl
  | eof s body h hloop =>
      rw [startOver_eof h hloop, clean_eof h hloop, skipsRight_eof h hloop, count_opened h,
        ← List.count_eq_zero]
      constructor
      · rintro ⟨hopen, hline⟩
        rw [hline]
        exact ⟨hopen, rfl, nofun⟩
      · rintro ⟨hopen, hline, -⟩
        refine ⟨hopen, ?_⟩
        rw [Option.getD_none, List.count_nil] at hline
        omega
  | comment s body rest h hloop ih =>
      have hle := (startOver_taken (lineno + (s.takeWhile isspace).count newline) rest).2
      rw [startOver_comment h hloop, clean_comment h hloop, skipsRight_comment h hloop,
        count_opened h]
      constructor
      · rintro ⟨inner, hfirst, hline, hclean⟩
        obtain ⟨hright, hcount, hbroken⟩ := (ih _).mp hclean
        refine ⟨⟨⟨inner, hfirst⟩, hright⟩, ?_, hbroken⟩
        rw [hcount, hfirst.count, List.count_eq_zero.mpr hline, Nat.zero_add, Nat.add_assoc]
      · rintro ⟨⟨⟨inner, hfirst⟩, hright⟩, hcount, hbroken⟩
        rw [hfirst.count] at hcount
        exact ⟨inner, hfirst, List.count_eq_zero.mp (by omega),
          (ih _).mpr ⟨hright, by omega, hbroken⟩⟩

/-! ## Tokens take no newline, but for a string that is broken off -/

/-- From `s` to `rest` no newline is taken. -/
def Taken (s rest : Str) : Prop := ∃ used, s = used ++ rest ∧ newline ∉ used

theorem Taken.refl (s : Str) : Taken s s := ⟨[], rfl, nofun⟩

theorem Taken.trans {s t rest : Str} (h : Taken s t) (h' : Taken t rest) : Taken s rest := by
  obtain ⟨used, rfl, hused⟩ := h
  obtain ⟨used', rfl, hused'⟩ := h'
  exact ⟨used ++ used', (List.append_assoc ..).symm, fun hmem =>
    (List.mem_append.mp hmem).elim hused hused'⟩

theorem Taken.cons {c : UInt8} (h : c ≠ newline) (s : Str) : Taken (c :: s) s :=
  ⟨[c], rfl, fun hmem => h (List.mem_singleton.mp hmem).symm⟩

theorem Taken.dropWhile {p : UInt8 → Bool} (h : p newline = false) (s : Str) :
    Taken s (s.dropWhile p) :=
  ⟨s.takeWhile p, List.takeWhile_append_dropWhile.symm, fun hmem =>
    absurd (List.mem_takeWhile_imp hmem) (by rw [h]; simp)⟩

theorem Taken.count {s rest : Str} (h : Taken s rest) : s.count newline = rest.count newline := by
  obtain ⟨used, rfl, hused⟩ := h
  rw [List.count_append, List.count_eq_zero.mpr hused, Nat.zero_add]

theorem Taken.suffix {s rest : Str} (h : Taken s rest) : rest <:+ s := by
  obtain ⟨used, rfl, -⟩ := h
  exact List.suffix_append _ _

/-- `s'` has the line of `s`, and has told of that line only. -/
structure SameLine (s s' : Lexer) : Prop where
  lineno : s'.lineno = s.lineno
  told : ToldAt s.lineno s s'

section

variable {s s' s'' : Lexer} {env : LexEnv}

theorem SameLine.of_messages (h : s'.lineno = s.lineno) (hm : s'.messages = s.messages) :
    SameLine s s' :=
  ⟨h, [], by rw [hm, List.append_nil], nofun⟩

/-- One message more, with the line of the lexer. -/
theorem SameLine.tell (h : SameLine s s') {warning : Bool} {msg : Str} (hline : s''.lineno = s'.lineno)
    (hmsg : s''.messages = s'.messages ++ [⟨warning, fmtError s'.lineno msg⟩]) : SameLine s s'' := by
  obtain ⟨hline', new, hnew, htold⟩ := h
  refine ⟨hline.trans hline', new ++ [⟨warning, fmtError s'.lineno msg⟩], ?_, fun m hm => ?_⟩
  · rw [hmsg, hnew, List.append_assoc]
  · rcases List.mem_append.mp hm with hm | hm
    · exact htold m hm
    · rw [List.mem_singleton.mp hm]
      exact ⟨msg, by rw [hline']⟩

theorem SameLine.error (h : SameLine s s') (msg : Str) : SameLine s (s'.error msg) := h.tell rfl rfl

theorem SameLine.warning (h : SameLine s s') (msg : Str) :
    SameLine s (s'.warning env msg) := by
  unfold Lexer.warning
  split
  · exact h.tell rfl rfl
  · exact h.error msg

/-- Some of the text is taken on a line, and no newline. -/
structure Quiet (s s' : Lexer) : Prop where
  taken : Taken s.rest s'.rest
  same : SameLine s s'

theorem Quiet.rest {r : Str} (h : Taken s.rest r) : Quiet s { s with rest := r } :=
  ⟨h, .of_messages rfl rfl⟩

theorem Quiet.yyerror (h : Quiet s s') (msg : String) : Quiet s (s'.yyerror msg) :=
  ⟨h.taken, h.same.error _⟩

theorem Quiet.warning (h : Quiet s s') (msg : Str) : Quiet s (s'.warning env msg) := by
  have hrest : (s'.warning env msg).rest = s'.rest := by
    unfold Lexer.warning
    split <;> rfl
  exact ⟨hrest ▸ h.taken, h.same.warning msg⟩

theorem follow_quiet {expect : UInt8} (h : expect ≠ newline) (ifyes ifno : Token) :
    Quiet s (follow s expect ifyes ifno).2 := by
  unfold follow
  split
  · exact .rest (.refl _)
  · next c rest hrest =>
    split
    · next heq => exact .rest (hrest ▸ .cons (heq ▸ h) rest)
    · exact .rest (.refl _)

theorem lexOperator_quiet (c : UInt8) : Quiet s (lexOperator s c).2 := by
  unfold lexOperator
  split_ifs <;> first
    | exact follow_quiet (by decide) _ _
    | exact .rest (.refl _)

theorem lexObject_quiet : Quiet s (lexObject s).2 := by
  have hsign : Taken s.rest (if s.rest.head? = some 45 then s.rest.tail else s.rest) := by
    split
    · next h =>
      rw [← List.cons_head?_tail h]
      exact .cons (by decide) _
    · exact .refl _
  unfold lexObject
  extract_lets negative rest digits oid
  split
  · exact (Quiet.rest hsign).yyerror _
  · exact .rest (hsign.trans (.dropWhile rfl _))


theorem lexPoint_taken {digits rest : Str} {n : Numeral} (h : lexPoint env digits rest = some n) :
    Taken rest n.rest := by
  unfold lexPoint at h
  split at h
  · next s =>
    have hpoint : Taken (46 :: s) s := .cons (by decide) s
    split at h
    · extract_lets fraction at h
      split_ifs at h
      · exact Option.some.inj h ▸ hpoint.trans (.dropWhile rfl _)
      · exact Option.some.inj h ▸ hpoint
      · exact Option.some.inj h ▸ .refl _
    · exact Option.some.inj h ▸ .refl _
  · exact Option.some.inj h ▸ .refl _

theorem lexSign_taken (s : Str) : Taken s (lexSign s).2 := by
  unfold lexSign
  split
  · exact .refl _
  · next c s =>
    split
    · next h => exact .cons (by rintro rfl; exact absurd h (by decide)) s
    · exact .refl _

/-- What is left behind an exponent, or where its digits are missing. -/
def leftOf : Except Str Numeral → Str
  | .error rest => rest
  | .ok n => n.rest

theorem lexExponent_taken (n : Numeral) : Taken n.rest (leftOf (lexExponent env n)) := by
  unfold lexExponent
  split
  · next e s hrest =>
    split
    · next h =>
      have he : Taken n.rest s :=
        hrest ▸ .cons (by rintro rfl; exact absurd h.2 (by decide)) s
      have hsign := he.trans (lexSign_taken s)
      extract_lets r digits
      split
      · exact hsign
      · exact hsign.trans (.dropWhile rfl _)
    · exact .refl _
  · exact .refl _

theorem lexNumber_quiet {c : UInt8} (hc : c ≠ newline) :
    Quiet { s with rest := c :: s.rest } (lexNumber env s c).2 := by
  have hsame : ∀ rest, SameLine { s with rest := c :: s.rest } { s with rest } := fun _ =>
    .of_messages rfl rfl
  have hdigits : Taken (c :: s.rest) ((c :: s.rest).dropWhile isdigit) := .dropWhile rfl _
  unfold lexNumber
  extract_lets digits
  split
  · have hdot := lexOperator_quiet (s := s) 46
    exact ⟨(Taken.cons hc s.rest).trans hdot.taken, hdot.same.lineno, hdot.same.told⟩
  · next n hn =>
    have hexponent : Taken n.rest (leftOf (lexExponent env n)) := lexExponent_taken n
    have htaken := (hdigits.trans (lexPoint_taken hn)).trans hexponent
    split
    · next rest hrest =>
      rw [hrest] at htaken
      exact ⟨htaken, (hsame rest).error _⟩
    · next n' hn' =>
      rw [hn'] at htaken
      extract_lets t d
      split_ifs
      · exact ⟨htaken, hsame _⟩
      · exact ⟨htaken, (hsame n'.rest).error _⟩
      · exact ⟨htaken, hsame _⟩

theorem lexWord_quiet (c : UInt8) : Quiet s (lexWord env s c).2 := by
  have hword : Taken s.rest (s.rest.dropWhile isIdChar) := .dropWhile rfl _
  unfold lexWord
  extract_lets buf t
  split
  · split
    · exact .rest hword
    · have ht : Quiet s (if t.mustRenameKeywords then t
          else t.warning env (Str.ofString "Renaming old use of new keyword: " ++ buf)) := by
        split
        · exact .rest hword
        · exact Quiet.warning (.rest hword) _
      exact ⟨ht.taken, ht.same.lineno, ht.same.told⟩
  · exact .rest hword

end

/-! ## Strings -/

theorem stringLoop_escaped {c : UInt8} (h : c ≠ newline) (s : Str) :
    stringLoop (92 :: c :: s) = (c :: (stringLoop s).1, (stringLoop s).2) := by
  rw [stringLoop]
  exact h

theorem stringLoop_plain {c : UInt8} (h34 : c ≠ 34) (h92 : c ≠ 92) (h10 : c ≠ newline) (s : Str) :
    stringLoop (c :: s) = (c :: (stringLoop s).1, (stringLoop s).2) := by
  rw [stringLoop]
  · exact h34
  · exact fun _ hc _ => h92 hc
  · exact h10
  · exact fun hc _ => h92 hc
  · exact fun _ _ hc _ => h92 hc

/-- What the loop meets in a string. -/
theorem string_cases {P : Str → Prop} (nil : P []) (quote : ∀ s, P (34 :: s))
    (backslash : ∀ s, P (92 :: newline :: s)) (here : ∀ s, P (newline :: s)) (last : P [92])
    (escaped : ∀ c s, c ≠ newline → P s → P (92 :: c :: s))
    (plain : ∀ c s, c ≠ 34 → c ≠ 92 → c ≠ newline → P s → P (c :: s)) (s : Str) : P s := by
  induction s using stringLoop.induct with
  | case1 => exact nil
  | case2 s => exact quote s
  | case3 s => exact backslash s
  | case4 s => exact here s
  | case5 => exact last
  | case6 c s hc ih => exact escaped c s hc ih
  | case7 c s h34 _ h10 hlast hesc ih =>
      refine plain c s h34 (fun h92 => ?_) h10 ih
      cases s with
      | nil => exact hlast h92 rfl
      | cons d s => exact hesc d s h92 rfl

theorem not_broken_nil : ¬ Broken [] := fun h => nomatch h

theorem not_broken_quote (s : Str) : ¬ Broken (34 :: s) := by
  intro h
  cases h with
  | plain h34 _ _ => exact h34 rfl

theorem not_broken_last : ¬ Broken [92] := by
  intro h
  cases h with
  | plain _ h92 _ => exact h92 rfl

theorem broken_escaped {c : UInt8} (h : c ≠ newline) (s : Str) :
    Broken (92 :: c :: s) ↔ Broken s := by
  constructor
  · intro hbroken
    cases hbroken with
    | plain _ h92 _ => exact absurd rfl h92
    | backslash => exact absurd rfl h
    | escaped hs => exact hs
  · exact .escaped

theorem broken_plain {c : UInt8} (h34 : c ≠ 34) (h92 : c ≠ 92) (h10 : c ≠ newline) (s : Str) :
    Broken (c :: s) ↔ Broken s := by
  constructor
  · intro hbroken
    cases hbroken with
    | here => exact absurd rfl h10
    | plain _ _ hs => exact hs
    | backslash => exact absurd rfl h92
    | escaped => exact absurd rfl h92
  · exact .plain h34 h92

/-- A string takes a newline just if that breaks it off. -/
theorem stringLoop_taken (s : Str) : (stringLoop s).2.2 <:+ s ∧
    ((stringLoop s).2.2.count newline = s.count newline ↔ ¬ Broken s) := by
  induction s using string_cases with
  | nil => exact ⟨List.suffix_rfl, iff_of_true rfl not_broken_nil⟩
  | quote s =>
      have htaken : Taken (34 :: s) s := .cons (by decide) s
      exact ⟨htaken.suffix, iff_of_true htaken.count.symm (not_broken_quote s)⟩
  | backslash s =>
      refine ⟨(List.suffix_cons _ s).trans (List.suffix_cons _ _), iff_of_false ?_ (· .backslash)⟩
      show s.count newline ≠ _
      rw [List.count_cons_of_ne (by decide), List.count_cons_self]
      exact Nat.ne_of_lt (Nat.lt_succ_self _)
  | here s =>
      refine ⟨List.suffix_cons _ s, iff_of_false ?_ (· .here)⟩
      show s.count newline ≠ _
      rw [List.count_cons_self]
      exact Nat.ne_of_lt (Nat.lt_succ_self _)
  | last => exact ⟨List.nil_suffix, iff_of_true rfl not_broken_last⟩
  | escaped c s hc ih =>
      have htaken : Taken (92 :: c :: s) s :=
        .trans (.cons (by decide) _) (.cons hc s)
      rw [stringLoop_escaped hc, broken_escaped hc, htaken.count]
      exact ⟨ih.1.trans htaken.suffix, ih.2⟩
  | plain c s h34 h92 h10 ih =>
      rw [stringLoop_plain h34 h92 h10, broken_plain h34 h92 h10, (Taken.cons h10 s).count]
      exact ⟨ih.1.trans (List.suffix_cons c s), ih.2⟩

theorem lexString_same (s : Lexer) :
    (lexString s).2.rest = (stringLoop s.rest).2.2 ∧ SameLine s (lexString s).2 := by
  unfold lexString
  extract_lets r t
  have ht : SameLine s t := .of_messages rfl rfl
  split
  · exact ⟨rfl, ht⟩
  · exact ⟨rfl, ht.error _⟩

/-! ## Each call -/

section

variable {env : LexEnv} {s : Lexer} {text : Str}

/-- The token takes no newline but that of a string that is broken off. -/
theorem lexToken_taken (env : LexEnv) (s : Lexer) (hspace : ∀ c ∈ s.rest.head?, isspace c = false) :
    (lexToken env s).2.rest <:+ s.rest ∧
    ((lexToken env s).2.rest.count newline = s.rest.count newline ↔ ¬ BrokenOff s.rest) ∧
    SameLine s (lexToken env s).2 := by
  have hquiet : ∀ s', Quiet s s' → ¬ BrokenOff s.rest → s'.rest <:+ s.rest ∧
      (s'.rest.count newline = s.rest.count newline ↔ ¬ BrokenOff s.rest) ∧ SameLine s s' :=
    fun s' h hbroken => ⟨h.taken.suffix, iff_of_true h.taken.count.symm hbroken, h.same⟩
  unfold lexToken
  split
  · next hrest => exact hquiet s (.rest (.refl _)) fun ⟨_, h, _⟩ => nomatch hrest.symm.trans h
  · next c rest hrest =>
    have hc : c ≠ newline := by
      rintro rfl
      exact absurd (hspace newline (by rw [hrest]; rfl)) (by decide)
    have htail : Quiet s { s with rest } := .rest (hrest ▸ .cons hc rest)
    have hnone : c ≠ 34 → ¬ BrokenOff s.rest := by
      rintro h34 ⟨body, hbody, -⟩
      exact h34 (List.cons.inj (hrest.symm.trans hbody)).1
    have hstep : ∀ s', Quiet { s with rest } s' → Quiet s s' := fun s' h =>
      ⟨htail.taken.trans h.taken, h.same.lineno, h.same.told⟩
    extract_lets t
    split_ifs with h47 h35 hdigit hword h34
    · exact hquiet _ htail (hnone (by rw [h47]; decide))
    · exact hquiet _ (hstep _ lexObject_quiet) (hnone (by rw [h35]; decide))
    · have h34 : c ≠ 34 := by
        rintro rfl
        exact hdigit.elim nofun (fun h => nomatch h.1)
      refine hquiet _ ?_ (hnone h34)
      have hnumber : Quiet { t with rest := _ :: t.rest } (lexNumber env t _).2 := lexNumber_quiet hc
      exact ⟨hrest ▸ hnumber.taken, hnumber.same.lineno, hnumber.same.told⟩
    · exact hquiet _ (hstep _ (lexWord_quiet c)) (hnone (by rintro rfl; exact absurd hword (by decide)))
    · subst h34
      obtain ⟨hsuffix, hcount⟩ := stringLoop_taken rest
      have hbroken : BrokenOff s.rest ↔ Broken rest := by
        rw [hrest]
        exact ⟨fun ⟨body, heq, h⟩ => (List.cons.inj heq).2 ▸ h, fun h => ⟨rest, rfl, h⟩⟩
      obtain ⟨hleft, hsame⟩ := lexString_same t
      rw [hbroken, hrest, List.count_cons_of_ne (by decide), hleft, ← hcount]
      exact ⟨hsuffix.trans (List.suffix_cons _ _), Iff.rfl, hsame.lineno, hsame.told⟩
    · exact hquiet _ (hstep _ (lexOperator_quiet c)) (hnone h34)

/-- A token does not begin with white space. -/
theorem startOver_head {lineno : Nat} {u t : Str} (h : (startOver lineno u).2 = some t) :
    ∀ c ∈ t.head?, isspace c = false := by
  induction u using startOver_cases generalizing lineno with
  | token u hnone =>
      rw [startOver_token hnone] at h
      obtain rfl := Option.some.inj h
      intro c hc
      have := List.head?_dropWhile_not isspace u
      rw [Option.mem_def.mp hc] at this
      exact this
  | eof u body hopened hloop =>
      rw [startOver_eof hopened hloop] at h
      exact nomatch h
  | comment u body rest hopened hloop ih =>
      rw [startOver_comment hopened hloop] at h
      exact ih h

/-- A comment that does not end is the last that a call goes into. -/
theorem startOver_none {lineno : Nat} {u body : Str} (h : Enters u body)
    (hloop : commentLoop body = none) : (startOver lineno u).2 = none := by
  induction h generalizing lineno with
  | here hopened => rw [startOver_eof hopened hloop]
  | later hopened hloop' _ ih =>
      rw [startOver_comment hopened hloop']
      exact ih hloop

theorem yylex_none (h : (startOver s.lineno s.rest).2 = none) : yylex env s =
    (none, { s with lineno := (startOver s.lineno s.rest).1, rest := [] }.yyerror
      "End of program while in a comment") := by
  unfold yylex
  split
  next heq => rw [heq]
  next heq => exact nomatch (congrArg Prod.snd heq).symm.trans h

theorem yylex_some {t : Str} (h : (startOver s.lineno s.rest).2 = some t) : yylex env s =
    lexToken env { s with lineno := (startOver s.lineno s.rest).1, rest := t } := by
  unfold yylex
  split
  next heq => exact nomatch (congrArg Prod.snd heq).symm.trans h
  next heq =>
    obtain rfl := Option.some.inj ((congrArg Prod.snd heq).symm.trans h)
    rw [heq]

/-- A call takes text, tells of one line only, and counts all the newlines that it takes just if
    it does so in front of its token and the token is no string that is broken off. -/
theorem yylex_taken (env : LexEnv) (s : Lexer) : (yylex env s).2.rest <:+ s.rest ∧
    ToldAt (yylex env s).2.lineno s (yylex env s).2 ∧
    ((yylex env s).2.lineno + (yylex env s).2.rest.count newline =
        s.lineno + s.rest.count newline ↔
      (startOver s.lineno s.rest).1 + ((startOver s.lineno s.rest).2.getD []).count newline =
        s.lineno + s.rest.count newline ∧
      ∀ t, (startOver s.lineno s.rest).2 = some t → ¬ BrokenOff t) := by
  obtain ⟨hsuffix, hle⟩ := startOver_taken s.lineno s.rest
  cases h : (startOver s.lineno s.rest).2 with
  | none =>
      rw [yylex_none h]
      refine ⟨List.nil_suffix, ⟨[_], rfl, fun m hm => ?_⟩, ?_⟩
      · rw [List.mem_singleton.mp hm]
        exact ⟨_, rfl⟩
      · exact ⟨fun hcount => ⟨hcount, nofun⟩, And.left⟩
  | some t =>
      rw [h, Option.getD_some] at hsuffix hle
      have htoken := lexToken_taken env
        { s with lineno := (startOver s.lineno s.rest).1, rest := t } (startOver_head h)
      rw [yylex_some h]
      generalize lexToken env _ = r at htoken ⊢
      obtain ⟨hrest, hbroken, hsame⟩ := htoken
      have hless : r.2.rest.count newline ≤ t.count newline := hrest.sublist.count_le newline
      have hline : r.2.lineno = (startOver s.lineno s.rest).1 := hsame.lineno
      rw [hline]
      refine ⟨hrest.trans hsuffix, hsame.told, ?_⟩
      rw [Option.getD_some]
      constructor
      · intro hcount
        have ht : r.2.rest.count newline = t.count newline := by omega
        refine ⟨ht ▸ hcount, fun t' ht' => ?_⟩
        exact Option.some.inj ht' ▸ hbroken.mp ht
      · rintro ⟨hcount, hnot⟩
        rw [hbroken.mpr (hnot t rfl)]
        exact hcount

theorem LineRight.call_iff (h : LineRight text s) : LineRight text (yylex env s).2 ↔
    (yylex env s).2.lineno + (yylex env s).2.rest.count newline =
      s.lineno + s.rest.count newline := by
  obtain ⟨consumed, rfl, hline⟩ := h
  obtain ⟨used, hused⟩ := (yylex_taken env s).1
  have hcount : s.rest.count newline =
      used.count newline + (yylex env s).2.rest.count newline := by
    rw [← hused, List.count_append]
  constructor
  · rintro ⟨consumed', heq, hline'⟩
    rw [← hused, ← List.append_assoc] at heq
    rw [← List.append_cancel_right heq, List.count_append] at hline'
    omega
  · intro heq
    refine ⟨consumed ++ used, by rw [List.append_assoc, hused], ?_⟩
    rw [List.count_append]
    omega

theorem callRight_iff (h : LineRight text s) : CallRight env text s ↔ Clean s.rest := by
  obtain ⟨-, htold, hlines⟩ := yylex_taken env s
  rw [clean_iff s.lineno s.rest, ← hlines, ← h.call_iff]
  constructor
  · intro hcall
    exact ⟨hcall.comments, hcall.line⟩
  · rintro ⟨hright, hline⟩
    refine ⟨hright, fun body hbody hopen => ?_, hline, htold⟩
    rw [yylex_none (startOver_none hbody hopen.none)]
    exact ⟨rfl, _, rfl⟩

end

end Waverous
