import Waverous.Matching
import Waverous.Prepositions

/-! # Commands — `parse_cmd.c`

    `parse_command` splits a line into words in a copy of it, and looks for the text behind the
    verb in the line itself.  The words around the preposition are matched with objects. -/

namespace Waverous.Db

open Blocks

/-- `parse_into_wordlist`. -/
def parseIntoWordlist (command : Str) : Looping (List Str) := Waverous.parseIntoWords command

/-- `build_string`: the loop over the words behind the first. -/
def buildString : List Str → Str
  | [] => []
  | w :: argv => argv.foldl (fun str w => str ++ 32 :: w) w

/-- The words that a leading character stands for. -/
def shorthand : Str → Option Str
  | 34 :: _ => some (Str.ofString "say")
  | 58 :: _ => some (Str.ofString "emote")
  | 59 :: _ => some (Str.ofString "eval")
  | _ => none

/-- "Skip past even complexly-quoted verbs". -/
def skipVerb : Bool → Str → Str
  | _, [] => []
  | _, [92] => []
  | inQuotes, 92 :: _ :: argstr => skipVerb inQuotes argstr
  | inQuotes, c :: argstr =>
      if inQuotes = false ∧ c = 32 then c :: argstr
      else if c = 34 then skipVerb (!inQuotes) argstr
      else skipVerb inQuotes argstr

/-- `buf` and `argstr`, for a line without blanks before it. -/
def commandBuf (command : Str) : Str × Str :=
  match shorthand command with
  | some verb => (verb ++ 32 :: command.tail, command.tail)
  | none => (command, skipBlanks (skipVerb false command))

/-- `Parsed_Command`; `prep` is none for PREP_NONE. -/
structure ParsedCommand where
  verb : Str
  argstr : Str
  args : List Str
  dobjstr : Str
  dobj : Objid
  prepstr : Str
  prep : Option Nat
  iobjstr : Str
  iobj : Objid
  deriving DecidableEq

section

variable (s : State) (user : Objid)

/-- `match_object`. -/
def matchObject (name : Str) : Option Objid :=
  match name with
  | [] => some nothing
  | 35 :: digits =>
      let (n, p) := strtol digits
      let r := (Int32.ofInt n).toInt
      some (if p ≠ [] ∨ valid s r = false then failedMatch else r)
  | name =>
      match findObject s user with
      | none => some failedMatch
      | some o =>
          if strcaseEq name (Str.ofString "me") then some user
          else if strcaseEq name (Str.ofString "here") then some o.location
          else matchContents s user name

/-- The object for a string, NOTHING if no words are there for it. -/
def objectFor (given : Bool) (str : Str) : Looping Objid :=
  if given then ExceptT.lift (matchObject s user str) else pure nothing

/-- `pstart` and `pend`, among `argc` words. -/
def prepBounds (argc : Nat) : Option PrepMatch → Nat × Nat
  | some m => (m.first + 1, m.last + 1)
  | none => (argc, argc)

/-- `parse_command`, when the line has a verb and `argc` words in all. -/
def parseArgs (argc : Nat) (verb argstr : Str) (args : List Str) : Looping ParsedCommand := do
  let found := if argc > 1 then dbFindPrep false args else none
  let pstart := (prepBounds argc found).1
  let pend := (prepBounds argc found).2
  let prepstr :=
    if found.isSome then buildString (((verb :: args).drop pstart).take (pend - pstart + 1)) else []
  let iobjstr := if found.isSome then buildString ((verb :: args).drop (pend + 1)) else []
  let iobj ← objectFor s user found.isSome iobjstr
  let dlen := pstart - 1
  let dobjstr := if dlen = 0 then [] else buildString (((verb :: args).drop 1).take dlen)
  let dobj ← objectFor s user (dlen ≠ 0) dobjstr
  pure ⟨verb, argstr, args, dobjstr, dobj, prepstr, found.map PrepMatch.prep, iobjstr, iobj⟩

/-- `parse_command`; the inner `none` is the null pointer. -/
def parseCommand (command : Str) : Looping (Option ParsedCommand) := do
  let argv ← Waverous.parseIntoWords (commandBuf (skipBlanks command)).1
  match argv with
  | [] => pure none
  | verb :: args =>
    some <$> parseArgs s user argv.length verb (commandBuf (skipBlanks command)).2 args

end

/-! ## Words, and text behind the verb -/

theorem skipVerb_eq (q : Bool) (s : Str) : skipVerb q s = (takeWord q s).2 := by
  induction q, s using takeWord_cases with
  | nil q => rw [takeWord_nil, skipVerb]
  | blank s => rw [takeWord_blank]; simp [skipVerb]
  | quote q s ih => rw [takeWord_quote, ← ih]; simp [skipVerb]
  | backslash q => rw [takeWord_backslash, skipVerb]
  | escape q d s ih => rw [takeWord_escape, ← ih]; simp [skipVerb]
  | cons q c s h h34 h92 ih =>
      rw [takeWord_cons h h34 h92, ← ih, skipVerb, if_neg h, if_neg h34]
      · exact fun h _ => h92 h
      · exact fun _ _ h _ => h92 h

theorem buildString_eq (argv : List Str) : buildString argv = [32].intercalate argv := by
  cases argv with
  | nil => rfl
  | cons w argv =>
      rw [buildString]
      induction argv generalizing w with
      | nil => rw [List.foldl_nil, List.intercalate_singleton]
      | cons w' argv ih =>
          rw [List.foldl_cons, ih, List.intercalate_cons_cons]
          cases argv with
          | nil => simp
          | cons w'' argv => simp

/-- A step whose result is known, and what was known before it. -/
theorem looping_bind {α β : Type} {x : Looping α} {f : α → Looping β} {b : β}
    (h : x >>= f = pure b) : ∃ a, x = pure a ∧ f a = pure b := by
  cases x with
  | none => exact nomatch h
  | some r =>
      cases r with
      | error e => exact nomatch h
      | ok a => exact ⟨a, rfl, h⟩

/-- The words before, of and after a preposition. -/
structure AroundPrep (p : ParsedCommand) (m : PrepMatch) (before words after : List Str) : Prop where
  found : dbFindPrep false p.args = some m
  prep : p.prep = some m.prep
  args : p.args = before ++ words ++ after
  first : before.length = m.first
  last : before.length + words.length = m.last + 1
  dobjstr : p.dobjstr = [32].intercalate before
  prepstr : p.prepstr = [32].intercalate words
  iobjstr : p.iobjstr = [32].intercalate after

variable {s : State} {user : Objid} {command : Str} {p : ParsedCommand}

theorem shorthand_some {verb : Str} (h : shorthand command = some verb) :
    splitWords (verb ++ 32 :: command.tail) = verb :: splitWords command.tail := by
  have hblank : ∀ t, splitWords (32 :: t) = splitWords t := by
    intro t
    rw [← splitWords_skipBlanks (32 :: t), ← splitWords_skipBlanks t]
    rfl
  have hword : ∀ c v t, c ≠ 32 → takeWord false (c :: v ++ 32 :: t) = (c :: v, 32 :: t) →
      splitWords (c :: v ++ 32 :: t) = (c :: v) :: splitWords t := by
    intro c v t hc htake
    have hskip : skipBlanks (c :: v ++ 32 :: t) = c :: (v ++ 32 :: t) := skipBlanks_cons hc _
    rw [splitWords_cons hskip]
    show (takeWord false (c :: v ++ 32 :: t)).1 :: splitWords (takeWord false (c :: v ++ 32 :: t)).2 = _
    rw [htake, hblank]
  unfold shorthand at h
  split at h
  next t =>
    cases h
    exact hword 115 [97, 121] t (by decide) rfl
  next t =>
    cases h
    exact hword 101 [109, 111, 116, 101] t (by decide) rfl
  next t =>
    cases h
    exact hword 101 [118, 97, 108] t (by decide) rfl
  next => exact nomatch h

theorem splitWords_verb {verb : Str} {args : List Str} (hskip : skipBlanks command = command)
    (h : splitWords command = verb :: args) :
    splitWords (skipBlanks (skipVerb false command)) = args := by
  rw [splitWords_skipBlanks, skipVerb_eq]
  cases hc : skipBlanks command with
  | nil =>
      rw [splitWords_nil hc] at h
      exact nomatch h
  | cons c t =>
      rw [splitWords_cons hc, ← hc, hskip] at h
      exact (List.cons.inj h).2

/-- The words in the copy of the line are the verb and the words of the text behind it. -/
theorem commandBuf_words {verb : Str} {args : List Str} (hskip : skipBlanks command = command)
    (h : splitWords (commandBuf command).1 = verb :: args) :
    splitWords (commandBuf command).2 = args ∧
      (shorthand command = none → splitWords command = verb :: args) := by
  rw [commandBuf] at h ⊢
  cases hs : shorthand command with
  | some v =>
      rw [hs] at h
      refine ⟨?_, fun h => nomatch h⟩
      exact (List.cons.inj ((shorthand_some hs).symm.trans h)).2
  | none =>
      rw [hs] at h
      exact ⟨splitWords_verb hskip h, fun _ => h⟩

theorem commandBuf_zero (h : (0 : UInt8) ∉ command) :
    (0 : UInt8) ∉ (commandBuf command).1 ∧ (0 : UInt8) ∉ (commandBuf command).2 := by
  have htail : (0 : UInt8) ∉ command.tail := fun h' => h (List.mem_of_mem_tail h')
  rw [commandBuf]
  cases hs : shorthand command with
  | some v =>
      refine ⟨?_, htail⟩
      have hv : (0 : UInt8) ∉ v := by
        unfold shorthand at hs
        split at hs
        all_goals
          cases hs
          try decide
      simp [hv, htail]
  | none =>
      refine ⟨h, fun h' => h ?_⟩
      rw [skipVerb_eq] at h'
      exact (takeWord_suffix _ _).mem ((List.dropWhile_sublist _).mem h')

theorem aroundPrep {m : PrepMatch} (hfound : dbFindPrep false p.args = some m)
    (hprep : p.prep = some m.prep)
    (hdobj : p.dobjstr = [32].intercalate (p.args.take m.first))
    (hpstr : p.prepstr = [32].intercalate ((p.args.drop m.first).take (m.last + 1 - m.first)))
    (hiobj : p.iobjstr = [32].intercalate (p.args.drop (m.last + 1))) :
    ∃ before words after phrase, AroundPrep p m before words after ∧ Phrase m.prep phrase ∧
      List.Forall₂ SameWord words phrase := by
  have hspec := dbFindPrep_spec p.args
  rw [hfound] at hspec
  obtain ⟨phrase, hentry, hlast, -⟩ := hspec
  obtain ⟨hphrase, ⟨before, words, after, hargs, hfirst, hsame⟩, -⟩ := findEntry_some hentry
  have hwords := hsame.length_eq
  have hdrop : p.args.drop m.first = words ++ after := by
    rw [hargs, List.append_assoc, ← hfirst, List.drop_left]
  refine ⟨before, words, after, phrase, ⟨hfound, hprep, hargs, hfirst, by omega, ?_, ?_, ?_⟩,
    hphrase, hsame⟩
  · rw [hdobj, hargs, List.append_assoc, ← hfirst, List.take_left]
  · rw [hpstr, hdrop, show m.last + 1 - m.first = words.length by omega, List.take_left]
  · rw [hiobj, show m.last + 1 = m.first + words.length by omega, ← List.drop_drop, hdrop,
      List.drop_left]

theorem dbFindPrep_le {argv : List Str} {m : PrepMatch} (h : dbFindPrep false argv = some m) :
    m.first ≤ m.last := by
  have hspec := dbFindPrep_spec argv
  rw [h] at hspec
  obtain ⟨phrase, hentry, hlast, -⟩ := hspec
  have hpos := List.length_pos_iff.mpr (findEntry_some hentry).1.ne_nil
  omega

theorem parseArgs_spec {argc : Nat} {verb argstr : Str} {args : List Str}
    (h : parseArgs s user argc verb argstr args = pure p) :
    p.verb = verb ∧ p.argstr = argstr ∧ p.args = args ∧
    ∀ j, p.prep = some j → ∃ m before words after phrase, AroundPrep p m before words after ∧
      m.prep = j ∧ Phrase j phrase ∧ List.Forall₂ SameWord words phrase := by
  rw [parseArgs] at h
  obtain ⟨iobj, -, h⟩ := looping_bind h
  obtain ⟨dobj, -, h⟩ := looping_bind h
  have hp := Except.ok.inj (Option.some.inj h)
  have hargs : p.args = args := by rw [← hp]
  refine ⟨by rw [← hp], by rw [← hp], hargs, fun j hj => ?_⟩
  -- the preposition that has been found
  have hj' : (if argc > 1 then dbFindPrep false args else none).map PrepMatch.prep = some j := by
    rw [← hj, ← hp]
  obtain ⟨m, hm, rfl⟩ := Option.map_eq_some_iff.mp hj'
  have hfound : dbFindPrep false p.args = some m := by
    rw [hargs]
    split at hm
    · exact hm
    · exact nomatch hm
  simp only [hm, prepBounds, Option.isSome_some, if_true, Nat.add_sub_cancel, List.drop_succ_cons,
    buildString_eq] at hp
  obtain ⟨before, words, after, phrase, haround, hphrase, hsame⟩ := aroundPrep hfound hj
    (by
      rw [← hp]
      split
      next hzero => rw [hzero]; rfl
      next => rfl)
    (by
      rw [← hp]
      show [32].intercalate ((args.drop m.first).take (m.last + 1 - (m.first + 1) + 1)) = _
      have hle := dbFindPrep_le hfound
      rw [show m.last + 1 - (m.first + 1) + 1 = m.last + 1 - m.first by omega])
    (by rw [← hp])
  exact ⟨m, before, words, after, phrase, haround, rfl, hphrase, hsame⟩

/-- The line is split without a write behind what has been read.  In a command that is accepted
    the arguments are the words of `argstr`, and with the verb before them those of the line, unless
    it begins with a shorthand; the strings are made of the words before, of and after the
    preposition. -/
theorem parseCommand_words (hcommand : (0 : UInt8) ∉ command)
    (h : parseCommand s user command = pure (some p)) :
    (∀ line : Str, (0 : UInt8) ∉ line → ∃ words, Waverous.parseIntoWords line = pure words) ∧
    parseIntoWordlist p.argstr = pure p.args ∧
    (shorthand (skipBlanks command) = none →
      parseIntoWordlist command = pure (p.verb :: p.args)) ∧
    ∀ j, p.prep = some j → ∃ m before words after phrase, AroundPrep p m before words after ∧
      m.prep = j ∧ Phrase j phrase ∧ List.Forall₂ SameWord words phrase := by
  have hzero := @commandBuf_zero (skipBlanks command) fun h =>
    hcommand ((List.dropWhile_sublist _).mem h)
  rw [parseCommand] at h
  obtain ⟨argv, hargv, h⟩ := looping_bind h
  have hwords : splitWords (commandBuf (skipBlanks command)).1 = argv := by
    have hargv' := (parseIntoWords_spec hzero.1).symm.trans hargv
    exact Except.ok.inj (Option.some.inj hargv')
  cases argv with
  | nil => exact nomatch h
  | cons verb args =>
      obtain ⟨p', hp', hsome⟩ := looping_bind h
      cases hsome
      obtain ⟨hverb, hargstr, hargs, hprep⟩ := parseArgs_spec hp'
      obtain ⟨hbehind, hline⟩ := commandBuf_words (skipBlanks_skipBlanks command) hwords
      refine ⟨fun line hline => ⟨_, parseIntoWords_spec hline⟩, ?_, ?_, hprep⟩
      · rw [parseIntoWordlist, hargstr, hargs, parseIntoWords_spec hzero.2]
        exact congrArg pure hbehind
      · intro hshort
        rw [parseIntoWordlist, parseIntoWords_spec hcommand, hverb, hargs, ← splitWords_skipBlanks,
          hline hshort]

/-- A line with a quoted word and a preposition of two words. -/
theorem parseCommand_put : ∃ p, parseCommand emptyDb 0
    (Str.ofString " put \"red  ball\" out of  box") = pure (some p) ∧
    p.prep = some 5 ∧ parseIntoWordlist p.argstr = pure p.args := by
  obtain ⟨p, hp, hprep⟩ : ∃ p, parseCommand emptyDb 0
      (Str.ofString " put \"red  ball\" out of  box") = pure (some p) ∧ p.prep = some 5 :=
    ⟨⟨Str.ofString "put", Str.ofString "\"red  ball\" out of  box",
      [Str.ofString "red  ball", Str.ofString "out", Str.ofString "of", Str.ofString "box"],
      Str.ofString "red  ball", failedMatch, Str.ofString "out of", some 5, Str.ofString "box",
      failedMatch⟩, by rfl, rfl⟩
  exact ⟨p, hp, hprep, (parseCommand_words (by decide +kernel) hp).2.1⟩

end Waverous.Db
