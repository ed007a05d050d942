import Waverous.Binary
import Mathlib.Data.List.Forall2

/-! # Words of a command — `parse_cmd.c`

    `parse_into_words` takes the quotes and backslashes out of a line and ends each word with a
    NUL, all in the buffer of the line itself.  A write behind what has been read is a fault. -/

namespace Waverous

open Blocks

/-! ## The words of a line -/

/-- The word a line begins with, and the rest of the line. -/
def takeWord : Bool → Str → Str × Str
  | _, [] => ([], [])
  | _, [92] => ([], [])
  | inQuotes, 92 :: d :: s => (d :: (takeWord inQuotes s).1, (takeWord inQuotes s).2)
  | inQuotes, c :: s =>
      if inQuotes = false ∧ c = 32 then ([], c :: s)
      else if c = 34 then takeWord (!inQuotes) s
      else (c :: (takeWord inQuotes s).1, (takeWord inQuotes s).2)

def skipBlanks (s : Str) : Str := s.dropWhile (· == 32)

section

variable {q : Bool} {c d : UInt8} {s : Str}

theorem takeWord_nil : takeWord q [] = ([], []) := by rw [takeWord]

theorem takeWord_blank : takeWord false (32 :: s) = ([], 32 :: s) := by simp [takeWord]

theorem takeWord_quote : takeWord q (34 :: s) = takeWord (!q) s := by simp [takeWord]

theorem takeWord_backslash : takeWord q [92] = ([], []) := by simp [takeWord]

theorem takeWord_escape :
    takeWord q (92 :: d :: s) = (d :: (takeWord q s).1, (takeWord q s).2) := by
  simp [takeWord]

theorem takeWord_cons (h : ¬ (q = false ∧ c = 32)) (h34 : c ≠ 34) (h92 : c ≠ 92) :
    takeWord q (c :: s) = (c :: (takeWord q s).1, (takeWord q s).2) := by
  rw [takeWord, if_neg h, if_neg h34]
  · exact fun h _ => h92 h
  · exact fun _ _ h _ => h92 h

/-- What a line begins with, as far as words go. -/
theorem takeWord_cases {P : Bool → Str → Prop} (nil : ∀ q, P q []) (blank : ∀ s, P false (32 :: s))
    (quote : ∀ q s, P (!q) s → P q (34 :: s)) (backslash : ∀ q, P q [92])
    (escape : ∀ q d s, P q s → P q (92 :: d :: s))
    (cons : ∀ q c s, ¬ (q = false ∧ c = 32) → c ≠ 34 → c ≠ 92 → P q s → P q (c :: s))
    (q : Bool) (s : Str) : P q s := by
  induction q, s using takeWord.induct with
  | case1 q => exact nil q
  | case2 q => exact backslash q
  | case3 q d s ih => exact escape q d s ih
  | case4 q c s hend hesc h =>
      obtain ⟨rfl, rfl⟩ := h
      exact blank s
  | case5 q s hend hesc h ih => exact quote q s ih
  | case6 q c s hend hesc h h34 ih =>
      refine cons q c s h h34 ?_ ih
      rintro rfl
      cases s with
      | nil => exact hend rfl rfl
      | cons d s => exact hesc d s rfl rfl

end

theorem takeWord_suffix (q : Bool) (s : Str) : (takeWord q s).2 <:+ s := by
  induction q, s using takeWord_cases with
  | nil q => exact (congrArg Prod.snd takeWord_nil).symm ▸ List.suffix_rfl
  | blank s => exact (congrArg Prod.snd takeWord_blank).symm ▸ List.suffix_rfl
  | quote q s ih => rw [takeWord_quote]; exact ih.trans (List.suffix_cons _ s)
  | backslash q => rw [takeWord_backslash]; exact List.nil_suffix
  | escape q d s ih =>
      rw [takeWord_escape]
      exact ih.trans ((List.suffix_cons d s).trans (List.suffix_cons _ _))
  | cons q c s h h34 h92 ih =>
      rw [takeWord_cons h h34 h92]
      exact ih.trans (List.suffix_cons c s)

/-- The characters of a word are characters of the line. -/
theorem takeWord_subset (q : Bool) (s : Str) : (takeWord q s).1 ⊆ s := by
  induction q, s using takeWord_cases with
  | nil q => rw [takeWord_nil]; exact List.Subset.refl _
  | blank s => rw [takeWord_blank]; exact List.nil_subset _
  | quote q s ih => rw [takeWord_quote]; exact List.subset_cons_of_subset _ ih
  | backslash q => rw [takeWord_backslash]; exact List.nil_subset _
  | escape q d s ih =>
      rw [takeWord_escape]
      exact List.subset_cons_of_subset _ (List.cons_subset_cons d ih)
  | cons q c s h h34 h92 ih =>
      rw [takeWord_cons h h34 h92]
      exact List.cons_subset_cons c ih

/-- A word is ended by a blank or with the line. -/
theorem takeWord_rest (q : Bool) (s : Str) :
    (takeWord q s).2 = [] ∨ ∃ t, (takeWord q s).2 = 32 :: t := by
  induction q, s using takeWord_cases with
  | nil q => exact .inl (congrArg Prod.snd takeWord_nil)
  | blank s => exact .inr ⟨s, congrArg Prod.snd takeWord_blank⟩
  | quote q s ih => rw [takeWord_quote]; exact ih
  | backslash q => exact .inl (congrArg Prod.snd takeWord_backslash)
  | escape q d s ih => rw [takeWord_escape]; exact ih
  | cons q c s h h34 h92 ih => rw [takeWord_cons h h34 h92]; exact ih

/-- A word takes up a character at least, unless a blank comes first. -/
theorem length_takeWord_lt {c : UInt8} (hc : c ≠ 32) (s : Str) :
    (takeWord false (c :: s)).2.length < (c :: s).length := by
  by_cases h34 : c = 34
  · subst h34
    rw [takeWord_quote]
    exact Nat.lt_succ_of_le (takeWord_suffix _ s).length_le
  · by_cases h92 : c = 92
    · subst h92
      cases s with
      | nil =>
          rw [takeWord_backslash]
          exact Nat.zero_lt_one
      | cons d s =>
          rw [takeWord_escape]
          exact Nat.lt_succ_of_le (Nat.le_succ_of_le (takeWord_suffix _ s).length_le)
    · rw [takeWord_cons (fun h => hc h.2) h34 h92]
      exact Nat.lt_succ_of_le (takeWord_suffix _ s).length_le

theorem length_skipBlanks_le (s : Str) : (skipBlanks s).length ≤ s.length :=
  (List.dropWhile_sublist _).length_le

theorem skipBlanks_head {c : UInt8} {s t : Str} (h : skipBlanks s = c :: t) : c ≠ 32 := by
  have := List.head?_dropWhile_not (· == (32 : UInt8)) s
  rw [skipBlanks] at h
  rw [h] at this
  simpa using this

/-- The words of a line, unquoted. -/
def splitWords (s : Str) : List Str :=
  match _h : skipBlanks s with
  | [] => []
  | c :: t => (takeWord false (c :: t)).1 :: splitWords (takeWord false (c :: t)).2
termination_by s.length
decreasing_by
  have hlt := length_takeWord_lt (skipBlanks_head _h) t
  have hle := length_skipBlanks_le s
  rw [_h] at hle
  omega

theorem splitWords_nil {s : Str} (h : skipBlanks s = []) : splitWords s = [] := by
  rw [splitWords]
  split
  next => rfl
  next h' => exact absurd (h.symm.trans h') nofun

theorem splitWords_cons {c : UInt8} {s t : Str} (h : skipBlanks s = c :: t) :
    splitWords s = (takeWord false (c :: t)).1 :: splitWords (takeWord false (c :: t)).2 := by
  rw [splitWords]
  split
  next h' => exact absurd (h'.symm.trans h) nofun
  next h' =>
    cases h.symm.trans h'
    rfl

theorem skipBlanks_cons {c : UInt8} (hc : c ≠ 32) (s : Str) : skipBlanks (c :: s) = c :: s := by
  rw [skipBlanks, List.dropWhile_cons_of_neg]
  simpa using hc

theorem skipBlanks_skipBlanks (s : Str) : skipBlanks (skipBlanks s) = skipBlanks s := by
  cases h : skipBlanks s with
  | nil => rfl
  | cons c t => exact skipBlanks_cons (skipBlanks_head h) t

theorem splitWords_skipBlanks (s : Str) : splitWords (skipBlanks s) = splitWords s := by
  cases h : skipBlanks s with
  | nil => rw [splitWords_nil h, splitWords_nil rfl]
  | cons c t => rw [splitWords_cons h, splitWords_cons (skipBlanks_cons (skipBlanks_head h) t)]

/-! ## The buffer -/

/-- What comes of a loop that is given up after so many rounds. -/
abbrev Looping := ExceptT Fault Option

/-- `*(ptr++) = c`, when the buffer has been read up to `input`. -/
def putAt (buf : Str) (ptr input : Nat) (c : UInt8) : Looping Str :=
  if ptr ≤ input ∧ ptr < buf.length then pure (buf.set ptr c) else throw .write

/-- `*input`. -/
def bufAt (buf : Str) (input : Nat) : Looping UInt8 :=
  match buf[input]? with
  | some c => pure c
  | none => throw .read

/-- `while (*input == ' ') input++`. -/
def skipLoop (buf : Str) : Nat → Nat → Looping Nat
  | 0, _ => (none : Option _)
  | fuel + 1, input => do
      let c ← bufAt buf input
      if c = 32 then skipLoop buf fuel (input + 1) else pure input

/-- The loop over the characters of a word: the buffer, `in_quotes`, `ptr` and `input` behind it. -/
def wordLoop : Nat → Str → Bool → Nat → Nat → Looping (Str × Bool × Nat × Nat)
  | 0, _, _, _, _ => (none : Option _)
  | fuel + 1, buf, inQuotes, ptr, input => do
      let c ← bufAt buf input
      if c = 0 ∨ (inQuotes = false ∧ c = 32) then pure (buf, inQuotes, ptr, input)
      else if c = 34 then wordLoop fuel buf (!inQuotes) ptr (input + 1)
      else if c = 92 then do
        let d ← bufAt buf (input + 1)
        if d = 0 then wordLoop fuel buf inQuotes ptr (input + 1)
        else do
          let buf ← putAt buf ptr (input + 1) d
          wordLoop fuel buf inQuotes (ptr + 1) (input + 2)
      else do
        let buf ← putAt buf ptr input c
        wordLoop fuel buf inQuotes (ptr + 1) (input + 1)

/-- The loop over the words, of which `words` are the beginnings. -/
def wordsLoop : Nat → Str → Bool → Nat → Nat → List Nat → Looping (Str × List Nat)
  | 0, _, _, _, _, _ => (none : Option _)
  | fuel + 1, buf, inQuotes, ptr, input, words => do
      let c ← bufAt buf input
      if c = 0 then pure (buf, words)
      else do
        let (buf, inQuotes, last, input) ← wordLoop (fuel + 1) buf inQuotes ptr input
        let input ← skipLoop buf (fuel + 1) input
        let buf ← putAt buf last input 0
        wordsLoop fuel buf inQuotes (last + 1) input (words ++ [ptr])

/-- The string at a position of the buffer. -/
def stringAt (buf : Str) (i : Nat) : Str := (buf.drop i).takeWhile (· ≠ 0)

/-- `parse_into_words`, of a copy of the line. -/
def parseIntoWords (s : Str) : Looping (List Str) := do
  let buf := s ++ [0]
  let input ← skipLoop buf (s.length + 1) 0
  let (buf, words) ← wordsLoop (s.length + 1) buf false 0 input []
  pure (words.map (stringAt buf))

section

variable {buf : Str} {ptr input fuel : Nat}

theorem bufAt_drop {c : UInt8} {t : Str} (h : buf.drop input = c :: t) :
    bufAt buf input = pure c ∧ buf.drop (input + 1) = t ∧ input < buf.length := by
  have hget : buf[input]? = some c := by
    rw [← List.head?_drop, h]
    rfl
  refine ⟨by rw [bufAt, hget], ?_, (List.getElem?_eq_some_iff.mp hget).1⟩
  rw [← List.tail_drop, h]
  rfl

theorem putAt_ok {c : UInt8} (hptr : ptr ≤ input) (hlt : ptr < buf.length) :
    putAt buf ptr input c = pure (buf.set ptr c) := if_pos ⟨hptr, hlt⟩

theorem take_set {c : UInt8} (hlt : ptr < buf.length) :
    (buf.set ptr c).take (ptr + 1) = buf.take ptr ++ [c] := by
  rw [List.take_add_one, List.take_set_of_le (Nat.le_refl _), List.getElem?_set_self hlt]
  rfl

theorem set_same {c : UInt8} {t : Str} (h : buf.drop ptr = c :: t) : buf.set ptr c = buf := by
  obtain ⟨-, -, hlt⟩ := bufAt_drop h
  have hget : buf[ptr] = c := by
    have := List.drop_eq_getElem_cons hlt
    rw [h] at this
    exact (List.cons.inj this).1.symm
  rw [← hget, List.set_getElem_self]

/-- What a write does to the buffer: nothing before it, and nothing that has not been read. -/
theorem drop_set {c : UInt8} (hlt : ptr < input) : (buf.set ptr c).drop input = buf.drop input :=
  List.drop_set_of_lt hlt

theorem skipLoop_spec {rest : Str} (hrest : buf.drop input = rest ++ [0]) (hzero : (0 : UInt8) ∉ rest)
    (hfuel : rest.length < fuel) : ∃ input', skipLoop buf fuel input = pure input' ∧
      buf.drop input' = skipBlanks rest ++ [0] ∧ input ≤ input' ∧
      (∀ t, rest = 32 :: t → input < input') := by
  induction fuel generalizing input rest with
  | zero => omega
  | succ fuel ih =>
      cases rest with
      | nil =>
          obtain ⟨hc, -, -⟩ := bufAt_drop hrest
          refine ⟨input, ?_, hrest, Nat.le_refl _, nofun⟩
          rw [skipLoop, hc, pure_bind, if_neg (by decide)]
      | cons c rest =>
          obtain ⟨hc, hdrop, -⟩ := bufAt_drop hrest
          rw [skipLoop, hc, pure_bind]
          by_cases hblank : c = 32
          · subst hblank
            rw [if_pos rfl]
            obtain ⟨input', hrun, hdrop', hle, -⟩ := ih hdrop (fun h => hzero (.tail _ h))
              (by simpa using hfuel)
            exact ⟨input', hrun, hdrop', by omega, fun _ _ => by omega⟩
          · rw [if_neg hblank]
            refine ⟨input, rfl, ?_, Nat.le_refl _, ?_⟩
            · rw [skipBlanks_cons hblank]
              exact hrest
            · rintro t ⟨⟩
              exact absurd rfl hblank

/-- Where the loop over a word has come to, when the word and what is behind it are `r`. -/
structure WordRead (buf : Str) (ptr : Nat) (r : Str × Str) (out : Str × Bool × Nat × Nat) : Prop where
  length : out.1.length = buf.length
  last : out.2.2.1 = ptr + r.1.length
  written : out.1.take out.2.2.1 = buf.take ptr ++ r.1
  unread : out.1.drop out.2.2.2 = r.2 ++ [0]
  behind : out.2.2.1 ≤ out.2.2.2
  unquoted : r.2 ≠ [] → out.2.1 = false

/-- A character of the word has been written. -/
theorem WordRead.cons {c : UInt8} {r : Str × Str} {out : Str × Bool × Nat × Nat}
    (hlt : ptr < buf.length) (h : WordRead (buf.set ptr c) (ptr + 1) r out) :
    WordRead buf ptr (c :: r.1, r.2) out where
  length := by rw [h.length, List.length_set]
  last := by
    rw [h.last, List.length_cons]
    omega
  written := by rw [h.written, take_set hlt, List.append_assoc]; rfl
  unread := h.unread
  behind := h.behind
  unquoted := h.unquoted

theorem wordLoop_spec {inQuotes : Bool} {rest : Str} (hrest : buf.drop input = rest ++ [0])
    (hzero : (0 : UInt8) ∉ rest) (hptr : ptr ≤ input) (hfuel : rest.length < fuel) :
    ∃ out, wordLoop fuel buf inQuotes ptr input = pure out ∧
      WordRead buf ptr (takeWord inQuotes rest) out := by
  induction inQuotes, rest using takeWord_cases generalizing fuel buf ptr input with
  | nil q =>
      obtain ⟨fuel, rfl⟩ : ∃ n, fuel = n + 1 := ⟨fuel - 1, by omega⟩
      obtain ⟨hc, -, -⟩ := bufAt_drop hrest
      refine ⟨(buf, q, ptr, input), ?_, ?_⟩
      · rw [wordLoop, hc, pure_bind, if_pos (.inl rfl)]
      · rw [takeWord_nil]
        exact ⟨rfl, rfl, (List.append_nil _).symm, hrest, hptr, fun h => absurd rfl h⟩
  | blank s =>
      obtain ⟨fuel, rfl⟩ : ∃ n, fuel = n + 1 := ⟨fuel - 1, by omega⟩
      obtain ⟨hc, -, -⟩ := bufAt_drop hrest
      refine ⟨(buf, false, ptr, input), ?_, ?_⟩
      · rw [wordLoop, hc, pure_bind, if_pos (.inr ⟨rfl, rfl⟩)]
      · rw [takeWord_blank]
        exact ⟨rfl, rfl, (List.append_nil _).symm, hrest, hptr, fun _ => rfl⟩
  | quote q s ih =>
      obtain ⟨fuel, rfl⟩ : ∃ n, fuel = n + 1 := ⟨fuel - 1, by omega⟩
      obtain ⟨hc, hdrop, -⟩ := bufAt_drop hrest
      obtain ⟨out, hrun, hread⟩ := ih hdrop (fun h => hzero (.tail _ h)) (Nat.le_succ_of_le hptr)
        (Nat.lt_of_succ_lt_succ hfuel)
      refine ⟨out, ?_, ?_⟩
      · rw [wordLoop, hc, pure_bind, if_neg (by simp), if_pos rfl, hrun]
      · rw [takeWord_quote]
        exact hread
  | backslash q =>
      -- nothing is behind the backslash: the NUL is looked at, and again in the next round
      obtain ⟨fuel, rfl⟩ : ∃ n, fuel = n + 2 := ⟨fuel - 2, by have := hfuel; simp at this; omega⟩
      obtain ⟨hc, hdrop, -⟩ := bufAt_drop hrest
      obtain ⟨hd, -, -⟩ := bufAt_drop hdrop
      refine ⟨(buf, q, ptr, input + 1), ?_, ?_⟩
      · rw [wordLoop, hc, pure_bind, if_neg (by simp), if_neg (by decide), if_pos rfl, hd, pure_bind,
          if_pos rfl, wordLoop, hd, pure_bind, if_pos (.inl rfl)]
      · rw [takeWord_backslash]
        exact ⟨rfl, rfl, (List.append_nil _).symm, hdrop, Nat.le_succ_of_le hptr,
          fun h => absurd rfl h⟩
  | escape q d s ih =>
      obtain ⟨fuel, rfl⟩ : ∃ n, fuel = n + 1 := ⟨fuel - 1, by omega⟩
      obtain ⟨hc, hdrop, hlt⟩ := bufAt_drop hrest
      obtain ⟨hd, hdrop2, -⟩ := bufAt_drop hdrop
      have hne : d ≠ 0 := fun h => hzero (.tail _ (h ▸ .head _))
      have hset : (buf.set ptr d).drop (input + 2) = s ++ [0] := by
        rw [drop_set (by omega)]
        exact hdrop2
      obtain ⟨out, hrun, hread⟩ := ih hset (fun h => hzero (.tail _ (.tail _ h)))
        (show ptr + 1 ≤ input + 2 by omega) (Nat.lt_of_succ_lt (Nat.lt_of_succ_lt_succ hfuel))
      refine ⟨out, ?_, ?_⟩
      · rw [wordLoop, hc, pure_bind, if_neg (by simp), if_neg (by decide), if_pos rfl, hd, pure_bind,
          if_neg hne, putAt_ok (by omega) (by omega), pure_bind, hrun]
      · rw [takeWord_escape]
        exact hread.cons (by omega)
  | cons q c s h h34 h92 ih =>
      obtain ⟨fuel, rfl⟩ : ∃ n, fuel = n + 1 := ⟨fuel - 1, by omega⟩
      obtain ⟨hc, hdrop, hlt⟩ := bufAt_drop hrest
      have hne : c ≠ 0 := fun h => hzero (h ▸ .head _)
      have hset : (buf.set ptr c).drop (input + 1) = s ++ [0] := by
        rw [drop_set (by omega)]
        exact hdrop
      obtain ⟨out, hrun, hread⟩ := ih hset (fun h => hzero (.tail _ h))
        (show ptr + 1 ≤ input + 1 by omega) (Nat.lt_of_succ_lt_succ hfuel)
      refine ⟨out, ?_, ?_⟩
      · rw [wordLoop, hc, pure_bind, if_neg (not_or.mpr ⟨hne, h⟩), if_neg h34, if_neg h92,
          putAt_ok hptr (by omega), pure_bind, hrun]
      · rw [takeWord_cons h h34 h92]
        exact hread.cons (by omega)

/-- A word stands in a part of the buffer, with its NUL. -/
def WordAt (done : Str) (start : Nat) (w : Str) : Prop :=
  (0 : UInt8) ∉ w ∧ w ++ [0] <+: done.drop start

theorem WordAt.append {done : Str} {start : Nat} {w : Str} (h : WordAt done start w) (more : Str) :
    WordAt (done ++ more) start w := by
  obtain ⟨hzero, hpre⟩ := h
  have hlen := hpre.length_le
  rw [List.length_append, List.length_singleton, List.length_drop] at hlen
  refine ⟨hzero, ?_⟩
  rw [List.drop_append_of_le_length (by omega)]
  exact hpre.trans (List.prefix_append _ _)

theorem WordAt.stringAt {start : Nat} {w : Str} (h : WordAt buf start w) : stringAt buf start = w := by
  obtain ⟨hzero, t, ht⟩ := h
  rw [Waverous.stringAt, ← ht, List.append_assoc, List.takeWhile_append_of_pos]
  · exact List.append_nil w
  · intro c hc
    simpa using fun h : c = 0 => hzero (h ▸ hc)

theorem map_stringAt {words : List Nat} {done : List Str}
    (h : List.Forall₂ (WordAt buf) words done) : words.map (stringAt buf) = done := by
  induction h with
  | nil => rfl
  | cons h _ ih => rw [List.map_cons, h.stringAt, ih]

theorem wordsLoop_spec {inQuotes : Bool} {rest : Str} {words : List Nat} {done : List Str}
    (hrest : buf.drop input = rest ++ [0]) (hzero : (0 : UInt8) ∉ rest)
    (hblank : skipBlanks rest = rest) (hptr : rest ≠ [] → ptr ≤ input)
    (hquotes : rest ≠ [] → inQuotes = false) (hfuel : rest.length < fuel)
    (hwords : List.Forall₂ (WordAt (buf.take ptr)) words done) :
    ∃ buf' words', wordsLoop fuel buf inQuotes ptr input words = pure (buf', words') ∧
      List.Forall₂ (WordAt buf') words' (done ++ splitWords rest) := by
  induction fuel generalizing buf ptr input inQuotes rest words done with
  | zero => omega
  | succ fuel ih =>
      cases rest with
      | nil =>
          obtain ⟨hc, -, -⟩ := bufAt_drop hrest
          refine ⟨buf, words, ?_, ?_⟩
          · rw [wordsLoop, hc, pure_bind, if_pos rfl]
          · rw [splitWords_nil rfl, List.append_nil]
            refine hwords.imp fun start w h => ?_
            have := h.append (buf.drop ptr)
            rwa [List.take_append_drop] at this
      | cons c rest =>
          obtain ⟨hc, -, -⟩ := bufAt_drop hrest
          have hne : c ≠ 0 := fun h => hzero (h ▸ .head _)
          obtain rfl := hquotes nofun
          have hle : ptr ≤ input := hptr nofun
          obtain ⟨⟨buf1, q, last, input1⟩, hrun1, (hread : WordRead buf ptr
              (takeWord false (c :: rest)) _)⟩ := wordLoop_spec hrest hzero hle hfuel
          have hsuf := takeWord_suffix false (c :: rest)
          have hc32 : c ≠ 32 := skipBlanks_head hblank
          have hshort := length_takeWord_lt hc32 rest
          have hzero2 : (0 : UInt8) ∉ (takeWord false (c :: rest)).2 := fun h => hzero (hsuf.mem h)
          obtain ⟨input2, hrun2, hdrop2, hle2, hmoved⟩ :=
            skipLoop_spec hread.unread hzero2 (show _ < fuel + 1 by omega)
          have hle1 : last ≤ input1 := hread.behind
          have hmoved2 : (takeWord false (c :: rest)).2 ≠ [] → input1 < input2 := by
            intro h
            rcases takeWord_rest false (c :: rest) with h' | ⟨t, h'⟩
            · exact absurd h' h
            · exact hmoved t h'
          have hskip : skipBlanks (takeWord false (c :: rest)).2 ≠ [] →
              (takeWord false (c :: rest)).2 ≠ [] := fun h h' => h (by rw [h']; rfl)
          have hlt2 : input2 < buf1.length := by
            have h : (buf1.drop input2).length = _ := congrArg List.length hdrop2
            rw [List.length_drop, List.length_append, List.length_singleton] at h
            omega
          have hlast : last < buf1.length := Nat.lt_of_le_of_lt (Nat.le_trans hle1 hle2) hlt2
          -- the NUL is written before what has not been read, or on the NUL of the line
          have hdrop3 : (buf1.set last 0).drop input2 =
              skipBlanks (takeWord false (c :: rest)).2 ++ [0] := by
            rcases Nat.lt_or_eq_of_le (Nat.le_trans hle1 hle2) with h | h
            · rw [drop_set h, hdrop2]
            · have hend : (takeWord false (c :: rest)).2 = [] := by
                by_contra hne'
                have hm := hmoved2 hne'
                exact absurd hm (by rw [← h]; exact Nat.not_lt.mpr hle1)
              have hdrop2' := hdrop2
              rw [hend] at hdrop2' ⊢
              have hnul : buf1.drop last = 0 :: [] := h ▸ hdrop2'
              rw [set_same hnul]
              exact hdrop2'
          have hwritten : (buf1.set last 0).take (last + 1) =
              buf.take ptr ++ ((takeWord false (c :: rest)).1 ++ [0]) := by
            rw [take_set hlast, hread.written, List.append_assoc]
          have hptr' : ptr ≤ buf.length := by
            have h := congrArg List.length hrest
            rw [List.length_drop, List.length_append, List.length_singleton] at h
            omega
          have hplaced : List.Forall₂ (WordAt ((buf1.set last 0).take (last + 1))) (words ++ [ptr])
              (done ++ [(takeWord false (c :: rest)).1]) := by
            rw [hwritten]
            refine List.rel_append (hwords.imp fun _ _ h => h.append _) (.cons ⟨?_, ?_⟩ .nil)
            · exact fun h => hzero (takeWord_subset _ _ h)
            · rw [List.drop_append, List.drop_eq_nil_of_le (by rw [List.length_take]; omega),
                List.length_take, Nat.min_eq_left hptr', Nat.sub_self]
              exact List.prefix_rfl
          obtain ⟨buf', words', hrun, hall⟩ := ih hdrop3
            (fun h => hzero2 ((List.dropWhile_sublist _).mem h)) (skipBlanks_skipBlanks _)
            (fun h => Nat.lt_of_le_of_lt hle1 (hmoved2 (hskip h))) (fun h => hread.unquoted (hskip h))
            (Nat.lt_of_le_of_lt (length_skipBlanks_le _) (by omega)) hplaced
          refine ⟨buf', words', ?_, ?_⟩
          · rw [wordsLoop, hc, pure_bind, if_neg hne, hrun1, pure_bind]
            show (skipLoop buf1 (fuel + 1) input1 >>= _) = _
            rw [hrun2, pure_bind, putAt_ok (Nat.le_trans hle1 hle2) hlast, pure_bind, hrun]
          · rw [splitWords_skipBlanks] at hall
            rw [splitWords_cons hblank]
            simpa using hall

end

/-- The buffer is read to its NUL, no write is behind what has been read, and the strings in the
    buffer are in the end the words of the line. -/
theorem parseIntoWords_spec {s : Str} (hs : (0 : UInt8) ∉ s) :
    parseIntoWords s = pure (splitWords s) := by
  have hdrop : (s ++ [0]).drop 0 = s ++ [0] := List.drop_zero
  obtain ⟨input, hrun, hdrop', -, -⟩ := skipLoop_spec hdrop hs (Nat.lt_succ_self _)
  have hle := length_skipBlanks_le s
  have hnone : List.Forall₂ (WordAt ((s ++ [0]).take 0)) [] [] := .nil
  obtain ⟨buf, words, hrun', hwords⟩ := wordsLoop_spec hdrop'
    (fun h => hs ((List.dropWhile_sublist _).mem h)) (skipBlanks_skipBlanks s)
    (fun _ => Nat.zero_le _) (fun _ => rfl) (Nat.lt_succ_of_le hle) hnone
  rw [parseIntoWords]
  show (skipLoop (s ++ [0]) (s.length + 1) 0 >>= _) = _
  rw [hrun, pure_bind, hrun', pure_bind]
  rw [List.nil_append, splitWords_skipBlanks] at hwords
  show pure (words.map (stringAt buf)) = _
  rw [map_stringAt hwords]

end Waverous
