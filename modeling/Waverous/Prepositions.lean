import Waverous.Words

/-! # Prepositions — `db_verbs.c`

    The table of prepositions is built from `prep_list`, and looked through in its order at each
    word of a command. -/

namespace Waverous

/-! ## The table -/

def prepList : List Str :=
  [Str.ofString "with/using",
   Str.ofString "at/to",
   Str.ofString "in front of",
   Str.ofString "in/inside/into",
   Str.ofString "on top of/on/onto/upon",
   Str.ofString "out of/from inside/from",
   Str.ofString "over",
   Str.ofString "through",
   Str.ofString "under/underneath/beneath",
   Str.ofString "behind",
   Str.ofString "beside",
   Str.ofString "for/about",
   Str.ofString "is",
   Str.ofString "as",
   Str.ofString "off/off of"]

/-- `while (*p)`: what comes to stand in `cprep`, in turn. -/
def splitAliases : Nat → Str → List Str
  | 0, _ => []
  | _ + 1, [] => []
  | fuel + 1, c :: p =>
      let p := if c = 47 then p else c :: p
      p.takeWhile (· ≠ 47) :: splitAliases fuel (p.dropWhile (· ≠ 47))

/-- The words of an alias. -/
def prepWords (cprep : Str) : List Str :=
  match parseIntoWords cprep with
  | some (.ok words) => words
  | _ => []

/-- `prep_table`, as `dbpriv_build_prep_table` leaves it. -/
def prepTable : List (List (List Str)) :=
  prepList.map fun p => (splitAliases p.length p).map prepWords

/-! ## `db_find_prep` -/

/-- A preposition by its place in the table, with the first of its words and the last. -/
structure PrepMatch where
  prep : Nat
  first : Nat
  last : Nat
  deriving DecidableEq, Repr

/-- `k == alias->nwords` behind the loop over the words of an alias. -/
def wordsEq : List Str → List Str → Bool
  | _, [] => true
  | [], _ :: _ => false
  | a :: argv, w :: words => strcaseEq a w && wordsEq argv words

/-- The two conditions on an alias, at the word `i`. -/
def aliasAt (exactMatch : Bool) (argv : List Str) (i : Nat) (words : List Str) : Bool :=
  decide (i + words.length ≤ argv.length) && wordsEq (argv.drop i) words &&
    (!exactMatch || i + words.length == argv.length)

section

variable (exactMatch : Bool) (argv : List Str)

/-- The loop over the table, from the entry `j` on. -/
def findEntry (i : Nat) : Nat → List (List (List Str)) → Option (Nat × List Str)
  | _, [] => none
  | j, entry :: table =>
      match entry.find? (aliasAt exactMatch argv i) with
      | some words => some (j, words)
      | none => findEntry i (j + 1) table

/-- The loop over the words, of which there are `n` more. -/
def findPrepLoop : Nat → Nat → Option PrepMatch
  | 0, _ => none
  | n + 1, i =>
      match findEntry exactMatch argv i 0 prepTable with
      | some (j, words) => some ⟨j, i, i + words.length - 1⟩
      | none => if exactMatch then none else findPrepLoop n (i + 1)

/-- `db_find_prep`; `exactMatch` if it is not asked where the words are, and PREP_NONE is
    `none`. -/
def dbFindPrep : Option PrepMatch := findPrepLoop exactMatch argv argv.length 0

end

/-! ## Phrases -/

/-- A phrase of the entry `j`. -/
def Phrase (j : Nat) (p : List Str) : Prop := ∃ entry, prepTable[j]? = some entry ∧ p ∈ entry

/-- Two words are the same but for case. -/
def SameWord (a b : Str) : Prop := a.map cmap = b.map cmap

/-- The words from `i` on are those of a phrase. -/
def PhraseAt (argv : List Str) (i : Nat) (p : List Str) : Prop :=
  ∃ before found after, argv = before ++ found ++ after ∧ before.length = i ∧
    List.Forall₂ SameWord found p

/-- A longest phrase of those at the leftmost word where there is one; `none` if there is none. -/
def Recognised (argv : List Str) : Option PrepMatch → Prop
  | none => ∀ i j p, Phrase j p → ¬ PhraseAt argv i p
  | some m =>
      (∃ p, Phrase m.prep p ∧ PhraseAt argv m.first p ∧ m.last + 1 = m.first + p.length) ∧
      ∀ i j p, Phrase j p → PhraseAt argv i p →
        m.first ≤ i ∧ (i = m.first → m.first + p.length ≤ m.last + 1)

def off : Str := Str.ofString "off"

def «of» : Str := Str.ofString "of"

/-- "off of" is the first there is of all phrases. -/
def OffOf (argv : List Str) : Prop :=
  ∃ i, PhraseAt argv i [off, «of»] ∧ ∀ i' j p, Phrase j p → PhraseAt argv i' p → i ≤ i'

/-! ## What is in the table -/

/-- The phrases in the order in which they are tried. -/
def phrases : Nat → List (List (List Str)) → List (Nat × List Str)
  | _, [] => []
  | j, entry :: table => entry.map (j, ·) ++ phrases (j + 1) table

/-- No phrase is the beginning of one that is tried after it, but for "off" and "off of". -/
def Ordered (a b : Nat × List Str) : Prop :=
  wordsEq b.2 a.2 = true → a.2.length < b.2.length → a.2 = [off] ∧ b.2 = [off, «of»]

instance (a b : Nat × List Str) : Decidable (Ordered a b) :=
  inferInstanceAs (Decidable (_ → _ → _))

theorem prepTable_ordered : (phrases 0 prepTable).Pairwise Ordered := by decide +kernel

/-- "off of" is not tried before "off". -/
theorem prepTable_off : (phrases 0 prepTable).Pairwise fun a b => a.2 = [off, «of»] → b.2 ≠ [off] := by
  decide +kernel

theorem prepTable_beginOff :
    ∀ a ∈ phrases 0 prepTable, wordsEq a.2 [off] = true → a.2 = [off] ∨ a.2 = [off, «of»] := by
  decide +kernel

/-- Any other phrase is found when it is all there is. -/
theorem prepTable_found : ∀ a ∈ phrases 0 prepTable, a.2 ≠ [off, «of»] →
    dbFindPrep false a.2 = some ⟨a.1, 0, a.2.length - 1⟩ := by
  decide +kernel

/-- No phrase is empty. -/
theorem prepTable_nonempty : ∀ a ∈ phrases 0 prepTable, a.2 ≠ [] := by decide +kernel

theorem mem_phrases {j k : Nat} {p : List Str} {table : List (List (List Str))} :
    (j, p) ∈ phrases k table ↔ k ≤ j ∧ ∃ entry, table[j - k]? = some entry ∧ p ∈ entry := by
  induction table generalizing k with
  | nil => simp [phrases]
  | cons entry table ih =>
      rw [phrases, List.mem_append, ih]
      constructor
      · rintro (h | ⟨hk, entry', hget, hp⟩)
        · obtain ⟨p', hp, ⟨⟩⟩ := List.mem_map.mp h
          exact ⟨Nat.le_refl _, entry, by rw [Nat.sub_self]; rfl, hp⟩
        · refine ⟨by omega, entry', ?_, hp⟩
          rw [show j - k = j - (k + 1) + 1 by omega, List.getElem?_cons_succ]
          exact hget
      · rintro ⟨hk, entry', hget, hp⟩
        rcases Nat.eq_or_lt_of_le hk with rfl | hlt
        · rw [Nat.sub_self, List.getElem?_cons_zero] at hget
          cases hget
          exact .inl (List.mem_map.mpr ⟨p, hp, rfl⟩)
        · rw [show j - k = j - (k + 1) + 1 by omega, List.getElem?_cons_succ] at hget
          exact .inr ⟨hlt, entry', hget, hp⟩

theorem phrase_iff {j : Nat} {p : List Str} : Phrase j p ↔ (j, p) ∈ phrases 0 prepTable := by
  rw [mem_phrases, Phrase, Nat.sub_zero]
  exact ⟨fun h => ⟨Nat.zero_le _, h⟩, fun h => h.2⟩

theorem Phrase.ne_nil {j : Nat} {p : List Str} (h : Phrase j p) : p ≠ [] :=
  prepTable_nonempty _ (phrase_iff.mp h)

/-! ## What is found at a word -/

section

variable {argv p q : List Str} {i : Nat}

theorem wordsEq_iff : wordsEq argv p = true ↔
    ∃ found after, argv = found ++ after ∧ List.Forall₂ SameWord found p := by
  induction p generalizing argv with
  | nil =>
      rw [wordsEq.eq_1]
      exact ⟨fun _ => ⟨[], argv, rfl, .nil⟩, fun _ => rfl⟩
  | cons w p ih =>
      cases argv with
      | nil =>
          constructor
          · exact nofun
          · rintro ⟨found, after, h, hsame⟩
            obtain ⟨rfl, rfl⟩ := List.nil_eq_append_iff.mp h
            cases hsame
      | cons a argv =>
          rw [wordsEq, Bool.and_eq_true, strcaseEq_iff, ih]
          constructor
          · rintro ⟨ha, found, after, rfl, hsame⟩
            exact ⟨a :: found, after, rfl, .cons ha hsame⟩
          · rintro ⟨found, after, h, hsame⟩
            cases hsame with
            | cons ha hsame =>
                cases h
                exact ⟨ha, _, after, rfl, hsame⟩

theorem sameWords_iff : List.Forall₂ SameWord p q ↔ p.map (List.map cmap) = q.map (List.map cmap) := by
  rw [← List.forall₂_eq_eq_eq, List.forall₂_map_left_iff, List.forall₂_map_right_iff]
  rfl

/-- The conditions on an alias are those of its being there. -/
theorem aliasAt_iff : aliasAt false argv i p = true ↔ PhraseAt argv i p := by
  rw [aliasAt, Bool.and_eq_true, Bool.and_eq_true, decide_eq_true_eq, wordsEq_iff, PhraseAt]
  constructor
  · rintro ⟨⟨hle, found, after, hdrop, hsame⟩, -⟩
    refine ⟨argv.take i, found, after, ?_, ?_, hsame⟩
    · rw [List.append_assoc, ← hdrop, List.take_append_drop]
    · rw [List.length_take]
      omega
  · rintro ⟨before, found, after, rfl, rfl, hsame⟩
    refine ⟨⟨?_, found, after, ?_, hsame⟩, rfl⟩
    · rw [← hsame.length_eq, List.length_append, List.length_append]
      omega
    · rw [List.append_assoc, List.drop_left]

/-- Of two phrases at the same word the shorter one begins the longer one. -/
theorem PhraseAt.wordsEq (hp : PhraseAt argv i p) (hq : PhraseAt argv i q)
    (hlt : p.length < q.length) : wordsEq q p = true := by
  obtain ⟨before, found, after, rfl, rfl, hsame⟩ := hp
  obtain ⟨before', found', after', h, hlen, hsame'⟩ := hq
  rw [List.append_assoc, List.append_assoc] at h
  obtain ⟨rfl, hbehind⟩ := List.append_inj h hlen.symm
  have hpre : found <+: found' := by
    refine List.prefix_of_prefix_length_le ⟨after, rfl⟩ ⟨after', hbehind.symm⟩ ?_
    rw [hsame.length_eq, hsame'.length_eq]
    exact Nat.le_of_lt hlt
  obtain ⟨more, rfl⟩ := hpre
  have htake := List.forall₂_take found.length hsame'
  rw [List.take_left] at htake
  refine wordsEq_iff.mpr ⟨q.take found.length, q.drop found.length,
    (List.take_append_drop _ _).symm, ?_⟩
  rw [sameWords_iff] at hsame htake ⊢
  exact htake.symm.trans hsame

end

theorem findEntry_eq (exactMatch : Bool) (argv : List Str) (i j : Nat) (table : List (List (List Str))) :
    findEntry exactMatch argv i j table =
      (phrases j table).find? fun a => aliasAt exactMatch argv i a.2 := by
  induction table generalizing j with
  | nil => rfl
  | cons entry table ih =>
      rw [findEntry, phrases, List.find?_append, List.find?_map, ih]
      show _ = Option.or (Option.map (j, ·) (entry.find? (aliasAt exactMatch argv i))) _
      cases entry.find? (aliasAt exactMatch argv i) with
      | none => rfl
      | some words => rfl

section

variable {argv : List Str} {i : Nat}

theorem findEntry_none (h : findEntry false argv i 0 prepTable = none) {j : Nat} {p : List Str}
    (hp : Phrase j p) : ¬ PhraseAt argv i p := by
  rw [findEntry_eq, List.find?_eq_none] at h
  rw [← aliasAt_iff]
  exact h _ (phrase_iff.mp hp)

/-- What is found at a word is a phrase that is there; a longer one there is "off of". -/
theorem findEntry_some {j : Nat} {p : List Str}
    (h : findEntry false argv i 0 prepTable = some (j, p)) :
    Phrase j p ∧ PhraseAt argv i p ∧ ∀ k q, Phrase k q → PhraseAt argv i q →
      p.length < q.length → p = [off] ∧ q = [off, «of»] := by
  rw [findEntry_eq, List.find?_eq_some_iff_append] at h
  obtain ⟨hat, before, after, htable, hbefore⟩ := h
  have hp : PhraseAt argv i p := aliasAt_iff.mp hat
  refine ⟨phrase_iff.mpr (htable ▸ List.mem_append_right _ List.mem_cons_self), hp, ?_⟩
  intro k q hk hq hlt
  have hmem := phrase_iff.mp hk
  have hord := prepTable_ordered
  rw [htable] at hmem hord
  rcases List.mem_append.mp hmem with hmem | hmem
  · have hnot := hbefore _ hmem
    rw [aliasAt_iff.mpr hq] at hnot
    exact nomatch hnot
  · rcases List.mem_cons.mp hmem with heq | hmem
    · cases heq
      exact absurd hlt (Nat.lt_irrefl _)
    · have htail := (List.pairwise_cons.mp (List.pairwise_append.mp hord).2.1).1
      exact htail _ hmem (hp.wordsEq hq hlt) hlt

theorem PhraseAt.le {p : List Str} (h : PhraseAt argv i p) : i + p.length ≤ argv.length := by
  obtain ⟨before, found, after, rfl, rfl, hsame⟩ := h
  rw [← hsame.length_eq, List.length_append, List.length_append]
  omega

/-- The loop stops at the leftmost word where there is a phrase, with what is found there. -/
theorem findPrepLoop_spec {n : Nat} (hn : i + n = argv.length)
    (hbefore : ∀ i' j p, Phrase j p → PhraseAt argv i' p → i ≤ i') :
    match findPrepLoop false argv n i with
    | none => ∀ i' j p, Phrase j p → ¬ PhraseAt argv i' p
    | some m => ∃ p, findEntry false argv m.first 0 prepTable = some (m.prep, p) ∧
        m.last + 1 = m.first + p.length ∧
        ∀ i' j q, Phrase j q → PhraseAt argv i' q → m.first ≤ i' := by
  induction n generalizing i with
  | zero =>
      intro i' j p hp hat
      have hle := hat.le
      have hpos := List.length_pos_iff.mpr hp.ne_nil
      have := hbefore i' j p hp hat
      omega
  | succ n ih =>
      rw [findPrepLoop]
      cases hfind : findEntry false argv i 0 prepTable with
      | some a =>
          obtain ⟨j, p⟩ := a
          have hpos := List.length_pos_iff.mpr (findEntry_some hfind).1.ne_nil
          exact ⟨p, hfind, Nat.sub_add_cancel (by omega), hbefore⟩
      | none =>
          refine ih (by omega) fun i' j p hp hat => ?_
          have hle := hbefore i' j p hp hat
          rcases Nat.eq_or_lt_of_le hle with rfl | hlt
          · exact absurd hat (findEntry_none hfind hp)
          · exact hlt

end

theorem dbFindPrep_spec (argv : List Str) :
    match dbFindPrep false argv with
    | none => ∀ i j p, Phrase j p → ¬ PhraseAt argv i p
    | some m => ∃ p, findEntry false argv m.first 0 prepTable = some (m.prep, p) ∧
        m.last + 1 = m.first + p.length ∧
        ∀ i j q, Phrase j q → PhraseAt argv i q → m.first ≤ i :=
  findPrepLoop_spec (Nat.zero_add _) fun _ _ _ _ _ => Nat.zero_le _

theorem phrase_off : Phrase 14 [off] := phrase_iff.mpr (by decide +kernel)

theorem phrase_offOf : Phrase 14 [off, «of»] := phrase_iff.mpr (by decide +kernel)

/-- "off" is at hand wherever "off of" is, and is tried first. -/
theorem findEntry_offOf {argv : List Str} {i j : Nat} {p : List Str}
    (h : findEntry false argv i 0 prepTable = some (j, p)) (hat : PhraseAt argv i [off, «of»]) :
    p.length ≤ 1 := by
  have hoff : PhraseAt argv i [off] := by
    obtain ⟨before, found, after, rfl, rfl, hsame⟩ := hat
    obtain ⟨a, b, rfl⟩ : ∃ a b, found = [a, b] := List.length_eq_two.mp hsame.length_eq
    rw [List.forall₂_cons] at hsame
    exact ⟨before, [a], b :: after, by simp, rfl, .cons hsame.1 .nil⟩
  obtain ⟨hp, hpat, -⟩ := findEntry_some h
  by_contra hlong
  have hmem := phrase_iff.mp hp
  rcases prepTable_beginOff _ hmem (hoff.wordsEq hpat (by simpa using hlong)) with heq | heq
  · exact hlong (Nat.le_of_eq (congrArg List.length heq))
  · rw [findEntry_eq, List.find?_eq_some_iff_append] at h
    obtain ⟨-, before, after, htable, hbefore⟩ := h
    have hmem' := phrase_iff.mp phrase_off
    have hord := prepTable_off
    rw [htable] at hmem' hord
    rcases List.mem_append.mp hmem' with hmem' | hmem'
    · have hnot := hbefore _ hmem'
      rw [aliasAt_iff.mpr hoff] at hnot
      exact nomatch hnot
    · rcases List.mem_cons.mp hmem' with heq' | hmem'
      · exact absurd (congrArg (fun a => a.2.length) heq') (by rw [heq]; decide)
      · exact (List.pairwise_cons.mp (List.pairwise_append.mp hord).2.1).1 _ hmem' heq rfl

theorem phraseAt_self (p : List Str) : PhraseAt p 0 p :=
  ⟨[], p, [], (List.append_nil p).symm, rfl, sameWords_iff.mpr rfl⟩

/-- The preposition is a longest phrase at the leftmost word where there is one, unless "off of" is
    there, which is taken for "off"; each phrase but "off of" is found in some command. -/
theorem prep_recognised_iff (argv : List Str) (j : Nat) (p : List Str) :
    (Recognised argv (dbFindPrep false argv) ↔ ¬ OffOf argv) ∧
    (Phrase j p →
      ((∃ command m, dbFindPrep false command = some m ∧ m.prep = j ∧ PhraseAt command m.first p ∧
        m.last + 1 = m.first + p.length) ↔ p ≠ [off, «of»])) := by
  constructor
  · have hspec := dbFindPrep_spec argv
    cases hfind : dbFindPrep false argv with
    | none =>
        rw [hfind] at hspec
        refine ⟨fun _ => ?_, fun _ => hspec⟩
        rintro ⟨i, hat, -⟩
        exact hspec i 14 _ phrase_offOf hat
    | some m =>
        rw [hfind] at hspec
        obtain ⟨p, hentry, hlast, hbefore⟩ := hspec
        constructor
        · rintro ⟨-, hlongest⟩ ⟨i, hat, hleft⟩
          obtain ⟨hp, hpat, -⟩ := findEntry_some hentry
          have hi : i = m.first :=
            Nat.le_antisymm (hleft _ _ _ hp hpat) (hbefore i 14 _ phrase_offOf hat)
          have hlen := (hlongest i 14 _ phrase_offOf hat).2 hi
          subst hi
          have hshort := findEntry_offOf hentry hat
          rw [List.length_cons, List.length_singleton] at hlen
          omega
        · intro hnot
          obtain ⟨hp, hpat, hlong⟩ := findEntry_some hentry
          refine ⟨⟨p, hp, hpat, hlast⟩, fun i j q hq hqat => ⟨hbefore i j q hq hqat, ?_⟩⟩
          rintro rfl
          rw [hlast]
          refine Nat.add_le_add_left (Nat.le_of_not_lt fun hlt => hnot ?_) _
          obtain ⟨-, rfl⟩ := hlong j q hq hqat hlt
          exact ⟨m.first, hqat, hbefore⟩
  · intro hp
    constructor
    · rintro ⟨command, m, hfind, -, hat, hlast⟩ rfl
      have hspec := dbFindPrep_spec command
      rw [hfind] at hspec
      obtain ⟨p, hentry, hlast', -⟩ := hspec
      have hshort := findEntry_offOf hentry hat
      rw [List.length_cons, List.length_singleton] at hlast
      omega
    · intro hne
      have hpos := List.length_pos_iff.mpr hp.ne_nil
      refine ⟨p, _, prepTable_found _ (phrase_iff.mp hp) hne, rfl, phraseAt_self p, ?_⟩
      show p.length - 1 + 1 = 0 + p.length
      omega

/-- "off of" is not the phrase that is found in a command that is "off of". -/
theorem offOf_not_recognised : ¬ ∀ argv, Recognised argv (dbFindPrep false argv) := by
  intro h
  have hfind : dbFindPrep false [off, «of»] = some ⟨14, 0, 0⟩ := by decide +kernel
  have hoff := h [off, «of»]
  rw [hfind] at hoff
  have := (hoff.2 0 14 _ phrase_offOf (phraseAt_self _)).2 rfl
  exact absurd this (by decide)

end Waverous
