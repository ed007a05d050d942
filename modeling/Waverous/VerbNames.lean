import Waverous.DbVerbs

/-! # Matching the names of verbs — `verbcasecmp` of `utils.c`

    The automaton against the rule it is to carry out.  The names of a verb are the parts
    of one string between spaces; of each, what stands before the first star is needed,
    and from there on a word may stop where it likes. -/

namespace Waverous

/-! ## The rule -/

/-- The aliases in a string of names: what stands between its spaces. -/
def aliases (verb : Str) : List Str := (verb.splitOn 32).filter (· != [])

/-- The letters of an alias, without its stars. -/
def aliasLetters (a : Str) : Str := a.filter (· != 42)

/-- The part before the first star. -/
def aliasRequired (a : Str) : Str := a.takeWhile (· != 42)

/-- One string begins another, without regard to case. -/
def BeginsNoCase (s t : Str) : Prop := s.map cmap <+: t.map cmap

/-- The `*` rule: the word is the letters of the alias, broken off after the required part
    or later; or the alias has a star at its end, and the word goes on as it likes. -/
def AliasMatches (a word : Str) : Prop :=
  (BeginsNoCase word (aliasLetters a) ∧ (aliasRequired a).length ≤ word.length) ∨
    (a.getLast? = some 42 ∧ BeginsNoCase (aliasLetters a) word)

/-- Some alias matches the word. -/
def VerbMatches (verb word : Str) : Prop := ∃ a ∈ aliases verb, AliasMatches a word

instance (s t : Str) : Decidable (BeginsNoCase s t) :=
  inferInstanceAs (Decidable (s.map cmap <+: t.map cmap))

instance (a word : Str) : Decidable (AliasMatches a word) :=
  inferInstanceAs (Decidable ((BeginsNoCase word (aliasLetters a) ∧ _) ∨ (_ ∧ _)))

instance (verb word : Str) : Decidable (VerbMatches verb word) :=
  inferInstanceAs (Decidable (∃ a ∈ aliases verb, AliasMatches a word))

theorem aliases_nil : aliases [] = [] := rfl

theorem aliases_space (v : Str) : aliases (32 :: v) = aliases v := by
  rw [aliases, List.splitOn_cons_eq_if_modifyHead]
  rfl

/-- The spaces after an alias are passed over. -/
theorem aliases_dropSpaces (v : Str) : aliases (v.dropWhile (· == 32)) = aliases v := by
  induction v with
  | nil => rfl
  | cons c v ih =>
      by_cases hc : c = 32
      · subst hc
        rw [aliases_space, ← ih]
        rfl
      · rw [List.dropWhile_cons_of_neg (by simpa using hc)]

/-- An alias comes off the front. -/
theorem aliases_append {a rest : Str} (ha : 32 ∉ a) (hrest : nameEnds rest = true) :
    aliases (a ++ rest) = (if a = [] then [] else [a]) ++ aliases rest := by
  cases rest with
  | nil =>
      rw [List.append_nil, aliases, List.splitOn_eq_singleton ha, aliases_nil]
      by_cases h : a = [] <;> simp [h]
  | cons c rest =>
      obtain rfl : c = 32 := by simpa [nameEnds] using hrest
      rw [aliases_space, aliases, List.splitOn_append_cons_self_of_not_mem ha, aliases]
      by_cases h : a = [] <;> simp [h]

/-! ## One alias -/

/-- `!*w ? (star != none || !*v || *v == ' ') : (star == end)`. -/
def nameFits (m : Str × Bool × Star) : Bool :=
  if m.2.1 then m.2.2 != .none || nameEnds m.1 else m.2.2 == .end

/-- What the inner loop is to find in the middle of an alias: once a star is behind, the
    word may stop anywhere. -/
def FitsFrom (a word : Str) (star : Star) : Prop :=
  (BeginsNoCase word (aliasLetters a) ∧
      (star ≠ .none ∨ (aliasRequired a).length ≤ word.length)) ∨
    (a.getLast? = some 42 ∧ BeginsNoCase (aliasLetters a) word)

/-- The inner loop stays in the alias and tells whether it fits. -/
structure ScansName (a rest word : Str) (star : Star) : Prop where
  stays : ∃ tail, (matchName (a ++ rest) word star).1 = tail ++ rest ∧ 32 ∉ tail
  fits : nameFits (matchName (a ++ rest) word star) = true ↔ FitsFrom a word star

theorem nameEnds_eq_false {a rest : Str} (ha : 32 ∉ a) (hne : a ≠ []) :
    nameEnds (a ++ rest) = false := by
  cases a with
  | nil => exact absurd rfl hne
  | cons c a =>
      have hc : c ≠ 32 := by
        rintro rfl
        exact ha List.mem_cons_self
      simpa [nameEnds] using hc

/-- At the end of an alias nothing is read any more. -/
theorem skipStars_of_nameEnds {rest : Str} (h : nameEnds rest = true) (star : Star) :
    skipStars rest star = (rest, star) := by
  cases rest with
  | nil => rfl
  | cons c rest =>
      obtain rfl : c = 32 := by simpa [nameEnds] using h
      rfl

theorem skipStars_of_ne {c : UInt8} (hc : c ≠ 42) (v : Str) (star : Star) :
    skipStars (c :: v) star = (c :: v, star) := by
  rw [skipStars]
  intro v' h
  injection h with h _
  exact hc h

theorem matchName_of_nameEnds {rest : Str} (h : nameEnds rest = true) (word : Str)
    (star : Star) : matchName rest word star = (rest, word.isEmpty, star) := by
  cases word with
  | nil => rw [matchName, skipStars_of_nameEnds h]; rfl
  | cons w word =>
      rw [matchName, skipStars_of_nameEnds h]
      cases rest with
      | nil => rfl
      | cons c rest =>
          obtain rfl : c = 32 := by simpa [nameEnds] using h
          exact if_pos (Or.inl rfl)

theorem matchName_star (v word : Str) (star : Star) :
    matchName (42 :: v) word star =
      matchName v word (if nameEnds v then .end else .inner) := by
  cases word <;> rw [matchName, matchName, skipStars]

theorem matchName_nil {c : UInt8} (hc : c ≠ 42) (v : Str) (star : Star) :
    matchName (c :: v) [] star = (c :: v, true, star) := by
  rw [matchName, skipStars_of_ne hc]

theorem matchName_cons {c : UInt8} (hc : c ≠ 42) (hs : c ≠ 32) (v : Str) (w : UInt8)
    (word : Str) (star : Star) :
    matchName (c :: v) (w :: word) star =
      if cmap w = cmap c then matchName v word star else (c :: v, false, star) := by
  rw [matchName, skipStars_of_ne hc]
  by_cases h : cmap w = cmap c <;> simp [h, hs]

theorem beginsNoCase_cons {c w : UInt8} {s t : Str} :
    BeginsNoCase (c :: s) (w :: t) ↔ cmap c = cmap w ∧ BeginsNoCase s t := by
  rw [BeginsNoCase, List.map_cons, List.map_cons, List.cons_prefix_cons]
  rfl

theorem beginsNoCase_nil (t : Str) : BeginsNoCase [] t := List.nil_prefix

theorem not_beginsNoCase_nil {c : UInt8} {s : Str} : ¬ BeginsNoCase (c :: s) [] := by
  rintro ⟨t, h⟩
  cases h

theorem aliasLetters_cons {c : UInt8} (hc : c ≠ 42) (a : Str) :
    aliasLetters (c :: a) = c :: aliasLetters a :=
  List.filter_cons_of_pos (by simpa using hc)

theorem aliasRequired_cons {c : UInt8} (hc : c ≠ 42) (a : Str) :
    aliasRequired (c :: a) = c :: aliasRequired a :=
  List.takeWhile_cons_of_pos (by simpa using hc)

/-- A letter at the front says nothing about a star at the end. -/
theorem getLast?_letter {c : UInt8} (hc : c ≠ 42) (a : Str) :
    (c :: a).getLast? = some 42 ↔ a.getLast? = some 42 := by
  cases a with
  | nil => simpa using hc
  | cons d a => rw [List.getLast?_cons_cons]

/-- A letter of the alias is taken by the same letter of the word. -/
theorem fitsFrom_cons {c w : UInt8} (hc : c ≠ 42) (a word : Str) (star : Star) :
    FitsFrom (c :: a) (w :: word) star ↔ cmap w = cmap c ∧ FitsFrom a word star := by
  rw [FitsFrom, aliasLetters_cons hc, aliasRequired_cons hc, getLast?_letter hc,
    beginsNoCase_cons, beginsNoCase_cons, List.length_cons, List.length_cons,
    Nat.add_le_add_iff_right, eq_comm (a := cmap c), FitsFrom]
  tauto

theorem fitsFrom_letter_nil {c : UInt8} (hc : c ≠ 42) (a : Str) (star : Star) :
    FitsFrom (c :: a) [] star ↔ star ≠ .none := by
  rw [FitsFrom, aliasLetters_cons hc, aliasRequired_cons hc]
  constructor
  · rintro (⟨-, h | h⟩ | ⟨-, h⟩)
    · exact h
    · cases h
    · exact absurd h not_beginsNoCase_nil
  · intro h
    exact .inl ⟨beginsNoCase_nil _, .inl h⟩

/-- A star inside the alias frees the word from there on. -/
theorem fitsFrom_star {a : Str} (hne : a ≠ []) (word : Str) (star : Star) :
    FitsFrom (42 :: a) word star ↔ FitsFrom a word .inner := by
  have hlast : (42 :: a).getLast? = a.getLast? := by
    cases a with
    | nil => exact absurd rfl hne
    | cons d a => rw [List.getLast?_cons_cons]
  rw [FitsFrom, FitsFrom, hlast]
  have hreq : aliasRequired (42 :: a) = [] := rfl
  have hlet : aliasLetters (42 :: a) = aliasLetters a := rfl
  rw [hreq, hlet]
  simp

/-- Of the induction on the alias: `star` is never `end` before its end. -/
theorem scansName {rest : Str} (hrest : nameEnds rest = true) :
    ∀ {a : Str} (word : Str) {star : Star}, 32 ∉ a → star ≠ .end →
      ScansName a rest word star := by
  intro a
  induction a with
  | nil =>
      intro word star _ hstar
      have hm := matchName_of_nameEnds hrest word star
      constructor
      · exact ⟨[], by rw [List.nil_append, hm], by simp⟩
      · rw [List.nil_append, hm, nameFits, FitsFrom]
        cases word with
        | nil => simp [hrest, beginsNoCase_nil, aliasRequired]
        | cons w word => simpa [not_beginsNoCase_nil, aliasLetters] using hstar
  | cons c a ih =>
      intro word star ha hstar
      have hs : c ≠ 32 := by
        rintro rfl
        exact ha List.mem_cons_self
      have ha' : 32 ∉ a := fun h => ha (List.mem_cons_of_mem _ h)
      by_cases hc : c = 42
      · subst hc
        by_cases hne : a = []
        · subst hne
          have hm : matchName ([42] ++ rest) word star = (rest, word.isEmpty, .end) := by
            show matchName (42 :: rest) word star = _
            rw [matchName_star, if_pos hrest, matchName_of_nameEnds hrest]
          constructor
          · exact ⟨[], by rw [hm]; rfl, by simp⟩
          · rw [hm, nameFits, FitsFrom]
            cases word <;> simp [aliasLetters, beginsNoCase_nil]
        · have hm : matchName (42 :: a ++ rest) word star =
              matchName (a ++ rest) word .inner := by
            show matchName (42 :: (a ++ rest)) word star = _
            rw [matchName_star, nameEnds_eq_false ha' hne]
            rfl
          obtain ⟨stays, fits⟩ := ih word ha' (show Star.inner ≠ .end by decide)
          exact ⟨by rwa [hm], by rw [hm, fits, fitsFrom_star hne]⟩
      · cases word with
        | nil =>
            have hm : matchName (c :: a ++ rest) [] star = (c :: a ++ rest, true, star) :=
              matchName_nil hc _ _
            constructor
            · exact ⟨c :: a, by rw [hm], ha⟩
            · rw [hm, nameFits, fitsFrom_letter_nil hc, nameEnds_eq_false ha (by simp)]
              simp
        | cons w word =>
            have hm : matchName (c :: a ++ rest) (w :: word) star =
                if cmap w = cmap c then matchName (a ++ rest) word star
                else (c :: a ++ rest, false, star) := matchName_cons hc hs _ _ _ _
            by_cases hw : cmap w = cmap c
            · rw [if_pos hw] at hm
              obtain ⟨stays, fits⟩ := ih word ha' hstar
              exact ⟨by rwa [hm], by rw [hm, fits, fitsFrom_cons hc, and_iff_right hw]⟩
            · rw [if_neg hw] at hm
              constructor
              · exact ⟨c :: a, by rw [hm], ha⟩
              · rw [hm, nameFits, fitsFrom_cons hc]
                simp [hw, hstar]

theorem fitsFrom_none (a word : Str) : FitsFrom a word .none ↔ AliasMatches a word := by
  rw [FitsFrom, AliasMatches]
  simp

/-! ## All the aliases -/

theorem matchNames_cons (word : Str) (fuel : Nat) {v : Str} (hv : v ≠ []) :
    matchNames word (fuel + 1) v =
      (nameFits (matchName v word .none) ||
        matchNames word fuel
          (((matchName v word .none).1.dropWhile (· != 32)).dropWhile (· == 32))) := by
  cases v with
  | nil => exact absurd rfl hv
  | cons c v =>
      rw [matchNames]
      · cases h : nameFits (matchName (c :: v) word .none) with
        | true => rw [nameFits] at h; simp [h]
        | false => rw [nameFits] at h; simp [h]
      · simp

/-- From inside an alias the rest of it is passed over. -/
theorem dropWhile_tail {tail rest : Str} (ht : 32 ∉ tail) (hrest : nameEnds rest = true) :
    (tail ++ rest).dropWhile (· != 32) = rest := by
  rw [List.dropWhile_append_of_pos]
  · cases rest with
    | nil => rfl
    | cons c rest =>
        obtain rfl : c = 32 := by simpa [nameEnds] using hrest
        rfl
  · intro c hc
    have : c ≠ 32 := fun h => ht (h ▸ hc)
    simpa using this

/-- A string of names is its first alias, or none if it begins with a space, and a rest
    that the spaces are dropped from. -/
theorem exists_front {v : Str} (hv : v ≠ []) :
    ∃ a rest, v = a ++ rest ∧ 32 ∉ a ∧ nameEnds rest = true ∧
      (v.head? = some 32 ↔ a = []) ∧ (rest.dropWhile (· == 32)).length < v.length := by
  induction v with
  | nil => exact absurd rfl hv
  | cons c v ih =>
      by_cases hc : c = 32
      · subst hc
        refine ⟨[], 32 :: v, rfl, by simp, rfl, by simp, ?_⟩
        exact Nat.lt_succ_of_le (List.dropWhile_sublist _ (l := v)).length_le
      · have hc' : 32 ≠ c := fun h => hc h.symm
        by_cases hnil : v = []
        · subst hnil
          exact ⟨[c], [], rfl, by simpa using hc', rfl, by simpa using hc, by simp⟩
        · obtain ⟨a, rest, rfl, ha, hrest, -, hlen⟩ := ih hnil
          refine ⟨c :: a, rest, rfl, by simp [hc', ha], hrest, by simpa using hc, ?_⟩
          exact Nat.lt_succ_of_lt hlen

theorem head?_dropSpaces (v : Str) : (v.dropWhile (· == 32)).head? ≠ some 32 := by
  intro h
  have := List.head?_dropWhile_not (· == 32) v
  rw [h] at this
  cases this

theorem aliasMatches_nil (word : Str) : AliasMatches [] word ↔ word = [] := by
  cases word with
  | nil => simp [AliasMatches, aliasLetters, aliasRequired, beginsNoCase_nil]
  | cons w word => simp [AliasMatches, aliasLetters, not_beginsNoCase_nil]

/-- The outer loop: it finds the aliases, and takes a space at the very front for an
    alias without letters. -/
theorem matchNames_iff (word : Str) : ∀ {fuel : Nat} {v : Str}, v.length ≤ fuel →
    (matchNames word fuel v = true ↔
      VerbMatches v word ∨ (v.head? = some 32 ∧ word = [])) := by
  intro fuel
  induction fuel with
  | zero =>
      intro v hv
      obtain rfl : v = [] := List.length_eq_zero_iff.mp (Nat.le_zero.mp hv)
      simp [matchNames, VerbMatches, aliases_nil]
  | succ fuel ih =>
      intro v hv
      by_cases hne : v = []
      · subst hne
        simp [matchNames, VerbMatches, aliases_nil]
      · obtain ⟨a, rest, hsplit, hmem, hrest, hhead, hshort⟩ := exists_front hne
        have scan := scansName hrest word hmem (show Star.none ≠ .end by decide)
        obtain ⟨tail, htail, hmt⟩ := scan.stays
        have hnext := head?_dropSpaces rest
        have haliases : aliases v =
            (if a = [] then [] else [a]) ++ aliases (rest.dropWhile (· == 32)) := by
          rw [hsplit, aliases_append hmem hrest, aliases_dropSpaces]
        have hround : matchNames word (fuel + 1) v = true ↔
            AliasMatches a word ∨ VerbMatches (rest.dropWhile (· == 32)) word := by
          rw [matchNames_cons word fuel hne, Bool.or_eq_true, hsplit, htail,
            dropWhile_tail hmt hrest, scan.fits, fitsFrom_none, ih (by omega)]
          simp [hnext]
        rw [hround, hhead, VerbMatches, VerbMatches, haliases]
        by_cases hempty : a = []
        · subst hempty
          rw [aliasMatches_nil]
          simp [or_comm]
        · simp [hempty]

/-- `verbcasecmp` of two different strings. -/
theorem verbcasecmp_iff (verb word : Str) :
    verbcasecmp verb word = true ↔
      VerbMatches verb word ∨ (verb.head? = some 32 ∧ word = []) :=
  matchNames_iff word (Nat.le_refl _)

example : VerbMatches (Str.ofString "foo*bar  get*") (Str.ofString "FOOB") := by decide

/-- The empty word is for an alias that begins with a star. -/
theorem verbMatches_nil (verb : Str) :
    VerbMatches verb [] ↔ ∃ a ∈ aliases verb, a.head? = some 42 := by
  have hone : ∀ a ∈ aliases verb, (AliasMatches a [] ↔ a.head? = some 42) := by
    intro a ha
    have hne : a ≠ [] := by simpa using (List.mem_filter.mp ha).2
    cases a with
    | nil => exact absurd rfl hne
    | cons c a =>
        by_cases hc : c = 42
        · subst hc
          simp [AliasMatches, aliasRequired, beginsNoCase_nil]
        · simp [AliasMatches, aliasRequired_cons hc, aliasLetters_cons hc,
            not_beginsNoCase_nil, hc]
  constructor
  · rintro ⟨a, ha, h⟩
    exact ⟨a, ha, (hone a ha).mp h⟩
  · rintro ⟨a, ha, h⟩
    exact ⟨a, ha, (hone a ha).mpr h⟩

/-! ## Strings in memory -/

/-- `verbcasecmp`, of the strings at two addresses. -/
def verbcasecmpAt (mem : Nat → Str) (verb word : Nat) : Bool :=
  if verb = word then true else verbcasecmp (mem verb) (mem word)

/-- What `find_verbdef_by_name` and `db_find_command_verb` ask of each verb. -/
theorem verbcasecmpAt_named (mem : Nat → Str) (v : Db.Verbdef) (word : Nat)
    (hv : v.name = mem v.addr) :
    v.named ⟨some word, mem word⟩ = verbcasecmpAt mem v.addr word := by
  rw [Db.Verbdef.named, verbcasecmpAt, hv]
  by_cases h : v.addr = word
  · simp [h]
  · simp [h, Ne.symm h]

/-- The rule is kept at two addresses unless the strings are compared by where they are,
    or an empty word meets a string that begins with a space. -/
theorem verbcasecmpAt_rule_iff (mem : Nat → Str) (verb word : Nat) :
    (verbcasecmpAt mem verb word = true ↔ VerbMatches (mem verb) (mem word)) ↔
      (verb = word → VerbMatches (mem verb) (mem verb)) ∧
        (verb ≠ word → (mem verb).head? = some 32 → mem word = [] →
          ∃ a ∈ aliases (mem verb), a.head? = some 42) := by
  by_cases h : verb = word
  · subst h
    simp [verbcasecmpAt]
  · rw [verbcasecmpAt, if_neg h, verbcasecmp_iff]
    constructor
    · intro hrule
      refine ⟨fun hvw => absurd hvw h, fun _ hspace hnil => ?_⟩
      rw [← verbMatches_nil, ← hnil]
      exact hrule.mp (Or.inr ⟨hspace, hnil⟩)
    · rintro ⟨-, hspace⟩
      constructor
      · rintro (hm | ⟨hs, hnil⟩)
        · exact hm
        · rw [hnil, verbMatches_nil]
          exact hspace h hs hnil
      · exact Or.inl

/-- `foo*bar` is no word for the verb `foo*bar`, unless it is the same string. -/
theorem verbcasecmpAt_same_string :
    ¬ (verbcasecmpAt (fun _ => Str.ofString "foo*bar") 0 0 = true ↔
      VerbMatches (Str.ofString "foo*bar") (Str.ofString "foo*bar")) := by
  decide

end Waverous
