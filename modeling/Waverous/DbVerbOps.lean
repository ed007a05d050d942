import Waverous.Streams
import Waverous.DbVerbs

/-! # Built-in functions on verbs — `verbs.c`, `db_verbs.c`

    What a programmer gives is checked whole before anything is done: the owner, the
    letters of the permissions and the names, then the specifiers of the arguments, then
    the object, and last what the programmer may do. -/

namespace Waverous.Db

/-! ## Prepositions -/

/-- `prep_list`. -/
def prepList : List String :=
  ["with/using", "at/to", "in front of", "in/inside/into", "on top of/on/onto/upon",
    "out of/from inside/from", "over", "through", "under/underneath/beneath", "behind",
    "beside", "for/about", "is", "as", "off/off of"]

/-- `PREP_NONE` and `PREP_ANY`. -/
def prepNone : Int := -1

def prepAny : Int := -2

/-- The inner loop of `parse_into_words`: a word, and the input behind it. -/
def oneWord : Bool → Str → Str × Str
  | _, [] => ([], [])
  | _, [92] => ([], [])
  | inQuotes, 92 :: c :: input =>
      let (word, rest) := oneWord inQuotes input
      (c :: word, rest)
  | inQuotes, c :: input =>
      if c = 32 ∧ !inQuotes then ([], c :: input)
      else if c = 34 then oneWord (!inQuotes) input
      else
        let (word, rest) := oneWord inQuotes input
        (c :: word, rest)

/-- `parse_into_words`. -/
def parseIntoWords : Nat → Str → List Str
  | 0, _ => []
  | fuel + 1, input =>
      match input.dropWhile (· == 32) with
      | [] => []
      | c :: input =>
          let (word, rest) := oneWord false (c :: input)
          word :: parseIntoWords fuel rest

/-- `dbpriv_build_prep_table`: the aliases of each preposition, as words. -/
def prepTable : List (List (List Str)) :=
  prepList.map fun p =>
    ((Str.ofString p).splitOn 47).map fun phrase => parseIntoWords phrase.length phrase

/-- `db_find_prep`, when the words are all of the phrase. -/
def findPrep (argv : List Str) : Int :=
  match prepTable.findIdx? fun aliases =>
      aliases.any fun words => argv.map (·.map cmap) == words.map (·.map cmap) with
  | some j => j
  | none => prepNone

/-- `db_match_prep`. -/
def matchPrep (prepname : Str) : Int :=
  let s := if prepname.head? = some 35 then prepname.tail else prepname
  let (n, rest) := strtol s
  if rest = [] then
    let prep := (Int32.ofInt n).toInt
    if s.head?.any isdigit ∧ 0 ≤ prep ∧ prep < prepList.length then prep else prepNone
  else
    let phrase := s.takeWhile (· != 47)
    findPrep (parseIntoWords phrase.length phrase)

example : matchPrep (Str.ofString "On  Top of/x") = 4 := by decide

/-! ## What a programmer gives -/

/-- The letters of a permission string. -/
def verbBits : Str → Option Nat
  | [] => some 0
  | c :: cs => do
      let bits ← verbBits cs
      if c = 114 ∨ c = 82 then some (bits ||| 1)
      else if c = 119 ∨ c = 87 then some (bits ||| 2)
      else if c = 120 ∨ c = 88 then some (bits ||| vfExec)
      else if c = 100 ∨ c = 68 then some (bits ||| 8)
      else none

variable (s : State)

/-- `validate_verb_info`: owner, permissions and names. -/
def validateVerbInfo (v : Var) : Except Error (Objid × Nat × Str) :=
  match v with
  | .list [.obj owner, .str perms, .str names] =>
      if !valid s owner then .error .eInvarg
      else
        match verbBits perms with
        | none => .error .eInvarg
        | some flags =>
            let names := names.dropWhile (· == 32)
            if names = [] then .error .eInvarg else .ok (owner, flags, names)
  | _ => .error .eType

/-- `match_arg_spec`. -/
def matchArgSpec (spec : Str) : Option Nat :=
  if strcaseEq spec (Str.ofString "none") then some 0
  else if strcaseEq spec (Str.ofString "any") then some 1
  else if strcaseEq spec (Str.ofString "this") then some 2
  else none

/-- `match_prep_spec`. -/
def matchPrepSpec (spec : Str) : Option Int :=
  if strcaseEq spec (Str.ofString "none") then some prepNone
  else if strcaseEq spec (Str.ofString "any") then some prepAny
  else if matchPrep spec = prepNone then none
  else some (matchPrep spec)

/-- `validate_verb_args`. -/
def validateVerbArgs (v : Var) : Except Error (Nat × Int × Nat) :=
  match v with
  | .list [.str dobj, .str prep, .str iobj] =>
      match matchArgSpec dobj, matchPrepSpec prep, matchArgSpec iobj with
      | some dobj, some prep, some iobj => .ok (dobj, prep, iobj)
      | _, _, _ => .error .eInvarg
  | _ => .error .eType

/-- `validate_verb_descriptor`. -/
def validateVerbDescriptor (desc : Var) : Error :=
  match desc with
  | .str _ => .eNone
  | .int num => if num ≤ 0 then .eInvarg else .eNone
  | _ => .eType

/-! ## Finding a verb of an object -/

/-- `get_server_option`. -/
def getServerOption (oid : Objid) (name : Str) : Option (Option Var) := do
  let serverOptions := Str.ofString "server_options"
  let found ← (if valid s oid then findPropertyValue s oid serverOptions else some none)
  let found ← (if found.isNone ∧ valid s systemObject then
      findPropertyValue s systemObject serverOptions else some found)
  match found with
  | some (_, .obj options) =>
      if valid s options then
        let value ← findPropertyValue s options name
        some (value.map Prod.snd)
      else some none
  | _ => some none

/-- `server_flag_option`. -/
def serverFlagOption (name : Str) : Option Bool := do
  let value ← getServerOption s systemObject name
  some (value.any isTrue)

/-- `db_find_defined_verb`. -/
def findDefinedVerb (o : Object) (word : Word) (allowNumbers : Bool) : Option VerbHandle :=
  let (n, rest) := strtol word.text
  let num : Int :=
    if allowNumbers ∧ !word.text.head?.any isspace ∧ rest = [] then (Int32.ofInt n).toInt else -1
  (o.verbdefs.zipIdx.findIdx? fun (v, i) => decide ((i : Int) = num) || v.named word).map
    fun i => ⟨o.id, i⟩

/-- `db_find_indexed_verb`. -/
def findIndexedVerb (o : Object) (index : Nat) : Option VerbHandle :=
  if 1 ≤ index ∧ index ≤ o.verbdefs.length then some ⟨o.id, index - 1⟩ else none

/-- `find_described_verb`; `addr` is the address of a string. -/
def findDescribedVerb (o : Object) (desc : Var) (addr : Option Nat) : Option (Option VerbHandle) :=
  match desc with
  | .int num => some (findIndexedVerb o num.toInt.toNat)
  | .str text => do
      let flag ← serverFlagOption s (Str.ofString "support_numeric_verbname_strings")
      some (findDefinedVerb o ⟨addr, text⟩ flag)
  | _ => none

/-- The verb that a handle is. -/
def verbAt (h : VerbHandle) : Option Verbdef := do
  let o ← findObject s h.definer
  o.verbdefs[h.index]?

/-- `VF_WRITE`. -/
def vfWrite : Nat := 2

/-- `db_verb_allows`. -/
def verbAllows (v : Verbdef) (progr : Objid) (flag : Nat) : Bool :=
  v.perms &&& 15 &&& flag != 0 || progr == v.owner || isWizard s progr

/-! ## The functions -/

/-- `bf_add_verb`; `addr` is the address of the copy of the names. -/
def bfAddVerb (progr oid : Objid) (addr : Nat) (info args : Var) : Option Res :=
  match validateVerbInfo s info with
  | .error e => refuse s e
  | .ok (owner, flags, names) =>
      match validateVerbArgs args with
      | .error e => refuse s e
      | .ok (dobj, prep, iobj) =>
          match findObject s oid with
          | none => refuse s .eInvarg
          | some o =>
              if !objectAllows s o progr .write || (progr != owner && !isWizard s progr) then
                refuse s .ePerm
              else
                let v : Verbdef := ⟨names, addr, owner, flags ||| dobj <<< 4 ||| iobj <<< 6, prep⟩
                some (.eNone, modify oid (fun o => { o with verbdefs := o.verbdefs ++ [v] }) s)

/-- `bf_set_verb_info`. -/
def bfSetVerbInfo (progr oid : Objid) (desc : Var) (word : Option Nat) (addr : Nat) (info : Var) :
    Option Res :=
  if validateVerbDescriptor desc ≠ .eNone then refuse s (validateVerbDescriptor desc)
  else
    match findObject s oid with
    | none => refuse s .eInvarg
    | some o =>
        match validateVerbInfo s info with
        | .error e => refuse s e
        | .ok (owner, flags, names) => do
            match ← findDescribedVerb s o desc word with
            | none => refuse s .eVerbnf
            | some h => do
                let v ← verbAt s h
                if !verbAllows s v progr vfWrite || (!isWizard s progr && v.owner != owner) then
                  refuse s .ePerm
                else
                  let s := modifyVerb h (fun v => { v with owner := owner }) s
                  let s := modifyVerb h (fun v => { v with perms := setFlags flags v.perms }) s
                  some (.eNone, modifyVerb h (fun v => { v with name := names, addr := addr }) s)

/-! ## They are made of functions of the database -/

variable {s} {s' : State} {progr oid : Objid} {addr : Nat} {info : Var}

theorem bfAddVerb_verbStep {args : Var} (h : bfAddVerb s progr oid addr info args = some (.eNone, s'))
    (vc : VcTable) :
    ∃ v, verbStep (.addVerb oid v) ⟨s, vc⟩ = some ⟨s', affectedCallableVerbLookup vc⟩ := by
  have hrefuse : ∀ {e}, refuse s e = some (.eNone, s') → e = .eNone := by
    intro e h
    cases h
    rfl
  have hinfo : validateVerbInfo s info ≠ .error .eNone := by
    rw [validateVerbInfo.eq_def]
    split
    · split
      · simp
      · split
        · simp
        · dsimp only
          split <;> simp
    · simp
  have hargs : validateVerbArgs args ≠ .error .eNone := by
    rw [validateVerbArgs.eq_def]
    split
    · split <;> simp
    · simp
  rw [bfAddVerb] at h
  split at h
  next e he => exact absurd (hrefuse h ▸ he) hinfo
  next owner flags names _ =>
    split at h
    next e he => exact absurd (hrefuse h ▸ he) hargs
    next dobj prep iobj _ =>
      split at h
      · exact nomatch hrefuse h
      next o ho =>
        split at h
        · exact nomatch hrefuse h
        · cases h
          refine ⟨⟨names, addr, owner, flags ||| dobj <<< 4 ||| iobj <<< 6, prep⟩, ?_⟩
          rw [verbStep]
          simp only [valid, ho, Option.isSome_some, if_true]

end Waverous.Db
