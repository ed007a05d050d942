import Waverous.Hashing
import Waverous.Lib.Chains

/-! # Interned strings — `str_intern.c`

    While a database is read, equal strings share their memory: a hash table has an entry for each
    string that has been made.  The entries of a bucket are linked, and are linked anew when the
    table grows.  Strings and entries are known by their numbers. -/

namespace Waverous

open Chains

/-- `const char *`: the empty string that `str_dup` keeps, or another one that it has made. -/
abbrev StrRef := Option Nat

/-- `struct intern_entry`. -/
structure InternEntry where
  s : StrRef
  hash : UInt32
  next : Option Nat
  deriving DecidableEq, Repr

/-- The strings that have been made, the entries, and the variables of `str_intern.c`; `errlog` has
    the two numbers of each complaint about the count of the entries. -/
structure InternState where
  strings : List Str
  entries : List InternEntry
  internTable : Option (List (Option Nat))
  internTableSize : Nat
  internTableCount : Nat
  errlog : List (Nat × Nat)

/-- `INTERN_TABLE_SIZE_INITIAL`. -/
def internTableSizeInitial : Nat := 10007

/-- `make_intern_table`. -/
def makeInternTable (size : Nat) : List (Option Nat) := List.replicate size none

/-- `str_intern_open`. -/
def strInternOpen (tableSize : Nat) (st : InternState) : InternState :=
  let tableSize := if tableSize = 0 then internTableSizeInitial else tableSize
  { st with internTable := some (makeInternTable tableSize), internTableSize := tableSize }

/-- `str_dup`; `none` is the null pointer. -/
def strDup (s : Option Str) (st : InternState) : StrRef × InternState :=
  match s with
  | none | some [] => (none, st)
  | some s => (some st.strings.length, { st with strings := st.strings ++ [s] })

/-- The characters of a string. -/
def charsOf (strings : List Str) (r : StrRef) : Str :=
  match r with
  | none => []
  | some i => strings[i]?.getD []

def InternState.chars (st : InternState) (r : StrRef) : Str := charsOf st.strings r

/-- `e->next`. -/
def entryNext (entries : List InternEntry) (e : Nat) : Option Nat := (entries[e]?).bind (·.next)

/-- The test of an entry in `find_interned_string`. -/
def InternState.isEntryFor (st : InternState) (s : Str) (hash : UInt32) (e : Nat) : Bool :=
  match st.entries[e]? with
  | some p => hash == p.hash && st.chars p.s == s
  | none => false

/-- `find_interned_string`; the inner `none` is the null pointer. -/
def findInternedString (s : Str) (hash : UInt32) (st : InternState) : Option (Option Nat) := do
  let table ← st.internTable
  let p ← table[hash.toNat % st.internTableSize]?
  find (entryNext st.entries) (st.isEntryFor s hash) (st.entries.length + 1) p

/-- `add_interned_string`. -/
def addInternedString (s : StrRef) (hash : UInt32) (st : InternState) : Option InternState := do
  let bucket := hash.toNat % st.internTableSize
  let table ← st.internTable
  let next ← table[bucket]?
  some { st with
    entries := st.entries ++ [⟨s, hash, next⟩]
    internTable := some (table.set bucket (some st.entries.length))
    internTableCount := st.internTableCount + 1 }

/-- The variables of `intern_rehash`, with the entries. -/
structure Rehash where
  entries : List InternEntry
  newTable : List (Option Nat)
  count : Nat

/-- The inner loop of `intern_rehash`. -/
def rehashChain (newSize : Nat) : Nat → Option Nat → Rehash → Option Rehash
  | 0, _, _ => none
  | _ + 1, none, r => some r
  | fuel + 1, some e, r => do
      let entry ← r.entries[e]?
      let newBucket := entry.hash.toNat % newSize
      let next := entry.next
      let head ← r.newTable[newBucket]?
      rehashChain newSize fuel next
        { entries := r.entries.set e { entry with next := head }
          newTable := r.newTable.set newBucket (some e)
          count := r.count + 1 }

/-- The outer loop of `intern_rehash`. -/
def rehashTable (newSize fuel : Nat) : List (Option Nat) → Rehash → Option Rehash
  | [], r => some r
  | e :: table, r => do
      let r ← rehashChain newSize fuel e r
      rehashTable newSize fuel table r

/-- `intern_rehash`. -/
def internRehash (newSize : Nat) (st : InternState) : Option InternState := do
  let table ← st.internTable
  let r ← rehashTable newSize (st.entries.length + 1) table
    ⟨st.entries, makeInternTable newSize, 0⟩
  some { st with
    entries := r.entries
    internTable := some r.newTable
    internTableSize := newSize
    errlog :=
      if r.count ≠ st.internTableCount then st.errlog ++ [(r.count, st.internTableCount)]
      else st.errlog }

/-- `str_intern`. -/
def strIntern (signed : Bool) (s : Option Str) (st : InternState) : Option (StrRef × InternState) :=
  match s with
  | none | some [] => some (strDup s st)
  | some chars =>
      match st.internTable with
      | none => some (strDup s st)
      | some _ => do
          let hash := strHashOn signed chars
          match ← findInternedString chars hash st with
          | some e => do
              let entry ← st.entries[e]?
              some (entry.s, st)
          | none => do
              let st ←
                if st.internTableSize < st.internTableCount then
                  internRehash (st.internTableSize * 2) st
                else some st
              let (r, st) := strDup s st
              let st ← addInternedString r hash st
              some (r, st)

/-- Calls of `str_intern`, one after the other, with what each returns. -/
def strInterns (signed : Bool) : List (Option Str) → InternState → Option (List StrRef × InternState)
  | [], st => some ([], st)
  | s :: calls, st => do
      let (r, st) ← strIntern signed s st
      let (results, st) ← strInterns signed calls st
      some (r :: results, st)

/-- The entries that are in the table, bucket by bucket. -/
def InternState.tableEntries (st : InternState) : Option (List Nat) := do
  let table ← st.internTable
  walkAll (entryNext st.entries) (st.entries.length + 1) table

/-- Each entry is found for its string. -/
def InternState.FindsAll (st : InternState) : Prop :=
  ∀ e entry, st.entries[e]? = some entry →
    findInternedString (st.chars entry.s) entry.hash st = some (some e)

/-! ## Entries -/

/-- What growing leaves alone in an entry. -/
def InternEntry.face (entry : InternEntry) : StrRef × UInt32 := (entry.s, entry.hash)

/-- The bucket where an entry belongs. -/
def bucketOf (faces : List (StrRef × UInt32)) (size e : Nat) : Nat :=
  match faces[e]? with
  | some face => face.2.toNat % size
  | none => 0

section

variable {entries : List InternEntry} {entry : InternEntry} {newSize fuel e x : Nat} {p : Option Nat}

theorem map_face_set (h : entries[e]? = some entry) :
    (entries.set e { entry with next := p }).map InternEntry.face = entries.map InternEntry.face := by
  rw [List.map_set]
  refine List.ext_getElem? fun i => ?_
  by_cases hi : i = e
  · subst hi
    have hlt : i < (entries.map InternEntry.face).length := by
      rw [List.length_map]
      exact (List.getElem?_eq_some_iff.mp h).1
    rw [List.getElem?_set_self hlt, List.getElem?_map, h]
    rfl
  · rw [List.getElem?_set_ne (Ne.symm hi)]

theorem entryNext_set (h : entries[e]? = some entry) :
    entryNext (entries.set e { entry with next := p }) = Function.update (entryNext entries) e p := by
  ext1 i
  by_cases hi : i = e
  · subst hi
    rw [Function.update_self, entryNext, List.getElem?_set_self (List.getElem?_eq_some_iff.mp h).1]
    rfl
  · rw [Function.update_of_ne hi, entryNext, entryNext, List.getElem?_set_ne (Ne.symm hi)]

theorem entryNext_concat (h : entry.next = p) :
    entryNext (entries ++ [entry]) = Function.update (entryNext entries) entries.length p := by
  ext1 i
  rcases Nat.lt_trichotomy i entries.length with hlt | rfl | hgt
  · rw [Function.update_of_ne (Nat.ne_of_lt hlt), entryNext, entryNext, List.getElem?_append_left hlt]
  · rw [Function.update_self, entryNext, List.getElem?_concat_length]
    exact h
  · rw [Function.update_of_ne (Nat.ne_of_gt hgt), entryNext, entryNext, List.getElem?_eq_none,
      List.getElem?_eq_none (Nat.le_of_lt hgt)]
    rw [List.length_append, List.length_singleton]
    exact hgt

theorem bucketOf_entry (h : entries[e]? = some entry) (size : Nat) :
    bucketOf (entries.map InternEntry.face) size e = entry.hash.toNat % size := by
  rw [bucketOf, List.getElem?_map, h]
  rfl

/-! ## Growing -/

/-- What a loop of `intern_rehash` does: it links the entries `l` into the new table, and leaves
    everything else of the entries alone. -/
structure Rehashes (newSize : Nat) (l : List Nat) (chains : Nat → List Nat) (r r' : Rehash)
    (chains' : Nat → List Nat) : Prop where
  faces : r'.entries.map InternEntry.face = r.entries.map InternEntry.face
  size : r'.newTable.length = newSize
  table : Table (entryNext r'.entries) (bucketOf (r'.entries.map InternEntry.face) newSize) r'.newTable
    chains'
  mem : ∀ b x, x ∈ chains' b ↔
    x ∈ chains b ∨ x ∈ l ∧ bucketOf (r.entries.map InternEntry.face) newSize x = b
  others : ∀ x, x ∉ l → entryNext r'.entries x = entryNext r.entries x
  count : r'.count = r.count + l.length

variable {chains chains' chains'' : Nat → List Nat} {l l' : List Nat} {r r' r'' : Rehash}

theorem Rehashes.trans (h : Rehashes newSize l chains r r' chains')
    (h' : Rehashes newSize l' chains' r' r'' chains'') :
    Rehashes newSize (l ++ l') chains r r'' chains'' where
  faces := h'.faces.trans h.faces
  size := h'.size
  table := h'.table
  mem := by
    intro b x
    rw [h'.mem, h.mem, h.faces, List.mem_append]
    constructor
    · rintro ((hx | ⟨hx, hb⟩) | ⟨hx, hb⟩)
      · exact .inl hx
      · exact .inr ⟨.inl hx, hb⟩
      · exact .inr ⟨.inr hx, hb⟩
    · rintro (hx | ⟨hx | hx, hb⟩)
      · exact .inl (.inl hx)
      · exact .inl (.inr ⟨hx, hb⟩)
      · exact .inr ⟨hx, hb⟩
  others := by
    intro x hx
    rw [h'.others x fun hmem => hx (List.mem_append_right l hmem),
      h.others x fun hmem => hx (List.mem_append_left l' hmem)]
  count := by
    rw [h'.count, h.count, List.length_append, Nat.add_assoc]

theorem Rehashes.length (h : Rehashes newSize l chains r r' chains') :
    r'.entries.length = r.entries.length := by
  have hlength := congrArg List.length h.faces
  rwa [List.length_map, List.length_map] at hlength

theorem Rehashes.refl (hsize : r.newTable.length = newSize)
    (htable : Table (entryNext r.entries) (bucketOf (r.entries.map InternEntry.face) newSize)
      r.newTable chains) : Rehashes newSize [] chains r r chains where
  faces := rfl
  size := hsize
  table := htable
  mem := fun _ _ => (or_iff_left fun h => nomatch h.1).symm
  others := fun _ _ => rfl
  count := rfl

/-- An entry is linked in at the front of its new bucket. -/
theorem rehashes_link (hentry : r.entries[x]? = some entry)
    (hhead : r.newTable[entry.hash.toNat % newSize]? = some p)
    (hsize : r.newTable.length = newSize)
    (htable : Table (entryNext r.entries) (bucketOf (r.entries.map InternEntry.face) newSize)
      r.newTable chains)
    (hnew : ∀ b, x ∉ chains b) : ∃ chains', Rehashes newSize [x] chains r
      { entries := r.entries.set x { entry with next := p }
        newTable := r.newTable.set (entry.hash.toNat % newSize) (some x)
        count := r.count + 1 } chains' := by
  have hbucket := bucketOf_entry hentry newSize
  have hpush := htable.push (hbucket ▸ hhead) (hnew _)
  rw [hbucket] at hpush
  refine ⟨Function.update chains (entry.hash.toNat % newSize)
    (x :: chains (entry.hash.toNat % newSize)), map_face_set hentry, List.length_set.trans hsize,
    ?_, ?_, ?_, rfl⟩
  · rw [map_face_set hentry, entryNext_set hentry]
    exact hpush
  · intro b y
    rw [Table.mem_update_cons, List.mem_singleton]
    refine or_congr_right ⟨?_, ?_⟩
    · rintro ⟨rfl, hb⟩
      exact ⟨rfl, hbucket.trans hb⟩
    · rintro ⟨rfl, hb⟩
      exact ⟨rfl, hbucket.symm.trans hb⟩
  · intro y hy
    rw [entryNext_set hentry]
    exact Function.update_of_ne (fun h => hy (List.mem_singleton.mpr h)) _ _

theorem rehashChain_spec (hpos : 0 < newSize) (hchain : Chain (entryNext r.entries) p l)
    (hnodup : l.Nodup) (hl : ∀ x ∈ l, x < r.entries.length) (hfuel : l.length < fuel)
    (hsize : r.newTable.length = newSize)
    (htable : Table (entryNext r.entries) (bucketOf (r.entries.map InternEntry.face) newSize)
      r.newTable chains)
    (hnew : ∀ b, ∀ x ∈ l, x ∉ chains b) :
    ∃ r' chains', rehashChain newSize fuel p r = some r' ∧ Rehashes newSize l chains r r' chains' := by
  induction l generalizing p fuel r chains with
  | nil =>
      obtain ⟨fuel, rfl⟩ := Nat.exists_eq_add_one_of_ne_zero (Nat.ne_zero_of_lt hfuel)
      have hend : p = none := hchain
      subst hend
      exact ⟨r, chains, rfl, .refl hsize htable⟩
  | cons x l ih =>
      obtain ⟨fuel, rfl⟩ := Nat.exists_eq_add_one_of_ne_zero (Nat.ne_zero_of_lt hfuel)
      obtain ⟨rfl, hrest⟩ := hchain
      obtain ⟨hxl, hnodup⟩ := List.nodup_cons.mp hnodup
      obtain ⟨entry, hentry⟩ : ∃ entry, r.entries[x]? = some entry :=
        ⟨_, List.getElem?_eq_getElem (hl x List.mem_cons_self)⟩
      have hlt : entry.hash.toNat % newSize < r.newTable.length := by
        rw [hsize]
        exact Nat.mod_lt _ hpos
      obtain ⟨head, hhead⟩ : ∃ head, r.newTable[entry.hash.toNat % newSize]? = some head :=
        ⟨_, List.getElem?_eq_getElem hlt⟩
      have hnext : entryNext r.entries x = entry.next := by
        rw [entryNext, hentry]
        rfl
      rw [rehashChain, hentry]
      simp only [Option.bind_eq_bind, Option.bind_some, hhead]
      obtain ⟨chains₁, hlink⟩ :=
        rehashes_link hentry hhead hsize htable fun b => hnew b x List.mem_cons_self
      generalize hr₁ : (⟨_, _, _⟩ : Rehash) = r₁ at hlink ⊢
      -- the rest of the chain is as it was, and not in the new table
      have hrest₁ : Chain (entryNext r₁.entries) entry.next l := by
        rw [← hnext]
        refine hrest.congr fun y hy => hlink.others y ?_
        intro hyx
        exact hxl (List.mem_singleton.mp hyx ▸ hy)
      have hnew₁ : ∀ b, ∀ y ∈ l, y ∉ chains₁ b := by
        intro b y hy hmem
        rcases (hlink.mem b y).mp hmem with h | ⟨h, -⟩
        · exact hnew b y (List.mem_cons_of_mem x hy) h
        · exact hxl (List.mem_singleton.mp h ▸ hy)
      have hl₁ : ∀ y ∈ l, y < r₁.entries.length := by
        intro y hy
        rw [hlink.length]
        exact hl y (List.mem_cons_of_mem x hy)
      obtain ⟨r', chains', hrun, hr'⟩ := ih hrest₁ hnodup hl₁ (Nat.lt_of_succ_lt_succ hfuel)
        hlink.size hlink.table hnew₁
      exact ⟨r', chains', hrun, hlink.trans hr'⟩

/-- The chains that are still to be taken apart. -/
structure OldChains (r : Rehash) (fuel : Nat) (table : List (Option Nat)) (old : Nat → List Nat) :
    Prop where
  chain : ∀ b p, table[b]? = some p → Chain (entryNext r.entries) p (old b)
  nodup : ∀ b, (old b).Nodup
  disjoint : ∀ a b x, x ∈ old a → x ∈ old b → a = b
  bound : ∀ b, ∀ x ∈ old b, x < r.entries.length
  fuel : ∀ b, (old b).length < fuel

theorem rehashTable_spec (hpos : 0 < newSize) {table : List (Option Nat)} {old : Nat → List Nat}
    (hold : OldChains r fuel table old) (hsize : r.newTable.length = newSize)
    (htable : Table (entryNext r.entries) (bucketOf (r.entries.map InternEntry.face) newSize)
      r.newTable chains)
    (hnew : ∀ a b, ∀ x ∈ old b, x ∉ chains a) :
    ∃ r' chains', rehashTable newSize fuel table r = some r' ∧
      Rehashes newSize (Table.nodes old table.length) chains r r' chains' := by
  induction table generalizing old r chains with
  | nil => exact ⟨r, chains, rfl, .refl hsize htable⟩
  | cons p table ih =>
      obtain ⟨r₁, chains₁, hrun, hr₁⟩ := rehashChain_spec hpos (hold.chain 0 p rfl) (hold.nodup 0)
        (hold.bound 0) (hold.fuel 0) hsize htable fun a => hnew a 0
      -- the other chains are as they were
      have hother : ∀ b, ∀ x ∈ old (b + 1), x ∉ old 0 := by
        intro b x hx hx'
        exact nomatch hold.disjoint _ _ x hx hx'
      have hold₁ : OldChains r₁ fuel table fun b => old (b + 1) := by
        refine ⟨?_, fun b => hold.nodup (b + 1), ?_, ?_, fun b => hold.fuel (b + 1)⟩
        · intro b q hq
          exact (hold.chain (b + 1) q hq).congr fun x hx => hr₁.others x (hother b x hx)
        · intro a b x ha hb
          exact Nat.succ.inj (hold.disjoint _ _ x ha hb)
        · intro b x hx
          rw [hr₁.length]
          exact hold.bound (b + 1) x hx
      have hnew₁ : ∀ a b, ∀ x ∈ old (b + 1), x ∉ chains₁ a := by
        intro a b x hx hmem
        rcases (hr₁.mem a x).mp hmem with h | ⟨h, -⟩
        · exact hnew a (b + 1) x hx h
        · exact hother b x hx h
      obtain ⟨r', chains', hrun', hr'⟩ := ih hold₁ hr₁.size hr₁.table hnew₁
      refine ⟨r', chains', ?_, ?_⟩
      · rw [rehashTable, hrun]
        exact hrun'
      · have hnodes : Table.nodes old (table.length + 1) =
            old 0 ++ Table.nodes (fun b => old (b + 1)) table.length := by
          rw [Table.nodes, List.range_succ_eq_map, List.flatMap_cons, List.flatMap_map]
          rfl
        rw [List.length_cons, hnodes]
        exact hr₁.trans hr'

end

/-! ## The table -/

/-- The entries have strings that have been made and are not empty, with their hashes, and no two of
    them have the same characters. -/
structure FacesRight (signed : Bool) (strings : List Str) (faces : List (StrRef × UInt32)) : Prop where
  string : ∀ {e : Nat} {s : StrRef} {hash : UInt32}, faces[e]? = some (s, hash) →
    (∃ i < strings.length, s = some i) ∧ charsOf strings s ≠ [] ∧
      hash = strHashOn signed (charsOf strings s)
  distinct : ∀ {e e' : Nat} {s s' : StrRef} {hash hash' : UInt32}, faces[e]? = some (s, hash) →
    faces[e']? = some (s', hash') → charsOf strings s = charsOf strings s' → e = e'

section

variable {signed : Bool} {strings : List Str} {faces : List (StrRef × UInt32)} {r : StrRef} {s : Str}

theorem charsOf_append (hr : ∃ i < strings.length, r = some i) (more : List Str) :
    charsOf (strings ++ more) r = charsOf strings r := by
  obtain ⟨i, hi, rfl⟩ := hr
  rw [charsOf, charsOf, List.getElem?_append_left hi]

theorem charsOf_new (strings : List Str) (s : Str) :
    charsOf (strings ++ [s]) (some strings.length) = s := by
  rw [charsOf, List.getElem?_concat_length]
  rfl

/-- A string that no entry has is given one. -/
theorem FacesRight.push (h : FacesRight signed strings faces) (hs : s ≠ [])
    (hnew : ∀ (e : Nat) (r : StrRef) (hash : UInt32), faces[e]? = some (r, hash) →
      charsOf strings r ≠ s) :
    FacesRight signed (strings ++ [s]) (faces ++ [(some strings.length, strHashOn signed s)]) := by
  have hcases : ∀ {e : Nat} {r : StrRef} {hash : UInt32},
      (faces ++ [(some strings.length, strHashOn signed s)])[e]? = some (r, hash) →
        faces[e]? = some (r, hash) ∧ charsOf (strings ++ [s]) r = charsOf strings r ∨
        e = faces.length ∧ r = some strings.length ∧ hash = strHashOn signed s := by
    intro e r hash he
    rcases Nat.lt_trichotomy e faces.length with hlt | rfl | hgt
    · rw [List.getElem?_append_left hlt] at he
      exact .inl ⟨he, charsOf_append (h.string he).1 [s]⟩
    · rw [List.getElem?_concat_length] at he
      obtain ⟨rfl, rfl⟩ := Prod.mk.inj (Option.some.inj he)
      exact .inr ⟨rfl, rfl, rfl⟩
    · rw [List.getElem?_eq_none (by rw [List.length_append, List.length_singleton]; omega)] at he
      exact nomatch he
  constructor
  · intro e r hash he
    rcases hcases he with ⟨he, hchars⟩ | ⟨-, rfl, rfl⟩
    · obtain ⟨⟨i, hi, hr⟩, hne, hhash⟩ := h.string he
      rw [hchars, List.length_append]
      exact ⟨⟨i, Nat.lt_add_right _ hi, hr⟩, hne, hhash⟩
    · rw [charsOf_new, List.length_append]
      exact ⟨⟨_, Nat.lt_succ_self _, rfl⟩, hs, rfl⟩
  · intro e e' r r' hash hash' he he' hsame
    rcases hcases he with ⟨he, hchars⟩ | ⟨rfl, rfl, -⟩
    · rcases hcases he' with ⟨he', hchars'⟩ | ⟨-, rfl, -⟩
      · rw [hchars, hchars'] at hsame
        exact h.distinct he he' hsame
      · rw [hchars, charsOf_new] at hsame
        exact absurd hsame (hnew e r hash he)
    · rcases hcases he' with ⟨he', hchars'⟩ | ⟨rfl, -, -⟩
      · rw [hchars', charsOf_new] at hsame
        exact absurd hsame.symm (hnew e' r' hash' he')
      · rfl

end

namespace InternState

def faces (st : InternState) : List (StrRef × UInt32) := st.entries.map InternEntry.face

theorem isEntryFor_iff {st : InternState} {s : Str} {hash : UInt32} {e : Nat} :
    st.isEntryFor s hash e = true ↔ ∃ r, st.faces[e]? = some (r, hash) ∧ st.chars r = s := by
  rw [isEntryFor, faces, List.getElem?_map]
  cases st.entries[e]? with
  | none =>
      refine iff_of_false nofun ?_
      rintro ⟨r, h, -⟩
      exact nomatch h
  | some entry =>
      rw [Option.map_some]
      constructor
      · intro h
        obtain ⟨hhash, hs⟩ := Bool.and_eq_true_iff.mp h
        exact ⟨entry.s, by rw [InternEntry.face, beq_iff_eq.mp hhash], beq_iff_eq.mp hs⟩
      · rintro ⟨r, h, hs⟩
        obtain ⟨rfl, rfl⟩ := Prod.mk.inj (Option.some.inj h)
        exact Bool.and_eq_true_iff.mpr ⟨beq_self_eq_true _, beq_iff_eq.mpr hs⟩

/-- The table is open and has each entry just once, in its bucket. -/
structure Good (signed : Bool) (st : InternState) (heads : List (Option Nat))
    (chains : Nat → List Nat) : Prop where
  table : st.internTable = some heads
  size : heads.length = st.internTableSize
  pos : 0 < st.internTableSize
  links : Table (entryNext st.entries) (bucketOf st.faces st.internTableSize) heads chains
  complete : ∀ e, e ∈ chains (bucketOf st.faces st.internTableSize e) ↔ e < st.entries.length
  right : FacesRight signed st.strings st.faces

namespace Good

variable {signed : Bool} {st : InternState} {heads : List (Option Nat)} {chains : Nat → List Nat}
  {b e newSize : Nat} {s : Str}

theorem bound (h : st.Good signed heads chains) (he : e ∈ chains b) : e < st.entries.length :=
  (h.complete e).mp (h.links.mem_iff.mp he).2

theorem length_chain (h : st.Good signed heads chains) (b : Nat) :
    (chains b).length < st.entries.length + 1 := by
  have hsub : chains b ⊆ List.range st.entries.length :=
    fun e he => List.mem_range.mpr (h.bound he)
  have hlength := ((h.links.nodup b).subperm hsub).length_le
  rw [List.length_range] at hlength
  omega

theorem bucket_lt (h : st.Good signed heads chains) (e : Nat) :
    bucketOf st.faces st.internTableSize e < st.internTableSize := by
  rw [bucketOf]
  split
  · exact Nat.mod_lt _ h.pos
  · exact h.pos

/-- A walk over the table comes to each entry just once. -/
theorem tableEntries (h : st.Good signed heads chains) :
    ∃ l, st.tableEntries = some l ∧ l.Perm (List.range st.entries.length) := by
  have hwalk : st.tableEntries = some (Table.nodes chains heads.length) := by
    rw [InternState.tableEntries, h.table]
    exact h.links.walkAll h.length_chain
  refine ⟨_, hwalk, ?_⟩
  rw [List.perm_ext_iff_of_nodup (h.links.nodup_nodes _) List.nodup_range]
  intro e
  rw [h.links.mem_nodes, h.size, List.mem_range, h.complete, and_iff_right (h.bucket_lt e)]

/-- Growing keeps all of it. -/
theorem internRehash (h : st.Good signed heads chains) (hpos : 0 < newSize) :
    ∃ st' heads' chains', Waverous.internRehash newSize st = some st' ∧
      st'.Good signed heads' chains' ∧ st'.strings = st.strings ∧ st'.faces = st.faces := by
  have hold : OldChains ⟨st.entries, makeInternTable newSize, 0⟩ (st.entries.length + 1) heads
      chains := by
    refine ⟨h.links.chain, h.links.nodup, ?_, fun b x hx => h.bound hx, h.length_chain⟩
    intro a b x ha hb
    exact (h.links.placed a x ha).symm.trans (h.links.placed b x hb)
  obtain ⟨r, chains', hrun, hr⟩ := rehashTable_spec hpos hold List.length_replicate
    (Table.empty newSize) fun _ _ _ _ => List.not_mem_nil
  have hrehash : Waverous.internRehash newSize st = some
      { st with
        entries := r.entries
        internTable := some r.newTable
        internTableSize := newSize
        errlog :=
          if r.count ≠ st.internTableCount then st.errlog ++ [(r.count, st.internTableCount)]
          else st.errlog } := by
    rw [Waverous.internRehash, h.table, Option.bind_eq_bind, Option.bind_some, hrun]
    rfl
  refine ⟨_, r.newTable, chains', hrehash, ⟨rfl, hr.size, hpos, hr.table, ?_, ?_⟩, rfl, hr.faces⟩
  · intro e
    show e ∈ chains' (bucketOf (r.entries.map InternEntry.face) newSize e) ↔ e < r.entries.length
    rw [hr.faces, hr.length, hr.mem, h.links.mem_nodes, h.size, h.complete,
      and_iff_right (h.bucket_lt e), and_iff_left rfl]
    exact or_iff_right List.not_mem_nil
  · show FacesRight signed st.strings (r.entries.map InternEntry.face)
    rw [hr.faces]
    exact h.right

/-- So does growing any number of times. -/
theorem internRehashes (h : st.Good signed heads chains) {sizes : List Nat}
    (hpos : ∀ newSize ∈ sizes, 0 < newSize) :
    ∃ st' heads' chains', sizes.foldlM (fun st newSize => Waverous.internRehash newSize st) st =
        some st' ∧
      st'.Good signed heads' chains' ∧ st'.strings = st.strings ∧ st'.faces = st.faces := by
  induction sizes generalizing st heads chains with
  | nil => exact ⟨st, heads, chains, rfl, h, rfl, rfl⟩
  | cons newSize sizes ih =>
      obtain ⟨st₁, heads₁, chains₁, hrehash, h₁, hstrings₁, hfaces₁⟩ :=
        h.internRehash (hpos newSize List.mem_cons_self)
      obtain ⟨st', heads', chains', hrest, h', hstrings, hfaces⟩ :=
        ih h₁ fun n hn => hpos n (List.mem_cons_of_mem newSize hn)
      refine ⟨st', heads', chains', ?_, h', hstrings.trans hstrings₁, hfaces.trans hfaces₁⟩
      rw [List.foldlM_cons, hrehash]
      exact hrest

/-- What the search for a string finds. -/
theorem find (h : st.Good signed heads chains) (s : Str) :
    ∃ p, findInternedString s (strHashOn signed s) st = some p ∧
      match p with
      | some e => ∃ r, st.faces[e]? = some (r, strHashOn signed s) ∧ st.chars r = s
      | none => ∀ (e : Nat) (r : StrRef) (hash : UInt32), st.faces[e]? = some (r, hash) →
          st.chars r ≠ s := by
  have hlt : (strHashOn signed s).toNat % st.internTableSize < heads.length := by
    rw [h.size]
    exact Nat.mod_lt _ h.pos
  have hhead := List.getElem?_eq_getElem hlt
  have hfind : findInternedString s (strHashOn signed s) st =
      some ((chains ((strHashOn signed s).toNat % st.internTableSize)).find?
        (st.isEntryFor s (strHashOn signed s))) := by
    rw [findInternedString, h.table, Option.bind_eq_bind, Option.bind_some, hhead]
    exact (h.links.chain _ _ hhead).find _ (h.length_chain _)
  refine ⟨_, hfind, ?_⟩
  split
  next e he => exact isEntryFor_iff.mp (List.find?_some he)
  next hnone =>
    -- an entry for the string would be in the bucket that was searched
    rintro e r hash hface rfl
    obtain ⟨-, -, rfl⟩ := h.right.string hface
    have hbucket : bucketOf st.faces st.internTableSize e =
        (strHashOn signed (st.chars r)).toNat % st.internTableSize := by
      rw [bucketOf, hface]
      rfl
    have he : e < st.entries.length := by
      have hlt := (List.getElem?_eq_some_iff.mp hface).1
      rwa [faces, List.length_map] at hlt
    have hmem := (h.complete e).mpr he
    rw [hbucket] at hmem
    exact List.find?_eq_none.mp hnone e hmem (isEntryFor_iff.mpr ⟨r, hface, rfl⟩)

/-- Each entry is found for its string. -/
theorem findsAll (h : st.Good signed heads chains) : st.FindsAll := by
  intro e entry hentry
  have hface : st.faces[e]? = some (entry.s, entry.hash) := by
    rw [faces, List.getElem?_map, hentry]
    rfl
  obtain ⟨-, -, hhash⟩ := h.right.string hface
  rw [hhash]
  obtain ⟨p, hfind, hp⟩ := h.find (st.chars entry.s)
  cases p with
  | none => exact absurd rfl (hp e _ _ hface)
  | some e' =>
      obtain ⟨r, hface', hchars⟩ := hp
      rw [h.right.distinct hface hface' hchars.symm]
      exact hfind

/-- A string that has no entry is made and given one. -/
theorem addInternedString (h : st.Good signed heads chains) (hs : s ≠ [])
    (hnew : ∀ (e : Nat) (r : StrRef) (hash : UInt32), st.faces[e]? = some (r, hash) →
      st.chars r ≠ s) :
    ∃ st' heads' chains', Waverous.addInternedString (some st.strings.length) (strHashOn signed s)
        { st with strings := st.strings ++ [s] } = some st' ∧
      st'.Good signed heads' chains' ∧ st'.strings = st.strings ++ [s] ∧
      st'.faces = st.faces ++ [(some st.strings.length, strHashOn signed s)] := by
  have hlt : (strHashOn signed s).toNat % st.internTableSize < heads.length := by
    rw [h.size]
    exact Nat.mod_lt _ h.pos
  obtain ⟨head, hhead⟩ : ∃ head, heads[(strHashOn signed s).toNat % st.internTableSize]? = some head :=
    ⟨_, List.getElem?_eq_getElem hlt⟩
  have hlength : st.faces.length = st.entries.length := List.length_map ..
  let faces' := st.faces ++ [(some st.strings.length, strHashOn signed s)]
  have hbucket : bucketOf faces' st.internTableSize st.entries.length =
      (strHashOn signed s).toNat % st.internTableSize := by
    rw [bucketOf, ← hlength, List.getElem?_concat_length]
  have hold : ∀ e < st.entries.length, bucketOf faces' st.internTableSize e =
      bucketOf st.faces st.internTableSize e := by
    intro e he
    rw [bucketOf, bucketOf, List.getElem?_append_left (hlength ▸ he)]
  have hlinks : Table (entryNext st.entries) (bucketOf faces' st.internTableSize) heads chains :=
    h.links.congr fun b x hx => hold x (h.bound hx)
  have hpush := hlinks.push (hbucket ▸ hhead) fun he => Nat.lt_irrefl _ (h.bound he)
  let entry : InternEntry := ⟨some st.strings.length, strHashOn signed s, head⟩
  have hnext : entryNext (st.entries ++ [entry]) =
      Function.update (entryNext st.entries) st.entries.length head := entryNext_concat rfl
  have hfaces : (st.entries ++ [entry]).map InternEntry.face = faces' := List.map_append
  have hadd : Waverous.addInternedString (some st.strings.length) (strHashOn signed s)
      { st with strings := st.strings ++ [s] } = some
        { st with
          strings := st.strings ++ [s]
          entries := st.entries ++ [entry]
          internTable := some (heads.set ((strHashOn signed s).toNat % st.internTableSize)
            (some st.entries.length))
          internTableCount := st.internTableCount + 1 } := by
    rw [Waverous.addInternedString, h.table, Option.bind_eq_bind, Option.bind_some, hhead]
    rfl
  rw [hbucket, ← hnext] at hpush
  refine ⟨_, _, Function.update chains ((strHashOn signed s).toNat % st.internTableSize)
    (st.entries.length :: chains ((strHashOn signed s).toNat % st.internTableSize)), hadd,
    ⟨rfl, List.length_set.trans h.size, h.pos, ?_, ?_, ?_⟩, rfl, hfaces⟩
  · show Table _ (bucketOf ((st.entries ++ [entry]).map _) _) _ _
    rw [hfaces]
    exact hpush
  · intro e
    show e ∈ Function.update chains _ _ (bucketOf ((st.entries ++ [entry]).map _) _ e) ↔
      e < (st.entries ++ [entry]).length
    rw [hfaces, Table.mem_update_cons, List.length_append, List.length_singleton,
      Nat.lt_succ_iff_lt_or_eq]
    constructor
    · rintro (he | ⟨rfl, -⟩)
      · exact .inl (h.bound he)
      · exact .inr rfl
    · rintro (he | rfl)
      · rw [hold e he]
        exact .inl ((h.complete e).mpr he)
      · exact .inr ⟨rfl, hbucket.symm⟩
  · show FacesRight signed _ ((st.entries ++ [entry]).map _)
    rw [hfaces]
    exact h.right.push hs hnew

end Good

/-! ## Calls -/

/-- What has been returned for a string: it has its characters, and it is the empty string or the one
    of an entry. -/
structure Returned (st : InternState) (s : Option Str) (r : StrRef) : Prop where
  chars : st.chars r = s.getD []
  shared : r = none ∨ ∃ (e : Nat) (hash : UInt32), st.faces[e]? = some (r, hash)

/-- There may be more strings and entries. -/
structure Extends (st st' : InternState) : Prop where
  strings : st.strings <+: st'.strings
  faces : st.faces <+: st'.faces

section

variable {signed : Bool} {st st' st'' : InternState} {heads : List (Option Nat)}
  {chains : Nat → List Nat} {s t : Option Str} {r r' : StrRef}

theorem Extends.refl (st : InternState) : st.Extends st := ⟨List.prefix_refl _, List.prefix_refl _⟩

theorem Extends.trans (h : st.Extends st') (h' : st'.Extends st'') : st.Extends st'' :=
  ⟨h.strings.trans h'.strings, h.faces.trans h'.faces⟩

/-- What has been returned stays as it is. -/
theorem Returned.extends (hr : st.Returned s r) (h : st.Good signed heads chains)
    (hext : st.Extends st') : st'.Returned s r := by
  obtain ⟨more, hmore⟩ := hext.strings
  obtain ⟨moreFaces, hmoreFaces⟩ := hext.faces
  rcases hr.shared with rfl | ⟨e, hash, hface⟩
  · exact ⟨hr.chars, .inl rfl⟩
  · refine ⟨?_, .inr ⟨e, hash, ?_⟩⟩
    · rw [InternState.chars, ← hmore, charsOf_append (h.right.string hface).1]
      exact hr.chars
    · rw [← hmoreFaces, List.getElem?_append_left (List.getElem?_eq_some_iff.mp hface).1]
      exact hface

/-- For the same characters the same string is returned. -/
theorem Returned.unique (h : st.Good signed heads chains) (hr : st.Returned s r)
    (hr' : st.Returned t r') (hsame : s.getD [] = t.getD []) : r = r' := by
  have hchars : st.chars r = st.chars r' := by rw [hr.chars, hr'.chars, hsame]
  rcases hr.shared with rfl | ⟨e, hash, hface⟩
  · rcases hr'.shared with rfl | ⟨e', hash', hface'⟩
    · rfl
    · exact absurd hchars.symm (h.right.string hface').2.1
  · rcases hr'.shared with rfl | ⟨e', hash', hface'⟩
    · exact absurd hchars (h.right.string hface).2.1
    · obtain rfl := h.right.distinct hface hface' hchars
      exact (Prod.mk.inj (Option.some.inj (hface.symm.trans hface'))).1

/-- Growing is of no consequence to the strings and the entries. -/
theorem Good.grown (h : st.Good signed heads chains) :
    ∃ st' heads' chains', (if st.internTableSize < st.internTableCount then
        Waverous.internRehash (st.internTableSize * 2) st else some st) = some st' ∧
      st'.Good signed heads' chains' ∧ st'.strings = st.strings ∧ st'.faces = st.faces := by
  split
  · exact h.internRehash (Nat.mul_pos h.pos Nat.two_pos)
  · exact ⟨st, heads, chains, rfl, h, rfl, rfl⟩

theorem strIntern_open (h : st.internTable = some heads) (c : UInt8) (cs : Str) :
    Waverous.strIntern signed (some (c :: cs)) st =
      (findInternedString (c :: cs) (strHashOn signed (c :: cs)) st).bind fun
        | some e => st.entries[e]?.bind fun entry => some (entry.s, st)
        | none =>
            (if st.internTableSize < st.internTableCount then
              Waverous.internRehash (st.internTableSize * 2) st else some st).bind fun st =>
            (Waverous.addInternedString (some st.strings.length) (strHashOn signed (c :: cs))
              { st with strings := st.strings ++ [c :: cs] }).bind fun st' =>
            some (some st.strings.length, st') := by
  show (match st.internTable with | none => _ | some _ => _) = _
  rw [h]
  refine congrArg (Option.bind _) (funext fun p => ?_)
  cases p with
  | some e => rfl
  | none =>
      by_cases hlt : st.internTableSize < st.internTableCount
      · simp only [if_pos hlt]
        rfl
      · simp only [if_neg hlt]
        rfl

/-- What a call does. -/
theorem Good.strIntern (h : st.Good signed heads chains) (s : Option Str) :
    ∃ r st' heads' chains', Waverous.strIntern signed s st = some (r, st') ∧
      st'.Good signed heads' chains' ∧ st.Extends st' ∧ st'.Returned s r := by
  match s with
  | none | some [] => exact ⟨none, st, heads, chains, rfl, h, .refl st, rfl, .inl rfl⟩
  | some (c :: cs) =>
      obtain ⟨p, hfind, hp⟩ := h.find (c :: cs)
      rw [strIntern_open h.table, hfind, Option.bind_some]
      cases p with
      | some e =>
          -- the string of the entry is returned
          obtain ⟨r, hface, hchars⟩ := hp
          rw [faces, List.getElem?_map] at hface
          obtain ⟨entry, hentry, hface⟩ := Option.map_eq_some_iff.mp hface
          obtain ⟨rfl, hhash⟩ := Prod.mk.inj hface
          refine ⟨entry.s, st, heads, chains, ?_, h, .refl st, hchars, .inr ⟨e, entry.hash, ?_⟩⟩
          · simp only [hentry, Option.bind_some]
          · rw [faces, List.getElem?_map, hentry]
            rfl
      | none =>
          -- a new string is made, and given an entry
          obtain ⟨st₁, heads₁, chains₁, hgrown, h₁, hstrings, hfaces⟩ := h.grown
          have hnew : ∀ (e : Nat) (r : StrRef) (hash : UInt32), st₁.faces[e]? = some (r, hash) →
              st₁.chars r ≠ c :: cs := by
            intro e r hash hface
            rw [chars, hstrings]
            exact hp e r hash (hfaces ▸ hface)
          obtain ⟨st', heads', chains', hadd, h', hstrings', hfaces'⟩ :=
            h₁.addInternedString (List.cons_ne_nil c cs) hnew
          refine ⟨some st₁.strings.length, st', heads', chains', ?_, h', ⟨?_, ?_⟩, ?_,
            .inr ⟨st₁.faces.length, strHashOn signed (c :: cs), ?_⟩⟩
          · simp only [hgrown, hadd, Option.bind_some]
          · rw [hstrings', hstrings]
            exact List.prefix_append _ _
          · rw [hfaces', hfaces]
            exact List.prefix_append _ _
          · rw [chars, hstrings']
            exact charsOf_new _ _
          · rw [hfaces']
            exact List.getElem?_concat_length

/-- What a sequence of calls does. -/
theorem Good.strInterns (h : st.Good signed heads chains) (calls : List (Option Str)) :
    ∃ results st' heads' chains', Waverous.strInterns signed calls st = some (results, st') ∧
      st'.Good signed heads' chains' ∧ st.Extends st' ∧ List.Forall₂ st'.Returned calls results := by
  induction calls generalizing st heads chains with
  | nil => exact ⟨[], st, heads, chains, rfl, h, .refl st, .nil⟩
  | cons s calls ih =>
      obtain ⟨r, st₁, heads₁, chains₁, hcall, h₁, hext₁, hr⟩ := h.strIntern s
      obtain ⟨results, st', heads', chains', hcalls, h', hext', hresults⟩ := ih h₁
      refine ⟨r :: results, st', heads', chains', ?_, h', hext₁.trans hext',
        .cons (hr.extends h₁ hext') hresults⟩
      rw [Waverous.strInterns, hcall]
      simp only [Option.bind_eq_bind, Option.bind_some, hcalls]

/-- The table that has been opened is empty. -/
theorem strInternOpen_good (signed : Bool) (tableSize : Nat) (hempty : st.entries = []) :
    ∃ heads chains, (strInternOpen tableSize st).Good signed heads chains := by
  generalize hopen : strInternOpen tableSize st = st'
  have hentries : st'.entries = [] := by
    rw [← hopen]
    exact hempty
  have hfaces : st'.faces = [] := by rw [faces, hentries, List.map_nil]
  refine ⟨makeInternTable st'.internTableSize, fun _ => [], ?_, List.length_replicate, ?_,
    Table.empty _, ?_, ?_⟩
  · rw [← hopen]
    rfl
  · rw [← hopen, strInternOpen]
    show 0 < if tableSize = 0 then internTableSizeInitial else tableSize
    split
    · exact Nat.succ_pos 10006
    · omega
  · intro e
    rw [hentries]
    exact iff_of_false List.not_mem_nil (Nat.not_lt_zero e)
  · rw [hfaces]
    constructor
    · exact nofun
    · exact nofun

end

end InternState

theorem forall₂_getElem? {α β : Type} {R : α → β → Prop} {l : List α} {l' : List β}
    (h : List.Forall₂ R l l') {i : Nat} {a : α} (ha : l[i]? = some a) :
    ∃ b, l'[i]? = some b ∧ R a b := by
  induction h generalizing i with
  | nil => exact nomatch ha
  | cons hab _ ih =>
      cases i with
      | zero => exact ⟨_, rfl, Option.some.inj ha ▸ hab⟩
      | succ i => exact ih ha

end Waverous
