import Waverous.DbFrame
import Waverous.DbScanf

/-! # Objects in the database file — `db_file.c`

    What is written for the objects of a database is read back: the objects are the same, each
    name is where `str_intern` keeps it, and an array of definitions has no room to spare.  The
    programs of verbs have their own part of the file. -/

namespace Waverous.Db

open Readers

variable (intern : Str → Nat) (ft : FloatText)

/-! ## Bits -/

/-- `n` bits of a `short` are its value. -/
def shortNum (bits : Nat) : Int32 := (Int16.ofNat bits).toInt32

/-- The bits of a number that is put into a `short`. -/
def shortBits (n : Int32) : Nat := n.toInt16.toUInt16.toNat

/-- The bits of an `int`. -/
def intBits (n : Int32) : Nat := n.toUInt32.toNat

/-! ## Verb and property I/O -/

/-- `read_verbdef`. -/
def readVerbdef : FileReader Verbdef := do
  let name ← dbioReadString
  let owner ← dbioReadObjid
  let perms ← dbioReadNum
  let prep ← dbioReadNum
  pure ⟨name, intern name, owner, shortBits perms, prep.toInt16.toInt⟩

/-- `write_verbdef`. -/
def writeVerbdef (v : Verbdef) : Str :=
  dbioWriteString v.name ++ (dbioWriteObjid v.owner ++ (dbioWriteNum (shortNum v.perms) ++
    dbioWriteNum (Int16.ofInt v.prep).toInt32))

/-- `read_propdef`. -/
def readPropdef : FileReader Propdef := do
  let name ← dbioReadString
  pure (newPropdef name 0)

/-- `write_propdef`. -/
def writePropdef (p : Propdef) : Str := dbioWriteString p.name

/-- `read_propval`. -/
def readPropval : FileReader Pval := do
  let var ← dbioReadVar ft
  let owner ← dbioReadObjid
  let perms ← dbioReadNum
  pure ⟨var, owner, shortBits perms, 0⟩

/-- `write_propval`. -/
def writePropval (p : Pval) : Str :=
  dbioWriteVar ft p.var ++ (dbioWriteObjid p.owner ++ dbioWriteNum (shortNum p.perms))

/-! ## Object I/O -/

/-- As many as a number says; an array has no negative length. -/
def counted {α : Type} (r : FileReader α) : FileReader (List α) := do
  let n ← dbioReadNum
  if n < 0 then fail else times r n.toInt.toNat

/-- The fields of an object, below its number. -/
def readFields (oid : Objid) : FileReader Object := do
  let name ← dbioReadString
  let _handles ← dbioReadString
  let flags ← dbioReadNum
  let owner ← dbioReadObjid
  let location ← dbioReadObjid
  let contents ← dbioReadObjid
  let next ← dbioReadObjid
  let parent ← dbioReadObjid
  let child ← dbioReadObjid
  let sibling ← dbioReadObjid
  let nverbdefs ← dbioReadNum
  let verbdefs ← times (readVerbdef intern) nverbdefs.toInt.toNat
  let propdefs ← counted readPropdef
  let propval ← counted (readPropval ft)
  pure
    { id := oid, owner, name, flags := intBits flags
      place := ⟨location, contents, next⟩
      descent := ⟨parent, child, sibling⟩
      verbdefs, propdefs := ⟨propdefs.length, propdefs⟩, propval }

/-- `read_object`; the reader fails where it returns 0. -/
def readObject (s : State) : FileReader State := do
  let args ← dbioScanf (Directive.format "#%d")
  match args with
  | [oid] =>
      if oid ≠ s.numObjects then fail
      else do
        let line ← dbioReadLine 20
        if line = Str.ofString " recycled\n" then
          pure { s with objects := s.objects ++ [none] }
        else if line ≠ Str.ofString "\n" then fail
        else do
          let o ← readFields intern ft oid
          pure { s with objects := s.objects ++ [some o] }
  | _ => fail

/-- The fields of an object, below its number; `nprops` is the number of its slots. -/
def writeFields (o : Object) (nprops : Nat) : Str :=
  dbioWriteString o.name ++ (dbioWriteString [] ++ (dbioWriteNum (Int32.ofNat o.flags) ++
  (dbioWriteObjid o.owner ++
  (dbioWriteObjid o.location ++ (dbioWriteObjid o.contents ++ (dbioWriteObjid o.next ++
  (dbioWriteObjid o.parent ++ (dbioWriteObjid o.child ++ (dbioWriteObjid o.sibling ++
  (dbioWriteNum (Int32.ofNat o.verbdefs.length) ++ (o.verbdefs.flatMap writeVerbdef ++
  (dbioWriteNum (Int32.ofNat o.curLength) ++ (o.propdefs.l.flatMap writePropdef ++
  (dbioWriteNum (Int32.ofNat nprops) ++
    (o.propval.take nprops).flatMap (writePropval ft)))))))))))))))

/-- `write_object`. -/
def writeObject (s : State) (oid : Objid) : Option Str :=
  match findObject s oid with
  | none => some (dbioPrintf (Directive.format "#%d recycled\n") [oid])
  | some o => do
      let nprops ← countProperties s oid
      if o.propval.length < nprops then none
      else some (dbioPrintf (Directive.format "#%d\n") [oid] ++ writeFields ft o nprops)

/-! ## All objects -/

/-- The loop of `read_db_file` over the objects. -/
def readObjects : Nat → State → FileReader State
  | 0, s => pure s
  | n + 1, s => do
      let s ← readObject intern ft s
      readObjects n s

/-- The loop of `write_db_file` over the objects. -/
def writeObjects (s : State) : Option Str := do
  let texts ← (List.range s.numObjects).mapM fun (n : Nat) => writeObject ft s n
  pure texts.flatten

/-! ## What a file can hold -/

/-- A verb of the C types, without a newline in its names. -/
structure VerbdefStorable (v : Verbdef) : Prop where
  name : newline ∉ v.name
  owner : FitsInt v.owner
  perms : v.perms < 65536
  prep : -32768 ≤ v.prep ∧ v.prep ≤ 32767

/-- A slot of the C types, without a newline or a float in its value. -/
structure PvalStorable (p : Pval) : Prop where
  var : Storable p.var
  owner : FitsInt p.owner
  perms : p.perms < 65536

/-- An object of the C types, without newlines in strings and floats in values. -/
structure ObjectStorable (o : Object) : Prop where
  name : newline ∉ o.name
  flags : o.flags < 4294967296
  owner : FitsInt o.owner
  place : FitsInt o.location ∧ FitsInt o.contents ∧ FitsInt o.next
  descent : FitsInt o.parent ∧ FitsInt o.child ∧ FitsInt o.sibling
  verbCount : o.verbdefs.length ≤ 2147483647
  verbs : ∀ v ∈ o.verbdefs, VerbdefStorable v
  propCount : o.curLength ≤ 2147483647
  props : ∀ d ∈ o.propdefs.l, newline ∉ d.name
  slotCount : o.propval.length ≤ 2147483647
  slots : ∀ p ∈ o.propval, PvalStorable p

/-- A database of the C types, without newlines in strings and floats in values. -/
structure StateStorable (s : State) : Prop where
  count : s.numObjects ≤ 2147483647
  objects : ∀ {x o}, findObject s x = some o → ObjectStorable o

/-! ## What is read of it -/

/-- An object as it is read: the name of a verb is where it is interned, and an array has the
    length it had. -/
def stored (o : Object) : Object :=
  { o with
    verbdefs := o.verbdefs.map fun v => { v with addr := intern v.name }
    propdefs := ⟨o.curLength, o.propdefs.l.map fun d => { d with prop := 0 }⟩
    propval := o.propval.map fun p => { p with prop := 0 } }

theorem shortBits_shortNum {bits : Nat} (h : bits < 65536) : shortBits (shortNum bits) = bits := by
  rw [shortBits, shortNum, Int16.toInt16_toInt32, Int16.toUInt16_ofNat', UInt16.toNat_ofNat']
  exact Nat.mod_eq_of_lt h

theorem intBits_ofNat {bits : Nat} (h : bits < 4294967296) : intBits (Int32.ofNat bits) = bits := by
  rw [intBits, Int32.toUInt32_ofNat', UInt32.toNat_ofNat']
  exact Nat.mod_eq_of_lt h

theorem reads_verbdef {v : Verbdef} (hv : VerbdefStorable v) :
    Reads (readVerbdef intern) (writeVerbdef v) { v with addr := intern v.name } := by
  have hprep : (Int16.ofInt v.prep).toInt = v.prep :=
    Int16.toInt_ofInt_of_le hv.prep.1 (Int.lt_add_one_of_le hv.prep.2)
  have hlast := (reads_num (Int16.ofInt v.prep).toInt32).map fun prep =>
    (⟨v.name, intern v.name, v.owner, v.perms, prep.toInt16.toInt⟩ : Verbdef)
  rw [Int16.toInt16_toInt32, hprep] at hlast
  refine (reads_string hv.name).bind ((reads_objid hv.owner).bind ((reads_num _).bind ?_))
  rw [shortBits_shortNum hv.perms]
  exact hlast

theorem reads_propdef {d : Propdef} (hd : newline ∉ d.name) (hhash : d.hash = strHash d.name) :
    Reads readPropdef (writePropdef d) { d with prop := 0 } := by
  have hread := (reads_string hd).map fun name => newPropdef name 0
  rw [newPropdef, ← hhash] at hread
  exact hread

theorem reads_propval {p : Pval} (hp : PvalStorable p) :
    Reads (readPropval ft) (writePropval ft p) { p with prop := 0 } := by
  have hlast := (reads_num (shortNum p.perms)).map fun perms =>
    (⟨p.var, p.owner, shortBits perms, 0⟩ : Pval)
  rw [shortBits_shortNum hp.perms] at hlast
  exact (reads_dbioReadVar hp.var).bind ((reads_objid hp.owner).bind hlast)

theorem reads_counted {α β : Type} {r : FileReader α} {write : β → Str} {g : β → α} {cs : List β}
    (hlen : cs.length ≤ 2147483647) (h : ∀ c ∈ cs, Reads r (write c) (g c)) :
    Reads (counted r) (dbioWriteNum (Int32.ofNat cs.length) ++ cs.flatMap write) (cs.map g) := by
  obtain ⟨hneg, hcount⟩ := toInt_ofNat_of_le hlen
  refine (reads_num _).bind ?_
  rw [if_neg hneg, hcount]
  exact Reads.times cs h

/-- The fields of an object are read back. -/
theorem reads_fields {o : Object} (ho : ObjectStorable o)
    (hhash : ∀ d ∈ o.propdefs.l, d.hash = strHash d.name) :
    Reads (readFields intern ft o.id) (writeFields ft o o.propval.length) (stored intern o) := by
  obtain ⟨hlocation, hcontents, hnext⟩ := ho.place
  obtain ⟨hparent, hchild, hsibling⟩ := ho.descent
  obtain ⟨-, hverbs⟩ := toInt_ofNat_of_le ho.verbCount
  have hverbdefs := Reads.times o.verbdefs fun v hv => reads_verbdef intern (ho.verbs v hv)
  have hpropdefs := reads_counted ho.propCount fun d hd => reads_propdef (ho.props d hd) (hhash d hd)
  have hpropval := reads_counted ho.slotCount fun p hp => reads_propval ft (ho.slots p hp)
  refine (reads_string ho.name).bind ((reads_string List.not_mem_nil).bind
    ((reads_num _).bind ((reads_objid ho.owner).bind ((reads_objid hlocation).bind
    ((reads_objid hcontents).bind ((reads_objid hnext).bind ((reads_objid hparent).bind
    ((reads_objid hchild).bind ((reads_objid hsibling).bind ((reads_num _).bind ?_))))))))))
  rw [hverbs, intBits_ofNat ho.flags]
  refine hverbdefs.bind ?_
  rw [List.take_length, ← List.append_assoc (dbioWriteNum (Int32.ofNat o.curLength)),
    ← List.append_nil (dbioWriteNum (Int32.ofNat o.propval.length) ++ _)]
  refine hpropdefs.bind (hpropval.bind ?_)
  have hlen : (o.propdefs.l.map fun d => ({ d with prop := 0 } : Propdef)).length = o.curLength :=
    List.length_map _
  rw [hlen]
  exact reads_pure _

/-! ## Objects -/

theorem reads_number {n : Int} (hn : FitsInt n) :
    ReadsBefore NoDigit (dbioScanf (Directive.format "#%d")) (35 :: (formatInt n ++ [])) [n] := by
  have hread : ReadsBefore (FormatBefore (Directive.format "#%d"))
      (dbioScanf (Directive.format "#%d")) (dbioPrintf (Directive.format "#%d") [n]) [n] :=
    reads_dbioScanf rfl ⟨hn, rfl⟩
  refine hread.mono fun rest hrest d hd => ?_
  have hlast : (Directive.format "#%d").getLast? = some .int := rfl
  rw [hlast] at hd
  cases hd
  exact hrest

/-- A line that begins with the number of an object. -/
theorem reads_numbered {α : Type} {n : Int} (hn : FitsInt n) {f : List Int → FileReader α}
    {text : Str} {a : α} (htext : ∀ rest, NoDigit (text ++ rest)) (h : Reads (f [n]) text a) :
    Reads (dbioScanf (Directive.format "#%d") >>= f) (35 :: formatInt n ++ text) a := by
  have hread := (reads_number hn).bind h fun rest _ => htext rest
  rw [List.append_nil] at hread
  exact hread

variable {s t : State} {o : Object}

theorem printf_recycled (n : Int) : dbioPrintf (Directive.format "#%d recycled\n") [n] =
    35 :: formatInt n ++ Str.ofString " recycled\n" := rfl

theorem printf_number (n : Int) :
    dbioPrintf (Directive.format "#%d\n") [n] = 35 :: formatInt n ++ [newline] := rfl

theorem reads_recycled (hn : FitsInt (s.numObjects : Int)) :
    Reads (readObject intern ft s) (dbioPrintf (Directive.format "#%d recycled\n") [(s.numObjects : Int)])
      { s with objects := s.objects ++ [none] } := by
  have hline : Reads (dbioReadLine 20) (Str.ofString " recycled\n") (Str.ofString " recycled\n") :=
    reads_line (Str.ofString " recycled") (by decide) (by decide)
  have hblank : ∀ rest, NoDigit (Str.ofString " recycled\n" ++ rest) := fun rest =>
    noDigit_space (b := 32) rfl _
  rw [printf_recycled]
  refine reads_numbered hn hblank ?_
  generalize Str.ofString " recycled\n" = text at hline
  dsimp only
  rw [if_neg fun hne => hne rfl, ← List.append_nil text]
  refine hline.bind ?_
  rw [if_pos (List.append_nil text).symm]
  exact reads_pure _

theorem reads_object (hn : FitsInt (s.numObjects : Int)) (hid : o.id = s.numObjects)
    (ho : ObjectStorable o) (hhash : ∀ d ∈ o.propdefs.l, d.hash = strHash d.name) :
    Reads (readObject intern ft s)
      (dbioPrintf (Directive.format "#%d\n") [(s.numObjects : Int)] ++ writeFields ft o o.propval.length)
      { s with objects := s.objects ++ [some (stored intern o)] } := by
  have hline : Reads (dbioReadLine 20) [newline] [newline] :=
    reads_line [] (by decide) (by decide)
  have hfields := reads_fields intern ft ho hhash
  rw [hid] at hfields
  have hrecycled : [newline] ≠ Str.ofString " recycled\n" := by decide
  have hnewline : Str.ofString "\n" = [newline] := rfl
  rw [printf_number, List.append_assoc]
  have hblank : ∀ text rest, NoDigit ([newline] ++ text ++ rest) := fun text rest =>
    noDigit_newline (text ++ rest)
  refine reads_numbered hn (hblank _) ?_
  generalize Str.ofString " recycled\n" = text at hrecycled
  dsimp only
  rw [if_neg fun hne => hne rfl, hnewline]
  refine hline.bind ?_
  rw [if_neg hrecycled, if_neg fun hne => hne rfl]
  exact hfields.map fun o => { s with objects := s.objects ++ [some o] }

/-! ## All objects -/

/-- Every object of a database is written, and read back. -/
theorem writeObject_spec {s : State} (hw : WellFormed s) (hs : StateStorable s)
    {n : Nat} (hn : n < s.numObjects) :
    ∃ text, writeObject ft s n = some text ∧ ∀ t : State, t.numObjects = n →
      Reads (readObject intern ft t) text
        { t with objects := t.objects ++ [s.objects[n].map (stored intern)] } := by
  have hfits : FitsInt (n : Int) := by
    have hcount := hs.count
    constructor <;> omega
  have hfind : findObject s (n : Int) = s.objects[n] := by
    show s.objects[n]?.join = _
    rw [List.getElem?_eq_getElem hn]
    rfl
  cases ho : s.objects[n] with
  | none =>
      rw [ho] at hfind
      refine ⟨_, by rw [writeObject, hfind], ?_⟩
      rintro t rfl
      exact reads_recycled intern ft hfits
  | some o =>
      rw [ho] at hfind
      obtain ⟨L, hf⟩ := hw.descent
      have hcount : countProperties s n = some o.propval.length := by
        rw [hw.slots.count hf, labelsAt_eq hfind, length_labels]
      refine ⟨dbioPrintf (Directive.format "#%d\n") [(n : Int)] ++
        writeFields ft o o.propval.length, ?_, ?_⟩
      · rw [writeObject, hfind]
        dsimp only
        rw [hcount]
        exact if_neg (Nat.lt_irrefl _)
      · rintro t rfl
        exact reads_object intern ft hfits (hw.ids hfind) (hs.objects hfind) (hw.names.hash hfind)

/-- The objects from the `i`-th on. -/
theorem reads_objects_from {s : State} (hw : WellFormed s) (hs : StateStorable s)
    (k : Nat) {i : Nat} (hik : i + k = s.numObjects) {t : State} (ht : t.numObjects = i) :
    ∃ texts, (List.range' i k).mapM (fun (n : Nat) => writeObject ft s n) = some texts ∧
      Reads (readObjects intern ft k t) texts.flatten
        { t with objects := t.objects ++ (s.objects.drop i).map (Option.map (stored intern)) } := by
  induction k generalizing i t with
  | zero =>
      refine ⟨[], rfl, ?_⟩
      have hdrop : s.objects.drop i = [] := List.drop_eq_nil_of_le (Nat.le_of_eq hik.symm)
      rw [hdrop, List.map_nil, List.append_nil]
      exact reads_pure t
  | succ k ih =>
      have hi : i < s.numObjects := by omega
      obtain ⟨text, htext, hread⟩ := writeObject_spec intern ft hw hs hi
      obtain ⟨texts, htexts, hreads⟩ := ih (i := i + 1) (by omega)
        (t := { t with objects := t.objects ++ [s.objects[i].map (stored intern)] })
        (by rw [State.numObjects, List.length_append]; exact congrArg (· + 1) ht)
      refine ⟨text :: texts, ?_, ?_⟩
      · rw [List.range'_succ, List.mapM_cons, htext, htexts]
        rfl
      · rw [List.drop_eq_getElem_cons hi, List.map_cons, List.flatten_cons]
        rw [List.append_assoc] at hreads
        exact (hread t ht).bind hreads

/-- **Reading gives back what was written.**  Every value comes back, and every object of a
    database; whatever stands behind them in the file is left. -/
theorem database_file_roundtrip {s t : State} (hw : WellFormed s) (hs : StateStorable s)
    (ht : t.objects = []) :
    (∀ v rest, Storable v → dbioReadVar ft (dbioWriteVar ft v ++ rest) = some (v, rest)) ∧
    ∃ text, writeObjects ft s = some text ∧ ∀ rest,
      readObjects intern ft s.numObjects t (text ++ rest) =
        some ({ t with objects := s.objects.map (Option.map (stored intern)) }, rest) := by
  refine ⟨fun v rest hv => (reads_dbioReadVar hv).run rest, ?_⟩
  obtain ⟨texts, htexts, hreads⟩ := reads_objects_from intern ft hw hs
    s.numObjects (i := 0) (Nat.zero_add _) (t := t) (by rw [State.numObjects, ht]; rfl)
  refine ⟨texts.flatten, ?_, fun rest => ?_⟩
  · rw [writeObjects, List.range_eq_range', htexts]
    rfl
  · have hread := hreads.run rest
    rw [ht, List.nil_append, List.drop_zero] at hread
    exact hread

/-- Two objects with a recycled one between them, and lists in a slot. -/
def storedOps : List Op :=
  [.create nothing nothing nothing, .create 0 0 0, .recycle 0 (fun _ => false) 1, .create 0 0 0,
    .addProp 0 0 [118] ⟨.list [.list [.str [104, 105], .err .ePerm], .obj 2], by decide⟩
      (.list [.obj 0, .str [114]])]

def storedDb : State := (storedOps.foldlM (fun s op => step op s) emptyDb).getD emptyDb

instance (v : Verbdef) : Decidable (VerbdefStorable v) :=
  decidable_of_iff
    (newline ∉ v.name ∧ FitsInt v.owner ∧ v.perms < 65536 ∧ -32768 ≤ v.prep ∧ v.prep ≤ 32767)
    ⟨fun ⟨hname, howner, hperms, hprep⟩ => ⟨hname, howner, hperms, hprep⟩,
      fun ⟨hname, howner, hperms, hprep⟩ => ⟨hname, howner, hperms, hprep⟩⟩

instance (p : Pval) : Decidable (PvalStorable p) :=
  decidable_of_iff (Storable p.var ∧ FitsInt p.owner ∧ p.perms < 65536)
    ⟨fun ⟨hvar, howner, hperms⟩ => ⟨hvar, howner, hperms⟩,
      fun ⟨hvar, howner, hperms⟩ => ⟨hvar, howner, hperms⟩⟩

instance (o : Object) : Decidable (ObjectStorable o) :=
  decidable_of_iff
    ((newline ∉ o.name ∧ o.flags < 4294967296 ∧ FitsInt o.owner) ∧
      (FitsInt o.location ∧ FitsInt o.contents ∧ FitsInt o.next) ∧
      (FitsInt o.parent ∧ FitsInt o.child ∧ FitsInt o.sibling) ∧
      (o.verbdefs.length ≤ 2147483647 ∧ ∀ v ∈ o.verbdefs, VerbdefStorable v) ∧
      (o.curLength ≤ 2147483647 ∧ ∀ d ∈ o.propdefs.l, newline ∉ d.name) ∧
      (o.propval.length ≤ 2147483647 ∧ ∀ p ∈ o.propval, PvalStorable p))
    ⟨fun ⟨⟨hname, hflags, howner⟩, hplace, hdescent, ⟨hvc, hv⟩, ⟨hpc, hp⟩, ⟨hsc, hs⟩⟩ =>
        ⟨hname, hflags, howner, hplace, hdescent, hvc, hv, hpc, hp, hsc, hs⟩,
      fun ⟨hname, hflags, howner, hplace, hdescent, hvc, hv, hpc, hp, hsc, hs⟩ =>
        ⟨⟨hname, hflags, howner⟩, hplace, hdescent, ⟨hvc, hv⟩, ⟨hpc, hp⟩, ⟨hsc, hs⟩⟩⟩

theorem storedDb_eq : storedOps.foldlM (fun s op => step op s) emptyDb = some storedDb := by
  decide +kernel

theorem storedDb_wellFormed : WellFormed storedDb := by
  obtain ⟨s', hrun, hw⟩ := run_wellFormed emptyDb_wellFormed storedOps
  rw [Runs.run_ofPart_iff, storedDb_eq] at hrun
  cases hrun
  exact hw

theorem storedDb_storable : StateStorable storedDb := by
  have hall : ∀ o ∈ storedDb.objects, ∀ o' ∈ o, ObjectStorable o' := by decide +kernel
  constructor
  · decide +kernel
  · intro x o hfind
    cases x with
    | negSucc _ => cases hfind
    | ofNat n =>
        obtain ⟨o', ho', hjoin⟩ := Option.bind_eq_some_iff.mp hfind
        cases hjoin
        exact hall _ (List.mem_of_getElem? ho') o rfl

/-- They are read back, and what stands behind them is left. -/
theorem database_file_roundtrip_family : ∃ text,
    writeObjects ⟨fun _ => [], fun _ => 0⟩ storedDb = some text ∧
    readObjects (fun _ => 0) ⟨fun _ => [], fun _ => 0⟩ storedDb.numObjects emptyDb (text ++ [48, newline]) =
      some ({ emptyDb with objects := storedDb.objects.map (Option.map (stored fun _ => 0)) }, [48, newline]) := by
  obtain ⟨text, hwrite, hread⟩ := (database_file_roundtrip (fun _ => 0)
    ⟨fun _ => [], fun _ => 0⟩ (t := emptyDb) storedDb_wellFormed storedDb_storable rfl).2
  exact ⟨text, hwrite, hread [48, newline]⟩

end Waverous.Db
