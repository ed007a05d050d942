import Waverous.DbScanf
import Waverous.Utils

/-! # State of built-in functions — `functions.c`, `objects.c`, `execute.c`

    A built-in function that has called a verb keeps what it needs to go on.  Only `create`,
    `recycle`, `move` and `call_function` have something to keep, and `call_function` keeps it for
    the function it calls. -/

namespace Waverous

open Readers

/-- `bi_func_data`: what `create` and `recycle` keep, what `move` keeps, and `struct cf_state`. -/
inductive BiFuncData where
  | null
  | oid (oid : Objid)
  | move (what «where» : Objid)
  | callFunction (fnum : Nat) (data : BiFuncData)
  deriving DecidableEq, Repr

/-- The functions `read` and `write` of an entry of `bf_table`. -/
inductive BiFuncIo where
  | none | create | recycle | move | callFunction
  deriving DecidableEq, Repr

/-- `struct bft_entry`. -/
structure BfEntry where
  name : Str
  io : BiFuncIo
  deriving DecidableEq, Repr

/-- `bf_table`, when all functions are registered: names differ, and not only by case. -/
structure BfTable where
  entries : List BfEntry
  size : entries.length ≤ 256
  names : entries.Pairwise fun e f => strcaseEq e.name f.name = false
  identifiers : ∀ e ∈ entries, newline ∉ e.name ∧ ∃ c, e.name.head? = some c ∧ isspace c = false

namespace BfTable

variable (t : BfTable)

/-- `name_func_by_num`. -/
def nameFuncByNum (n : Nat) : Str :=
  match t.entries[n]? with
  | none => Str.ofString "no such function"
  | some e => e.name

/-- `number_func_by_name`. -/
def numberFuncByName (name : Str) : Option Nat :=
  t.entries.findIdx? fun e => strcaseEq name e.name

/-- How the state of a function is read and written. -/
def io (fId : Nat) : Option BiFuncIo := t.entries[fId]?.map BfEntry.io

/-! ## Writing -/

def callFunctionHeader : Str := Str.ofString "bf_call_function data: fname = "

/-- `write_bi_func_data`, with the functions `write`; data of another function is not looked at. -/
def writeBiFuncData (data : BiFuncData) (fId : Nat) : Option Str :=
  match t.io fId, data with
  | none, _ => some []
  | some .none, _ => some []
  | some .create, .oid oid =>
      some (dbioPrintf (Directive.format "bf_create data: oid = %d\n") [oid])
  | some .recycle, .oid oid =>
      some (dbioPrintf (Directive.format "bf_recycle data: oid = %d, cont = 0\n") [oid])
  | some .move, .move what «where» =>
      some (dbioPrintf (Directive.format "bf_move data: what = %d, where = %d\n") [what, «where»])
  | some .callFunction, .callFunction fnum data => do
      let text ← writeBiFuncData data fnum
      some (dbioWriteString (callFunctionHeader ++ t.nameFuncByNum fnum) ++ text)
  | _, _ => none

/-! ## Reading -/

/-- `read_bi_func_data`, with the functions `read`; `fuel` bounds the calls of `call_function`. -/
def readBiFuncData : Nat → Nat → FileReader BiFuncData
  | 0, _ => fail
  | fuel + 1, fId =>
      match t.io fId with
      | none => fail
      | some .none => pure .null
      | some .create => do
          match ← dbioScanf (Directive.format "bf_create data: oid = %d\n") with
          | [oid] => pure (.oid oid)
          | _ => fail
      | some .recycle => do
          match ← dbioScanf (Directive.format "bf_recycle data: oid = %d, cont = %d\n") with
          | [oid, _] => pure (.oid oid)
          | _ => fail
      | some .move => do
          match ← dbioScanf (Directive.format "bf_move data: what = %d, where = %d\n") with
          | [what, «where»] => pure (.move what «where»)
          | _ => fail
      | some .callFunction => do
          let line ← dbioReadString
          if callFunctionHeader.isPrefixOf line then
            match t.numberFuncByName (line.drop callFunctionHeader.length) with
            | none => fail
            | some fnum => do
                let data ← readBiFuncData fuel fnum
                pure (.callFunction fnum data)
          else fail

/-! ## What was written is read -/

/-- The data is that of the function. -/
def Pending : BiFuncData → Nat → Prop
  | .null, fId => t.io fId = some .none
  | .oid oid, fId => (t.io fId = some .create ∨ t.io fId = some .recycle) ∧ FitsInt oid
  | .move what «where», fId => t.io fId = some .move ∧ FitsInt what ∧ FitsInt «where»
  | .callFunction fnum data, fId => t.io fId = some .callFunction ∧ Pending data fnum

variable {t}

theorem exists_of_io {fId : Nat} {io : BiFuncIo} (h : t.io fId = some io) :
    ∃ hlt : fId < t.entries.length, t.entries[fId].io = io := by
  obtain ⟨e, he, rfl⟩ := Option.map_eq_some_iff.mp h
  obtain ⟨hlt, rfl⟩ := List.getElem?_eq_some_iff.mp he
  exact ⟨hlt, rfl⟩

theorem Pending.lt {data : BiFuncData} {fId : Nat} (h : t.Pending data fId) :
    fId < t.entries.length := by
  cases data with
  | null => exact (exists_of_io h).1
  | oid _ =>
      obtain ⟨hio | hio, -⟩ := h
      · exact (exists_of_io hio).1
      · exact (exists_of_io hio).1
  | move _ _ => exact (exists_of_io h.1).1
  | callFunction _ _ => exact (exists_of_io h.1).1

/-- The name of a function leads to its number. -/
theorem numberFuncByName_nameFuncByNum {n : Nat} (hn : n < t.entries.length) :
    t.numberFuncByName (t.nameFuncByNum n) = some n := by
  rw [nameFuncByNum, List.getElem?_eq_getElem hn]
  refine List.findIdx?_eq_some_iff_getElem.mpr ⟨hn, ?_, fun j hj => ?_⟩
  · rw [strcaseEq, beq_iff_eq]
  · have hne := List.pairwise_iff_getElem.mp t.names j n (Nat.lt_trans hj hn) hn hj
    rw [strcaseEq, beq_eq_false_iff_ne] at hne
    rw [strcaseEq, beq_iff_eq]
    exact fun heq => hne heq.symm

theorem nameFuncByNum_identifier (n : Nat) :
    newline ∉ t.nameFuncByNum n ∧ ∃ c, (t.nameFuncByNum n).head? = some c ∧ isspace c = false := by
  rw [nameFuncByNum]
  split
  · exact ⟨by decide, 110, rfl, rfl⟩
  next e he => exact t.identifiers e (List.mem_of_getElem? he)

/-- What is written for `recycle` is of the format that reads it. -/
theorem printf_recycle (oid : Objid) :
    dbioPrintf (Directive.format "bf_recycle data: oid = %d, cont = 0\n") [oid] =
      dbioPrintf (Directive.format "bf_recycle data: oid = %d, cont = %d\n") [oid, 0] := by
  have hwrite : Directive.format "bf_recycle data: oid = %d, cont = 0\n" =
      Directive.format "bf_recycle data: oid = %d, cont = " ++ [.lit 48, .space newline] := by
    decide +kernel
  have hread : Directive.format "bf_recycle data: oid = %d, cont = %d\n" =
      Directive.format "bf_recycle data: oid = %d, cont = " ++ [.int, .space newline] := by
    decide +kernel
  have harity : 1 = arity (Directive.format "bf_recycle data: oid = %d, cont = ") := by
    decide +kernel
  have hargs : [oid].length = arity (Directive.format "bf_recycle data: oid = %d, cont = ") := harity
  have hleft := dbioPrintf_append hargs [.lit 48, .space newline] []
  have hright := dbioPrintf_append hargs [.int, .space newline] [0]
  rw [hwrite, hread]
  exact hleft.trans hright.symm

/-- The pending state of a function is read back. -/
theorem reads_biFuncData {data : BiFuncData} {fId : Nat} (h : t.Pending data fId) :
    ∃ text, t.writeBiFuncData data fId = some text ∧ ∀ {fuel : Nat}, text.length ≤ fuel →
      ReadsBefore NoBlank (t.readBiFuncData (fuel + 1) fId) text data := by
  induction data generalizing fId with
  | null =>
      have hio : t.io fId = some .none := h
      refine ⟨[], by rw [writeBiFuncData.eq_def, hio], fun {fuel} _ => ?_⟩
      rw [readBiFuncData, hio]
      exact readsBefore_pure _ _
  | oid oid =>
      obtain ⟨hio | hio, hoid⟩ := h
      · refine ⟨_, by rw [writeBiFuncData.eq_def, hio], fun {fuel} _ => ?_⟩
        have hread := reads_format (Directive.format "bf_create data: oid = %d\n") [oid] rfl rfl
          ⟨hoid, rfl⟩
        rw [readBiFuncData, hio, ← List.append_nil (dbioPrintf _ _)]
        exact hread.bind (readsBefore_pure _ _) fun _ hrest => hrest
      · refine ⟨_, by rw [writeBiFuncData.eq_def, hio], fun {fuel} _ => ?_⟩
        have hread := reads_format (Directive.format "bf_recycle data: oid = %d, cont = %d\n")
          [oid, 0] rfl rfl ⟨hoid, by decide, rfl⟩
        rw [readBiFuncData, hio, printf_recycle, ← List.append_nil (dbioPrintf _ _)]
        exact hread.bind (readsBefore_pure _ _) fun _ hrest => hrest
  | move what «where» =>
      obtain ⟨hio, hwhat, hwhere⟩ := h
      refine ⟨_, by rw [writeBiFuncData.eq_def, hio], fun {fuel} _ => ?_⟩
      have hread := reads_format (Directive.format "bf_move data: what = %d, where = %d\n")
        [what, «where»] rfl rfl ⟨hwhat, hwhere, rfl⟩
      rw [readBiFuncData, hio, ← List.append_nil (dbioPrintf _ _)]
      exact hread.bind (readsBefore_pure _ _) fun _ hrest => hrest
  | callFunction fnum data ih =>
      obtain ⟨hio, hpending⟩ := h
      obtain ⟨text, htext, hread⟩ := ih hpending
      have hline : newline ∉ callFunctionHeader ++ t.nameFuncByNum fnum := by
        rw [List.mem_append, not_or]
        exact ⟨by decide, (nameFuncByNum_identifier fnum).1⟩
      refine ⟨dbioWriteString (callFunctionHeader ++ t.nameFuncByNum fnum) ++ text, ?_, ?_⟩
      · rw [writeBiFuncData.eq_def, hio]
        dsimp only
        rw [htext]
        rfl
      · intro fuel hfuel
        rw [List.length_append, dbioWriteString, List.length_append, List.length_singleton] at hfuel
        obtain ⟨fuel, rfl⟩ : ∃ k, fuel = k + 1 := ⟨fuel - 1, by omega⟩
        rw [readBiFuncData, hio]
        refine (reads_string hline).bind ?_
        rw [if_pos (List.isPrefixOf_iff_prefix.mpr (List.prefix_append _ _)), List.drop_left,
          numberFuncByName_nameFuncByNum hpending.lt, ← List.append_nil text]
        exact (hread (by omega)).bind (readsBefore_pure _ _) fun _ hrest => hrest

end BfTable

end Waverous
