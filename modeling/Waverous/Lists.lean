import Waverous.Lib.RefHeap
import Waverous.Utils

/-! # Shared lists and strings — `list.c`, `execute.c`, `db_objects.c`

    Lists and strings are reference-counted blocks.  A holder is any place that
    keeps a `Var`: a variable, a slot of a run-time stack, a property, a literal,
    the temporary of an activation.  Holder 0 is the static empty list of
    `new_list` and holder 1 is `all_users`; only the code below touches these
    two.  Where the C code stores the parts of a new list before or after it
    counts their references up is not observable, and the model counts first. -/

namespace Waverous.Lists

open RefHeap

/-- A value that is no list and no string.  The server never lets a NaN become a
    value (`IS_REAL`). -/
def isScalar : Var → Bool
  | .str _ => false
  | .list _ => false
  | .float bits => !isNaN bits
  | _ => true

/-- The immediate values. -/
abbrev Scalar := { v : Var // isScalar v = true }

/-- The two kinds of shared blocks. -/
inductive Tag where
  | str (s : Str)
  | list
  deriving DecidableEq, Repr

abbrev Cell := RefHeap.Cell Scalar
abbrev Heap := RefHeap.Heap Scalar Tag

/-- The value of a block; a string has no cells. -/
def build : Tag → List Var → Var
  | .str s, [] => .str s
  | _, vs => .list vs

/-- A cell that holds nothing. -/
def noCell : Cell := .imm ⟨.none, rfl⟩

def errCell (e : Error) : Cell := .imm ⟨.err e, rfl⟩

def objCell (oid : Objid) : Cell := .imm ⟨.obj oid, rfl⟩

/-- The value a cell stands for. -/
def readVar (h : Heap) (c : Cell) : Var := (decode Subtype.val build h h.length c).getD .none

/-- The elements of a list. -/
def listCells (h : Heap) : Cell → Option (List Cell)
  | .ref r =>
      match h[r]? with
      | none | some ⟨_, .str _, []⟩ => none
      | some b => some b.cells
  | .imm _ => none

/-- The bytes of a string. -/
def strBytes (h : Heap) : Cell → Option Str
  | .ref r =>
      match h[r]? with
      | some ⟨_, .str s, []⟩ => some s
      | _ => none
  | .imm _ => none

/-- `var_refcount`. -/
def varRefcount (h : Heap) : Cell → Nat
  | .ref r => count h r
  | .imm _ => 1

/-- `new_list`, filled with cells it takes over. -/
def newList (cs : List Cell) (h : Heap) : Cell × Heap :=
  match cs with
  | [] => (.ref 0, addRef (.ref 0) h)
  | cs => alloc .list cs h

/-- A new list with further references to some cells, and then `free_var` of the
    lists these are from. -/
def rebuild (cs old : List Cell) (h : Heap) : Cell × Heap :=
  let (new, h) := newList cs (refAll cs h)
  (new, free old h)

/-- A new string, and then `free_var` of those it was made from. -/
def newStr (t : Str) (old : List Cell) (h : Heap) : Cell × Heap :=
  let (new, h) := alloc (.str t) [] h
  (new, free old h)

/-! ## `list.c` -/

/-- Store into a list block. -/
def setList (list : Cell) (cs : List Cell) (h : Heap) : Heap :=
  match list with
  | .ref r => setBlock r .list cs h
  | .imm _ => h

/-- `doinsert`; `cs` are the elements of `list`. -/
def doinsert (list : Cell) (cs : List Cell) (value : Cell) (pos : Nat) (h : Heap) : Cell × Heap :=
  let size := cs.length + 1
  if varRefcount h list = 1 ∧ pos = size then (list, setList list (cs ++ [value]) h)
  else
    let before := cs.take (pos - 1)
    let after := cs.drop (pos - 1)
    let (new, h) := newList (before ++ value :: after) (refAll (before ++ after) h)
    (new, free [list] h)

/-- `listinsert`. -/
def listinsert (list : Cell) (cs : List Cell) (value : Cell) (pos : Int) (h : Heap) :
    Cell × Heap :=
  let pos := if pos ≤ 0 then 1 else if cs.length < pos then cs.length + 1 else pos.toNat
  doinsert list cs value pos h

/-- `listappend`. -/
def listappend (list : Cell) (cs : List Cell) (value : Cell) (h : Heap) : Cell × Heap :=
  doinsert list cs value (cs.length + 1) h

/-- `listdelete`. -/
def listdelete (list : Cell) (cs : List Cell) (pos : Nat) (h : Heap) : Cell × Heap :=
  rebuild (cs.eraseIdx (pos - 1)) [list] h

/-- `listconcat`. -/
def listconcat (first : Cell) (cs : List Cell) (second : Cell) (ds : List Cell) (h : Heap) :
    Cell × Heap :=
  rebuild (cs ++ ds) [first, second] h

/-- `sublist`. -/
def sublist (list : Cell) (cs : List Cell) (lower upper : Nat) (h : Heap) : Cell × Heap :=
  if lower > upper then rebuild [] [list] h
  else rebuild ((cs.take upper).drop (lower - 1)) [list] h

/-- `listrangeset`. -/
def listrangeset (base : Cell) (cs : List Cell) («from» «to» : Int) (value : Cell)
    (ds : List Cell) (h : Heap) : Cell × Heap :=
  rebuild (cs.take («from» - 1).toNat ++ (ds ++ cs.drop «to».toNat)) [base, value] h

/-- `ismember` without regard to case. -/
def ismemberCells (value : Cell) (cs : List Cell) (h : Heap) : Nat :=
  ismember (readVar h value) (cs.map (readVar h)) false

/-- `setadd`. -/
def setadd (list : Cell) (cs : List Cell) (value : Cell) (h : Heap) : Cell × Heap :=
  if ismemberCells value cs h ≠ 0 then (list, free [value] h)
  else listappend list cs value h

/-- `setremove`, which leaves the value to its caller. -/
def setremove (list : Cell) (cs : List Cell) (value : Cell) (h : Heap) : Cell × Heap :=
  let i := ismemberCells value cs h
  if i ≠ 0 then listdelete list cs i h else (list, h)

/-- `listset`. -/
def listset (list : Cell) (cs : List Cell) (value : Cell) (pos : Nat) (h : Heap) : Cell × Heap :=
  let old := cs.getD (pos - 1) noCell
  (list, free [old] (setList list (cs.set (pos - 1) value) h))

/-! ## Opcodes and built-in functions

    Each takes over the cells it gets and gives back the cell of its result. -/

/-- Free the operands and push an error. -/
def fail (e : Error) (operands : List Cell) (h : Heap) : Cell × Heap :=
  (errCell e, free operands h)

/-- OP_LIST_ADD_TAIL. -/
def opListAddTail (list tail : Cell) (h : Heap) : Cell × Heap :=
  match listCells h list with
  | some cs => listappend list cs tail h
  | none => fail .eType [list, tail] h

/-- OP_LIST_APPEND. -/
def opListAppend (list tail : Cell) (h : Heap) : Cell × Heap :=
  match listCells h list, listCells h tail with
  | some cs, some ds => listconcat list cs tail ds h
  | _, _ => fail .eType [tail, list] h

/-- The number an index is. -/
def intOf : Cell → Option Int
  | .imm ⟨.int n, _⟩ => some n.toInt
  | _ => none

/-- OP_INDEXSET. -/
def opIndexset (list index value : Cell) (h : Heap) : Cell × Heap :=
  match listCells h list, strBytes h list, intOf index, strBytes h value with
  | some cs, _, some n, _ =>
      if n < 1 ∨ cs.length < n then fail .eRange [value, index, list] h
      else if varRefcount h list = 1 then listset list cs value n.toNat h
      else
        let (res, h) := rebuild cs [list] h
        listset res cs value n.toNat h
  | none, some s, some n, some v =>
      if n < 1 ∨ s.length < n then fail .eRange [value, index, list] h
      else match v with
        | [b] => newStr (s.set (n.toNat - 1) b) [list, value] h
        | _ => fail .eInvarg [value, index, list] h
  | _, _, _, _ => fail .eType [value, index, list] h

/-- EOP_RANGESET. -/
def opRangeset (base «from» «to» value : Cell) (h : Heap) : Cell × Heap :=
  match intOf «from», intOf «to» with
  | some i, some j =>
      match listCells h base, listCells h value, strBytes h base, strBytes h value with
      | some cs, some ds, _, _ =>
          if (cs.length : Int) + 1 < i ∨ j < 0 then fail .eRange [base, «to», «from», value] h
          else listrangeset base cs i j value ds h
      | _, _, some t, some u =>
          if (t.length : Int) + 1 < i ∨ j < 0 then fail .eRange [base, «to», «from», value] h
          else newStr (t.take (i - 1).toNat ++ (u ++ t.drop j.toNat)) [base, value] h
      | _, _, _, _ => fail .eType [base, «to», «from», value] h
  | _, _ => fail .eType [base, «to», «from», value] h

/-- OP_RANGE_REF; when an operand has the wrong type, `base` is not freed. -/
def opRangeRef (base «from» «to» : Cell) (h : Heap) : Cell × Heap :=
  match intOf «from», intOf «to» with
  | some i, some j =>
      let bad := fun len : Nat =>
        decide (i ≤ j) && (decide (i ≤ 0) || decide ((len : Int) < i) || decide (j ≤ 0)
          || decide ((len : Int) < j))
      match listCells h base, strBytes h base with
      | some cs, _ =>
          if bad cs.length then fail .eRange [«to», «from», base] h
          else sublist base cs i.toNat j.toNat h
      | _, some t =>
          if bad t.length then fail .eRange [«to», «from», base] h
          else newStr (if i.toNat > j.toNat then [] else (t.take j.toNat).drop (i.toNat - 1))
            [base] h
      | _, _ => fail .eType [«to», «from»] h
  | _, _ => fail .eType [«to», «from»] h

/-- The next `int`, which wraps around. -/
def nextInt (n : Int) : Int := (Int32.ofInt n + 1).toInt

/-- The built-in functions on lists; the types of their arguments have been
    checked by `call_bi_func`. -/
inductive Builtin where
  | setadd | setremove | listappend | listinsert | listdelete | listset
  deriving DecidableEq, Repr

/-- `bf_setadd`, …, `bf_listset` on the list `list` with elements `cs`, the second
    argument and the number that is the third one: one more reference to the
    arguments, the function, and `free_var(arglist)`. -/
def applyBuiltin (f : Builtin) (arglist list : Cell) (cs : List Cell) (value : Cell)
    (pos : Option Int) (h : Heap) : Option (Cell × Heap) :=
  let done := fun r : Cell × Heap => (r.1, free [arglist] r.2)
  match f, pos with
  | .setadd, _ => some (done (setadd list cs value (refAll [list, value] h)))
  | .setremove, _ => some (done (setremove list cs value (addRef list h)))
  | .listappend, none => some (done (listappend list cs value (refAll [list, value] h)))
  | .listappend, some n =>
      some (done (listinsert list cs value (nextInt n) (refAll [list, value] h)))
  | .listinsert, none => some (done (listinsert list cs value 1 (refAll [list, value] h)))
  | .listinsert, some n => some (done (listinsert list cs value n (refAll [list, value] h)))
  | .listdelete, _ =>
      (intOf value).map fun n : Int =>
        if n ≤ 0 ∨ cs.length < n then fail .eRange [arglist] h
        else done (listdelete list cs n.toNat (addRef list h))
  | .listset, some n =>
      some (if n ≤ 0 ∨ cs.length < n then fail .eRange [arglist] h
        else
          let (new, h) := rebuild cs [] (addRef value h)
          done (listset new cs value n.toNat h))
  | .listset, none => none

/-- A call of a built-in function on lists. -/
def callBuiltin (f : Builtin) (arglist : Cell) (h : Heap) : Option (Cell × Heap) := do
  let args ← listCells h arglist
  let list ← args[0]?
  let value ← args[1]?
  let cs ← listCells h list
  applyBuiltin f arglist list cs value ((args[2]?).bind intOf) h

/-! ## Steps -/

/-- The heap and what the holders hold. -/
structure State where
  heap : Heap
  holders : List Cell
  deriving DecidableEq, Repr

/-- The static empty list, `all_users` without users, and `n` holders of nothing. -/
def State.init (n : Nat) : State where
  heap := [{ refs := 2, tag := .list, cells := [] }]
  holders := .ref 0 :: .ref 0 :: List.replicate n noCell

/-- What the server does with values. -/
inductive Op where
  /-- `dst = var_ref(src)` -/
  | ref (src dst : Nat)
  /-- move a value: a push or a pop, or a variable that is cleared by its last use -/
  | move (src dst : Nat)
  /-- `free_var` -/
  | free (i : Nat)
  | imm (a : Scalar) (dst : Nat)
  /-- a string that is made from scratch -/
  | newStr (s : Str) (dst : Nat)
  /-- `new_list`, filled with the values of some holders -/
  | newList (srcs : List Nat) (dst : Nat)
  /-- `dst = var_ref(src[i])` -/
  | elem (src i dst : Nat)
  | listAddTail (list tail : Nat)
  | listAppend (list tail : Nat)
  | indexset (list index value : Nat)
  | rangeset (base «from» «to» value : Nat)
  | rangeRef (base «from» «to» : Nat)
  | builtin (f : Builtin) (arglist : Nat)
  /-- `bf_players` -/
  | players (dst : Nat)
  /-- `db_set_object_flag(oid, FLAG_USER)` -/
  | setUser (oid : Objid)
  /-- `db_clear_object_flag(oid, FLAG_USER)`, and a user's `db_destroy_object` -/
  | clearUser (oid : Objid)
  /-- `db_renumber_object` of a user -/
  | renumber (old new : Objid)
  deriving DecidableEq, Repr

/-- Take the value out of a holder. -/
def take (i : Nat) (s : State) : Option (Cell × State) :=
  if 2 ≤ i then
    (s.holders[i]?).map fun c => (c, { s with holders := s.holders.set i noCell })
  else none

/-- Take the values out of several holders. -/
def takeAll : List Nat → State → Option (List Cell × State)
  | [], s => some ([], s)
  | i :: is, s => do
      let (c, s) ← take i s
      let (cs, s) ← takeAll is s
      some (c :: cs, s)

/-- `free_var(holder); holder = c`. -/
def store (i : Nat) (r : Cell × Heap) (s : State) : Option State :=
  if 2 ≤ i then
    (s.holders[i]?).map fun old =>
      { heap := free [old] r.2, holders := s.holders.set i r.1 }
  else none

/-- `all_users = r`, where `r` was computed from the old list. -/
def setAllUsers (r : Cell × Heap) (s : State) : State :=
  { heap := r.2, holders := s.holders.set 1 r.1 }

/-- The first `#old` becomes `#new`. -/
def renumberCells (old new : Objid) : List Cell → List Cell
  | [] => []
  | c :: cs => if c = objCell old then objCell new :: cs else c :: renumberCells old new cs

/-- One operation. -/
def step (op : Op) (s : State) : Option State :=
  match op with
  | .ref src dst => do
      let c ← s.holders[src]?
      store dst (c, addRef c s.heap) s
  | .move src dst => do
      let (c, s) ← take src s
      store dst (c, s.heap) s
  | .free i => store i (noCell, s.heap) s
  | .imm a dst => store dst (.imm a, s.heap) s
  | .newStr t dst => store dst (alloc (.str t) [] s.heap) s
  | .newList srcs dst => do
      let (cs, s) ← takeAll srcs s
      store dst (newList cs s.heap) s
  | .elem src i dst => do
      let list ← s.holders[src]?
      let cs ← listCells s.heap list
      let c ← cs[i]?
      store dst (c, addRef c s.heap) s
  | .listAddTail list tail => do
      let (t, s) ← take tail s
      let (l, s) ← take list s
      store list (opListAddTail l t s.heap) s
  | .listAppend list tail => do
      let (t, s) ← take tail s
      let (l, s) ← take list s
      store list (opListAppend l t s.heap) s
  | .indexset list index value => do
      let (v, s) ← take value s
      let (i, s) ← take index s
      let (l, s) ← take list s
      store list (opIndexset l i v s.heap) s
  | .rangeset base «from» «to» value => do
      let (v, s) ← take value s
      let (j, s) ← take «to» s
      let (i, s) ← take «from» s
      let (b, s) ← take base s
      store base (opRangeset b i j v s.heap) s
  | .rangeRef base «from» «to» => do
      let (j, s) ← take «to» s
      let (i, s) ← take «from» s
      let (b, s) ← take base s
      store base (opRangeRef b i j s.heap) s
  | .builtin f arglist => do
      let (a, s) ← take arglist s
      let r ← callBuiltin f a s.heap
      store arglist r s
  | .players dst => do
      let c ← s.holders[1]?
      store dst (c, addRef c s.heap) s
  | .setUser oid => do
      let list ← s.holders[1]?
      let cs ← listCells s.heap list
      some (setAllUsers (setadd list cs (objCell oid) s.heap) s)
  | .clearUser oid => do
      let list ← s.holders[1]?
      let cs ← listCells s.heap list
      some (setAllUsers (setremove list cs (objCell oid) s.heap) s)
  | .renumber old new => do
      let list ← s.holders[1]?
      let cs ← listCells s.heap list
      -- the elements are written where they are, however many share the list
      some { s with heap := setList list (renumberCells old new cs) s.heap }

/-- The values the holders hold. -/
def values (s : State) : List Var := s.holders.map (readVar s.heap)

/-! ## Immutable values

    The same operations when a value is a value: every update makes a new one. -/

/-- The elements of a list value. -/
def asList : Var → Option (List Var)
  | .list vs => some vs
  | _ => none

/-- The bytes of a string value. -/
def asStr : Var → Option Str
  | .str s => some s
  | _ => none

/-- The number an integer value is. -/
def asInt : Var → Option Int
  | .int n => some n.toInt
  | _ => none

/-- `doinsert` of a value. -/
def insertV (vs : List Var) (value : Var) (pos : Nat) : Var :=
  .list (vs.take (pos - 1) ++ value :: vs.drop (pos - 1))

/-- `listinsert` of a value. -/
def listinsertV (vs : List Var) (value : Var) (pos : Int) : Var :=
  insertV vs value (if pos ≤ 0 then 1 else if vs.length < pos then vs.length + 1 else pos.toNat)

/-- `setadd` of a value. -/
def setaddV (vs : List Var) (value : Var) : Var :=
  if ismember value vs false ≠ 0 then .list vs else insertV vs value (vs.length + 1)

/-- `setremove` of a value. -/
def setremoveV (vs : List Var) (value : Var) : Var :=
  let i := ismember value vs false
  if i ≠ 0 then .list (vs.eraseIdx (i - 1)) else .list vs

/-- OP_LIST_ADD_TAIL. -/
def addTailV (list tail : Var) : Var :=
  match asList list with
  | some vs => insertV vs tail (vs.length + 1)
  | none => .err .eType

/-- OP_LIST_APPEND. -/
def appendV (list tail : Var) : Var :=
  match asList list, asList tail with
  | some vs, some ws => .list (vs ++ ws)
  | _, _ => .err .eType

/-- OP_INDEXSET. -/
def indexsetV (list index value : Var) : Var :=
  match asList list, asStr list, asInt index, asStr value with
  | some vs, _, some n, _ =>
      if n < 1 ∨ vs.length < n then .err .eRange else .list (vs.set (n.toNat - 1) value)
  | none, some s, some n, some v =>
      if n < 1 ∨ s.length < n then .err .eRange
      else match v with
        | [b] => .str (s.set (n.toNat - 1) b)
        | _ => .err .eInvarg
  | _, _, _, _ => .err .eType

/-- EOP_RANGESET. -/
def rangesetV (base «from» «to» value : Var) : Var :=
  match asInt «from», asInt «to» with
  | some i, some j =>
      match asList base, asList value, asStr base, asStr value with
      | some vs, some ws, _, _ =>
          if (vs.length : Int) + 1 < i ∨ j < 0 then .err .eRange
          else .list (vs.take (i - 1).toNat ++ (ws ++ vs.drop j.toNat))
      | _, _, some t, some u =>
          if (t.length : Int) + 1 < i ∨ j < 0 then .err .eRange
          else .str (t.take (i - 1).toNat ++ (u ++ t.drop j.toNat))
      | _, _, _, _ => .err .eType
  | _, _ => .err .eType

/-- OP_RANGE_REF. -/
def rangeRefV (base «from» «to» : Var) : Var :=
  match asInt «from», asInt «to» with
  | some i, some j =>
      let bad := fun len : Nat =>
        decide (i ≤ j) && (decide (i ≤ 0) || decide ((len : Int) < i) || decide (j ≤ 0)
          || decide ((len : Int) < j))
      match asList base, asStr base with
      | some vs, _ =>
          if bad vs.length then .err .eRange
          else if i.toNat > j.toNat then .list []
          else .list ((vs.take j.toNat).drop (i.toNat - 1))
      | _, some t =>
          if bad t.length then .err .eRange
          else .str (if i.toNat > j.toNat then [] else (t.take j.toNat).drop (i.toNat - 1))
      | _, _ => .err .eType
  | _, _ => .err .eType

/-- The built-in functions on the list of the elements `vs`, the second argument
    and the number that is the third one. -/
def applyBuiltinV (f : Builtin) (vs : List Var) (value : Var) (pos : Option Int) : Option Var :=
  match f, pos with
  | .setadd, _ => some (setaddV vs value)
  | .setremove, _ => some (setremoveV vs value)
  | .listappend, none => some (insertV vs value (vs.length + 1))
  | .listappend, some n => some (listinsertV vs value (nextInt n))
  | .listinsert, none => some (listinsertV vs value 1)
  | .listinsert, some n => some (listinsertV vs value n)
  | .listdelete, _ =>
      (asInt value).map fun n : Int =>
        if n ≤ 0 ∨ vs.length < n then .err .eRange else .list (vs.eraseIdx (n.toNat - 1))
  | .listset, some n =>
      some (if n ≤ 0 ∨ vs.length < n then .err .eRange else .list (vs.set (n.toNat - 1) value))
  | .listset, none => none

/-- A call of a built-in function on lists. -/
def callBuiltinV (f : Builtin) (arglist : Var) : Option Var := do
  let args ← asList arglist
  let list ← args[0]?
  let value ← args[1]?
  let vs ← asList list
  applyBuiltinV f vs value ((args[2]?).bind asInt)

/-- Take the value out of a holder. -/
def takeV (i : Nat) (p : List Var) : Option (Var × List Var) :=
  if 2 ≤ i then (p[i]?).map fun v => (v, p.set i .none) else none

/-- Take the values out of several holders. -/
def takeAllV : List Nat → List Var → Option (List Var × List Var)
  | [], p => some ([], p)
  | i :: is, p => do
      let (v, p) ← takeV i p
      let (vs, p) ← takeAllV is p
      some (v :: vs, p)

/-- Store into a holder. -/
def storeV (i : Nat) (v : Var) (p : List Var) : Option (List Var) :=
  if 2 ≤ i then (p[i]?).map fun _ => p.set i v else none

/-- The first `#old` becomes `#new`. -/
def renumberV (old new : Objid) : List Var → List Var
  | [] => []
  | v :: vs => if v = .obj old then .obj new :: vs else v :: renumberV old new vs

/-- One operation on immutable values. -/
def stepV (op : Op) (p : List Var) : Option (List Var) :=
  match op with
  | .ref src dst => do
      let v ← p[src]?
      storeV dst v p
  | .move src dst => do
      let (v, p) ← takeV src p
      storeV dst v p
  | .free i => storeV i .none p
  | .imm a dst => storeV dst a.val p
  | .newStr t dst => storeV dst (.str t) p
  | .newList srcs dst => do
      let (vs, p) ← takeAllV srcs p
      storeV dst (.list vs) p
  | .elem src i dst => do
      let list ← p[src]?
      let vs ← asList list
      let v ← vs[i]?
      storeV dst v p
  | .listAddTail list tail => do
      let (t, p) ← takeV tail p
      let (l, p) ← takeV list p
      storeV list (addTailV l t) p
  | .listAppend list tail => do
      let (t, p) ← takeV tail p
      let (l, p) ← takeV list p
      storeV list (appendV l t) p
  | .indexset list index value => do
      let (v, p) ← takeV value p
      let (i, p) ← takeV index p
      let (l, p) ← takeV list p
      storeV list (indexsetV l i v) p
  | .rangeset base «from» «to» value => do
      let (v, p) ← takeV value p
      let (j, p) ← takeV «to» p
      let (i, p) ← takeV «from» p
      let (b, p) ← takeV base p
      storeV base (rangesetV b i j v) p
  | .rangeRef base «from» «to» => do
      let (j, p) ← takeV «to» p
      let (i, p) ← takeV «from» p
      let (b, p) ← takeV base p
      storeV base (rangeRefV b i j) p
  | .builtin f arglist => do
      let (a, p) ← takeV arglist p
      let r ← callBuiltinV f a
      storeV arglist r p
  | .players dst => do
      let v ← p[1]?
      storeV dst v p
  | .setUser oid => do
      let list ← p[1]?
      let vs ← asList list
      some (p.set 1 (setaddV vs (.obj oid)))
  | .clearUser oid => do
      let list ← p[1]?
      let vs ← asList list
      some (p.set 1 (setremoveV vs (.obj oid)))
  | .renumber old new => do
      let list ← p[1]?
      let vs ← asList list
      some (p.set 1 (.list (renumberV old new vs)))

end Waverous.Lists
