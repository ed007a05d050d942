import Waverous.FilePaths
import Waverous.Lib.Runs

/-! # Handles of files — `extension-fileio.c`

    The open files are in a table, whose slots are the handles.  The search for a free slot goes on
    where the last one has stopped; at the end of the table it gives up, although there is a test
    that is meant to take it back to the beginning. -/

namespace Waverous

open Runs

/-- `FILE_IO_MAX_FILES`. -/
def fileIoMaxFiles : Nat := 256

/-- `file_type`. -/
inductive FileType where
  | text | binary
  deriving DecidableEq, Repr

/-- `file_mode`. -/
structure FileMode where
  read : Bool
  write : Bool
  flush : Bool
  deriving DecidableEq, Repr

/-- `file_handle`.  A stream of `stdio` is known by a number; `none` is the null pointer. -/
structure FileHandle where
  valid : Bool
  name : Str
  type : Option FileType
  mode : FileMode
  file : Option Nat
  deriving DecidableEq, Repr

/-- `file_table`, and `current_handle` in `file_allocate_next_handle`. -/
structure FileTable where
  handles : Vector FileHandle fileIoMaxFiles
  currentHandle : Nat

/-- What a built-in function returns. -/
inductive FilePackage where
  | var (v : Var)
  | noVar
  | error (e : Error)
  | raise (code : Var) (msg : Str) (value : Var)

namespace FileTable

/-- The table when the server starts. -/
def init : FileTable where
  handles := Vector.replicate _ ⟨false, [], none, ⟨false, false, false⟩, none⟩
  currentHandle := 0

variable (t : FileTable)

/-- `file_table[i].valid`. -/
def validAt (i : Nat) : Bool :=
  match t.handles[i]? with
  | some h => h.valid
  | none => false

def setAt (i : Nat) (h : FileHandle) : FileTable := { t with handles := t.handles.setIfInBounds i h }

end FileTable

/-- A handle that is valid. -/
def fileHandle (t : FileTable) (fhandle : Int32) : Option FileHandle :=
  if fhandle.toInt < 0 ∨ (fileIoMaxFiles : Int) ≤ fhandle.toInt then none
  else t.handles[fhandle.toInt.toNat]?.filter (·.valid)

/-- `file_handle_file_safe`. -/
def fileHandleFileSafe (t : FileTable) (fhandle : Int32) : Option Nat :=
  (fileHandle t fhandle).bind (·.file)

/-- `file_handle_destroy`. -/
def fileHandleDestroy (i : Nat) (t : FileTable) : FileTable :=
  match t.handles[i]? with
  | some h => t.setAt i { h with file := none, valid := false }
  | none => t

/-- `file_handle_set_file`. -/
def fileHandleSetFile (i : Nat) (f : Nat) (t : FileTable) : FileTable :=
  match t.handles[i]? with
  | some h => t.setAt i { h with file := some f }
  | none => t

/-! ## The allocator -/

/-- The loop over `current_handle`; `none` if it goes round more often than `fuel` allows. -/
def allocateLoop (valid : Nat → Bool) (wrapped : Nat) : Nat → Nat → Option Nat
  | 0, _ => none
  | fuel + 1, current =>
      if current < fileIoMaxFiles then
        if valid current = false then some current
        else
          let current := current + 1
          let current := if fileIoMaxFiles < current then 0 else current
          let current := if current = wrapped then fileIoMaxFiles else current
          allocateLoop valid wrapped fuel current
      else some current

/-- `file_allocate_next_handle`; the inner `none` is -1. -/
def fileAllocateNextHandle (t : FileTable) : Option (Option Nat × FileTable) := do
  let wrapped := if fileIoMaxFiles < t.currentHandle then 0 else t.currentHandle
  let current ← allocateLoop t.validAt wrapped (fileIoMaxFiles + 1) wrapped
  if current = fileIoMaxFiles then some (none, { t with currentHandle := 0 })
  else some (some current, { t with currentHandle := current })

/-- `file_handle_new`. -/
def fileHandleNew (name : Str) (type : FileType) (mode : FileMode) (t : FileTable) :
    Option (Option Nat × FileTable) := do
  let (handle, t) ← fileAllocateNextHandle t
  match handle with
  | none => some (none, t)
  | some i =>
      let file := (t.handles[i]?).bind (·.file)
      some (some i, t.setAt i ⟨true, name, some type, mode, file⟩)

/-! ## Opening and closing -/

/-- `file_modestr_to_mode`: the mode string of `stdio`, the type and the mode. -/
def fileModestrToMode (s : Str) : Option (Str × FileType × FileMode) :=
  match s with
  | [c0, c1, c2, c3] => do
      let (read, write) ←
        if c0 = 114 then some (true, false)
        else if c0 = 119 ∨ c0 = 97 then some (false, true)
        else none
      let plus ← if c1 = 43 then some true else if c1 = 45 then some false else none
      let type ← if c2 = 116 then some .text else if c2 = 98 then some .binary else none
      let flush ← if c3 = 102 then some true else if c3 = 110 then some false else none
      let buffer := c0 :: (if plus then [43] else []) ++ if type = .binary then [98] else []
      some (buffer, type, ⟨read || plus, write || plus, flush⟩)
  | _ => none

/-- `file_raise_errno`, with the text for `errno` if it is not 0. -/
def fileRaiseErrno (value : Str) (errno : Option Str) : FilePackage :=
  match errno with
  | some strerr => .raise (.str (Str.ofString "E_FILE")) strerr (.str value)
  | none => .raise (.str (Str.ofString "E_FILE")) (Str.ofString "EOF") (.str (Str.ofString "EOF"))

/-- `make_raise_pack(E_INVARG, ..)`. -/
def raiseInvarg (msg : String) (value : Var) : FilePackage :=
  .raise (.err .eInvarg) (Str.ofString msg) value

/-- `bf_file_open`, with what `fopen` gives. -/
def bfFileOpen (wizard : Bool) (filename mode : Str) (fopen : Except (Option Str) Nat)
    (t : FileTable) : Option (FilePackage × FileTable) :=
  if wizard = false then some (.error .ePerm, t)
  else
    match fileResolvePath filename with
    | none => some (raiseInvarg "Invalid pathname" (.str filename), t)
    | some _ =>
        match fileModestrToMode mode with
        | none => some (raiseInvarg "Invalid mode string" (.str mode), t)
        | some (_, type, rmode) => do
            let (fhandle, t) ← fileHandleNew filename type rmode t
            match fhandle with
            | none => some (.raise (.err .eQuota) (Str.ofString "Too many files open") zero, t)
            | some i =>
                match fopen with
                | .error errno =>
                    some (fileRaiseErrno (Str.ofString "file_open") errno, fileHandleDestroy i t)
                | .ok f => some (.var (.int (Int32.ofNat i)), fileHandleSetFile i f t)

/-- `bf_file_close`. -/
def bfFileClose (wizard : Bool) (fhandle : Int32) (t : FileTable) : FilePackage × FileTable :=
  if wizard = false then (.error .ePerm, t)
  else
    match fileHandleFileSafe t fhandle with
    | none => (raiseInvarg "Invalid FHANDLE" (.int fhandle), t)
    | some _ => (.noVar, fileHandleDestroy fhandle.toInt.toNat t)

/-- A call of `file_open` or `file_close`. -/
inductive FileCall where
  | «open» (wizard : Bool) (filename mode : Str) (fopen : Except (Option Str) Nat)
  | close (wizard : Bool) (fhandle : Int32)

/-- The table after a call. -/
def FileCall.run : FileCall → FileTable → Option FileTable
  | .open wizard filename mode fopen, t => (bfFileOpen wizard filename mode fopen t).map Prod.snd
  | .close wizard fhandle, t => some (bfFileClose wizard fhandle t).2

/-- A call that comes to the allocator. -/
def FileCall.Allocates : FileCall → Prop
  | .open wizard filename mode _ =>
      wizard = true ∧ (fileResolvePath filename).isSome ∧ (fileModestrToMode mode).isSome
  | .close _ _ => False

namespace FileTable

/-- The allocator returns, a slot that is not in use or, if there is none, -1. -/
def AllocatesRight (t : FileTable) : Prop :=
  ∃ handle t', fileAllocateNextHandle t = some (handle, t') ∧
    match handle with
    | some i => i < fileIoMaxFiles ∧ t.validAt i = false
    | none => ∀ i < fileIoMaxFiles, t.validAt i = true

/-- There is a free slot where the search begins or behind it, or there is none at all. -/
def FindsRoom (t : FileTable) : Prop :=
  (∃ i, t.currentHandle ≤ i ∧ i < fileIoMaxFiles ∧ t.validAt i = false) ∨
    ∀ i < fileIoMaxFiles, t.validAt i = true

/-- Where the search may begin. -/
def Placed (t : FileTable) : Prop := t.currentHandle < fileIoMaxFiles

end FileTable

/-! ## What the allocator finds -/

/-- The loop never comes to `wrapped` again: it stops at the first free slot or at the end. -/
theorem allocateLoop_spec {valid : Nat → Bool} {wrapped : Nat} : ∀ {fuel current : Nat},
    wrapped ≤ current → current ≤ fileIoMaxFiles → fileIoMaxFiles - current < fuel →
    ∃ last, allocateLoop valid wrapped fuel current = some last ∧ current ≤ last ∧
      last ≤ fileIoMaxFiles ∧ (∀ i, current ≤ i → i < last → valid i = true) ∧
      (last < fileIoMaxFiles → valid last = false)
  | 0, _, _, _, hfuel => absurd hfuel (Nat.not_lt_zero _)
  | fuel + 1, current, hwrapped, hcurrent, hfuel => by
      by_cases hend : current < fileIoMaxFiles
      · by_cases hfree : valid current = false
        · refine ⟨current, ?_, Nat.le_refl _, hcurrent, fun i hi hlt => by omega, fun _ => hfree⟩
          rw [allocateLoop, if_pos hend, if_pos hfree]
        · have hnext : wrapped ≤ current + 1 := Nat.le_succ_of_le hwrapped
          obtain ⟨last, hloop, hle, hlast, hused, hat⟩ :=
            allocateLoop_spec hnext hend (show fileIoMaxFiles - (current + 1) < fuel by omega)
          refine ⟨last, ?_, by omega, hlast, fun i hi hlt => ?_, hat⟩
          · rw [allocateLoop, if_pos hend, if_neg hfree]
            simp only [if_neg (show ¬ fileIoMaxFiles < current + 1 by omega),
              if_neg (show ¬ current + 1 = wrapped by omega)]
            exact hloop
          · by_cases hi' : i = current
            · rw [hi']
              exact Bool.not_eq_false _ ▸ hfree
            · exact hused i (by omega) hlt
      · refine ⟨current, ?_, Nat.le_refl _, hcurrent, fun i hi hlt => by omega, fun h => absurd h hend⟩
        rw [allocateLoop, if_neg hend]

namespace FileTable

variable {t t' : FileTable}

/-- What the allocator returns where the search may begin. -/
theorem allocate_spec (h : t.Placed) : ∃ handle t', fileAllocateNextHandle t = some (handle, t') ∧
    t' = { t with currentHandle := handle.getD 0 } ∧
    match handle with
    | some i => i < fileIoMaxFiles ∧ t.validAt i = false ∧ t.currentHandle ≤ i ∧
        ∀ j, t.currentHandle ≤ j → j < i → t.validAt j = true
    | none => ∀ i, t.currentHandle ≤ i → i < fileIoMaxFiles → t.validAt i = true := by
  have hwrapped : (if fileIoMaxFiles < t.currentHandle then 0 else t.currentHandle) =
      t.currentHandle := if_neg (Nat.not_lt_of_lt h)
  obtain ⟨last, hloop, hle, hlast, hused, hat⟩ : ∃ last, allocateLoop t.validAt t.currentHandle
      (fileIoMaxFiles + 1) t.currentHandle = some last ∧ _ :=
    allocateLoop_spec (Nat.le_refl t.currentHandle) (Nat.le_of_lt h) (by omega)
  unfold fileAllocateNextHandle
  simp only [hwrapped, hloop, Option.bind_eq_bind, Option.bind_some]
  by_cases hend : last = fileIoMaxFiles
  · rw [if_pos hend]
    exact ⟨none, _, rfl, rfl, fun i hi hlt => hused i hi (by omega)⟩
  · rw [if_neg hend]
    have hlt : last < fileIoMaxFiles := by omega
    exact ⟨some last, _, rfl, rfl, hlt, hat hlt, hle, hused⟩

theorem allocatesRight_iff (h : t.Placed) : t.AllocatesRight ↔ t.FindsRoom := by
  obtain ⟨handle, t', hrun, -, hspec⟩ := allocate_spec h
  constructor
  · rintro ⟨handle', t'', hrun', hright⟩
    rw [hrun] at hrun'
    cases hrun'
    cases handle with
    | none => exact .inr hright
    | some i => exact .inl ⟨i, hspec.2.2.1, hright⟩
  · intro hroom
    refine ⟨handle, t', hrun, ?_⟩
    cases handle with
    | some i => exact ⟨hspec.1, hspec.2.1⟩
    | none =>
        rcases hroom with ⟨i, hi, hlt, hfree⟩ | hall
        · rw [hspec i hi hlt] at hfree
          exact nomatch hfree
        · exact hall

end FileTable

/-! ## Runs -/

section

variable {t t' : FileTable}

theorem fileHandleDestroy_placed {i : Nat} (h : t.Placed) : (fileHandleDestroy i t).Placed := by
  unfold fileHandleDestroy
  split
  · exact h
  · exact h

theorem fileHandleSetFile_placed {i f : Nat} (h : t.Placed) : (fileHandleSetFile i f t).Placed := by
  unfold fileHandleSetFile
  split
  · exact h
  · exact h

theorem fileHandleNew_placed {name : Str} {type : FileType} {mode : FileMode} (h : t.Placed) :
    ∃ handle t', fileHandleNew name type mode t = some (handle, t') ∧ t'.Placed := by
  obtain ⟨handle, t', hrun, rfl, hspec⟩ := FileTable.allocate_spec h
  unfold fileHandleNew
  rw [hrun]
  cases handle with
  | none => exact ⟨none, _, rfl, Nat.succ_pos 255⟩
  | some i => exact ⟨some i, _, rfl, hspec.1⟩

theorem bfFileOpen_placed (wizard : Bool) (filename mode : Str) (fopen : Except (Option Str) Nat)
    (h : t.Placed) : ∃ r t', bfFileOpen wizard filename mode fopen t = some (r, t') ∧ t'.Placed := by
  unfold bfFileOpen
  split
  · exact ⟨_, t, rfl, h⟩
  · split
    · exact ⟨_, t, rfl, h⟩
    · split
      · exact ⟨_, t, rfl, h⟩
      · next type rmode _ =>
        obtain ⟨handle, t', hnew, hplaced⟩ : ∃ handle t',
          fileHandleNew filename type rmode t = some (handle, t') ∧ t'.Placed := fileHandleNew_placed h
        simp only [hnew, Option.bind_eq_bind, Option.bind_some]
        cases handle with
        | none => exact ⟨_, t', rfl, hplaced⟩
        | some i =>
            cases fopen with
            | error errno => exact ⟨_, _, rfl, fileHandleDestroy_placed hplaced⟩
            | ok f => exact ⟨_, _, rfl, fileHandleSetFile_placed hplaced⟩

/-- Each call returns, and the search may go on where it has stopped. -/
theorem FileCall.run_placed (call : FileCall) (h : t.Placed) :
    ∃ t', call.run t = some t' ∧ t'.Placed := by
  cases call with
  | close wizard fhandle =>
      refine ⟨_, rfl, ?_⟩
      unfold bfFileClose
      split
      · exact h
      · split
        · exact h
        · exact fileHandleDestroy_placed h
  | «open» wizard filename mode fopen =>
      obtain ⟨r, t', hrun, hplaced⟩ := bfFileOpen_placed wizard filename mode fopen h
      exact ⟨t', congrArg (Option.map Prod.snd) hrun, hplaced⟩

/-- The calls of `file_open` and `file_close` all return, and each allocation is right exactly if
    each finds room where the search begins or behind it. -/
theorem allocations_right_iff (calls : List FileCall) : ∃ t,
    Run (ofPart FileCall.run) .init calls t ∧
    (Run (guarded (fun t call => call.Allocates → t.AllocatesRight) (ofPart FileCall.run))
        .init calls t ↔
      Run (guarded (fun t call => call.Allocates → t.FindsRoom) (ofPart FileCall.run))
        .init calls t) := by
  have hstep : ∀ (s : FileTable) call s', s.Placed → ofPart FileCall.run s call s' → s'.Placed := by
    intro s call s' hs hrun
    obtain ⟨t', hrun', hplaced⟩ := call.run_placed hs
    obtain rfl : t' = s' := Option.some.inj (hrun'.symm.trans hrun)
    exact hplaced
  have hinit : FileTable.init.Placed := Nat.succ_pos 255
  obtain ⟨t, hrun⟩ := exists_run hstep (fun s call hs => by
    obtain ⟨t', hrun', -⟩ := call.run_placed hs
    exact ⟨t', hrun'⟩) calls hinit
  refine ⟨t, hrun, Run.guarded_iff hstep (fun s call hs => ?_) hinit⟩
  rw [FileTable.allocatesRight_iff hs]

end

/-! ## A full table -/

section

variable {t t' : FileTable} {i j f n : Nat}

theorem FileTable.handles_setAt (hi : i < fileIoMaxFiles) (h : FileHandle) :
    (t.setAt i h).handles[j]? = if j = i then some h else t.handles[j]? := by
  unfold FileTable.setAt
  by_cases hj : j = i
  · subst hj
    rw [if_pos rfl, Vector.getElem?_setIfInBounds_self_of_lt hi]
  · rw [if_neg hj, Vector.getElem?_setIfInBounds_ne (Ne.symm hj)]

theorem fileHandleSetFile_eq {h : FileHandle} (hh : t.handles[i]? = some h) :
    fileHandleSetFile i f t = t.setAt i { h with file := some f } := by
  unfold fileHandleSetFile
  rw [hh]

theorem fileHandleNew_some {name : Str} {type : FileType} {mode : FileMode}
    (hrun : fileAllocateNextHandle t = some (some i, t')) : fileHandleNew name type mode t =
      some (some i, t'.setAt i ⟨true, name, some type, mode, (t'.handles[i]?).bind (·.file)⟩) := by
  unfold fileHandleNew
  rw [hrun]
  rfl

/-- `file_open("a", "r-tn")`, where there is such a file. -/
def openA : FileCall := .open true (Str.ofString "a") (Str.ofString "r-tn") (.ok 0)

/-- The handle that it makes. -/
def handleA : FileHandle := ⟨true, Str.ofString "a", some .text, ⟨true, false, false⟩, some 0⟩

theorem openA_run (hrun : fileAllocateNextHandle t = some (some i, t')) (hi : i < fileIoMaxFiles) :
    ∃ t'', openA.run t = some t'' ∧ t''.currentHandle = t'.currentHandle ∧
      ∀ j, t''.handles[j]? = if j = i then some handleA else t'.handles[j]? := by
  have hnew : fileHandleNew (Str.ofString "a") .text ⟨true, false, false⟩ t = _ :=
    fileHandleNew_some hrun
  generalize hh : (⟨true, _, _, _, _⟩ : FileHandle) = h at hnew
  have hget : (t'.setAt i h).handles[i]? = some h := by
    rw [FileTable.handles_setAt hi, if_pos rfl]
  have hset : fileHandleSetFile i 0 (t'.setAt i h) = (t'.setAt i h).setAt i handleA := by
    rw [fileHandleSetFile_eq hget, ← hh]
    rfl
  refine ⟨(t'.setAt i h).setAt i handleA, ?_, rfl, fun j => ?_⟩
  · show (Option.bind (fileHandleNew (Str.ofString "a") .text ⟨true, false, false⟩ t) _).map _ = _
    rw [hnew, ← hset]
    rfl
  · rw [FileTable.handles_setAt hi]
    split
    · rfl
    next hne => rw [FileTable.handles_setAt hi, if_neg hne]

/-- The slots below `n` are in use, and the search goes on at the last one of them. -/
structure FileTable.Filled (n : Nat) (t : FileTable) : Prop where
  used : ∀ i < n, t.handles[i]? = some handleA
  free : ∀ i, n ≤ i → i < fileIoMaxFiles → t.validAt i = false
  current : t.currentHandle = n - 1

theorem FileTable.Filled.validAt (h : t.Filled n) (hi : i < n) : t.validAt i = true := by
  unfold FileTable.validAt
  rw [h.used i hi]
  rfl

/-- A file that is opened takes the first slot that is free. -/
theorem openA_filled (hn : n < fileIoMaxFiles) (h : t.Filled n) :
    ∃ t', openA.run t = some t' ∧ t'.Filled (n + 1) := by
  have hcurrent := h.current
  have hfree := h.free n (Nat.le_refl n) hn
  obtain ⟨handle, t', hrun, rfl, hspec⟩ :=
    FileTable.allocate_spec (show t.currentHandle < fileIoMaxFiles by omega)
  cases handle with
  | none =>
      rw [hspec n (by omega) hn] at hfree
      exact nomatch hfree
  | some i =>
      obtain ⟨hi, hfreeI, -, hused⟩ := hspec
      have hle : n ≤ i := by
        by_contra hlt
        rw [h.validAt (Nat.lt_of_not_le hlt)] at hfreeI
        exact nomatch hfreeI
      obtain rfl : i = n := by
        by_contra hne
        rw [hused n (by omega) (by omega)] at hfree
        exact nomatch hfree
      obtain ⟨t'', hopen, hcurrent', hhandles⟩ := openA_run hrun hi
      refine ⟨t'', hopen, fun j hj => ?_, fun j hj hlt => ?_, hcurrent'⟩
      · rw [hhandles]
        split
        next => rfl
        next hne => exact h.used j (by omega)
      · unfold FileTable.validAt
        rw [hhandles, if_neg (by omega)]
        exact h.free j (by omega) hlt

theorem opens_filled : ∀ n ≤ fileIoMaxFiles, ∃ t,
    Run (ofPart FileCall.run) .init (List.replicate n openA) t ∧ t.Filled n
  | 0, _ => by
      refine ⟨_, .nil _, nofun, fun i _ hi => ?_, rfl⟩
      unfold FileTable.validAt FileTable.init
      rw [Vector.getElem?_replicate, if_pos hi]
  | n + 1, hn => by
      obtain ⟨t, hrun, hfilled⟩ := opens_filled n (Nat.le_of_succ_le hn)
      obtain ⟨t', hopen, hfilled'⟩ := openA_filled hn hfilled
      refine ⟨t', ?_, hfilled'⟩
      rw [List.replicate_succ']
      exact hrun.append (.cons hopen (.nil t'))

end

/-- All slots have been taken and the first one has been freed: the next call finds no slot. -/
theorem allocation_fails : ∃ calls t, Run (ofPart FileCall.run) .init calls t ∧
    openA.Allocates ∧ ¬ t.AllocatesRight := by
  obtain ⟨t, hrun, hfilled⟩ := opens_filled fileIoMaxFiles (Nat.le_refl _)
  have hfirst := hfilled.used 0 (Nat.succ_pos 255)
  have hclose : (FileCall.close true 0).run t =
      some (t.setAt 0 { handleA with file := none, valid := false }) := by
    show some (bfFileClose true 0 t).2 = _
    have hhandle : fileHandle t 0 = some handleA := by
      show t.handles[0]?.filter _ = _
      rw [hfirst]
      rfl
    unfold bfFileClose fileHandleFileSafe
    rw [hhandle]
    show some (fileHandleDestroy 0 t) = _
    rw [fileHandleDestroy, hfirst]
  refine ⟨_, _, hrun.append (.cons hclose (.nil _)), ⟨rfl, rfl, rfl⟩, ?_⟩
  generalize htable : t.setAt 0 _ = t'
  have hcurrent : t'.currentHandle = 255 := by
    rw [← htable]
    exact hfilled.current
  have hfree : t'.validAt 0 = false := by
    rw [← htable, FileTable.validAt, FileTable.handles_setAt (Nat.succ_pos 255), if_pos rfl]
  have hlast : t'.validAt 255 = true := by
    rw [← htable, FileTable.validAt, FileTable.handles_setAt (Nat.succ_pos 255), if_neg (by decide)]
    exact hfilled.validAt (Nat.lt_succ_self 255)
  have hplaced : t'.Placed := by
    rw [FileTable.Placed, hcurrent]
    exact Nat.lt_succ_self 255
  rw [FileTable.allocatesRight_iff hplaced]
  rintro (⟨i, hi, hlt, hfreeI⟩ | hall)
  · obtain rfl : i = 255 := by
      rw [hcurrent] at hi
      have hlt' : i < 256 := hlt
      omega
    rw [hlast] at hfreeI
    exact nomatch hfreeI
  · rw [hall 0 (Nat.succ_pos 255)] at hfree
    exact nomatch hfree

end Waverous
