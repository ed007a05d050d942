import Mathlib.Data.List.TakeWhile
import Mathlib.Data.Nat.Find
import Waverous.Binary
import Waverous.FileHandles
import Waverous.Words

/-! # Reading from files — `extension-fileio.c`

    `file_read` reads with `fread` until it has as many bytes as it was asked for, or there are no
    more.  Each time it asks for the same number of bytes, up to the size of its buffer, and not for
    those that are missing: so it takes too many of them when a read does not come to an end just
    where it should. -/

namespace Waverous

open Blocks

/-- `FILE_IO_BUFFER_LENGTH`. -/
def fileIoBufferLength : Nat := 4096

/-- `raw_bytes_to_clean`. -/
def rawBytesToClean (buffer : Str) : Str := buffer.filter isText

/-- `in_filter`. -/
def FileType.inFilter : FileType → Str → Str
  | .text => rawBytesToClean
  | .binary => rawBytesToBinary

/-- `stream_add_string`. -/
def streamAddString (str s : Str) : Str := str ++ s.takeWhile (· ≠ 0)

/-- An open file: its bytes, and the position in it. -/
structure OpenFile where
  content : Str
  position : Nat
  deriving DecidableEq, Repr

/-- What is behind the position. -/
def OpenFile.rest (f : OpenFile) : Str := f.content.drop f.position

/-- `fread`: what it puts into the buffer is as much as there is of `length` bytes, or less, if it
    gives `most` bytes at most. -/
def fread (most length : Nat) (f : OpenFile) : Str × OpenFile :=
  let buffer := f.rest.take (min most length)
  (buffer, { f with position := f.position + buffer.length })

/-- A length as a `size_t`. -/
def asSize (n : Int32) : Nat := (n.toInt % 2 ^ 64).toNat

/-- `read_length`. -/
def readLength (recordLength : Int32) : Nat :=
  if fileIoBufferLength < asSize recordLength then fileIoBufferLength else asSize recordLength

/-- `len += read`. -/
def addLen (len : Int) (read : Nat) : Looping Int := some (asInt (len + read))

section

variable (inFilter : Str → Str) (recordLength : Int32) (most : Nat → Nat) (failed : FilePackage)

/-- What is behind `try_again`, at the `n`-th read; `failed` is the error if there is nothing. -/
def readLoop : Nat → Nat → OpenFile → Int → Str → Looping (FilePackage × OpenFile)
  | 0, _, _, _, _ => (none : Option _)
  | fuel + 1, n, f, len, str => do
      let (buffer, f) := fread (most n) (readLength recordLength) f
      if buffer = [] ∧ len = 0 then pure (failed, f)
      else do
        let len ← if buffer = [] then pure len else addLen len buffer.length
        if buffer ≠ [] ∧ len < recordLength.toInt then
          readLoop fuel (n + 1) f len (streamAddString str (inFilter buffer))
        else pure (.var (.str (streamAddString str (inFilter buffer))), f)

end

/-- `bf_file_read`.  The `n`-th read gives `most n` bytes at most. -/
def bfFileRead (wizard : Bool) (t : FileTable) (fhandle recordLength : Int32) (most : Nat → Nat)
    (errno : Option Str) (f : OpenFile) : Looping (FilePackage × OpenFile) :=
  if wizard = false then pure (.error .ePerm, f)
  else
    match fileHandle t fhandle with
    | none => pure (raiseInvarg "Invalid FHANDLE" (.int fhandle), f)
    | some h =>
        match h.file with
        | none => pure (raiseInvarg "Invalid FHANDLE" (.int fhandle), f)
        | some _ =>
            if h.mode.read = false then
              pure (raiseInvarg "File is open write-only" (.int fhandle), f)
            else
              match h.type with
              | none => throw .read
              | some type =>
                  readLoop type.inFilter recordLength most (fileRaiseErrno h.name errno)
                    (f.rest.length + 1) 0 f 0 []

/-- A wizard has a handle of a file with this name and type that is open for reading. -/
structure OpenToRead (wizard : Bool) (t : FileTable) (fhandle : Int32) (name : Str) (type : FileType) :
    Prop where
  wizard : wizard = true
  handle : ∃ h, fileHandle t fhandle = some h ∧ h.name = name ∧ h.type = some type ∧
    h.file.isSome ∧ h.mode.read = true

/-! ## What is read -/

/-- As many bytes are read as were asked for at most, and what is returned is the filtered form of
    them, or an error if there are none. -/
def ReadsRight (name : Str) (type : FileType) (recordLength : Int32) (errno : Option Str)
    (f : OpenFile) (run : Looping (FilePackage × OpenFile)) : Prop :=
  ∃ r consumed, run = pure (r, { f with position := f.position + consumed.length }) ∧
    consumed <+: f.rest ∧ consumed.length ≤ recordLength.toInt.toNat ∧
    r = if consumed = [] then fileRaiseErrno name errno else .var (.str (type.inFilter consumed))

/-- How many bytes `n` reads of `length` bytes give, if there are enough. -/
def readSum (most : Nat → Nat) (length n : Nat) : Nat :=
  ((List.range n).map fun m => min (most m) length).sum

/-- There are no more bytes than are asked for, or the reads give exactly as many as are asked for,
    or one gives nothing before they give more. -/
def ReadsFit (recordLength : Int32) (most : Nat → Nat) (available : Nat) : Prop :=
  let sum := readSum most (readLength recordLength)
  available ≤ recordLength.toInt.toNat ∨
    ∃ n, sum (n + 1) = recordLength.toInt.toNat ∨ most n = 0 ∧ sum n ≤ recordLength.toInt.toNat

/-! ## The reads -/

/-- How many bytes the first `n` reads give of those there are. -/
def readUpTo (most : Nat → Nat) (length available n : Nat) : Nat := min (readSum most length n) available

/-- The `n`-th read is made: those before it have given bytes, but not enough. -/
def ReadIsMade (recordLength : Int32) (upTo : Nat → Nat) (n : Nat) : Prop :=
  (∀ m < n, upTo m < upTo (m + 1)) ∧ (n = 0 ∨ upTo n < recordLength.toInt.toNat)

/-- No read that is made gives more bytes than are missing. -/
def NoReadOver (recordLength : Int32) (upTo : Nat → Nat) : Prop :=
  ∀ n, ReadIsMade recordLength upTo n → upTo (n + 1) ≤ recordLength.toInt.toNat

section

variable {most : Nat → Nat} {length available n m : Nat}

theorem readSum_succ : readSum most length (n + 1) = readSum most length n + min (most n) length := by
  simp [readSum, List.range_succ]

theorem readSum_mono (h : n ≤ m) : readSum most length n ≤ readSum most length m := by
  induction h with
  | refl => exact Nat.le_refl _
  | step _ ih =>
      rw [readSum_succ]
      omega

theorem readUpTo_succ : readUpTo most length available (n + 1) = readUpTo most length available n +
    min (min (most n) length) (available - readUpTo most length available n) := by
  rw [readUpTo, readUpTo, readSum_succ]
  omega

theorem readUpTo_le : readUpTo most length available n ≤ available := Nat.min_le_right ..

theorem readUpTo_mono (h : n ≤ m) :
    readUpTo most length available n ≤ readUpTo most length available m := by
  have hsum : readSum most length n ≤ readSum most length m := readSum_mono h
  rw [readUpTo, readUpTo]
  omega

/-- If no read gives nothing, then the reads give as much as anyone asks for. -/
theorem exists_readSum {enough : Nat} (hsome : ∀ n, readSum most length n ≤ enough → most n ≠ 0)
    (hlength : 0 < length) : ∃ n, enough ≤ readSum most length (n + 1) := by
  have hgrows : ∀ n ≤ enough, n ≤ readSum most length n := by
    intro n hn
    induction n with
    | zero => exact Nat.zero_le _
    | succ n ih =>
        have hsum := ih (by omega)
        rw [readSum_succ]
        by_cases hle : readSum most length n ≤ enough
        · have hmost := hsome n hle
          omega
        · omega
  exact ⟨enough, (hgrows enough (Nat.le_refl _)).trans (readSum_mono (Nat.le_succ enough))⟩

theorem readLength_eq_zero {recordLength : Int32} (h : readLength recordLength = 0) :
    recordLength.toInt = 0 := by
  have hrange := recordLength.le_toInt
  have hrange' := recordLength.toInt_lt
  rw [readLength, fileIoBufferLength, asSize] at h
  split at h
  · omega
  · omega

theorem noReadOver_of_fit {recordLength : Int32} (h : ReadsFit recordLength most available) :
    NoReadOver recordLength (readUpTo most (readLength recordLength) available) := by
  intro n hn
  have hmono : ∀ {i j : Nat}, i ≤ j → readSum most (readLength recordLength) i ≤
      readSum most (readLength recordLength) j := readSum_mono
  rcases h with hfew | ⟨k, hexact | ⟨hnothing, hsum⟩⟩
  · exact readUpTo_le.trans hfew
  · by_cases hle : n ≤ k
    · have hnext := hmono (show n + 1 ≤ k + 1 by omega)
      rw [readUpTo]
      omega
    · -- there are fewer than are asked for, or the read would not be made
      have hbefore := hmono (show k + 1 ≤ n by omega)
      have hmissing := hn.2.resolve_left (by omega)
      rw [readUpTo] at hmissing ⊢
      omega
  · rcases Nat.lt_trichotomy n k with hlt | rfl | hgt
    · have hnext := hmono (show n + 1 ≤ k from hlt)
      rw [readUpTo]
      omega
    · rw [readUpTo, readSum_succ]
      omega
    · -- the read that gives nothing is the last one
      have hmore := hn.1 k hgt
      rw [readUpTo_succ] at hmore
      omega

theorem fit_of_noReadOver {recordLength : Int32}
    (h : NoReadOver recordLength (readUpTo most (readLength recordLength) available)) :
    ReadsFit recordLength most available := by
  by_cases hfew : available ≤ recordLength.toInt.toNat
  · exact .inl hfew
  refine .inr ?_
  by_contra hnone
  have hexact : ∀ n, readSum most (readLength recordLength) (n + 1) ≠ recordLength.toInt.toNat := by
    intro n hn
    exact hnone ⟨n, .inl hn⟩
  have hsome : ∀ n, readSum most (readLength recordLength) n ≤ recordLength.toInt.toNat →
      most n ≠ 0 := by
    intro n hle hn
    exact hnone ⟨n, .inr ⟨hn, hle⟩⟩
  have hlength : 0 < readLength recordLength := by
    refine Nat.pos_of_ne_zero fun hzero => hexact 0 ?_
    rw [readSum_succ, hzero, readLength_eq_zero hzero]
    simp [readSum]
  have henough := exists_readSum hsome hlength
  -- the first read after which there is enough
  let n := Nat.find henough
  have hn : recordLength.toInt.toNat ≤ readSum most (readLength recordLength) (n + 1) :=
    Nat.find_spec henough
  have hbefore : ∀ m < n, readSum most (readLength recordLength) (m + 1) < recordLength.toInt.toNat := by
    intro m hm
    exact Nat.lt_of_not_le (Nat.find_min henough hm)
  have hmade : ReadIsMade recordLength (readUpTo most (readLength recordLength) available) n := by
    constructor
    · intro m hm
      have hless := hbefore m hm
      have hmost := hsome m (by rw [readSum_succ] at hless; omega)
      rw [readUpTo, readUpTo]
      rw [readSum_succ] at hless ⊢
      omega
    · rcases Nat.eq_zero_or_pos n with hzero | hpos
      · exact .inl hzero
      · have hless := hbefore (n - 1) (by omega)
        rw [Nat.sub_add_cancel hpos] at hless
        rw [readUpTo]
        omega
  have hread := h n hmade
  have hmore := hexact n
  rw [readUpTo] at hread
  omega

theorem readsFit_iff {recordLength : Int32} : ReadsFit recordLength most available ↔
    NoReadOver recordLength (readUpTo most (readLength recordLength) available) :=
  ⟨noReadOver_of_fit, fit_of_noReadOver⟩

/-- The file when some bytes have been read. -/
def OpenFile.after (f : OpenFile) (read : Nat) : OpenFile := { f with position := f.position + read }

/-- What the next read gives. -/
theorem fread_upTo (most : Nat → Nat) (length : Nat) (f : OpenFile) (n : Nat) :
    let upTo := readUpTo most length f.rest.length
    ∃ buffer, fread (most n) length (f.after (upTo n)) = (buffer, f.after (upTo (n + 1))) ∧
      f.rest.take (upTo n) ++ buffer = f.rest.take (upTo (n + 1)) ∧
      upTo n + buffer.length = upTo (n + 1) := by
  intro upTo
  have hrest : (f.after (upTo n)).rest = f.rest.drop (upTo n) := List.drop_drop.symm
  have hnext : upTo (n + 1) = upTo n + min (min (most n) length) (f.rest.length - upTo n) :=
    readUpTo_succ
  have hlen : ((f.after (upTo n)).rest.take (min (most n) length)).length = upTo (n + 1) - upTo n := by
    rw [List.length_take, hrest, List.length_drop, hnext]
    omega
  refine ⟨(f.after (upTo n)).rest.take (min (most n) length), ?_, ?_, by omega⟩
  · have hposition : f.position + upTo n + (upTo (n + 1) - upTo n) = f.position + upTo (n + 1) := by
      omega
    refine Prod.ext rfl ?_
    show OpenFile.mk _ (f.position + upTo n + _) = OpenFile.mk _ (f.position + upTo (n + 1))
    rw [hlen, hposition]
    rfl
  · rw [hrest, hnext, List.take_add]
    congr 1
    rw [← List.length_drop]
    exact List.take_eq_take_min

end

/-! ## Filtering -/

theorem inFilter_append (type : FileType) (a b : Str) :
    type.inFilter (a ++ b) = type.inFilter a ++ type.inFilter b := by
  cases type with
  | text => exact List.filter_append ..
  | binary => exact List.flatMap_append

theorem inFilter_nil (type : FileType) : type.inFilter [] = [] := by
  cases type with
  | text => rfl
  | binary => rfl

theorem inFilter_noNul (type : FileType) (a : Str) : ∀ c ∈ type.inFilter a, c ≠ 0 := by
  intro c hc
  cases type with
  | text =>
      rintro rfl
      exact absurd (List.mem_filter.mp hc).2 (by decide)
  | binary =>
      rintro rfl
      exact zero_notMem_rawBytesToBinary a hc

theorem streamAddString_inFilter (type : FileType) (a b : Str) :
    streamAddString (type.inFilter a) (type.inFilter b) = type.inFilter (a ++ b) := by
  rw [streamAddString, inFilter_append, List.takeWhile_eq_self_iff.mpr]
  intro c hc
  exact decide_eq_true (inFilter_noNul type b c hc)

/-! ## The loop -/

section

variable {inFilter : Str → Str} {recordLength : Int32} {most : Nat → Nat} {failed : FilePackage}
  {fuel n : Nat} {f f' : OpenFile} {len : Int} {str buffer : Str}

/-- Nothing has been read at all. -/
theorem readLoop_nothing (hread : fread (most n) (readLength recordLength) f = ([], f')) :
    readLoop inFilter recordLength most failed (fuel + 1) n f 0 str = pure (failed, f') := by
  rw [readLoop, hread]
  exact if_pos ⟨rfl, rfl⟩

/-- There is no more. -/
theorem readLoop_end (hread : fread (most n) (readLength recordLength) f = ([], f'))
    (hlen : len ≠ 0) :
    readLoop inFilter recordLength most failed (fuel + 1) n f len str =
      pure (.var (.str (streamAddString str (inFilter []))), f') := by
  rw [readLoop, hread]
  refine (if_neg ?_).trans ?_
  · rintro ⟨-, h⟩
    exact hlen h
  · simp

/-- The number of the bytes that have been read is no `int`. -/
theorem readLoop_overflow (hread : fread (most n) (readLength recordLength) f = (buffer, f'))
    (hbuffer : buffer ≠ []) (hint : intMax < len + buffer.length) :
    readLoop inFilter recordLength most failed (fuel + 1) n f len str = throw .overflow := by
  have hadd : addLen len buffer.length = throw .overflow := by
    rw [addLen, asInt_error]
    · rfl
    · omega
  rw [readLoop, hread]
  refine (if_neg ?_).trans ?_
  · rintro ⟨h, -⟩
    exact hbuffer h
  · simp only [if_neg hbuffer, hadd]
    rfl

/-- Some bytes have been read: if they are not enough, then the next read is made. -/
theorem readLoop_some (hread : fread (most n) (readLength recordLength) f = (buffer, f'))
    (hbuffer : buffer ≠ []) (hint : intMin ≤ len ∧ len + buffer.length ≤ intMax) :
    readLoop inFilter recordLength most failed (fuel + 1) n f len str =
      if len + buffer.length < recordLength.toInt then
        readLoop inFilter recordLength most failed fuel (n + 1) f' (len + buffer.length)
          (streamAddString str (inFilter buffer))
      else pure (.var (.str (streamAddString str (inFilter buffer))), f') := by
  have hadd : addLen len buffer.length = pure (len + buffer.length) := by
    rw [addLen, asInt_ok]
    · rfl
    · omega
  rw [readLoop, hread]
  refine (if_neg ?_).trans ?_
  · rintro ⟨h, -⟩
    exact hbuffer h
  · simp only [hadd, pure_bind, ne_eq, hbuffer, not_false_eq_true, true_and, if_false]

end

section

variable {type : FileType} {recordLength : Int32} {most : Nat → Nat} {f : OpenFile}

/-- What the loop returns when `read` bytes have been read. -/
def loopResult (type : FileType) (failed : FilePackage) (f : OpenFile) (read : Nat) :
    Looping (FilePackage × OpenFile) :=
  pure (if read = 0 then failed else .var (.str (type.inFilter (f.rest.take read))), f.after read)

/-- The loop stops at the first read that gives nothing, or after which there is enough. -/
theorem readLoop_spec (type : FileType) (failed : FilePackage) (upTo : Nat → Nat)
    (hupTo : upTo = readUpTo most (readLength recordLength) f.rest.length) {fuel n : Nat}
    (hfuel : f.rest.length - upTo n < fuel) (hmade : ReadIsMade recordLength upTo n) :
    ∃ last, ReadIsMade recordLength upTo last ∧
      (upTo (last + 1) = upTo last ∨ recordLength.toInt.toNat ≤ upTo (last + 1)) ∧
      (readLoop type.inFilter recordLength most failed fuel n (f.after (upTo n)) (upTo n)
          (type.inFilter (f.rest.take (upTo n))) = loopResult type failed f (upTo (last + 1)) ∨
        recordLength.toInt.toNat < upTo (last + 1) ∧
          readLoop type.inFilter recordLength most failed fuel n (f.after (upTo n)) (upTo n)
            (type.inFilter (f.rest.take (upTo n))) = throw .overflow) := by
  induction fuel generalizing n with
  | zero => exact absurd hfuel (Nat.not_lt_zero _)
  | succ fuel ih =>
      obtain ⟨buffer, hread, hbytes, hlength⟩ := fread_upTo most (readLength recordLength) f n
      rw [← hupTo] at hread hbytes hlength
      have hle : upTo (n + 1) ≤ f.rest.length := by
        rw [hupTo]
        exact readUpTo_le
      have hstr : streamAddString (type.inFilter (f.rest.take (upTo n))) (type.inFilter buffer) =
          type.inFilter (f.rest.take (upTo (n + 1))) := by
        rw [streamAddString_inFilter, hbytes]
      have hmax : recordLength.toInt.toNat ≤ intMax := by
        have hrange := recordLength.toInt_lt
        rw [intMax]
        omega
      by_cases hbuffer : buffer = []
      · subst hbuffer
        have hsame : upTo (n + 1) = upTo n := hlength.symm
        refine ⟨n, hmade, .inl hsame, .inl ?_⟩
        rw [hsame] at hread hstr ⊢
        by_cases hzero : upTo n = 0
        · rw [hzero] at hread ⊢
          exact readLoop_nothing hread
        · rw [readLoop_end hread (by omega), hstr, loopResult, if_neg hzero]
      · have hmore : upTo n < upTo (n + 1) := by
          have hpos := List.length_pos_of_ne_nil hbuffer
          omega
        have hnext : (upTo n : Int) + buffer.length = upTo (n + 1) := by omega
        by_cases hint : (upTo (n + 1) : Int) ≤ intMax
        · rw [readLoop_some hread hbuffer ⟨by rw [intMin]; omega, by omega⟩, hstr, hnext]
          by_cases hmissing : (upTo (n + 1) : Int) < recordLength.toInt
          · rw [if_pos hmissing]
            refine ih (by omega) ⟨?_, .inr (by omega)⟩
            intro m hm
            rcases Nat.lt_succ_iff_lt_or_eq.mp hm with h | rfl
            · exact hmade.1 m h
            · exact hmore
          · rw [if_neg hmissing]
            refine ⟨n, hmade, .inr (by omega), .inl ?_⟩
            rw [loopResult, if_neg (by omega)]
        · refine ⟨n, hmade, .inr (by omega), .inr ⟨by omega, ?_⟩⟩
          exact readLoop_overflow hread hbuffer (by omega)

/-- The loop reads what it should just when the reads fit. -/
theorem readLoop_right_iff {name : Str} {errno : Option Str} :
    ReadsRight name type recordLength errno f
        (readLoop type.inFilter recordLength most (fileRaiseErrno name errno) (f.rest.length + 1) 0 f
          0 []) ↔
      ReadsFit recordLength most f.rest.length := by
  obtain ⟨upTo, hupTo⟩ : ∃ upTo, upTo = readUpTo most (readLength recordLength) f.rest.length :=
    ⟨_, rfl⟩
  have hzero : upTo 0 = 0 := by
    rw [hupTo]
    exact Nat.zero_min _
  have hmono : ∀ {n m : Nat}, n ≤ m → upTo n ≤ upTo m := by
    intro n m h
    rw [hupTo]
    exact readUpTo_mono h
  have hmade : ReadIsMade recordLength upTo 0 := ⟨nofun, .inl rfl⟩
  obtain ⟨last, hlast, hend, hrun⟩ :=
    readLoop_spec type (fileRaiseErrno name errno) upTo hupTo
      (show f.rest.length - upTo 0 < f.rest.length + 1 by omega) hmade
  have hstart : f.after 0 = f := rfl
  rw [hzero, hstart, List.take_zero, inFilter_nil] at hrun
  rw [readsFit_iff, ← hupTo]
  constructor
  · rintro ⟨r, consumed, hpure, -, hfew, -⟩ n hn
    have hread : upTo (last + 1) ≤ recordLength.toInt.toNat := by
      rcases hrun with hrun | ⟨-, hrun⟩
      · have hfile : f.after (upTo (last + 1)) = f.after consumed.length :=
          (Prod.mk.inj (Except.ok.inj (Option.some.inj (hrun.symm.trans hpure)))).2
        have hposition : f.position + upTo (last + 1) = f.position + consumed.length :=
          congrArg OpenFile.position hfile
        omega
      · cases hrun.symm.trans hpure
    by_cases hle : n ≤ last
    · exact (hmono (by omega)).trans hread
    · -- a later read is made only if the last one gave something, and not enough
      have hmore := hn.1 last (by omega)
      have hupto : upTo (last + 1) ≤ upTo n := hmono (by omega)
      rcases hn.2 with h | h
      · omega
      · omega
  · intro hfit
    have hread := hfit last hlast
    rcases hrun with hrun | ⟨hover, -⟩
    · have hle : upTo (last + 1) ≤ f.rest.length := by
        rw [hupTo]
        exact readUpTo_le
      have hlength : (f.rest.take (upTo (last + 1))).length = upTo (last + 1) :=
        List.length_take_of_le hle
      refine ⟨_, f.rest.take (upTo (last + 1)), hrun.trans ?_, List.take_prefix _ _, by omega, rfl⟩
      rw [loopResult, hlength]
      congr 2
      by_cases hnone : upTo (last + 1) = 0
      · rw [if_pos hnone, if_pos (List.eq_nil_of_length_eq_zero (hlength.trans hnone))]
      · rw [if_neg hnone, if_neg (List.ne_nil_of_length_pos (by omega))]
    · omega

end

/-- A file that is open for reading is read from by the loop. -/
theorem bfFileRead_loop {wizard : Bool} {t : FileTable} {fhandle : Int32} {name : Str}
    {type : FileType} (hopen : OpenToRead wizard t fhandle name type) (recordLength : Int32)
    (most : Nat → Nat) (errno : Option Str) (f : OpenFile) :
    bfFileRead wizard t fhandle recordLength most errno f =
      readLoop type.inFilter recordLength most (fileRaiseErrno name errno) (f.rest.length + 1) 0 f
        0 [] := by
  obtain ⟨rfl, h, hhandle, rfl, htype, hfile, hmode⟩ := hopen
  obtain ⟨_, hsome⟩ := Option.isSome_iff_exists.mp hfile
  rw [bfFileRead, if_neg (by decide)]
  simp only [hhandle, hsome, hmode, htype, Bool.true_eq_false, if_false]

/-- From a file that is open for reading, `file_read` reads as many bytes as it is asked for at
    most, and returns what they are filtered to, just when no read gives more than is missing. -/
theorem file_reads_right_iff {wizard : Bool} {t : FileTable} {fhandle : Int32} {name : Str}
    {type : FileType} (hopen : OpenToRead wizard t fhandle name type) (recordLength : Int32)
    (most : Nat → Nat) (errno : Option Str) (f : OpenFile) :
    ReadsRight name type recordLength errno f
        (bfFileRead wizard t fhandle recordLength most errno f) ↔
      ReadsFit recordLength most f.rest.length := by
  rw [bfFileRead_loop hopen]
  exact readLoop_right_iff

/-- A file has been opened for reading. -/
theorem openA_open : ∃ t, Runs.Run (Runs.ofPart FileCall.run) .init [openA] t ∧
    OpenToRead true t 0 (Str.ofString "a") .text := by
  obtain ⟨t, hrun, hfilled⟩ := opens_filled 1 (Nat.succ_le_succ (Nat.zero_le 255))
  refine ⟨t, hrun, rfl, handleA, ?_, rfl, rfl, rfl, rfl⟩
  show t.handles[0]?.filter _ = _
  rw [hfilled.used 0 Nat.one_pos]
  rfl

theorem file_reads_right_two : ∃ t, Runs.Run (Runs.ofPart FileCall.run) .init [openA] t ∧
    ReadsRight (Str.ofString "a") .text 2 none ⟨[97, 10, 98], 0⟩
      (bfFileRead true t 0 2 (fun _ => 4096) none ⟨[97, 10, 98], 0⟩) := by
  obtain ⟨t, hrun, hopen⟩ := openA_open
  refine ⟨t, hrun, (file_reads_right_iff hopen 2 _ none _).mpr ?_⟩
  exact .inr ⟨0, .inl (by decide)⟩

/-- One byte more than the buffer holds is asked for, and the file has two buffers full. -/
theorem file_read_fails : ∃ t, Runs.Run (Runs.ofPart FileCall.run) .init [openA] t ∧
    OpenToRead true t 0 (Str.ofString "a") .text ∧
    ¬ ReadsRight (Str.ofString "a") .text 4097 none ⟨List.replicate 8192 97, 0⟩
      (bfFileRead true t 0 4097 (fun _ => 4096) none ⟨List.replicate 8192 97, 0⟩) := by
  obtain ⟨t, hrun, hopen⟩ := openA_open
  refine ⟨t, hrun, hopen, ?_⟩
  rw [bfFileRead_loop hopen, readLoop_right_iff]
  have hrest : (OpenFile.mk (List.replicate 8192 97) 0).rest.length = 8192 :=
    List.length_replicate
  have hmade : ReadIsMade 4097 (readUpTo (fun _ => 4096) (readLength 4097) 8192) 1 := by
    refine ⟨fun m hm => ?_, .inr (by decide)⟩
    obtain rfl : m = 0 := Nat.lt_one_iff.mp hm
    decide
  rw [hrest, readsFit_iff]
  intro hfit
  exact absurd (hfit 1 hmade) (by decide)

end Waverous
