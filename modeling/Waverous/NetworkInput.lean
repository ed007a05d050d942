import Waverous.Lib.Runs
import Waverous.Streams

/-! # Network input — `net_multi.c`

    `pull_input` takes what one `read` has brought.  In text mode it makes lines of it, in
    binary mode one string in which the bytes are encoded.  How the lines of a text come out
    is said without reference to how it arrives (`rawLines`, `edit`), and so is what is to
    come out when the mode changes (`expected`): a line that was begun is put in front of the
    bytes that follow.  That this is what comes out, however the bytes are cut into reads, is
    true as long as no line that was begun has a tilde in it: the tilde is then taken for the
    start of an encoded byte (`input_assembled`). -/

namespace Waverous.Network

open Runs

/-- What `server_receive_line` has got, and in which mode. -/
inductive Delivery where
  | line (s : Str)
  | binary (s : Str)
  deriving DecidableEq, Repr

/-- The input fields of an `nhandle`.  `delivered` is history. -/
structure Input where
  input : Str
  lastInputWasCR : Bool
  binary : Bool
  delivered : List Delivery
  deriving DecidableEq, Repr

/-- `new_nhandle`. -/
def Input.new : Input where
  input := []
  lastInputWasCR := false
  binary := false
  delivered := []

/-- The bytes that `pull_input` keeps. -/
def prints (c : UInt8) : Bool := isgraph c || c == 32 || c == 9

/-- One turn of the loop of `pull_input`. -/
def Input.pullChar (h : Input) (c : UInt8) : Input :=
  let h :=
    if prints c then { h with input := h.input ++ [c] }
    else if c = 8 ∨ c = 127 then { h with input := streamDeleteChar h.input }
    else if c = 13 ∨ c = 10 ∧ h.lastInputWasCR = false then
      { h with input := [], delivered := h.delivered ++ [.line h.input] }
    else h
  { h with lastInputWasCR := decide (c = 13) }

/-- `pull_input`, when `read` has brought the bytes of `buffer`. -/
def Input.pull (buffer : Str) (h : Input) : Input :=
  if buffer = [] then h
  else if h.binary then
    { h with
      input := []
      lastInputWasCR := false
      delivered := h.delivered ++ [.binary (h.input ++ rawBytesToBinary buffer)] }
  else buffer.foldl Input.pullChar h

/-- What happens to the input of a connection. -/
inductive InputEvent where
  | read (buffer : Str)
  /-- `network_set_connection_binary` -/
  | setBinary (doBinary : Bool)
  deriving DecidableEq, Repr

/-- One event. -/
def Input.step (e : InputEvent) (h : Input) : Option Input :=
  match e with
  | .read buffer => some (h.pull buffer)
  | .setBinary doBinary => some { h with binary := doBinary }

/-! ## What is to come out -/

/-- A text cut into lines, and what is left over: a CR, an LF or a CR and an LF end a line. -/
def rawLines : Str → List Str × Str
  | [] => ([], [])
  | 13 :: 10 :: text => ([] :: (rawLines text).1, (rawLines text).2)
  | c :: text =>
      if c = 13 ∨ c = 10 then ([] :: (rawLines text).1, (rawLines text).2)
      else
        match (rawLines text).1 with
        | [] => ([], c :: (rawLines text).2)
        | line :: lines => ((c :: line) :: lines, (rawLines text).2)

/-- One key of a line that is being typed. -/
def editKey (line : Str) (c : UInt8) : Str :=
  if prints c then line ++ [c] else if c = 8 ∨ c = 127 then line.dropLast else line

/-- A line, as it has been typed. -/
def edit (keys : Str) : Str := keys.foldl editKey []

/-- What is seen of the input: lines, and bytes. -/
inductive Seen where
  | line (s : Str)
  | byte (c : UInt8)
  deriving DecidableEq, Repr

/-- What the deliveries stand for, when the binary ones can be decoded. -/
def seen : List Delivery → Option (List Seen)
  | [] => some []
  | .line s :: ds => (seen ds).map (.line s :: ·)
  | .binary s :: ds => do
      let bytes ← binaryToRawBytes s
      let rest ← seen ds
      some (bytes.map .byte ++ rest)

/-- The bytes that arrive, each with the mode it arrives in. -/
def received : Bool → List InputEvent → List (Bool × UInt8)
  | _, [] => []
  | binary, .read buffer :: es => buffer.map (fun c => (binary, c)) ++ received binary es
  | _, .setBinary binary :: es => received binary es

/-- The lines of a text. -/
def linesOf (text : Str) : List Seen := (rawLines text).1.map fun l => .line (edit l)

/-- The line that a text leaves unfinished. -/
def heldOver (text : Str) : Str := edit (rawLines text).2

/-- What is to be seen of the text `text` and of what follows it. -/
def expected (text : Str) : List (Bool × UInt8) → List Seen
  | [] => linesOf text
  | (false, c) :: bytes => expected (text ++ [c]) bytes
  | (true, c) :: bytes =>
      linesOf text ++ ((heldOver text).map .byte ++ .byte c :: expected [] bytes)

example : expected [] (([97, 98, 8, 99, 13].map fun c => (false, c)) ++
    ([10, 100, 126].map fun c => (false, c)) ++ [(true, 10)]) =
    [.line [97, 99], .byte 100, .byte 126, .byte 10] := by decide

/-! ## Lines -/

theorem rawLines_crlf (text : Str) :
    rawLines (13 :: 10 :: text) = ([] :: (rawLines text).1, (rawLines text).2) := by
  rw [rawLines]

theorem rawLines_end {c : UInt8} {text : Str} (hc : c = 13 ∨ c = 10)
    (hcrlf : ¬ (c = 13 ∧ text.head? = some 10)) :
    rawLines (c :: text) = ([] :: (rawLines text).1, (rawLines text).2) := by
  rw [rawLines.eq_def]
  split
  next h => exact nomatch h
  next h =>
    cases h
    exact absurd ⟨rfl, rfl⟩ hcrlf
  next h =>
    cases h
    rw [if_pos hc]

theorem rawLines_key {c : UInt8} (hc : ¬ (c = 13 ∨ c = 10)) (text : Str) :
    rawLines (c :: text) =
      match (rawLines text).1 with
      | [] => ([], c :: (rawLines text).2)
      | line :: lines => ((c :: line) :: lines, (rawLines text).2) := by
  rw [rawLines.eq_def]
  split
  next h => exact nomatch h
  next h =>
    cases h
    exact absurd (.inl rfl) hc
  next h =>
    cases h
    rw [if_neg hc]

/-- A character in front does not matter for the last one. -/
theorem last_cons {d : UInt8} {text : Str} (h : d ≠ 13 ∨ text ≠ []) :
    (d :: text).getLast? = some 13 ↔ text.getLast? = some 13 := by
  rw [List.getLast?_cons, Option.some.injEq]
  cases hl : text.getLast? with
  | none =>
      have hnil : text = [] := List.getLast?_eq_none_iff.mp hl
      exact iff_of_false (h.resolve_right fun hne => hne hnil) fun hn => nomatch hn
  | some x => exact (Option.some.injEq x 13 ▸ Iff.rfl)

/-- One more character of a text. -/
theorem rawLines_concat (text : Str) (c : UInt8) :
    rawLines (text ++ [c]) =
      if c = 10 ∧ text.getLast? = some 13 then rawLines text
      else if c = 13 ∨ c = 10 then ((rawLines text).1 ++ [(rawLines text).2], [])
      else ((rawLines text).1, (rawLines text).2 ++ [c]) := by
  induction text using rawLines.induct with
  | case1 =>
      rw [List.nil_append, if_neg (fun h => nomatch h.2)]
      split
      next hc => exact rawLines_end hc fun h => nomatch h.2
      next hc => exact rawLines_key hc []
  | case2 text ih =>
      have hten : (10 : UInt8) ≠ 13 ∨ text ≠ [] := .inl (by decide)
      rw [List.cons_append, List.cons_append, rawLines_crlf, rawLines_crlf, ih]
      simp only [last_cons (.inr (List.cons_ne_nil 10 text)), last_cons hten]
      split
      · rfl
      · split <;> rfl
  | case3 d text hcrlf hd ih =>
      have hnot : ¬ (d = 13 ∧ text.head? = some 10) := by
        rintro ⟨rfl, hhead⟩
        obtain ⟨rest, rfl⟩ := List.head?_eq_some_iff.mp hhead
        exact hcrlf rest rfl rfl
      rw [rawLines_end hd hnot]
      by_cases htext : text = []
      · subst htext
        by_cases hcr : c = 10 ∧ d = 13
        · obtain ⟨rfl, rfl⟩ := hcr
          rfl
        · have hlast : ¬ (c = 10 ∧ [d].getLast? = some 13) := fun h =>
            hcr ⟨h.1, Option.some.inj h.2⟩
          have hnot' : ¬ (d = 13 ∧ [c].head? = some 10) := fun h =>
            hcr ⟨Option.some.inj h.2, h.1⟩
          have ih : rawLines [c] = _ := ih
          rw [if_neg hlast, List.singleton_append, rawLines_end hd hnot', ih,
            if_neg fun h => nomatch h.2]
          split <;> rfl
      · have hnot' : ¬ (d = 13 ∧ (text ++ [c]).head? = some 10) := by
          rw [List.head?_append_of_ne_nil _ htext]
          exact hnot
        rw [List.cons_append, rawLines_end hd hnot', ih]
        simp only [last_cons (.inr htext)]
        split
        · rfl
        · split <;> rfl
  | case4 d text hcrlf hd hnil ih =>
      have hd13 : d ≠ 13 ∨ text ≠ [] := .inl fun h => hd (.inl h)
      rw [List.cons_append, rawLines_key hd, rawLines_key hd, ih]
      simp only [last_cons hd13, hnil]
      by_cases h1 : c = 10 ∧ text.getLast? = some 13
      · simp only [if_pos h1, hnil]
      · by_cases h2 : c = 13 ∨ c = 10
        · simp only [if_neg h1, if_pos h2, List.nil_append]
        · simp only [if_neg h1, if_neg h2, List.cons_append]
  | case5 d text hcrlf hd line lines hcons ih =>
      have hd13 : d ≠ 13 ∨ text ≠ [] := .inl fun h => hd (.inl h)
      rw [List.cons_append, rawLines_key hd, rawLines_key hd, ih]
      simp only [last_cons hd13, hcons]
      by_cases h1 : c = 10 ∧ text.getLast? = some 13
      · simp only [if_pos h1, hcons]
      · by_cases h2 : c = 13 ∨ c = 10
        · simp only [if_neg h1, if_pos h2, List.cons_append]
        · simp only [if_neg h1, if_neg h2]

/-- The line that is left over, as it has been typed. -/
theorem heldOver_concat (text : Str) (c : UInt8) :
    heldOver (text ++ [c]) =
      if c = 10 ∧ text.getLast? = some 13 then heldOver text
      else if c = 13 ∨ c = 10 then []
      else editKey (heldOver text) c := by
  rw [heldOver, rawLines_concat]
  split
  · rfl
  · split
    · rfl
    · show edit ((rawLines text).2 ++ [c]) = _
      rw [edit, List.foldl_append]
      rfl

theorem linesOf_concat (text : Str) (c : UInt8) :
    linesOf (text ++ [c]) =
      if c = 10 ∧ text.getLast? = some 13 then linesOf text
      else if c = 13 ∨ c = 10 then linesOf text ++ [.line (heldOver text)]
      else linesOf text := by
  rw [linesOf, rawLines_concat]
  split
  · rfl
  · split
    · show List.map _ ((rawLines text).1 ++ [(rawLines text).2]) = _
      rw [List.map_append]
      rfl
    · rfl

/-! ## What is received -/

theorem seen_lines (lines : List Str) (ds : List Delivery) :
    seen (lines.map .line ++ ds) = (seen ds).map (lines.map .line ++ ·) := by
  induction lines with
  | nil => exact Option.map_id'.symm
  | cons line lines ih =>
      show (seen (lines.map .line ++ ds)).map (.line line :: ·) = _
      rw [ih, Option.map_map]
      rfl

theorem seen_binary {s bytes : Str} (h : binaryToRawBytes s = some bytes) (ds : List Delivery) :
    seen (.binary s :: ds) = (seen ds).map (bytes.map .byte ++ ·) := by
  rw [seen, h]
  cases seen ds <;> rfl

theorem expected_text (text buffer : Str) (bytes : List (Bool × UInt8)) :
    expected text (buffer.map (fun c => (false, c)) ++ bytes) = expected (text ++ buffer) bytes := by
  induction buffer generalizing text with
  | nil => rw [List.append_nil]; rfl
  | cons c buffer ih =>
      show expected (text ++ [c]) (buffer.map (fun c => (false, c)) ++ bytes) = _
      rw [ih, List.append_assoc, List.singleton_append]

theorem expected_bytes (buffer : Str) (bytes : List (Bool × UInt8)) :
    expected [] (buffer.map (fun c => (true, c)) ++ bytes) =
      buffer.map .byte ++ expected [] bytes := by
  induction buffer with
  | nil => rfl
  | cons c buffer ih =>
      show linesOf [] ++ ((heldOver []).map Seen.byte ++ .byte c ::
        expected [] (buffer.map (fun c => (true, c)) ++ bytes)) = _
      rw [ih]
      rfl

theorem expected_binary (text : Str) {buffer : Str} (hne : buffer ≠ [])
    (bytes : List (Bool × UInt8)) :
    expected text (buffer.map (fun c => (true, c)) ++ bytes) =
      linesOf text ++ ((heldOver text ++ buffer).map .byte ++ expected [] bytes) := by
  obtain ⟨c, buffer, rfl⟩ := List.exists_cons_of_ne_nil hne
  show linesOf text ++ ((heldOver text).map Seen.byte ++ .byte c ::
    expected [] (buffer.map (fun c => (true, c)) ++ bytes)) = _
  rw [expected_bytes, List.map_append, List.append_assoc]
  rfl

/-! ## Reads of text -/

/-- The state between two reads, the text since the last encoded string having been `text`. -/
structure Input.Holds (h : Input) (text : Str) : Prop where
  input : h.input = heldOver text
  cr : h.lastInputWasCR = decide (text.getLast? = some 13)

theorem Input.holds_new : Input.new.Holds [] := ⟨rfl, rfl⟩

theorem not_prints {c : UInt8} (h : c = 13 ∨ c = 10 ∨ c = 8 ∨ c = 127) : prints c = false := by
  rcases h with rfl | rfl | rfl | rfl <;> decide

/-- One character: what is held over is edited, or delivered. -/
theorem Input.pullChar_holds {h : Input} {text : Str} (hh : h.Holds text) (c : UInt8) :
    (h.pullChar c).Holds (text ++ [c]) ∧ (h.pullChar c).binary = h.binary ∧
      ∃ lines : List Str, (h.pullChar c).delivered = h.delivered ++ lines.map .line ∧
        linesOf (text ++ [c]) = linesOf text ++ lines.map .line := by
  have hcr : (h.pullChar c).lastInputWasCR = decide ((text ++ [c]).getLast? = some 13) := by
    rw [List.getLast?_concat]
    show decide (c = 13) = _
    simp only [Option.some.injEq]
  have hlast : h.lastInputWasCR = false ↔ ¬ text.getLast? = some 13 := by
    rw [hh.cr, decide_eq_false_iff_not]
  by_cases hend : c = 13 ∨ c = 10
  · have hp : prints c = false := not_prints (hend.imp_right .inl)
    have hdel : ¬ (c = 8 ∨ c = 127) := by
      rcases hend with rfl | rfl <;> decide
    by_cases hskip : c = 10 ∧ text.getLast? = some 13
    · -- the LF after a CR
      have hno : ¬ (c = 13 ∨ c = 10 ∧ h.lastInputWasCR = false) := by
        rintro (rfl | ⟨-, hfalse⟩)
        · exact absurd hskip.1 (by decide)
        · exact hlast.mp hfalse hskip.2
      have heq : h.pullChar c = { h with lastInputWasCR := decide (c = 13) } := by
        simp only [Input.pullChar, hp, Bool.false_eq_true, if_false, if_neg hdel, if_neg hno]
      refine ⟨⟨?_, hcr⟩, by rw [heq], [], ?_, ?_⟩
      · rw [heq, heldOver_concat, if_pos hskip]
        exact hh.input
      · rw [heq]
        exact (List.append_nil _).symm
      · rw [linesOf_concat, if_pos hskip]
        exact (List.append_nil _).symm
    · have hyes : c = 13 ∨ c = 10 ∧ h.lastInputWasCR = false :=
        hend.imp_right fun hc => ⟨hc, hlast.mpr fun hl => hskip ⟨hc, hl⟩⟩
      have heq : h.pullChar c =
          { h with
            input := []
            delivered := h.delivered ++ [.line h.input]
            lastInputWasCR := decide (c = 13) } := by
        simp only [Input.pullChar, hp, Bool.false_eq_true, if_false, if_neg hdel, if_pos hyes]
      refine ⟨⟨?_, hcr⟩, by rw [heq], [heldOver text], ?_, ?_⟩
      · rw [heq, heldOver_concat, if_neg hskip, if_pos hend]
      · rw [heq, ← hh.input]
        rfl
      · rw [linesOf_concat, if_neg hskip, if_pos hend]
        rfl
  · have hskip : ¬ (c = 10 ∧ text.getLast? = some 13) := fun hs => hend (.inr hs.1)
    have hno : ¬ (c = 13 ∨ c = 10 ∧ h.lastInputWasCR = false) := fun hs => hend (hs.imp_right And.left)
    have heq : h.pullChar c =
        { h with input := editKey h.input c, lastInputWasCR := decide (c = 13) } := by
      simp only [Input.pullChar, editKey, if_neg hno, streamDeleteChar]
      split
      · rfl
      · split <;> rfl
    refine ⟨⟨?_, hcr⟩, by rw [heq], [], ?_, ?_⟩
    · rw [heq, heldOver_concat, if_neg hskip, if_neg hend, ← hh.input]
    · rw [heq]
      exact (List.append_nil _).symm
    · rw [linesOf_concat, if_neg hskip, if_neg hend]
      exact (List.append_nil _).symm

/-- The characters of one read of text. -/
theorem Input.pullChars_holds (buffer : Str) {h : Input} {text : Str} (hh : h.Holds text) :
    (buffer.foldl Input.pullChar h).Holds (text ++ buffer) ∧
      (buffer.foldl Input.pullChar h).binary = h.binary ∧
      ∃ lines : List Str, (buffer.foldl Input.pullChar h).delivered = h.delivered ++ lines.map .line ∧
        linesOf (text ++ buffer) = linesOf text ++ lines.map .line := by
  induction buffer generalizing h text with
  | nil =>
      rw [List.append_nil]
      exact ⟨hh, rfl, [], (List.append_nil _).symm, (List.append_nil _).symm⟩
  | cons c buffer ih =>
      obtain ⟨hh', hbin, lines, hdel, hlines⟩ := Input.pullChar_holds hh c
      obtain ⟨hh'', hbin', lines', hdel', hlines'⟩ := ih hh'
      have hcat : text ++ c :: buffer = text ++ [c] ++ buffer := by
        rw [List.append_assoc, List.singleton_append]
      rw [List.foldl_cons, hcat]
      refine ⟨hh'', hbin'.trans hbin, lines ++ lines', ?_, ?_⟩
      · rw [hdel', hdel, List.append_assoc, List.map_append]
      · rw [hlines', hlines, List.append_assoc, List.map_append]

/-! ## Any run -/

/-- No line that was begun has a tilde in it when bytes arrive in binary mode. -/
def Input.clean (h : Input) : InputEvent → Prop
  | .read buffer => buffer ≠ [] → h.binary = true → (126 : UInt8) ∉ h.input
  | .setBinary _ => True

/-- An encoded string with the text `held` in front of it: it stands for the text and the
    bytes if there is no tilde in the text, and for something shorter otherwise. -/
theorem binaryToRawBytes_held (held buffer : Str) :
    ((126 : UInt8) ∉ held → binaryToRawBytes (held ++ rawBytesToBinary buffer) = some (held ++ buffer)) ∧
      ((126 : UInt8) ∈ held → ∀ bytes, binaryToRawBytes (held ++ rawBytesToBinary buffer) = some bytes →
        bytes.length < (held ++ buffer).length) := by
  constructor
  · intro hno
    rw [binaryToRawBytes_text hno, binaryToRawBytes_rawBytesToBinary]
    rfl
  · intro hmem bytes hbytes
    have hlen := binaryToRawBytes_length hbytes
    have hbuf := binaryToRawBytes_length (binaryToRawBytes_rawBytesToBinary buffer)
    have hpos : 0 < held.count 126 := List.count_pos_iff.mpr hmem
    rw [List.count_append, List.length_append] at hlen
    rw [List.length_append]
    omega

/-- What the deliveries stand for, put behind `done`, is `out`; it is not more in any case. -/
structure Accounts (done : List Seen) (ds : List Delivery) (out : List Seen) (good : Prop) : Prop where
  le : ∀ obs, seen ds = some obs → (done ++ obs).length ≤ out.length
  iff : (seen ds).map (done ++ ·) = some out ↔ good

theorem Accounts.nil (done : List Seen) : Accounts done [] done True := by
  constructor
  · rintro obs ⟨⟩
    exact Nat.le_of_eq (congrArg List.length (List.append_nil done))
  · refine iff_of_true ?_ trivial
    show some (done ++ []) = some done
    rw [List.append_nil]

/-- Lines that are delivered. -/
theorem Accounts.lines {done out : List Seen} {ds : List Delivery} {good : Prop} (lines : List Str)
    (h : Accounts (done ++ lines.map .line) ds out good) :
    Accounts done (lines.map .line ++ ds) out good := by
  constructor
  · intro obs hobs
    rw [seen_lines] at hobs
    obtain ⟨rest, hrest, rfl⟩ := Option.map_eq_some_iff.mp hobs
    have := h.le rest hrest
    rw [List.append_assoc] at this
    exact this
  · rw [← h.iff, seen_lines, Option.map_map]
    have hfun : (done ++ ·) ∘ (lines.map Seen.line ++ ·) = (done ++ lines.map Seen.line ++ ·) := by
      ext rest : 1
      exact (List.append_assoc _ _ _).symm
    rw [hfun]

/-- Bytes that are delivered, in front of which the text `held` had been left over. -/
theorem Accounts.bytes {done out : List Seen} {ds : List Delivery} {good : Prop} (held buffer : Str)
    (h : Accounts [] ds out good) :
    Accounts done (.binary (held ++ rawBytesToBinary buffer) :: ds)
      (done ++ ((held ++ buffer).map .byte ++ out)) ((126 : UInt8) ∉ held ∧ good) := by
  obtain ⟨hgood, hbad⟩ := binaryToRawBytes_held held buffer
  by_cases hmem : (126 : UInt8) ∈ held
  · have hlt : ∀ obs, seen (.binary (held ++ rawBytesToBinary buffer) :: ds) = some obs →
        obs.length < ((held ++ buffer).map Seen.byte ++ out).length := by
      intro obs hobs
      cases hb : binaryToRawBytes (held ++ rawBytesToBinary buffer) with
      | none =>
          rw [seen, hb] at hobs
          exact nomatch hobs
      | some bytes =>
          rw [seen_binary hb] at hobs
          obtain ⟨rest, hrest, rfl⟩ := Option.map_eq_some_iff.mp hobs
          have h1 := hbad hmem bytes hb
          have h2 := h.le rest hrest
          rw [List.nil_append] at h2
          rw [List.length_append, List.length_append, List.length_map, List.length_map]
          omega
    constructor
    · intro obs hobs
      have := hlt obs hobs
      rw [List.length_append, List.length_append]
      omega
    · refine iff_of_false (fun heq => ?_) fun hg => hg.1 hmem
      obtain ⟨obs, hobs, hout⟩ := Option.map_eq_some_iff.mp heq
      have := hlt obs hobs
      rw [List.append_cancel_left hout] at this
      exact absurd this (Nat.lt_irrefl _)
  · have hseen := seen_binary (hgood hmem) ds
    constructor
    · intro obs hobs
      rw [hseen] at hobs
      obtain ⟨rest, hrest, rfl⟩ := Option.map_eq_some_iff.mp hobs
      have := h.le rest hrest
      rw [List.nil_append] at this
      simp only [List.length_append]
      omega
    · rw [hseen, and_iff_right hmem, ← h.iff]
      cases hds : seen ds with
      | none => exact iff_of_false (fun h => nomatch h) fun h => nomatch h
      | some rest =>
          simp only [Option.map_some, Option.some.injEq, List.append_cancel_left_eq, List.nil_append]

theorem Accounts.congr {done out : List Seen} {ds : List Delivery} {good good' : Prop}
    (h : Accounts done ds out good) (hgood : good ↔ good') : Accounts done ds out good' :=
  ⟨h.le, h.iff.trans hgood⟩

/-- A run, from a state in which `text` has come since the last encoded string. -/
theorem Input.run_accounts {h s : Input} {es : List InputEvent} (hrun : Run (ofPart Input.step) h es s)
    {text : Str} (hh : h.Holds text) :
    ∃ ds, s.delivered = h.delivered ++ ds ∧
      Accounts (linesOf text) ds (expected text (received h.binary es))
        (Run (guarded Input.clean (ofPart Input.step)) h es s) := by
  induction hrun generalizing text with
  | nil h =>
      exact ⟨[], (List.append_nil _).symm, (Accounts.nil _).congr (iff_of_true trivial (.nil h))⟩
  | @cons h e h' es s hstep hrun ih =>
      have hstep : Input.step e h = some h' := hstep
      have hguard : Run (guarded Input.clean (ofPart Input.step)) h (e :: es) s ↔
          h.clean e ∧ Run (guarded Input.clean (ofPart Input.step)) h' es s :=
        run_guarded_cons_iff hstep
      cases e with
      | setBinary doBinary =>
          cases hstep
          obtain ⟨ds, hds, hacc⟩ := ih ⟨hh.input, hh.cr⟩
          exact ⟨ds, hds, hacc.congr ((and_iff_right trivial).symm.trans hguard.symm)⟩
      | read buffer =>
          have hpull : h.pull buffer = h' := Option.some.inj hstep
          by_cases hempty : buffer = []
          · subst hempty
            rw [Input.pull, if_pos rfl] at hpull
            subst hpull
            obtain ⟨ds, hds, hacc⟩ := ih hh
            have hclean : h.clean (.read []) := fun hne => absurd rfl hne
            exact ⟨ds, hds, hacc.congr ((and_iff_right hclean).symm.trans hguard.symm)⟩
          · rw [Input.pull, if_neg hempty] at hpull
            cases hbin : h.binary with
            | true =>
                rw [if_pos hbin] at hpull
                subst hpull
                obtain ⟨ds, hds, hacc⟩ := @ih [] ⟨rfl, rfl⟩
                have hrec : received true (.read buffer :: es) =
                    buffer.map (fun c => (true, c)) ++ received true es := rfl
                have hclean : h.clean (.read buffer) ↔ (126 : UInt8) ∉ heldOver text := by
                  rw [← hh.input]
                  exact ⟨fun hc => hc hempty hbin, fun hno _ _ => hno⟩
                refine ⟨.binary (h.input ++ rawBytesToBinary buffer) :: ds, ?_, ?_⟩
                · rw [hds, List.append_assoc]
                  rfl
                · rw [hrec, expected_binary text hempty, hh.input]
                  rw [hbin] at hacc hguard
                  exact (hacc.bytes (heldOver text) buffer).congr
                    ((and_congr_left' hclean.symm).trans hguard.symm)
            | false =>
                rw [if_neg (by rw [hbin]; decide)] at hpull
                subst hpull
                obtain ⟨hh', hbin', lines, hdel, hlines⟩ := Input.pullChars_holds buffer hh
                obtain ⟨ds, hds, hacc⟩ := ih hh'
                have hrec : received false (.read buffer :: es) =
                    buffer.map (fun c => (false, c)) ++ received false es := rfl
                have hclean : h.clean (.read buffer) := by
                  intro _ htrue
                  exact absurd (hbin.symm.trans htrue) (by decide)
                rw [hbin', hbin, hlines] at hacc
                refine ⟨lines.map .line ++ ds, ?_, ?_⟩
                · rw [hds, hdel, List.append_assoc]
                · rw [hrec, expected_text]
                  exact (hacc.lines lines).congr ((and_iff_right hclean).symm.trans hguard.symm)

end Waverous.Network
