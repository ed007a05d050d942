import Mathlib.Data.List.Perm.Subperm
import Waverous.Lib.Runs
import Waverous.Lib.TailedList
import Waverous.Structures

/-! # Network output — `net_multi.c`

    What a connection has still to be sent is in blocks, which are threaded along their
    `next` fields; `output_tail` is the address of the last of these links.  A `write` may
    take a part of a block, or nothing.  When too much is queued, `enqueue_output` throws
    the oldest blocks away and counts them, and `push_output` tells of it before it goes on.

    The history of a connection is kept beside its fields.  Seen from there the blocks are a
    queue of byte strings (`Fifo`), and what the history says is queued is what the links
    thread (`Output.Holds`).  That the lost blocks are told of once and for all is true only
    as long as no `write` takes a part of the notice: what is left of it is forgotten, and
    the notice is written again (`output_queue`). -/

namespace Waverous.Network

open Runs TailedList

/-- The address of a block. -/
abbrev BlockPtr := Nat

/-- `text_block`, without its `next`; `start` is an index into `buffer`. -/
structure TextBlock where
  buffer : Str
  start : Nat
  length : Nat
  deriving DecidableEq, Repr

/-- What has happened on the output side of a connection. -/
inductive OutputLog where
  /-- A line has come. -/
  | enqueued (line : Str)
  /-- These bytes of the first block have been written. -/
  | text (bytes : Str)
  /-- The first block has been thrown away; these bytes of it had not been written. -/
  | flushed (lost : Str)
  /-- The notice that so many blocks have been thrown away. -/
  | notice (lines : Nat)
  /-- So many bytes of that notice, and not all. -/
  | noticePart (lines count : Nat)
  deriving DecidableEq, Repr

/-- The output fields of an `nhandle`, the blocks by address, and the history.  `links` is
    `output_head` and every `next`. -/
structure Output where
  links : Links BlockPtr
  blocks : BlockPtr → TextBlock
  /-- the next address that the allocator gives -/
  nextBlock : BlockPtr
  outputTail : Slot BlockPtr
  outputLength : Int
  outputLinesFlushed : Nat
  log : List OutputLog

/-- `new_nhandle`, whatever there is in memory. -/
def Output.new (mem : Output) : Output :=
  { mem with
    links := { mem.links with head := none }
    outputTail := .head
    outputLength := 0
    outputLinesFlushed := 0
    log := [] }

/-- What `write` gives: a count of bytes, `EAGAIN`, or another error. -/
inductive WriteResult where
  | wrote (count : Nat)
  | again
  | error
  deriving DecidableEq, Repr

/-- `MAX_QUEUED_OUTPUT` -/
def maxQueuedOutput : Int := 65536

/-- The notice; `eol` is `proto.eol_out_string`, and `buf` has 100 characters. -/
def notice (eol : Str) (lines : Nat) : Str :=
  (eol ++ Str.ofString ">> Network buffer overflow: " ++ Str.ofString (toString lines) ++
    Str.ofString " line" ++ (if lines = 1 then [] else Str.ofString "s") ++
    Str.ofString " of output to you " ++
    (if lines = 1 then Str.ofString "has" else Str.ofString "have") ++
    Str.ofString " been lost <<" ++ eol).take 99

namespace Output

/-- Store into a block. -/
def setBlock (a : BlockPtr) (b : TextBlock) (h : Output) : Output :=
  { h with blocks := Function.update h.blocks a b }

/-- `h->output_head = b->next`, for the first block. -/
def unlinkHead (a : BlockPtr) (h : Output) : Output :=
  { h with links := h.links.set .head (h.links.next a) }

/-- `write(h->wfd, b->start, b->length)` has given `count`. -/
def wroteBlock (a : BlockPtr) (count : Nat) (h : Output) : Output :=
  let b := h.blocks a
  let h :=
    { h with
      outputLength := h.outputLength - count
      log := h.log ++ [OutputLog.text ((b.buffer.drop b.start).take count)] }
  if count = b.length then h.unlinkHead a
  else h.setBlock a { b with start := b.start + count, length := b.length - count }

/-- The `while` of `push_output`; `none` if the calls of `write` do not give just the
    `results`, or give what `write` cannot give. -/
def pushBlocks : List WriteResult → Output → Option (Output × Bool)
  | [], h =>
      match h.links.head with
      | none => some ({ h with outputTail := .head }, true)
      | some _ => none
  | r :: results, h =>
      match h.links.head, r with
      | none, _ => none
      | some _, .again => if results = [] then some (h, true) else none
      | some _, .error => if results = [] then some (h, false) else none
      | some a, .wrote count =>
          if count ≤ (h.blocks a).length then pushBlocks results (h.wroteBlock a count) else none

/-- `push_output`. -/
def pushOutput (eol : Str) (results : List WriteResult) (h : Output) : Option (Output × Bool) :=
  if 0 < h.outputLinesFlushed then
    let length := (notice eol h.outputLinesFlushed).length
    match results with
    | [] => none
    | .wrote count :: results =>
        if count = length then
          pushBlocks results
            { h with
              log := h.log ++ [.notice h.outputLinesFlushed]
              outputLinesFlushed := 0 }
        else if count < length ∧ results = [] then
          some ({ h with log := h.log ++ [.noticePart h.outputLinesFlushed count] }, true)
        else none
    | .again :: results => if results = [] then some (h, true) else none
    | .error :: results => if results = [] then some (h, false) else none
  else pushBlocks results h

/-- One turn of the `while` of `enqueue_output`. -/
def flushBlock (a : BlockPtr) (h : Output) : Output :=
  let b := h.blocks a
  { h.unlinkHead a with
    outputLength := h.outputLength - b.length
    outputLinesFlushed := h.outputLinesFlushed + 1
    log := h.log ++ [.flushed (b.buffer.drop b.start)] }

/-- The `while` of `enqueue_output`; there are not more blocks than addresses. -/
def flushBlocks : Nat → Int → Output → Option Output
  | fuel, toFlush, h =>
      if 0 < toFlush then
        match h.links.head with
        | none => some h
        | some a =>
            match fuel with
            | 0 => none
            | fuel + 1 => flushBlocks fuel (toFlush - (h.blocks a).length) (h.flushBlock a)
      else some h

/-- The end of `enqueue_output`. -/
def addBlock (buffer : Str) (h : Output) : Output :=
  let block := h.nextBlock
  { h with
    nextBlock := block + 1
    blocks := Function.update h.blocks block { buffer, start := 0, length := buffer.length }
    links := (h.links.set (.link block) none).set h.outputTail (some block)
    outputTail := .link block
    outputLength := h.outputLength + buffer.length
    log := h.log ++ [.enqueued buffer] }

/-- `enqueue_output`. -/
def enqueueOutput (eol line : Str) (addEol flushOk : Bool) (results : List WriteResult)
    (h : Output) : Option (Output × Bool) :=
  let buffer := line ++ (if addEol then eol else [])
  let length : Int := buffer.length
  if h.outputLength ≠ 0 ∧ maxQueuedOutput < h.outputLength + length then do
    let (h, _) ← h.pushOutput eol results
    let toFlush := h.outputLength + length - maxQueuedOutput
    if 0 < toFlush ∧ flushOk = false then some (h, false)
    else
      let h ← flushBlocks h.nextBlock toFlush h
      let h := if h.links.head = none then { h with outputTail := .head } else h
      some (h.addBlock buffer, true)
  else if results = [] then some (h.addBlock buffer, true)
  else none

end Output

/-- The calls. -/
inductive OutputEvent where
  | push (results : List WriteResult)
  | enqueue (line : Str) (addEol flushOk : Bool) (results : List WriteResult)
  deriving DecidableEq, Repr

/-- One call. -/
def Output.step (eol : Str) (e : OutputEvent) (h : Output) : Option Output :=
  match e with
  | .push results => (h.pushOutput eol results).map Prod.fst
  | .enqueue line addEol flushOk results =>
      (h.enqueueOutput eol line addEol flushOk results).map Prod.fst

/-! ## What the history says -/

/-- A queue of byte strings. -/
def Fifo.step (q : List Str) : OutputLog → Option (List Str)
  | .enqueued line => some (q ++ [line])
  | .text bytes =>
      match q with
      | [] => none
      | b :: q =>
          if b.take bytes.length = bytes then
            some (if bytes.length = b.length then q else b.drop bytes.length :: q)
          else none
  | .flushed lost =>
      match q with
      | [] => none
      | b :: q => if b = lost then some q else none
  | .notice _ => some q
  | .noticePart _ _ => some q

/-- What is queued after all that has happened: bytes have been written from the front of the
    oldest line only, and only the oldest line has been thrown away. -/
def fifo (log : List OutputLog) : Option (List Str) := log.foldlM Fifo.step []

/-- The text that has been written. -/
def written : List OutputLog → Str
  | [] => []
  | .text bytes :: log => bytes ++ written log
  | _ :: log => written log

/-- The text that has come. -/
def arrived : List OutputLog → Str
  | [] => []
  | .enqueued line :: log => line ++ arrived log
  | _ :: log => arrived log

/-- The line that has come last. -/
def lastLine : List OutputLog → Option Str
  | [] => none
  | e :: log =>
      match lastLine log, e with
      | some line, _ => some line
      | none, .enqueued line => some line
      | none, _ => none

/-- How many lines have been thrown away that nothing has been said of. -/
def Unannounced.step (lines : Nat) : OutputLog → Option Nat
  | .enqueued _ => some lines
  | .text _ => if lines = 0 then some lines else none
  | .flushed _ => some (lines + 1)
  | .notice n => if n = lines ∧ 0 < n then some 0 else none
  | .noticePart _ count => if count = 0 then some lines else none

/-- The lines that have been thrown away since the last notice, when each notice has been whole,
    has told of all the lines thrown away before it, and has been there before any other text. -/
def unannounced (log : List OutputLog) : Option Nat := log.foldlM Unannounced.step 0

theorem foldlM_concat {α β : Type} (f : β → α → Option β) (b : β) (l : List α) (a : α) :
    (l ++ [a]).foldlM f b = (l.foldlM f b).bind fun b => f b a := by
  rw [List.foldlM_append]
  cases l.foldlM f b with
  | none => rfl
  | some b' =>
      show (f b' a).bind some = f b' a
      exact Option.bind_fun_some (f b' a)

theorem fifo_concat (log : List OutputLog) (e : OutputLog) :
    fifo (log ++ [e]) = (fifo log).bind fun q => Fifo.step q e :=
  foldlM_concat Fifo.step [] log e

theorem unannounced_concat (log : List OutputLog) (e : OutputLog) :
    unannounced (log ++ [e]) = (unannounced log).bind fun n => Unannounced.step n e :=
  foldlM_concat Unannounced.step 0 log e

theorem lastLine_concat (log : List OutputLog) (e : OutputLog) :
    lastLine (log ++ [e]) = match e with
      | .enqueued line => some line
      | _ => lastLine log := by
  induction log with
  | nil => cases e <;> rfl
  | cons d log ih =>
      rw [List.cons_append, lastLine.eq_def]
      simp only [ih]
      cases e <;> rfl

/-- Nothing is lost, doubled or reordered as long as nothing is thrown away. -/
theorem written_queued {log : List OutputLog} {q0 q : List Str}
    (h : log.foldlM Fifo.step q0 = some q) (hflush : ∀ lost, .flushed lost ∉ log) :
    written log ++ q.flatten = q0.flatten ++ arrived log := by
  induction log generalizing q0 with
  | nil =>
      cases h
      show [] ++ q.flatten = q.flatten ++ []
      rw [List.nil_append, List.append_nil]
  | cons e log ih =>
      rw [List.foldlM_cons] at h
      obtain ⟨q1, h1, h⟩ := Option.bind_eq_some_iff.mp h
      have ih := ih h fun lost hmem => hflush lost (List.mem_cons_of_mem e hmem)
      cases e with
      | enqueued line =>
          cases h1
          show written log ++ q.flatten = q0.flatten ++ (line ++ arrived log)
          rw [ih, List.flatten_append, List.append_assoc]
          show q0.flatten ++ (line ++ [] ++ arrived log) = _
          rw [List.append_nil]
      | text bytes =>
          cases q0 with
          | nil => exact nomatch h1
          | cons b q0 =>
              obtain ⟨htake, hq1⟩ := Option.ite_none_right_eq_some.mp h1
              show bytes ++ written log ++ q.flatten = (b :: q0).flatten ++ arrived log
              rw [List.append_assoc, ih, ← Option.some.inj hq1]
              split
              next hlen =>
                  rw [hlen, List.take_length] at htake
                  rw [htake, ← List.append_assoc]
                  rfl
              next hlen =>
                  rw [← List.append_assoc, List.flatten_cons, List.flatten_cons, ← List.append_assoc]
                  nth_rewrite 1 [← htake]
                  rw [List.take_append_drop]
      | flushed lost => exact absurd List.mem_cons_self (hflush lost)
      | notice n =>
          cases h1
          exact ih
      | noticePart n count =>
          cases h1
          exact ih

/-! ## The blocks -/

namespace Output

/-- What is still to be written of a block. -/
def left (h : Output) (a : BlockPtr) : Str := (h.blocks a).buffer.drop (h.blocks a).start

/-- The blocks at `q` are queued. -/
structure Holds (h : Output) (q : List BlockPtr) : Prop where
  nodup : q.Nodup
  old : ∀ a ∈ q, a < h.nextBlock
  threaded : Threaded h.links q
  /-- While blocks are being taken away the address of the last link may be out of date. -/
  tail : q ≠ [] → h.outputTail = slotAfter q
  whole : ∀ a ∈ q, (h.blocks a).start + (h.blocks a).length = (h.blocks a).buffer.length
  fifo : fifo h.log = some (q.map h.left)
  length : h.outputLength = ((q.map fun a => (h.blocks a).length).sum : Nat)

variable {h h' : Output} {a : BlockPtr} {q : List BlockPtr}

theorem Holds.left_length (hq : h.Holds q) (ha : a ∈ q) : (h.left a).length = (h.blocks a).length := by
  have := hq.whole a ha
  rw [left, List.length_drop]
  omega

/-- The first block goes, all of it that was left having been dealt with. -/
theorem Holds.unlink {log : List OutputLog} {n : Nat} (hq : h.Holds (a :: q))
    (hlog : Network.fifo log = some (q.map h.left)) :
    Holds { h.unlinkHead a with
      outputLength := h.outputLength - (h.blocks a).length
      outputLinesFlushed := n
      log } q := by
  constructor
  · exact (List.nodup_cons.mp hq.nodup).2
  · intro b hb
    exact hq.old b (List.mem_cons_of_mem a hb)
  · exact hq.threaded.erase (d := []) hq.nodup
  · intro hne
    show h.outputTail = slotAfter q
    rw [hq.tail (List.cons_ne_nil a q), slotAfter_cons a hne]
  · intro b hb
    exact hq.whole b (List.mem_cons_of_mem a hb)
  · exact hlog
  · show h.outputLength - (h.blocks a).length = _
    rw [hq.length, List.map_cons, List.sum_cons]
    show _ = (((q.map fun b => (h.blocks b).length).sum : Nat) : Int)
    omega

/-- Some of the first block has been written. -/
theorem Holds.wroteBlock {count : Nat} (hq : h.Holds (a :: q)) (hcount : count ≤ (h.blocks a).length) :
    Holds (h.wroteBlock a count) (if count = (h.blocks a).length then q else a :: q) := by
  have ha : a ∈ a :: q := List.mem_cons_self
  have hlen := hq.left_length ha
  have hbytes : ((h.left a).take count).length = count := by
    rw [List.length_take, hlen]
    omega
  have hfifo : Network.fifo (h.log ++ [.text ((h.left a).take count)]) =
      some (if count = (h.blocks a).length then q.map h.left
        else (h.left a).drop count :: q.map h.left) := by
    rw [fifo_concat, hq.fifo]
    show (if (h.left a).take ((h.left a).take count).length = (h.left a).take count then
      some (if ((h.left a).take count).length = (h.left a).length then _ else _) else none) = _
    rw [hbytes, if_pos rfl, hlen]
  rw [Output.wroteBlock]
  split
  next hall =>
      rw [if_pos hall] at hfifo
      have := hq.unlink (n := h.outputLinesFlushed) hfifo
      rw [← hall] at this
      exact this
  next hpart =>
      rw [if_neg hpart] at hfifo
      have hnot : ∀ b ∈ q, b ≠ a := fun b hb hba => (List.nodup_cons.mp hq.nodup).1 (hba ▸ hb)
      have hwhole := hq.whole a ha
      constructor
      · exact hq.nodup
      · exact hq.old
      · exact hq.threaded
      · exact hq.tail
      · intro b hb
        show (Function.update h.blocks a _ b).start + (Function.update h.blocks a _ b).length =
          (Function.update h.blocks a _ b).buffer.length
        by_cases hba : b = a
        · subst hba
          simp only [Function.update_self]
          omega
        · simp only [Function.update_of_ne hba]
          exact hq.whole b hb
      · refine hfifo.trans (congrArg some ?_)
        rw [List.map_cons]
        refine congr (congrArg List.cons ?_) (List.map_congr_left fun b hb => ?_)
        · show _ = ((Function.update h.blocks a _ a).buffer.drop (Function.update h.blocks a _ a).start)
          simp only [Function.update_self]
          rw [Output.left, List.drop_drop]
        · show _ = ((Function.update h.blocks a _ b).buffer.drop (Function.update h.blocks a _ b).start)
          simp only [Function.update_of_ne (hnot b hb)]
          rfl
      · show h.outputLength - count =
          (((a :: q).map fun b => (Function.update h.blocks a _ b).length).sum : Nat)
        have hrest : (q.map fun b => (Function.update h.blocks a
            { h.blocks a with
              start := (h.blocks a).start + count
              length := (h.blocks a).length - count } b).length) =
            q.map fun b => (h.blocks b).length :=
          List.map_congr_left fun b hb => by rw [Function.update_of_ne (hnot b hb)]
        rw [List.map_cons, hrest, List.sum_cons, Function.update_self, hq.length, List.map_cons,
          List.sum_cons]
        show _ = (((h.blocks a).length - count + _ : Nat) : Int)
        omega

/-- The first block is thrown away. -/
theorem Holds.flushBlock (hq : h.Holds (a :: q)) : Holds (h.flushBlock a) q := by
  refine hq.unlink (n := h.outputLinesFlushed + 1) ?_
  rw [fifo_concat, hq.fifo]
  exact if_pos rfl

/-- A block comes behind the others. -/
theorem Holds.addBlock (hq : h.Holds q) (htail : h.outputTail = slotAfter q) (buffer : Str) :
    Holds (h.addBlock buffer) (q ++ [h.nextBlock]) := by
  have hnew : h.nextBlock ∉ q := fun hmem => Nat.lt_irrefl _ (hq.old _ hmem)
  have hne : ∀ b ∈ q, b ≠ h.nextBlock := fun b hb heq => hnew (heq ▸ hb)
  have hself : (h.addBlock buffer).blocks h.nextBlock =
      { buffer, start := 0, length := buffer.length } := Function.update_self ..
  have hother : ∀ b ∈ q, (h.addBlock buffer).blocks b = h.blocks b :=
    fun b hb => Function.update_of_ne (hne b hb) ..
  constructor
  · exact hq.nodup.append (List.nodup_singleton _) fun b hb hb' => hne b hb (List.mem_singleton.mp hb')
  · intro b hb
    rcases List.mem_append.mp hb with hb | hb
    · exact Nat.lt_succ_of_lt (hq.old b hb)
    · exact List.mem_singleton.mp hb ▸ Nat.lt_succ_self _
  · show Threaded ((h.links.set (.link h.nextBlock) none).set h.outputTail (some h.nextBlock)) _
    rw [htail]
    refine Threaded.concat (e := []) ?_ hnew hq.nodup (get_set_self _ (.link h.nextBlock) none)
    rw [List.append_nil]
    exact hq.threaded.set_link hnew none
  · intro _
    exact (slotAfter_concat q _).symm
  · intro b hb
    rcases List.mem_append.mp hb with hb | hb
    · rw [hother b hb]
      exact hq.whole b hb
    · rw [List.mem_singleton.mp hb, hself]
      exact Nat.zero_add _
  · show Network.fifo (h.log ++ [.enqueued buffer]) = _
    rw [fifo_concat, hq.fifo, List.map_append]
    refine congrArg some (congr (congrArg _ (List.map_congr_left fun b hb => ?_)) ?_)
    · rw [Output.left, Output.left, hother b hb]
    · show [buffer] = [(h.addBlock buffer).left h.nextBlock]
      rw [Output.left, hself]
      rfl
  · show h.outputLength + buffer.length = _
    have hrest : (q.map fun b => ((h.addBlock buffer).blocks b).length) =
        q.map fun b => (h.blocks b).length :=
      List.map_congr_left fun b hb => by rw [hother b hb]
    rw [List.map_append, hrest, List.sum_append, hq.length]
    show _ = ((_ + (((h.addBlock buffer).blocks h.nextBlock).length + 0) : Nat) : Int)
    rw [hself]
    show _ = ((_ + (buffer.length + 0) : Nat) : Int)
    omega

/-- Something is noted that does not change what is queued. -/
theorem Holds.logged {e : OutputLog} (hq : h.Holds q)
    (he : Fifo.step (q.map h.left) e = some (q.map h.left)) (n : Nat) :
    Holds { h with log := h.log ++ [e], outputLinesFlushed := n } q := by
  refine ⟨hq.nodup, hq.old, hq.threaded, hq.tail, hq.whole, ?_, hq.length⟩
  show Network.fifo (h.log ++ [e]) = _
  rw [fifo_concat, hq.fifo]
  exact he

/-! ## The loops -/

/-- What has been thrown away and not told of is what the counter says. -/
def Told (h : Output) : Prop := unannounced h.log = some h.outputLinesFlushed

/-- What becomes of the account of the lines that are thrown away; `good` says that no notice
    has been written in part. -/
structure Tells (good : Prop) (h h' : Output) : Prop where
  told : good → h.Told → h'.Told
  untold : unannounced h.log = none ∨ ¬ good → unannounced h'.log = none

/-- From `h` to `h'` blocks have been written or thrown away, and no line has come. -/
structure Drained (good : Prop) (h h' : Output) : Prop extends Tells good h h' where
  length : h'.outputLength ≤ h.outputLength
  lastLine : lastLine h'.log = lastLine h.log

theorem Tells.trans {good : Prop} {h h' h'' : Output} (h1 : Tells good h h')
    (h2 : Tells True h' h'') : Tells good h h'' where
  told := fun hgood htold => h2.told trivial (h1.told hgood htold)
  untold := fun hun => h2.untold (.inl (h1.untold hun))

/-- One more entry of the history. -/
theorem Tells.concat {good : Prop} {h h' : Output} {e : OutputLog} (hlog : h'.log = h.log ++ [e])
    (hgood : good → Unannounced.step h.outputLinesFlushed e = some h'.outputLinesFlushed)
    (hbad : ¬ good → ∀ n, Unannounced.step n e = none) : Tells good h h' := by
  constructor
  · intro hg htold
    rw [Told, hlog, unannounced_concat, htold]
    exact hgood hg
  · intro hun
    rw [hlog, unannounced_concat]
    cases hn : unannounced h.log with
    | none => rfl
    | some n => exact hbad (hun.resolve_left fun hnone => nomatch hn.symm.trans hnone) n

theorem Drained.trans {good : Prop} {h h' h'' : Output} (h1 : Drained good h h')
    (h2 : Drained True h' h'') : Drained good h h'' where
  toTells := h1.toTells.trans h2.toTells
  length := Int.le_trans h2.length h1.length
  lastLine := h2.lastLine.trans h1.lastLine

theorem Drained.same {h h' : Output} (hlength : h'.outputLength = h.outputLength)
    (hlog : h'.log = h.log) (hflushed : h'.outputLinesFlushed = h.outputLinesFlushed) :
    Drained True h h' := by
  constructor
  · constructor
    · rintro - htold
      rw [Told, hlog, hflushed]
      exact htold
    · intro hun
      rw [hlog]
      exact hun.resolve_right (not_not_intro trivial)
  · exact Int.le_of_eq hlength
  · rw [hlog]

theorem wroteBlock_same (h : Output) (a : BlockPtr) (count : Nat) :
    (h.wroteBlock a count).outputLinesFlushed = h.outputLinesFlushed ∧
      (h.wroteBlock a count).outputLength = h.outputLength - count ∧
      (h.wroteBlock a count).log = h.log ++ [.text ((h.left a).take count)] := by
  rw [wroteBlock]
  split
  · exact ⟨rfl, rfl, rfl⟩
  · exact ⟨rfl, rfl, rfl⟩

theorem wroteBlock_drained (a : BlockPtr) (count : Nat) (hzero : h.outputLinesFlushed = 0) :
    Drained True h (h.wroteBlock a count) := by
  obtain ⟨hflushed, hlength, hlog⟩ := wroteBlock_same h a count
  constructor
  · refine .concat hlog (fun _ => ?_) fun hnot => absurd trivial hnot
    rw [hflushed]
    exact if_pos hzero
  · omega
  · rw [hlog, lastLine_concat]

theorem flushBlock_drained (h : Output) (a : BlockPtr) : Drained True h (h.flushBlock a) := by
  constructor
  · exact .concat rfl (fun _ => rfl) fun hnot => absurd trivial hnot
  · show h.outputLength - ((h.blocks a).length : Int) ≤ _
    omega
  · exact lastLine_concat h.log _

/-- The fields say what is queued. -/
def Sound (h : Output) (q : List BlockPtr) : Prop := h.Holds q ∧ h.outputTail = slotAfter q

theorem Holds.sound (hq : h.Holds q) (hne : q ≠ []) : h.Sound q := ⟨hq, hq.tail hne⟩

/-- `h->output_tail = &(h->output_head)`, when there are no blocks. -/
theorem Holds.resetTail (hq : h.Holds []) : Sound { h with outputTail := .head } [] :=
  ⟨⟨hq.nodup, hq.old, hq.threaded, fun hne => absurd rfl hne, hq.whole, hq.fifo, hq.length⟩, rfl⟩

theorem Holds.head (hq : h.Holds q) : h.links.head = q.head? := hq.threaded.head

/-- The blocks are written. -/
theorem Holds.pushBlocks {results : List WriteResult} {ok : Bool} (hq : h.Holds q)
    (hzero : h.outputLinesFlushed = 0) (hpush : h.pushBlocks results = some (h', ok)) :
    (∃ q', h'.Sound q') ∧ Drained True h h' := by
  induction results generalizing h q with
  | nil =>
      cases q with
      | nil =>
          simp only [Output.pushBlocks, hq.head, List.head?_nil, Option.some.injEq, Prod.mk.injEq] at hpush
          obtain ⟨rfl, -⟩ := hpush
          exact ⟨⟨[], hq.resetTail⟩, Drained.same rfl rfl rfl⟩
      | cons a q =>
          simp only [Output.pushBlocks, hq.head, List.head?_cons] at hpush
          exact nomatch hpush
  | cons r results ih =>
      cases q with
      | nil =>
          simp only [Output.pushBlocks, hq.head, List.head?_nil] at hpush
          exact nomatch hpush
      | cons a q =>
          have hsound : h.Sound (a :: q) := hq.sound (List.cons_ne_nil a q)
          cases r with
          | again =>
              simp only [Output.pushBlocks, hq.head, List.head?_cons] at hpush
              obtain ⟨-, heq⟩ := Option.ite_none_right_eq_some.mp hpush
              cases heq
              exact ⟨⟨_, hsound⟩, .same rfl rfl rfl⟩
          | error =>
              simp only [Output.pushBlocks, hq.head, List.head?_cons] at hpush
              obtain ⟨-, heq⟩ := Option.ite_none_right_eq_some.mp hpush
              cases heq
              exact ⟨⟨_, hsound⟩, .same rfl rfl rfl⟩
          | wrote count =>
              simp only [Output.pushBlocks, hq.head, List.head?_cons] at hpush
              obtain ⟨hcount, hpush⟩ := Option.ite_none_right_eq_some.mp hpush
              have hzero' : (h.wroteBlock a count).outputLinesFlushed = 0 :=
                (wroteBlock_same h a count).1.trans hzero
              obtain ⟨hq', hdrained⟩ := ih (hq.wroteBlock hcount) hzero' hpush
              exact ⟨hq', (wroteBlock_drained a count hzero).trans hdrained⟩

/-- Blocks are thrown away until there is room. -/
theorem Holds.flushBlocks {fuel : Nat} (hq : h.Holds q) (hfuel : q.length ≤ fuel) (toFlush : Int) :
    ∃ h' q', h.flushBlocks fuel toFlush = some h' ∧ h'.Holds q' ∧
      (q' = [] ∨ h'.outputLength + (toFlush - h.outputLength) ≤ 0) ∧ Drained True h h' := by
  induction q generalizing h fuel toFlush with
  | nil =>
      refine ⟨h, [], ?_, hq, .inl rfl, .same rfl rfl rfl⟩
      rw [Output.flushBlocks]
      simp only [hq.head, List.head?_nil, ite_self]
  | cons a q ih =>
      rw [Output.flushBlocks]
      by_cases hroom : 0 < toFlush
      · obtain ⟨fuel, rfl⟩ : ∃ n, fuel = n + 1 := Nat.exists_eq_add_of_lt (Nat.lt_of_lt_of_le
          (Nat.zero_lt_succ _) hfuel) |>.imp fun n hn => by omega
        obtain ⟨h', q', heq, hq', hlen, hdrained⟩ :=
          ih hq.flushBlock (Nat.le_of_succ_le_succ hfuel) (toFlush - (h.blocks a).length)
        refine ⟨h', q', ?_, hq', ?_,
          (flushBlock_drained h a).trans hdrained⟩
        · simp only [if_pos hroom, hq.head, List.head?_cons]
          exact heq
        · refine hlen.imp_right fun hlen => ?_
          have hless : (h.flushBlock a).outputLength = h.outputLength - (h.blocks a).length := rfl
          omega
      · refine ⟨h, a :: q, if_neg hroom, hq, .inr ?_, .same rfl rfl rfl⟩
        omega

/-! ## The calls -/

/-- The first `write` takes the notice as a whole, or nothing of it, when there is one to be
    written. -/
def wholeNotice (eol : Str) (results : List WriteResult) (h : Output) : Prop :=
  0 < h.outputLinesFlushed → ∀ count, results.head? = some (.wrote count) →
    count = 0 ∨ count = (notice eol h.outputLinesFlushed).length

theorem Sound.pushOutput {eol : Str} {results : List WriteResult} {ok : Bool} (hs : h.Sound q)
    (hpush : h.pushOutput eol results = some (h', ok)) :
    (∃ q', h'.Sound q') ∧ Drained (h.wholeNotice eol results) h h' := by
  rw [Output.pushOutput] at hpush
  by_cases hpos : 0 < h.outputLinesFlushed
  · rw [if_pos hpos] at hpush
    have hunwritten : ∀ r : WriteResult, (∀ count, r ≠ .wrote count) →
        h.wholeNotice eol [r] := by
      intro r hr _ count hcount
      exact absurd (Option.some.inj hcount) (hr count)
    cases results with
    | nil => exact nomatch hpush
    | cons r results =>
        cases r with
        | again =>
            obtain ⟨rfl, heq⟩ := Option.ite_none_right_eq_some.mp hpush
            cases heq
            have hgood := hunwritten .again fun count heq => nomatch heq
            exact ⟨⟨q, hs⟩, by simpa only [hgood] using Drained.same rfl rfl rfl⟩
        | error =>
            obtain ⟨rfl, heq⟩ := Option.ite_none_right_eq_some.mp hpush
            cases heq
            have hgood := hunwritten .error fun count heq => nomatch heq
            exact ⟨⟨q, hs⟩, by simpa only [hgood] using Drained.same rfl rfl rfl⟩
        | wrote count =>
            simp only at hpush
            split at hpush
            next hall =>
                have hgood : h.wholeNotice eol (.wrote count :: results) := by
                  intro _ n hn
                  cases hn
                  exact .inr hall
                have hq := hs.1.logged (e := .notice h.outputLinesFlushed) rfl 0
                obtain ⟨hq', hdrained⟩ := hq.pushBlocks rfl hpush
                have hnotice : Drained True h
                    { h with
                      log := h.log ++ [.notice h.outputLinesFlushed]
                      outputLinesFlushed := 0 } := by
                  constructor
                  · exact .concat rfl (fun _ => if_pos ⟨rfl, hpos⟩) fun hnot => absurd trivial hnot
                  · exact Int.le_refl _
                  · exact lastLine_concat h.log _
                exact ⟨hq', by simpa only [hgood] using hnotice.trans hdrained⟩
            next hpart =>
                obtain ⟨⟨hless, rfl⟩, heq⟩ := Option.ite_none_right_eq_some.mp hpush
                cases heq
                have hq := hs.1.logged (e := .noticePart h.outputLinesFlushed count) rfl
                  h.outputLinesFlushed
                have hgood : h.wholeNotice eol [.wrote count] ↔ count = 0 := by
                  constructor
                  · intro hw
                    exact (hw hpos count rfl).resolve_right hpart
                  · intro hzero _ n hn
                    cases hn
                    exact .inl hzero
                refine ⟨⟨q, hq, hs.2⟩, ?_⟩
                constructor
                · exact .concat rfl (fun hw => if_pos (hgood.mp hw))
                    fun hw n => if_neg fun hzero => hw (hgood.mpr hzero)
                · exact Int.le_refl _
                · exact lastLine_concat h.log _
  · rw [if_neg hpos] at hpush
    have hgood : h.wholeNotice eol results := fun h => absurd h hpos
    obtain ⟨hq', hdrained⟩ := hs.1.pushBlocks (Nat.eq_zero_of_not_pos hpos) hpush
    exact ⟨hq', by simpa only [hgood] using hdrained⟩

theorem Holds.count_le (hq : h.Holds q) : q.length ≤ h.nextBlock := by
  have hsub : q ⊆ List.range h.nextBlock := fun a ha => List.mem_range.mpr (hq.old a ha)
  have := (hq.nodup.subperm hsub).length_le
  rw [List.length_range] at this
  exact this

/-- The length of what is queued is bounded by `MAX_QUEUED_OUTPUT` and by the line that has
    come last. -/
def Bounded (h : Output) : Prop :=
  ∀ line, lastLine h.log = some line → h.outputLength ≤ max maxQueuedOutput line.length

theorem Drained.bounded {good : Prop} (hd : Drained good h h') (hb : h.Bounded) : h'.Bounded := by
  intro line hline
  rw [hd.lastLine] at hline
  exact Int.le_trans hd.length (hb line hline)

theorem addBlock_bounded (buffer : Str)
    (hroom : h.outputLength = 0 ∨ h.outputLength + buffer.length ≤ maxQueuedOutput) :
    (h.addBlock buffer).Bounded := by
  intro line hline
  have hline : lastLine (h.log ++ [.enqueued buffer]) = some line := hline
  rw [lastLine_concat] at hline
  obtain rfl := Option.some.inj hline
  show h.outputLength + buffer.length ≤ _
  omega

/-- Everything that is kept up by the calls. -/
structure Kept (h : Output) : Prop where
  sound : ∃ q, h.Sound q
  bounded : h.Bounded

theorem Sound.kept_addBlock (hs : h.Sound q) (buffer : Str)
    (hroom : h.outputLength = 0 ∨ h.outputLength + buffer.length ≤ maxQueuedOutput) :
    (h.addBlock buffer).Kept ∧ Tells True h (h.addBlock buffer) := by
  refine ⟨⟨⟨_, hs.1.addBlock hs.2 buffer, ?_⟩, addBlock_bounded buffer hroom⟩, ?_⟩
  · exact (slotAfter_concat q _).symm
  · exact .concat rfl (fun _ => rfl) fun hnot => absurd trivial hnot

theorem Kept.enqueueOutput {eol line : Str} {addEol flushOk ok : Bool} {results : List WriteResult}
    (hk : h.Kept) (hcall : h.enqueueOutput eol line addEol flushOk results = some (h', ok)) :
    h'.Kept ∧ Tells (h.wholeNotice eol results) h h' := by
  obtain ⟨⟨q, hs⟩, hb⟩ := hk
  simp only [Output.enqueueOutput] at hcall
  generalize line ++ (if addEol = true then eol else []) = buffer at hcall
  by_cases hfull : h.outputLength ≠ 0 ∧ maxQueuedOutput < h.outputLength + buffer.length
  · rw [if_pos hfull] at hcall
    obtain ⟨⟨h1, ok1⟩, hpush, hcall⟩ := Option.bind_eq_some_iff.mp hcall
    obtain ⟨⟨q1, hs1⟩, hd1⟩ := hs.pushOutput hpush
    simp only at hcall
    split at hcall
    next =>
        cases hcall
        exact ⟨⟨⟨q1, hs1⟩, hd1.bounded hb⟩, hd1.toTells⟩
    next =>
        obtain ⟨h2, q2, hflush, hq2, hlen, hd2⟩ :=
          hs1.1.flushBlocks hs1.1.count_le (h1.outputLength + buffer.length - maxQueuedOutput)
        simp only [hflush, Option.bind_eq_bind, Option.bind_some, Option.some.injEq,
          Prod.mk.injEq] at hcall
        have hd := hd1.trans hd2
        have hroom : h2.outputLength = 0 ∨ h2.outputLength + buffer.length ≤ maxQueuedOutput := by
          rcases hlen with rfl | hlen
          · exact .inl hq2.length
          · exact .inr (by omega)
        cases q2 with
        | nil =>
            have hhead : h2.links.head = none := hq2.head
            rw [if_pos hhead] at hcall
            obtain ⟨rfl, -⟩ := hcall
            have hsame : Drained True h2 { h2 with outputTail := .head } := .same rfl rfl rfl
            obtain ⟨hk, htells⟩ := hq2.resetTail.kept_addBlock buffer hroom
            exact ⟨hk, (hd.trans hsame).toTells.trans htells⟩
        | cons a q2 =>
            have hhead : h2.links.head ≠ none := by
              rw [hq2.head]
              exact Option.some_ne_none a
            rw [if_neg hhead] at hcall
            obtain ⟨rfl, -⟩ := hcall
            exact ((hq2.sound (List.cons_ne_nil a q2)).kept_addBlock buffer hroom).imp_right
              hd.toTells.trans
  · rw [if_neg hfull] at hcall
    obtain ⟨rfl, heq⟩ := Option.ite_none_right_eq_some.mp hcall
    cases heq
    have hgood : h.wholeNotice eol [] := fun _ count hcount => nomatch hcount
    have hroom : h.outputLength = 0 ∨ h.outputLength + buffer.length ≤ maxQueuedOutput := by
      omega
    exact (hs.kept_addBlock buffer hroom).imp_right fun htells => by simpa only [hgood] using htells

theorem Kept.new (mem : Output) : (Output.new mem).Kept := by
  refine ⟨⟨[], ⟨List.nodup_nil, ?_, ?_, ?_, ?_, rfl, rfl⟩, rfl⟩, ?_⟩
  · exact fun _ ha => nomatch ha
  · exact Threaded.nil_iff.mpr rfl
  · exact fun hne => absurd rfl hne
  · exact fun _ ha => nomatch ha
  · exact fun _ hline => nomatch hline

end Output

/-! ## Any run -/

/-- What `write` gives in a call. -/
def OutputEvent.results : OutputEvent → List WriteResult
  | .push results => results
  | .enqueue _ _ _ results => results

/-- The condition of `output_queue`. -/
def Output.noPart (eol : Str) (h : Output) (e : OutputEvent) : Prop := h.wholeNotice eol e.results

namespace Output

variable {eol : Str} {h h' : Output} {e : OutputEvent} {es : List OutputEvent}

/-- One call. -/
theorem Kept.step (hk : h.Kept) (hstep : Output.step eol e h = some h') :
    h'.Kept ∧ Tells (h.noPart eol e) h h' := by
  cases e with
  | push results =>
      obtain ⟨⟨h1, ok⟩, hpush, rfl⟩ := Option.map_eq_some_iff.mp hstep
      obtain ⟨q, hs⟩ := hk.sound
      obtain ⟨hq', hd⟩ := hs.pushOutput hpush
      exact ⟨⟨hq', hd.bounded hk.bounded⟩, hd.toTells⟩
  | enqueue line addEol flushOk results =>
      obtain ⟨⟨h1, ok⟩, hcall, rfl⟩ := Option.map_eq_some_iff.mp hstep
      exact hk.enqueueOutput hcall

/-- An account that is wrong stays wrong. -/
theorem Kept.run_untold (hrun : Run (ofPart (Output.step eol)) h es h') (hk : h.Kept)
    (hun : unannounced h.log = none) : ¬ h'.Told := by
  have hinv : h'.Kept ∧ unannounced h'.log = none :=
    hrun.invariant
      (fun s e s' (hs : s.Kept ∧ unannounced s.log = none) hstep => by
        obtain ⟨hk', htells⟩ := hs.1.step hstep
        exact ⟨hk', htells.untold (.inl hs.2)⟩)
      ⟨hk, hun⟩
  intro htold
  exact nomatch hinv.2.symm.trans htold

theorem Kept.run_told (hrun : Run (ofPart (Output.step eol)) h es h') (hk : h.Kept) (htold : h.Told) :
    h'.Kept ∧ (h'.Told ↔ Run (guarded (noPart eol) (ofPart (Output.step eol))) h es h') := by
  induction hrun with
  | nil h => exact ⟨hk, iff_of_true htold (.nil h)⟩
  | @cons h e h1 es h' hstep hrun ih =>
      have hstep : Output.step eol e h = some h1 := hstep
      obtain ⟨hk1, htells⟩ := hk.step hstep
      rw [run_guarded_cons_iff hstep]
      by_cases hgood : h.noPart eol e
      · obtain ⟨hk', hiff⟩ := ih hk1 (htells.told hgood htold)
        exact ⟨hk', hiff.trans (and_iff_right hgood).symm⟩
      · have huntold : ¬ h'.Told := hk1.run_untold hrun (htells.untold (.inr hgood))
        have hk' : h'.Kept :=
          hrun.invariant (fun s e s' (hs : Kept s) hstep => (hs.step hstep).1) hk1
        exact ⟨hk', iff_of_false huntold fun hg => hgood hg.1⟩

end Output

/-- Memory in which there is nothing. -/
def Output.memory : Output where
  links := ⟨none, fun _ => none⟩
  blocks := fun _ => ⟨[], 0, 0⟩
  nextBlock := 0
  outputTail := .head
  outputLength := 0
  outputLinesFlushed := 0
  log := []

/-- A line of full length comes, and another one; five bytes of the notice are written, and
    then the notice. -/
def overflowing (line : Str) : List OutputEvent :=
  [.enqueue line false true [], .enqueue [98] false true [.again], .push [.wrote 5],
    .push [.wrote 72, .wrote 1]]

theorem overflowing_run {line : Str} (hl : line.length = 65536) :
    ∃ h, Run (ofPart (Output.step [13, 10])) (Output.new .memory) (overflowing line) h ∧
      h.log = [.enqueued line, .flushed line, .enqueued [98], .noticePart 1 5, .notice 1,
        .text [98]] := by
  -- the states between the calls
  let h1 := (Output.new .memory).addBlock line
  let h2 := ({ h1.flushBlock 0 with outputTail := .head } : Output).addBlock [98]
  let h3 : Output := { h2 with log := h2.log ++ [.noticePart 1 5] }
  let h4 : Output := { h3 with log := h3.log ++ [.notice 1], outputLinesFlushed := 0 }
  have hlen1 : h1.outputLength = 65536 := by
    show (0 : Int) + line.length = 65536
    rw [hl]
    rfl
  have hstep1 : Output.step [13, 10] (.enqueue line false true []) (Output.new .memory) = some h1 := by
    show some ((Output.new .memory).addBlock (line ++ [])) = some h1
    rw [List.append_nil]
  have hstep2 : Output.step [13, 10] (.enqueue [98] false true [.again]) h1 = some h2 := by
    have hfull : h1.outputLength ≠ 0 ∧ maxQueuedOutput < h1.outputLength + 1 := by
      rw [hlen1]
      decide
    have hflush : h1.flushBlocks h1.nextBlock (h1.outputLength + 1 - maxQueuedOutput) =
        some (h1.flushBlock 0) := by
      have hblock : (h1.blocks 0).length = 65536 := hl
      show (if 0 < h1.outputLength + 1 - maxQueuedOutput then
        (h1.flushBlock 0).flushBlocks 0 (h1.outputLength + 1 - maxQueuedOutput - (h1.blocks 0).length)
        else some h1) = _
      rw [hlen1, hblock]
      rfl
    have hpush : h1.pushOutput [13, 10] [.again] = some (h1, true) := rfl
    have hno : ¬ (0 < h1.outputLength + 1 - maxQueuedOutput ∧ true = false) := fun h => nomatch h.2
    show ((h1.enqueueOutput [13, 10] [98] false true [.again]).map Prod.fst) = some h2
    have hcall : h1.enqueueOutput [13, 10] [98] false true [.again] = some (h2, true) := by
      refine (if_pos hfull).trans ?_
      rw [hpush]
      refine (if_neg hno).trans ?_
      show ((h1.flushBlocks h1.nextBlock (h1.outputLength + 1 - maxQueuedOutput)).bind _) = _
      rw [hflush]
      rfl
    rw [hcall]
    rfl
  have hstep3 : Output.step [13, 10] (.push [.wrote 5]) h2 = some h3 := rfl
  have hnotice : (notice [13, 10] 1).length = 72 := by decide
  have hstep4 : Output.step [13, 10] (.push [.wrote 72, .wrote 1]) h3 =
      some { h4.wroteBlock 1 1 with outputTail := .head } := by
    have hone : h3.outputLinesFlushed = 1 := rfl
    have hpush : h3.pushOutput [13, 10] [.wrote 72, .wrote 1] = h4.pushBlocks [.wrote 1] := by
      rw [Output.pushOutput, hone, if_pos Nat.zero_lt_one]
      exact if_pos hnotice.symm
    show (h3.pushOutput [13, 10] [.wrote 72, .wrote 1]).map Prod.fst = _
    rw [hpush]
    rfl
  refine ⟨_, .cons hstep1 (.cons hstep2 (.cons hstep3 (.cons hstep4 (.nil _)))), rfl⟩

theorem overflowing_untold (line : Str) :
    unannounced [.enqueued line, .flushed line, .enqueued [98], .noticePart 1 5, .notice 1,
      .text [98]] = none := rfl

end Waverous.Network
