import Waverous.InputQueue
import Waverous.TaskQueues

/-! # What the links of the input queue thread — `tasks.c`

    `Queued` is the representation invariant.  Lines are added and taken away by a few
    stores into slots; for each of them it is said which list the links thread after it,
    and the ends of the runs are followed by cases on what stands beside the place. -/

namespace Waverous.Tasks

open TailedList

namespace InputQueue

/-- The links are those of a queue of the tasks. -/
structure Woven (iq : InputQueue) (l : List TaskPtr) : Prop where
  input : Threaded iq.input l
  /-- the address of the final null link -/
  lastInput : iq.lastInput = slotAfter l
  /-- the last tasks of the runs of out-of-band and of other lines -/
  itail : Threaded iq.itail (runEnds iq.isOob l)
  /-- the address of the slot that holds the last of them -/
  lastItail : iq.lastItail = slotAfter (runEnds iq.isOob l).dropLast

/-- The queue holds the tasks, in their order. -/
structure Queued (iq : InputQueue) (l : List TaskPtr) : Prop extends Woven iq l where
  nodup : l.Nodup
  fresh : ∀ t ∈ l, t < iq.nextTask
  length : ∀ t ∈ l, iq.length t = (iq.string t).length
  total : iq.totalInputLength = (l.map iq.length).sum

theorem create_queued (mem : InputQueue) : Queued (create mem) [] where
  nodup := List.nodup_nil
  fresh := fun _ h => nomatch h
  input := Threaded.nil_iff.mpr rfl
  lastInput := rfl
  itail := Threaded.nil_iff.mpr rfl
  lastItail := rfl
  length := fun _ h => nomatch h
  total := rfl

variable {iq iq' : InputQueue} {l d e es r : List TaskPtr} {t x : TaskPtr} {pt pitail : Slot TaskPtr}

theorem Queued.ends_nodup (h : Queued iq l) : (runEnds iq.isOob l).Nodup :=
  (runEnds_sublist l).nodup h.nodup

/-! ## Taking a task out -/

/-- What `unlinkInput` leaves alone. -/
theorem unlinkInput_frame (t : TaskPtr) (pt : Slot TaskPtr) (iq : InputQueue) :
    ∃ input lastInput, unlinkInput t pt iq = { iq with input, lastInput } := by
  simp only [unlinkInput]
  split
  · exact ⟨_, _, rfl⟩
  · exact ⟨_, _, rfl⟩

/-- The list of lines, without the task. -/
theorem unlinkInput_spec (h : Threaded iq.input (d ++ t :: e)) (hnodup : (d ++ t :: e).Nodup)
    (hlast : iq.lastInput = slotAfter (d ++ t :: e)) :
    Threaded (unlinkInput t (slotAfter d) iq).input (d ++ e) ∧
      (unlinkInput t (slotAfter d) iq).lastInput = slotAfter (d ++ e) := by
  have herase := h.erase hnodup
  have hnext := h.next
  simp only [unlinkInput]
  cases e with
  | nil =>
      rw [hnext] at herase ⊢
      refine ⟨herase, ?_⟩
      rw [List.append_nil]
      rfl
  | cons b e =>
      have ht : t ∉ d ++ b :: e := (List.nodup_cons.mp (List.perm_middle.nodup_iff.mp hnodup)).1
      rw [hnext] at herase ⊢
      refine ⟨herase.set_link ht none, ?_⟩
      show iq.lastInput = _
      rw [hlast, slotAfter_append d (List.cons_ne_nil t _), slotAfter_append d (List.cons_ne_nil b e),
        slotAfter_cons t (List.cons_ne_nil b e)]

/-- The slot of the last end of a run, after the removal. -/
theorem last_or_head {itail : Links TaskPtr} {last : Slot TaskPtr} (h : Threaded itail es)
    (hold : itail.get last = none ∧ es.dropLast = [] ∨
      last = slotAfter es.dropLast ∧ es.dropLast ≠ []) :
    (if itail.get last = none then .head else last) = slotAfter es.dropLast := by
  rcases hold with ⟨hnone, hes⟩ | ⟨rfl, hes⟩
  · rw [if_pos hnone, hes]
    rfl
  · have hne : es ≠ [] := by
      rintro rfl
      exact hes rfl
    have hget := h es.dropLast [es.getLast hne] (List.dropLast_append_getLast hne).symm
    rw [if_neg (by rw [hget]; exact fun hc => nomatch hc)]

/-- The first task was a run of its own. -/
theorem unlinkItail_first (iq : InputQueue) (h : Threaded iq.itail (t :: es)) (hnodup : (t :: es).Nodup)
    (hlast : iq.lastItail = slotAfter (t :: es).dropLast) :
    Threaded (unlinkItail t .head iq).itail es ∧
      (unlinkItail t .head iq).lastItail = slotAfter es.dropLast := by
  have hnext : iq.itail.next t = es.head? :=
    (show Threaded iq.itail ([] ++ t :: es) from h).next
  have ht : t ∉ es := (List.nodup_cons.mp hnodup).1
  have herase : Threaded (iq.itail.set .head (iq.itail.next t)) es := h.erase (d := []) hnodup
  rw [hnext] at herase
  have hnext' : (iq.itail.set .head none).next t = es.head? := hnext
  simp only [unlinkItail, hnext']
  cases es with
  | nil =>
      refine ⟨herase, last_or_head herase (.inl ⟨?_, rfl⟩)⟩
      rw [hlast]
      rfl
  | cons e es =>
      have hthread : Threaded (((iq.itail.set .head none).set .head (some e)).set (.link t) none)
          (e :: es) := herase.set_link ht none
      refine ⟨hthread, last_or_head hthread ?_⟩
      cases es with
      | nil =>
          refine .inl ⟨?_, rfl⟩
          rw [hlast]
          exact get_set_self _ _ _
      | cons e' es =>
          refine .inr ⟨?_, List.cons_ne_nil _ _⟩
          rw [hlast]
          exact slotAfter_cons t (List.cons_ne_nil _ _)

/-- The second run was one task: the runs beside it become one. -/
theorem unlinkItail_second (iq : InputQueue) (h : Threaded iq.itail (x :: t :: es)) (hnodup : (x :: t :: es).Nodup)
    (hlast : iq.lastItail = slotAfter (x :: t :: es).dropLast) :
    let es' := if es = [] then [x] else es
    Threaded (unlinkItail t (.link x) iq).itail es' ∧
      (unlinkItail t (.link x) iq).lastItail = slotAfter es'.dropLast := by
  have hxt : x ≠ t := fun hxt => (List.nodup_cons.mp hnodup).1 (hxt ▸ List.mem_cons_self)
  have hxes : x ∉ es := fun hx => (List.nodup_cons.mp hnodup).1 (List.mem_cons_of_mem t hx)
  have ht : t ∉ es := (List.nodup_cons.mp (List.nodup_cons.mp hnodup).2).1
  have hnext : iq.itail.next t = es.head? :=
    (show Threaded iq.itail ([x] ++ t :: es) from h).next
  have hnext' : (iq.itail.set (.link x) none).next t = es.head? := by
    rw [← hnext]
    exact set_link_next_ne iq.itail none hxt.symm
  simp only [unlinkItail, hnext']
  cases es with
  | nil =>
      have hthread : Threaded (iq.itail.set (.link x) none) [x] := by
        have := h.erase (d := [x]) (e := []) hnodup
        rw [hnext] at this
        exact this
      refine ⟨hthread, last_or_head hthread (.inl ⟨?_, rfl⟩)⟩
      rw [hlast]
      exact get_set_self iq.itail (.link x) none
  | cons e es =>
      have hthread : Threaded (((iq.itail.set (.link x) none).set .head (some e)).set (.link t) none)
          (e :: es) := by
        have h1 := h.erase (d := []) hnodup
        have h2 := h1.erase (d := []) (List.nodup_cons.mp hnodup).2
        refine h2.congr ?_ fun a ha => ?_
        · show some e = iq.itail.next t
          rw [hnext]
          rfl
        · have hax : a ≠ x := fun hax => hxes (hax ▸ ha)
          have hat : a ≠ t := fun hat => ht (hat ▸ ha)
          exact (set_link_next_ne _ none hat).trans (set_link_next_ne iq.itail none hax)
      refine ⟨hthread, last_or_head hthread ?_⟩
      cases es with
      | nil =>
          refine .inl ⟨?_, rfl⟩
          rw [hlast]
          exact get_set_self _ _ _
      | cons e' es =>
          refine .inr ⟨?_, List.cons_ne_nil _ _⟩
          rw [hlast]
          show slotAfter (x :: t :: e :: (e' :: es).dropLast) = slotAfter (e :: (e' :: es).dropLast)
          rw [slotAfter_cons x (List.cons_ne_nil _ _), slotAfter_cons t (List.cons_ne_nil _ _)]

/-! ## `dequeue_input_task` -/

/-- The task has been taken out of the queue, and its line is what is handed over. -/
structure TakenOut (iq : InputQueue) (t : TaskPtr) (l : List TaskPtr) (iq' : InputQueue) : Prop where
  queued : Queued iq' l
  others : ∀ a, a ≠ t → iq'.line a = iq.line a
  line : iq'.line t = (iq.line t).dequeued iq.disableOob
  disableOob : iq'.disableOob = iq.disableOob
  nextTask : iq'.nextTask = iq.nextTask
  total : iq'.totalInputLength = iq.totalInputLength - iq.length t
  connected : iq'.connected = iq.connected
  suspended : iq'.inputSuspended = (account t iq).inputSuspended

theorem handOver_spec (t : TaskPtr) (iq : InputQueue) :
    ∃ kind string, handOver t iq = { iq with kind, string } ∧
      (∀ a, a ≠ t → kind a = iq.kind a ∧ string a = iq.string a) ∧
      ({ kind := kind t, string := string t } : InputTask) = (iq.line t).dequeued iq.disableOob := by
  simp only [handOver, InputTask.dequeued, line]
  cases hk : iq.kind t with
  | oob =>
      by_cases hd : iq.disableOob = true
      · simp only [if_pos hd]
        refine ⟨Function.update iq.kind t .inband, iq.string, rfl, fun a ha => ?_, ?_⟩
        · exact ⟨Function.update_of_ne ha _ _, rfl⟩
        · rw [Function.update_self]
      · simp only [if_neg hd]
        exact ⟨iq.kind, iq.string, rfl, fun _ _ => ⟨rfl, rfl⟩, by rw [hk]⟩
  | quoted =>
      refine ⟨Function.update iq.kind t .inband, _, rfl, fun a ha => ⟨Function.update_of_ne ha _ _, ?_⟩, ?_⟩
      · split
        · rfl
        · exact Function.update_of_ne ha _ _
      · rw [Function.update_self]
        split
        · rfl
        · rw [Function.update_self]
  | inband => exact ⟨iq.kind, iq.string, rfl, fun _ _ => ⟨rfl, rfl⟩, by rw [hk]⟩
  | binary => exact ⟨iq.kind, iq.string, rfl, fun _ _ => ⟨rfl, rfl⟩, by rw [hk]⟩

/-- With the links in place, the rest of the call keeps the account of lengths. -/
theorem Queued.takenOut (h : Queued iq (d ++ t :: e)) {input itail : Links TaskPtr}
    {lastInput lastItail : Slot TaskPtr}
    (hw : Woven { iq with input, itail, lastInput, lastItail } (d ++ e)) :
    TakenOut iq t (d ++ e)
      (handOver t (account t { iq with input, itail, lastInput, lastItail })) := by
  obtain ⟨kind, string, heq, hothers, hline⟩ :=
    handOver_spec t (account t { iq with input, itail, lastInput, lastItail })
  have hperm : (d ++ t :: e).Perm (t :: (d ++ e)) := List.perm_middle
  obtain ⟨ht, hnodup⟩ := List.nodup_cons.mp (hperm.nodup_iff.mp h.nodup)
  have hold : ∀ a ∈ d ++ e, a ≠ t := by
    rintro a ha rfl
    exact ht ha
  have hmem : ∀ a ∈ d ++ e, a ∈ d ++ t :: e := fun a ha =>
    hperm.mem_iff.mpr (List.mem_cons_of_mem t ha)
  rw [heq]
  have hends : runEnds (fun a => decide (kind a = .oob)) (d ++ e) = runEnds iq.isOob (d ++ e) := by
    refine runEnds_congr fun a ha => ?_
    show decide (kind a = .oob) = decide (iq.kind a = .oob)
    rw [(hothers a (hold a ha)).1]
    rfl
  refine ⟨⟨⟨hw.input, hw.lastInput, ?_, ?_⟩, hnodup, fun a ha => h.fresh a (hmem a ha), ?_, ?_⟩,
    fun a ha => ?_, hline, rfl, rfl, rfl, rfl, rfl⟩
  · show Threaded itail (runEnds (fun a => decide (kind a = .oob)) (d ++ e))
    rw [hends]
    exact hw.itail
  · show lastItail = slotAfter (runEnds (fun a => decide (kind a = .oob)) (d ++ e)).dropLast
    rw [hends]
    exact hw.lastItail
  · intro a ha
    show iq.length a = (string a).length
    rw [(hothers a (hold a ha)).2]
    exact h.length a (hmem a ha)
  · show iq.totalInputLength - iq.length t = ((d ++ e).map iq.length).sum
    rw [h.total]
    simp only [List.map_append, List.map_cons, List.sum_append, List.sum_cons]
    omega
  · show ({ kind := kind a, string := string a } : InputTask) = _
    rw [(hothers a ha).1, (hothers a ha).2]
    rfl

/-- The first task is taken out. -/
theorem Queued.unlink_first (h : Queued iq (t :: e)) :
    ∃ iq', unlink .head .head iq = (some t, iq') ∧ TakenOut iq t e iq' := by
  have hget : iq.input.get .head = some t := h.input.head
  obtain ⟨input, lastInput, hframe⟩ := unlinkInput_frame t .head iq
  obtain ⟨hin, hlast⟩ := unlinkInput_spec (d := []) h.input h.nodup h.lastInput
  rw [slotAfter_nil, hframe] at hin hlast
  have ht : t ∉ e := (List.nodup_cons.mp h.nodup).1
  have hunlink : unlink .head .head iq = (some t, handOver t (account t
      (if iq.itail.get .head = some t then unlinkItail t .head { iq with input, lastInput }
      else { iq with input, lastInput }))) := by
    simp only [unlink, hget, hframe]
  refine ⟨_, hunlink, ?_⟩
  have hitail := h.itail
  have hlastItail := h.lastItail
  have hends := h.ends_nodup
  have hhead : iq.itail.head = (runEnds iq.isOob (t :: e)).head? := hitail.head
  -- is the first task a run of its own?
  by_cases hrun : runEnds iq.isOob (t :: e) = t :: runEnds iq.isOob e
  · rw [hrun] at hitail hlastItail hends hhead
    obtain ⟨h1, h2⟩ := unlinkItail_first { iq with input, lastInput } hitail hends hlastItail
    rw [if_pos (show iq.itail.get .head = some t from hhead)]
    exact h.takenOut (d := []) ⟨hin, hlast, h1, h2⟩
  · have hsame : runEnds iq.isOob (t :: e) = runEnds iq.isOob e := by
      cases e with
      | nil => exact absurd rfl hrun
      | cons b e =>
          refine runEnds_cons_same ?_
          by_contra hne
          exact hrun (runEnds_cons_other hne)
    rw [hsame] at hitail hlastItail hhead
    rw [if_neg]
    · exact h.takenOut (d := []) ⟨hin, hlast, hitail, hlastItail⟩
    · intro hc
      have hmem : t ∈ runEnds iq.isOob e := List.mem_of_mem_head? (hhead.symm.trans hc)
      exact ht ((runEnds_sublist e).subset hmem)

/-- The first task behind the first run is taken out. -/
theorem Queued.unlink_second {k : Bool} (h : Queued iq (r ++ x :: t :: e))
    (hr : ∀ a ∈ r, iq.isOob a = k) (hx : iq.isOob x = k) (ht : iq.isOob t ≠ k) :
    ∃ iq', unlink (.link x) (.link x) iq = (some t, iq') ∧ TakenOut iq t (r ++ x :: e) iq' := by
  have hsplit : r ++ x :: t :: e = (r ++ [x]) ++ t :: e := by rw [List.append_assoc]; rfl
  have hsplit' : r ++ x :: e = (r ++ [x]) ++ e := by rw [List.append_assoc]; rfl
  have hends := h.ends_nodup
  have hitail := h.itail
  have hlastItail := h.lastItail
  rw [runEnds_append_other hr hx ht] at hends hitail hlastItail
  rw [hsplit] at h
  rw [hsplit']
  have hget : iq.input.get (.link x) = some t := by
    have := h.input (r ++ [x]) (t :: e) rfl
    rw [slotAfter_concat] at this
    exact this
  obtain ⟨input, lastInput, hframe⟩ := unlinkInput_frame t (.link x) iq
  obtain ⟨hin, hlast⟩ := unlinkInput_spec h.input h.nodup h.lastInput
  rw [slotAfter_concat, hframe] at hin hlast
  have hte : t ∉ e := (List.nodup_cons.mp (List.nodup_append.mp h.nodup).2.1).1
  have hunlink : unlink (.link x) (.link x) iq = (some t, handOver t (account t
      (if iq.itail.get (.link x) = some t then unlinkItail t (.link x) { iq with input, lastInput }
      else { iq with input, lastInput }))) := by
    simp only [unlink, hget, hframe]
  refine ⟨_, hunlink, ?_⟩
  have hnext : iq.itail.next x = (runEnds iq.isOob (t :: e)).head? :=
    (show Threaded iq.itail ([] ++ x :: runEnds iq.isOob (t :: e)) from hitail).next
  -- is the task a run of its own?
  by_cases hrun : runEnds iq.isOob (t :: e) = t :: runEnds iq.isOob e
  · rw [hrun] at hitail hlastItail hends hnext
    obtain ⟨h1, h2⟩ := unlinkItail_second { iq with input, lastInput } hitail hends hlastItail
    rw [if_pos (show iq.itail.get (.link x) = some t from hnext)]
    have hmerge : runEnds iq.isOob (r ++ [x] ++ e)
        = if runEnds iq.isOob e = [] then [x] else runEnds iq.isOob e := by
      rw [← hsplit', runEnds_append_same hr hx]
      cases e with
      | nil => rfl
      | cons b e =>
          have hb : iq.isOob b = k := by
            have htb : iq.isOob t ≠ iq.isOob b := fun htb => by
              rw [runEnds_cons_same htb] at hrun
              have := congrArg List.length hrun
              rw [List.length_cons] at this
              omega
            have htwo : ∀ p q k : Bool, p ≠ k → p ≠ q → q = k := by decide
            exact htwo _ _ k ht htb
          have hne : runEnds iq.isOob (b :: e) ≠ [] := fun hc => nomatch runEnds_eq_nil.mp hc
          rw [if_neg hne]
          exact runEnds_cons_same (hx.trans hb.symm)
    rw [← hmerge] at h1 h2
    exact h.takenOut ⟨hin, hlast, h1, h2⟩
  · cases e with
    | nil => exact absurd rfl hrun
    | cons b e =>
        have htb : iq.isOob t = iq.isOob b := by
          by_contra hne
          exact hrun (runEnds_cons_other hne)
        have hends' : runEnds iq.isOob (r ++ [x] ++ b :: e) = x :: runEnds iq.isOob (b :: e) := by
          rw [← hsplit']
          exact runEnds_append_other hr hx (htb ▸ ht)
        rw [runEnds_cons_same htb] at hitail hlastItail hnext
        rw [← hends'] at hitail hlastItail
        rw [if_neg]
        · exact h.takenOut ⟨hin, hlast, hitail, hlastItail⟩
        · intro hc
          have hmem : t ∈ runEnds iq.isOob (b :: e) := List.mem_of_mem_head? (hnext.symm.trans hc)
          exact hte ((runEnds_sublist _).subset hmem)

/-- Whether a call asks for the tasks of a class. -/
def howWants : DequeueHow → Bool → Bool
  | .first, _ => true
  | .oob, oob => oob
  | .inband, oob => !oob

/-- Whether a call asks for the task: with `disable_oob` every line is handled in-band. -/
def requested (iq : InputQueue) (how : DequeueHow) (t : TaskPtr) : Bool :=
  if iq.disableOob then decide (how ≠ .oob) else howWants how (iq.isOob t)

/-- The comparison of `how` with a truth value. -/
theorem howCode_eq (how : DequeueHow) (oob : Bool) :
    howCode how = (if oob then 1 else 0) ↔ howWants how oob = false := by
  cases how <;> cases oob <;> decide

/-- What a dequeue gives: the earliest task that is asked for, if there is one. -/
inductive Dequeued (how : DequeueHow) (iq : InputQueue) (l : List TaskPtr) :
    Option TaskPtr → InputQueue → Prop where
  | nothing : (∀ t ∈ l, iq.requested how t = false) → Dequeued how iq l none iq
  | task {t : TaskPtr} {iq' : InputQueue} (d e : List TaskPtr) : l = d ++ t :: e →
      (∀ a ∈ d, iq.requested how a = false) → iq.requested how t = true →
      TakenOut iq t (d ++ e) iq' → Dequeued how iq l (some t) iq'

/-- The end of the first run. -/
theorem Queued.first_end {k : Bool} (h : Queued iq (r ++ x :: e)) (hr : ∀ a ∈ r, iq.isOob a = k)
    (hx : iq.isOob x = k) (he : ∀ b ∈ e.head?, iq.isOob b ≠ k) : iq.itail.head = some x := by
  rw [h.itail.head]
  cases e with
  | nil =>
      rw [runEnds_append_same hr hx]
      rfl
  | cons b e =>
      rw [runEnds_append_other hr hx (he b rfl)]
      rfl

/-- `dequeue_input_task` returns the earliest task of the kind that is asked for, and leaves
    the others as they are. -/
theorem Queued.dequeue (h : Queued iq l) (how : DequeueHow) :
    ∃ res iq', InputQueue.dequeue how iq = some (res, iq') ∧ Dequeued how iq l res iq' := by
  simp only [InputQueue.dequeue]
  by_cases hoff : (iq.disableOob && decide (how = .oob)) = true
  · rw [if_pos hoff]
    refine ⟨none, iq, rfl, .nothing fun t _ => ?_⟩
    simp only [Bool.and_eq_true, decide_eq_true_eq] at hoff
    simp [requested, hoff.1, hoff.2]
  · rw [if_neg hoff]
    have hreq : ∀ a, iq.requested how a
        = howWants (if iq.disableOob then .first else how) (iq.isOob a) := by
      intro a
      rw [requested]
      split
      next hd =>
        rw [hd, Bool.true_and, decide_eq_true_eq] at hoff
        exact decide_eq_true hoff
      · rfl
    have hhead := h.input.head
    cases l with
    | nil =>
        rw [hhead]
        exact ⟨none, iq, rfl, .nothing fun _ ht => nomatch ht⟩
    | cons first rest =>
        rw [hhead]
        simp only [List.head?_cons, howCode_eq]
        by_cases hfirst : howWants (if iq.disableOob then .first else how) (iq.isOob first) = false
        · -- the first run is skipped
          obtain ⟨r, x, e, heq, hr, hx, he⟩ := exists_first_run iq.isOob first rest
          rw [heq] at h ⊢
          rw [if_pos hfirst, h.first_end hr hx he]
          have hskip : ∀ a ∈ r ++ [x], iq.requested how a = false := by
            intro a ha
            rcases List.mem_append.mp ha with ha | ha
            · rw [hreq, hr a ha]
              exact hfirst
            · rw [hreq, List.mem_singleton.mp ha, hx]
              exact hfirst
          cases e with
          | nil =>
              have hnone : iq.input.get (.link x) = none := h.input.next
              refine ⟨none, iq, ?_, .nothing hskip⟩
              simp only [unlink, hnone]
          | cons t e =>
              have ht := he t rfl
              obtain ⟨iq', hun, hout⟩ := h.unlink_second hr hx ht
              refine ⟨some t, iq', by simp only [hun], ?_⟩
              have hsplit : r ++ x :: t :: e = (r ++ [x]) ++ t :: e := by
                rw [List.append_assoc]
                rfl
              refine .task (r ++ [x]) e hsplit hskip ?_ ?_
              · rw [hreq]
                have hother : ∀ (how : DequeueHow) (p q : Bool), p ≠ q → howWants how q = false →
                    howWants how p = true := by
                  intro how p q
                  cases how <;> cases p <;> cases q <;> decide
                exact hother _ _ _ ht hfirst
              · rw [List.append_assoc]
                exact hout
        · obtain ⟨iq', hun, hout⟩ := h.unlink_first
          rw [if_neg hfirst]
          refine ⟨some first, iq', by simp only [hun], .task [] rest rfl (fun _ ha => nomatch ha) ?_ hout⟩
          rw [hreq]
          exact Bool.of_not_eq_false hfirst

/-! ## `enqueue_input_task` -/

/-- The task with the line has been added, and the others are as they were. -/
structure Added (iq : InputQueue) (t : TaskPtr) (new : InputTask) (l : List TaskPtr)
    (iq' : InputQueue) : Prop where
  queued : Queued iq' l
  line : iq'.line t = new
  others : ∀ a, a ≠ t → iq'.line a = iq.line a
  disableOob : iq'.disableOob = iq.disableOob
  nextTask : iq'.nextTask = iq.nextTask + 1
  total : iq'.totalInputLength = iq.totalInputLength + new.string.length
  connected : iq'.connected = iq.connected
  suspended : iq'.inputSuspended
    = (iq.inputSuspended || (iq.connected && decide (inputHiwat < iq'.totalInputLength)))

theorem newInput_line (input : Str) (binary : Bool) (iq : InputQueue) :
    (newInput input binary iq).line iq.nextTask
        = { kind := inputKind input binary, string := input } ∧
      ∀ a, a ≠ iq.nextTask → (newInput input binary iq).line a = iq.line a := by
  constructor
  · simp [newInput, line]
  · intro a ha
    simp [newInput, line, ha]

/-- Before it is linked, a new task changes nothing for the others. -/
theorem Queued.newInput (h : Queued iq l) (input : Str) (binary : Bool) :
    Woven (newInput input binary iq) l ∧ iq.nextTask ∉ l ∧
      (∀ a ∈ l, (InputQueue.newInput input binary iq).isOob a = iq.isOob a) := by
  have hnew : iq.nextTask ∉ l := fun hmem => Nat.lt_irrefl _ (h.fresh _ hmem)
  have hclass : ∀ a ∈ l, (InputQueue.newInput input binary iq).isOob a = iq.isOob a := by
    intro a ha
    have hne : a ≠ iq.nextTask := by
      rintro rfl
      exact hnew ha
    exact congrArg (fun line : InputTask => decide (line.kind = .oob))
      ((newInput_line input binary iq).2 a hne)
  have hends : runEnds (InputQueue.newInput input binary iq).isOob l = runEnds iq.isOob l :=
    runEnds_congr hclass
  refine ⟨⟨h.input, h.lastInput, ?_, ?_⟩, hnew, hclass⟩
  · rw [hends]
    exact h.itail.set_link (fun hmem => hnew ((runEnds_sublist l).subset hmem)) none
  · rw [hends]
    exact h.lastItail

/-- The task before all others: it goes on with the first run, or it is a run of its own. -/
theorem Woven.linkFront {first : TaskPtr} (h : Woven iq (first :: l)) (hnodup : (first :: l).Nodup)
    (ht : t ∉ first :: l) : Woven (linkFront t first iq) (t :: first :: l) := by
  have hin := h.input.cons ht hnodup
  have hlast : iq.lastInput = slotAfter (t :: first :: l) := by
    rw [h.lastInput, slotAfter_cons t (List.cons_ne_nil first l)]
  have hends : (runEnds iq.isOob (first :: l)).Nodup := (runEnds_sublist _).nodup hnodup
  have htends : t ∉ runEnds iq.isOob (first :: l) := fun hm => ht ((runEnds_sublist _).subset hm)
  have hne : runEnds iq.isOob (first :: l) ≠ [] := fun hc => nomatch runEnds_eq_nil.mp hc
  rw [InputQueue.linkFront]
  by_cases hclass : iq.isOob first = iq.isOob t
  · simp only [ne_eq, hclass, not_true_eq_false, if_false]
    refine ⟨hin, hlast, ?_, ?_⟩
    · show Threaded iq.itail (runEnds iq.isOob (t :: first :: l))
      rw [runEnds_cons_same hclass.symm]
      exact h.itail
    · show iq.lastItail = slotAfter (runEnds iq.isOob (t :: first :: l)).dropLast
      rw [runEnds_cons_same hclass.symm]
      exact h.lastItail
  · simp only [ne_eq, hclass, not_false_eq_true, if_true]
    refine ⟨hin, hlast, ?_, ?_⟩
    · show Threaded _ (runEnds iq.isOob (t :: first :: l))
      rw [runEnds_cons_other fun hc => hclass hc.symm]
      exact h.itail.cons htends hends
    · show (if iq.lastItail = .head then Slot.link t else iq.lastItail)
        = slotAfter (runEnds iq.isOob (t :: first :: l)).dropLast
      rw [runEnds_cons_other fun hc => hclass hc.symm, List.dropLast_cons_of_ne_nil hne, h.lastItail]
      by_cases hone : (runEnds iq.isOob (first :: l)).dropLast = []
      · rw [hone, slotAfter_nil, if_pos rfl, slotAfter_singleton]
      · rw [if_neg fun hc => hone (slotAfter_eq_head.mp hc), slotAfter_cons t hone]

/-- The slot of the last end of a run holds the last task. -/
theorem Woven.last_end {a : TaskPtr} (h : Woven iq (l ++ [a])) :
    iq.itail.get iq.lastItail = some a := by
  have hne : runEnds iq.isOob (l ++ [a]) ≠ [] := fun hc =>
    absurd (runEnds_eq_nil.mp hc) (List.append_ne_nil_of_right_ne_nil l (List.cons_ne_nil a []))
  have hget := h.itail _ [_] (List.dropLast_append_getLast hne).symm
  rw [← h.lastItail] at hget
  rw [hget, List.head?_cons]
  have hlast := runEnds_getLast? (c := iq.isOob) (l ++ [a])
  rw [List.getLast?_eq_some_getLast hne, List.getLast?_concat] at hlast
  exact hlast

/-- The task behind all others: it goes on with the last run, or it is a run of its own. -/
theorem Woven.linkRear (h : Woven iq l) (hnodup : l.Nodup) (ht : t ∉ l)
    (hnew : iq.itail.next t = none) :
    ∃ iq', linkRear t iq = some iq' ∧ Woven iq' (l ++ [t]) ∧
      ∃ input itail lastInput lastItail, iq' = { iq with input, itail, lastInput, lastItail } := by
  have hends : (runEnds iq.isOob l).Nodup := (runEnds_sublist l).nodup hnodup
  have htends : t ∉ runEnds iq.isOob l := fun hm => ht ((runEnds_sublist l).subset hm)
  have hin : Threaded ((iq.input.set iq.lastInput (some t)).set (.link t) none) (l ++ [t]) := by
    have hcut := h.input.last
    intro p1 p2 hp
    rcases List.eq_nil_or_concat p2 with rfl | ⟨m, b, rfl⟩
    · rw [List.append_nil] at hp
      rw [← hp, slotAfter_concat, get_set_self]
      rfl
    · rw [List.concat_eq_append, ← List.append_assoc] at hp
      obtain ⟨rfl, hb⟩ := List.append_inj' hp rfl
      have hlink : slotAfter p1 ≠ .link t := fun hc =>
        ht (List.mem_append_left m (slotAfter_eq_link hc))
      rw [List.concat_eq_append, get_set_ne _ _ hlink, h.lastInput]
      by_cases hm : m = []
      · subst hm
        rw [List.append_nil, get_set_self]
        injection hb with hb
        rw [hb]
        rfl
      · rw [get_set_ne _ _ (slotAfter_ne hnodup hm).symm, h.input p1 m rfl]
        cases m with
        | nil => exact absurd rfl hm
        | cons c m => rfl
  -- the place among the ends of runs
  have hplace : ∃ d e, runEnds iq.isOob l = d ++ e ∧ rearItail t iq = some (slotAfter d) ∧
      runEnds iq.isOob (l ++ [t]) = d ++ [t] := by
    rcases List.eq_nil_or_concat l with rfl | ⟨m, a, rfl⟩
    · refine ⟨[], [], rfl, ?_, rfl⟩
      simp only [rearItail, h.input.head, List.head?_nil, h.lastItail]
      rfl
    · rw [List.concat_eq_append] at h ⊢
      have hhead : ∃ b, iq.input.head = some b := by
        rw [h.input.head]
        cases m with
        | nil => exact ⟨a, rfl⟩
        | cons b m => exact ⟨b, rfl⟩
      obtain ⟨b, hb⟩ := hhead
      have hpair : m ++ [a] ++ [t] = m ++ [a, t] := by rw [List.append_assoc]; rfl
      have hne : runEnds iq.isOob (m ++ [a]) ≠ [] := fun hc =>
        absurd (runEnds_eq_nil.mp hc) (List.append_ne_nil_of_right_ne_nil m (List.cons_ne_nil a []))
      rw [hpair]
      simp only [rearItail, hb, h.last_end]
      by_cases hclass : iq.isOob a = iq.isOob t
      · refine ⟨_, _, (List.dropLast_append_getLast hne).symm, ?_, runEnds_concat_same hclass⟩
        rw [if_neg fun hc => hc hclass, h.lastItail]
      · refine ⟨_, [], (List.append_nil _).symm, ?_, runEnds_concat_other hclass⟩
        rw [if_pos hclass]
        have hlast := runEnds_getLast? (c := iq.isOob) (m ++ [a])
        rw [List.getLast?_concat] at hlast
        rw [slotAfter, hlast]
  obtain ⟨d, e, hde, hslot, hends'⟩ := hplace
  refine ⟨_, by rw [InputQueue.linkRear, hslot]; rfl, ⟨hin, ?_, ?_, ?_⟩, _, _, _, _, rfl⟩
  · exact (slotAfter_concat l t).symm
  · show Threaded (iq.itail.set (slotAfter d) (some t)) (runEnds iq.isOob (l ++ [t]))
    have hitail := h.itail
    rw [hde] at hends htends hitail
    rw [hends']
    exact hitail.concat (fun hm => htends (List.mem_append_left e hm)) (List.nodup_append.mp hends).1
      hnew
  · show slotAfter d = slotAfter (runEnds iq.isOob (l ++ [t])).dropLast
    rw [hends', List.dropLast_concat]

theorem linkFront_frame (t first : TaskPtr) (iq : InputQueue) :
    ∃ input itail lastInput lastItail,
      linkFront t first iq = { iq with input, itail, lastInput, lastItail } := by
  simp only [linkFront]
  split
  · exact ⟨_, _, _, _, rfl⟩
  · exact ⟨_, _, _, _, rfl⟩

/-- With the links in place, the rest of the call keeps the account of lengths. -/
theorem Queued.added (h : Queued iq l) (input : Str) (binary : Bool) {suspended : Bool}
    (hsusp : suspended = (iq.inputSuspended
      || (iq.connected && decide (inputHiwat < iq.totalInputLength + input.length))))
    {links itail : Links TaskPtr} {lastInput lastItail : Slot TaskPtr} {l' : List TaskPtr}
    (hl' : l' = iq.nextTask :: l ∨ l' = l ++ [iq.nextTask])
    (hw : Woven { InputQueue.newInput input binary iq with
      input := links, itail, lastInput, lastItail } l') :
    Added iq iq.nextTask { kind := inputKind input binary, string := input } l'
      { InputQueue.newInput input binary iq with
        input := links, itail, lastInput, lastItail, inputSuspended := suspended } := by
  have hnew : iq.nextTask ∉ l := fun hmem => Nat.lt_irrefl _ (h.fresh _ hmem)
  have hold : ∀ a ∈ l, a ≠ iq.nextTask := by
    rintro a ha rfl
    exact hnew ha
  have hmem : ∀ a ∈ l', a = iq.nextTask ∨ a ∈ l := by
    intro a ha
    rcases hl' with rfl | rfl
    · exact List.mem_cons.mp ha
    · exact (List.mem_append.mp ha).symm.imp List.mem_singleton.mp id
  obtain ⟨hline, hothers⟩ := newInput_line input binary iq
  have hlen : ∀ a ∈ l, Function.update iq.length iq.nextTask (input.length : Int) a = iq.length a :=
    fun a ha => by rw [Function.update_of_ne (hold a ha)]
  have hsum : (l.map (Function.update iq.length iq.nextTask (input.length : Int))).sum
      = iq.totalInputLength := by
    rw [h.total, List.map_congr_left hlen]
  refine ⟨⟨⟨hw.input, hw.lastInput, hw.itail, hw.lastItail⟩, ?_, fun a ha => ?_, fun a ha => ?_, ?_⟩,
    hline, hothers, rfl, rfl, rfl, rfl, hsusp⟩
  · rcases hl' with rfl | rfl
    · exact List.nodup_cons.mpr ⟨hnew, h.nodup⟩
    · exact (List.perm_append_singleton _ l).nodup_iff.mpr (List.nodup_cons.mpr ⟨hnew, h.nodup⟩)
  · show a < iq.nextTask + 1
    rcases hmem a ha with rfl | ha
    · exact Nat.lt_succ_self _
    · exact Nat.lt_succ_of_lt (h.fresh a ha)
  · show Function.update iq.length iq.nextTask (input.length : Int) a
      = (Function.update iq.string iq.nextTask input a).length
    rcases hmem a ha with rfl | ha
    · rw [Function.update_self, Function.update_self]
    · rw [hlen a ha, Function.update_of_ne (hold a ha)]
      exact h.length a ha
  · show iq.totalInputLength + (input.length : Int)
      = (l'.map (Function.update iq.length iq.nextTask (input.length : Int))).sum
    rcases hl' with rfl | rfl
    · rw [List.map_cons, List.sum_cons, hsum, Function.update_self]
      omega
    · rw [List.map_append, List.sum_append, hsum, List.map_singleton, List.sum_singleton,
        Function.update_self]

/-- `enqueue_input_task` puts a new task before or behind the others. -/
theorem Queued.enqueue (h : Queued iq l) (input : Str) (atFront binary : Bool) :
    ∃ iq', InputQueue.enqueue input atFront binary iq = some iq' ∧
      Added iq iq.nextTask { kind := inputKind input binary, string := input }
        (if atFront then iq.nextTask :: l else l ++ [iq.nextTask]) iq' := by
  obtain ⟨hwoven, hnew, hclass⟩ := h.newInput input binary
  let n := InputQueue.newInput input binary iq
  have hsusp : (n.inputSuspended || (n.connected && decide (inputHiwat < n.totalInputLength)))
      = (iq.inputSuspended
        || (iq.connected && decide (inputHiwat < iq.totalInputLength + input.length))) := rfl
  have hfresh : n.itail.next iq.nextTask = none := get_set_self iq.itail (.link iq.nextTask) none
  have hhead : (InputQueue.newInput input binary iq).input.head = l.head? := h.input.head
  obtain ⟨iq', hrear, hw, links, itail, lastInput, lastItail, rfl⟩ :=
    hwoven.linkRear h.nodup hnew hfresh
  cases atFront with
  | false =>
      refine ⟨_, ?_, h.added input binary hsusp (.inr rfl) hw⟩
      simp only [InputQueue.enqueue, hrear, Option.map_some]
      rfl
  | true =>
      cases l with
      | nil =>
          refine ⟨_, ?_, h.added input binary hsusp (.inl rfl) hw⟩
          simp only [InputQueue.enqueue, hhead, List.head?_nil, hrear, Option.map_some]
          rfl
      | cons first l =>
          have hw := hwoven.linkFront h.nodup hnew
          obtain ⟨links, itail, lastInput, lastItail, hframe⟩ :=
            linkFront_frame iq.nextTask first (InputQueue.newInput input binary iq)
          rw [hframe] at hw
          refine ⟨_, ?_, h.added input binary hsusp (.inl rfl) hw⟩
          simp only [InputQueue.enqueue, hhead, List.head?_cons, hframe, Option.map_some]
          rfl

end InputQueue

end Waverous.Tasks
