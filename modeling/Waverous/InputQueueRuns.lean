import Waverous.InputQueueProofs

/-! # Any sequence of calls on the input queue — `tasks.c`

    Every call finds the links of a list of tasks and leaves those of another one, so that
    none of them follows a null pointer, and what has come is what has gone and what is
    queued.  The lists of lines that the rest of the task module works with are what the
    links thread. -/

namespace Waverous.Tasks

open TailedList InputQueue

/-! ## Sequences of calls -/

/-- The links are right, and every task is accounted for. -/
structure InputWorld.Kept (w : InputWorld) (l : List TaskPtr) : Prop where
  queued : Queued w.iq l
  fresh : ∀ x ∈ w.came, x.1 < w.iq.nextTask
  nodup : (w.came.map Prod.fst).Nodup
  whole : (w.came.map Prod.fst).Perm (w.gone ++ l)
  lines : ∀ x ∈ w.came, x.1 ∈ l → w.iq.line x.1 = x.2

variable {w : InputWorld} {l : List TaskPtr}

theorem InputWorld.Kept.start (mem : InputQueue) : (InputWorld.start mem).Kept [] where
  queued := create_queued mem
  fresh := fun _ h => nomatch h
  nodup := List.nodup_nil
  whole := List.Perm.refl []
  lines := fun _ h => nomatch h

/-- A store that the links do not depend on. -/
theorem InputWorld.Kept.store (h : w.Kept l) (connected inputSuspended disableOob : Bool) :
    InputWorld.Kept { w with iq := { w.iq with connected, inputSuspended, disableOob } } l :=
  have hq := h.queued
  ⟨⟨⟨hq.input, hq.lastInput, hq.itail, hq.lastItail⟩, hq.nodup, hq.fresh, hq.length, hq.total⟩,
    h.fresh, h.nodup, h.whole, h.lines⟩

theorem InputWorld.Kept.enqueue (h : w.Kept l) (input : Str) (atFront binary : Bool) :
    ∃ w' l', w.call (.enqueue input atFront binary) = some w' ∧ w'.Kept l' := by
  obtain ⟨iq', heq, hadded⟩ := h.queued.enqueue input atFront binary
  refine ⟨_, _, by simp only [InputWorld.call, heq, Option.bind_eq_bind, Option.bind_some]; rfl,
    hadded.queued, fun x hx => ?_, ?_, ?_, fun x hx hxl => ?_⟩
  · rw [hadded.nextTask]
    rcases List.mem_append.mp hx with hx | hx
    · exact Nat.lt_succ_of_lt (h.fresh x hx)
    · rw [List.mem_singleton.mp hx]
      exact Nat.lt_succ_self _
  · rw [List.map_append, List.map_singleton]
    refine h.nodup.append (List.nodup_singleton _) fun a ha hnew => ?_
    obtain ⟨x, hx, rfl⟩ := List.mem_map.mp ha
    exact absurd (h.fresh x hx) (Nat.not_lt.mpr (Nat.le_of_eq (List.mem_singleton.mp hnew).symm))
  · rw [List.map_append, List.map_singleton]
    have hlast : (w.gone ++ l ++ [w.iq.nextTask]).Perm
        (w.gone ++ if atFront = true then w.iq.nextTask :: l else l ++ [w.iq.nextTask]) := by
      rw [List.append_assoc]
      refine List.Perm.append_left w.gone ?_
      split
      · exact List.perm_append_singleton _ l
      · exact List.Perm.refl _
    exact (h.whole.append_right _).trans hlast
  · rcases List.mem_append.mp hx with hx | hx
    · have hne : x.1 ≠ w.iq.nextTask := Nat.ne_of_lt (h.fresh x hx)
      have hxold : x.1 ∈ l := by
        split at hxl
        · exact (List.mem_cons.mp hxl).resolve_left hne
        · exact (List.mem_append.mp hxl).resolve_right fun hm => hne (List.mem_singleton.mp hm)
      exact (hadded.others x.1 hne).trans (h.lines x hx hxold)
    · rw [List.mem_singleton.mp hx]
      exact hadded.line

theorem InputWorld.Kept.dequeue (h : w.Kept l) (how : DequeueHow) :
    ∃ w' l', w.call (.dequeue how) = some w' ∧ w'.Kept l' := by
  obtain ⟨res, iq', heq, hdeq⟩ := h.queued.dequeue how
  have hcall : w.call (.dequeue how) = some { w with iq := iq', gone := w.gone ++ res.toList } := by
    simp only [InputWorld.call, heq, Option.bind_eq_bind, Option.bind_some]
    rfl
  cases hdeq with
  | nothing _ =>
      refine ⟨_, l, hcall, ?_⟩
      rw [Option.toList_none, List.append_nil]
      exact h
  | @task t _ d e hl _ _ hout =>
      have hmem : ∀ a ∈ d ++ e, a ∈ l := by
        intro a ha
        rw [hl]
        exact List.perm_middle.mem_iff.mpr (List.mem_cons_of_mem t ha)
      have ht : t ∉ d ++ e := by
        have hnodup := h.queued.nodup
        rw [hl] at hnodup
        exact (List.nodup_cons.mp (List.perm_middle.nodup_iff.mp hnodup)).1
      refine ⟨_, d ++ e, hcall, hout.queued, fun x hx => ?_, h.nodup, ?_, fun x hx hxl => ?_⟩
      · rw [hout.nextTask]
        exact h.fresh x hx
      · refine h.whole.trans ?_
        rw [hl, Option.toList_some, List.append_assoc]
        exact List.Perm.append_left w.gone List.perm_middle
      · have hne : x.1 ≠ t := fun hxt => ht (hxt ▸ hxl)
        exact (hout.others x.1 hne).trans (h.lines x hx (hmem x.1 hxl))

/-- Every call finds the links of a list and leaves those of another one. -/
theorem InputWorld.Kept.call (h : w.Kept l) (op : InputOp) :
    ∃ w' l', w.call op = some w' ∧ w'.Kept l' := by
  cases op with
  | enqueue input atFront binary => exact h.enqueue input atFront binary
  | dequeue how => exact h.dequeue how
  | disableOob value => exact ⟨_, l, rfl, h.store w.iq.connected w.iq.inputSuspended value⟩
  | connected value => exact ⟨_, l, rfl, h.store value w.iq.inputSuspended w.iq.disableOob⟩
  | suspend => exact ⟨_, l, rfl, h.store w.iq.connected _ w.iq.disableOob⟩

theorem InputWorld.Kept.calls (h : w.Kept l) (ops : List InputOp) :
    ∃ w' l', ops.foldlM InputWorld.call w = some w' ∧ w'.Kept l' := by
  induction ops generalizing w l with
  | nil => exact ⟨w, l, rfl, h⟩
  | cons op ops ih =>
      obtain ⟨w1, l1, h1, hk1⟩ := h.call op
      obtain ⟨w2, l2, h2, hk2⟩ := ih hk1
      refine ⟨w2, l2, ?_, hk2⟩
      rw [List.foldlM_cons, h1]
      exact h2

/-- Whatever the sequence of calls on a new queue: the links thread the queued tasks and the
    ends of their runs, every task that came has gone or is queued, once, with its line, the
    next dequeue gives the earliest task it asks for, and the next line comes first or last. -/
theorem input_queue_kept (mem : InputQueue) (ops : List InputOp) :
    ∃ w l, ops.foldlM InputWorld.call (InputWorld.start mem) = some w ∧ Queued w.iq l ∧
      (w.came.map Prod.fst).Nodup ∧ (w.came.map Prod.fst).Perm (w.gone ++ l) ∧
      (∀ x ∈ w.came, x.1 ∈ l → w.iq.line x.1 = x.2) ∧
      (∀ how, ∃ res iq', w.iq.dequeue how = some (res, iq') ∧ Dequeued how w.iq l res iq') ∧
      ∀ input atFront binary, ∃ iq', w.iq.enqueue input atFront binary = some iq' ∧
        Added w.iq w.iq.nextTask { kind := inputKind input binary, string := input }
          (if atFront then w.iq.nextTask :: l else l ++ [w.iq.nextTask]) iq' := by
  obtain ⟨w, l, hcalls, hk⟩ := (InputWorld.Kept.start mem).calls ops
  refine ⟨w, l, hcalls, hk.queued, hk.nodup, hk.whole, hk.lines, fun how => ?_, ?_⟩
  · exact hk.queued.dequeue how
  · exact fun input atFront binary => hk.queued.enqueue input atFront binary

/-! ## The lists of lines -/

/-- The input fields of a queue are what the links hold. -/
structure Represents (iq : InputQueue) (l : List TaskPtr) (tq : TQueue) : Prop where
  queued : Queued iq l
  input : tq.input = l.map iq.line
  total : tq.totalInputLength = iq.totalInputLength
  connected : tq.connected = iq.connected
  suspended : tq.inputSuspended = iq.inputSuspended
  disableOob : tq.disableOob = iq.disableOob

variable {iq iq' : InputQueue} {s s' : State} {q : TqPtr}

theorem extractFirst_map {α β : Type*} {p : β → Bool} {g : α → β} {d e : List α} {a : α}
    (hd : ∀ x ∈ d, p (g x) = false) (ha : p (g a) = true) :
    extractFirst p ((d ++ a :: e).map g) = some (g a, (d ++ e).map g) := by
  induction d with
  | nil => exact if_pos ha
  | cons x d ih =>
      have hx : ¬p (g x) = true := Bool.eq_false_iff.mp (hd x List.mem_cons_self)
      rw [List.cons_append, List.map_cons, extractFirst, if_neg hx,
        ih fun y hy => hd y (List.mem_cons_of_mem x hy)]
      rfl

theorem extractFirst_eq_none {α : Type*} {p : α → Bool} {l : List α} (h : ∀ x ∈ l, p x = false) :
    extractFirst p l = none := by
  induction l with
  | nil => rfl
  | cons x l ih =>
      rw [extractFirst, if_neg (Bool.eq_false_iff.mp (h x List.mem_cons_self)),
        ih fun y hy => h y (List.mem_cons_of_mem x hy)]
      rfl

/-- What a call asks for, in the two models. -/
theorem requested_eq (iq : InputQueue) (how : DequeueHow) (a : TaskPtr)
    (hon : ¬(iq.disableOob && decide (how = .oob)) = true) :
    iq.requested how a = (if iq.disableOob then DequeueHow.first else how).wants (iq.line a) := by
  rw [requested]
  split
  next hd =>
    rw [hd, Bool.true_and, decide_eq_true_eq] at hon
    exact decide_eq_true hon
  · cases how with
    | first => rfl
    | oob => rfl
    | inband => exact (decide_not).symm

/-- Taking the first line that is wanted out of the list of lines is `dequeue_input_task`. -/
theorem Represents.dequeue (h : Represents iq l (s.tqs q)) (how : DequeueHow) :
    ∃ res iq', iq.dequeue how = some (res, iq') ∧
      match res with
      | none => dequeueInputTask q how s = none
      | some t => ∃ l' s', dequeueInputTask q how s = some (iq'.line t, s') ∧
          Represents iq' l' (s'.tqs q) := by
  obtain ⟨res, iq', heq, hdeq⟩ := h.queued.dequeue how
  refine ⟨res, iq', heq, ?_⟩
  by_cases hoff : (iq.disableOob && decide (how = .oob)) = true
  · have hnone : iq.dequeue how = some (none, iq) := if_pos hoff
    rw [hnone] at heq
    cases heq
    simp only [dequeueInputTask, h.disableOob, if_pos hoff]
  · cases hdeq with
    | nothing hno =>
        have hex : extractFirst (if iq.disableOob then DequeueHow.first else how).wants
            (l.map iq.line) = none := by
          refine extractFirst_eq_none fun x hx => ?_
          obtain ⟨a, ha, rfl⟩ := List.mem_map.mp hx
          rw [← requested_eq iq how a hoff]
          exact hno a ha
        simp only [dequeueInputTask, h.disableOob, if_neg hoff, h.input, hex]
    | @task t _ d e hl hd ht hout =>
        have hex : extractFirst (if iq.disableOob then DequeueHow.first else how).wants
            (l.map iq.line) = some (iq.line t, (d ++ e).map iq.line) := by
          rw [hl]
          refine extractFirst_map (fun a ha => ?_) ?_
          · rw [← requested_eq iq how a hoff]
            exact hd a ha
          · rw [← requested_eq iq how t hoff]
            exact ht
        have hmem : t ∈ l := by
          rw [hl]
          exact List.mem_append_right d List.mem_cons_self
        have hlen : iq.length t = ((iq.line t).string.length : Int) := h.queued.length t hmem
        have hothers : ∀ a ∈ d ++ e, iq'.line a = iq.line a := by
          intro a ha
          refine hout.others a ?_
          rintro rfl
          have hnodup := h.queued.nodup
          rw [hl] at hnodup
          exact (List.nodup_cons.mp (List.perm_middle.nodup_iff.mp hnodup)).1 ha
        simp only [dequeueInputTask, h.disableOob, if_neg hoff, h.input, hex]
        refine ⟨d ++ e, _, by rw [hout.line], ?_⟩
        rw [modifyTq_tqs_self]
        refine ⟨hout.queued, (List.map_congr_left hothers).symm, ?_, h.connected.trans hout.connected.symm,
          ?_, h.disableOob.trans hout.disableOob.symm⟩
        · show (s.tqs q).totalInputLength - ((iq.line t).string.length : Int) = iq'.totalInputLength
          rw [hout.total, h.total, hlen]
        · rw [hout.suspended]
          simp only [account, h.suspended, h.connected, h.total, hlen]

theorem ensureUsage_self (s : State) (q : TqPtr) :
    ∃ u, (ensureUsage q s).tqs q = { s.tqs q with usage := u } := by
  rw [ensureUsage]
  split
  · exact ⟨_, modifyTq_tqs_self s q fun tq => { tq with usage := _ }⟩
  · exact ⟨(s.tqs q).usage, rfl⟩

/-- So is a new line for the list at its front or its rear. -/
theorem Represents.enqueue (h : Represents iq l (s.tqs q)) (input : Str) (atFront binary : Bool) :
    ∃ iq' l', iq.enqueue input atFront binary = some iq' ∧
      Represents iq' l' ((enqueueInputTask q input atFront binary s).tqs q) := by
  obtain ⟨iq', heq, hadded⟩ := h.queued.enqueue input atFront binary
  refine ⟨iq', if atFront then iq.nextTask :: l else l ++ [iq.nextTask], heq, ?_⟩
  let line : InputTask := { kind := inputKind input binary, string := input }
  let s1 := s.modifyTq q fun tq => { tq with
    input := if atFront then line :: tq.input else tq.input ++ [line]
    totalInputLength := tq.totalInputLength + input.length }
  let b := !(s1.tqs q).holdInput || (s1.tqs q).reading ||
    (!(s1.tqs q).disableOob && decide (line.kind = .oob))
  let s2 := if b then ensureUsage q s1 else s1
  obtain ⟨u, hu⟩ : ∃ u, s2.tqs q = { s1.tqs q with usage := u } := by
    simp only [s2]
    split
    · exact ensureUsage_self s1 q
    · exact ⟨(s1.tqs q).usage, rfl⟩
  let f : TQueue → TQueue := fun tq => { tq with
    inputSuspended := tq.inputSuspended
      || (tq.connected && decide (inputHiwat < tq.totalInputLength)) }
  have hs1 : s1.tqs q = { s.tqs q with
      input := if atFront then line :: (s.tqs q).input else (s.tqs q).input ++ [line]
      totalInputLength := (s.tqs q).totalInputLength + input.length } := modifyTq_tqs_self s q _
  have hend : (enqueueInputTask q input atFront binary s).tqs q = f (s2.tqs q) :=
    modifyTq_tqs_self s2 q f
  have hold : ∀ a ∈ l, iq'.line a = iq.line a := by
    intro a ha
    exact hadded.others a (Nat.ne_of_lt (h.queued.fresh a ha))
  rw [hend, hu, hs1]
  refine ⟨hadded.queued, ?_, ?_, h.connected.trans hadded.connected.symm, ?_,
    h.disableOob.trans hadded.disableOob.symm⟩
  · show (if atFront then line :: (s.tqs q).input else (s.tqs q).input ++ [line]) = _
    rw [h.input]
    cases atFront with
    | true =>
        simp only [if_true, List.map_cons, hadded.line, List.map_congr_left hold]
        rfl
    | false =>
        simp only [Bool.false_eq_true, if_false, List.map_append, List.map_cons, List.map_nil,
          hadded.line, List.map_congr_left hold]
        rfl
  · show (s.tqs q).totalInputLength + (input.length : Int) = iq'.totalInputLength
    rw [hadded.total, h.total]
  · show ((s.tqs q).inputSuspended || ((s.tqs q).connected
      && decide (inputHiwat < (s.tqs q).totalInputLength + (input.length : Int)))) = _
    rw [hadded.suspended, hadded.total, h.suspended, h.connected, h.total]

/-- What the `disable-oob` option asks of the links is whether some line is out of band. -/
theorem Represents.someOob (h : Represents iq l (s.tqs q)) :
    iq.someOob = some ((s.tqs q).input.any fun t => t.kind = .oob) := by
  rw [h.input, List.any_map]
  have hhead := h.queued.input.head
  cases l with
  | nil =>
      simp only [InputQueue.someOob, hhead, List.head?_nil, List.any_nil]
  | cons first rest =>
      obtain ⟨r, x, e, heq, hr, hx, he⟩ := exists_first_run iq.isOob first rest
      have hq := h.queued
      rw [heq] at hq
      have hany : ((first :: rest).any fun t => decide ((iq.line t).kind = .oob))
          = ((first :: rest).any iq.isOob) := rfl
      have hnext : iq.input.next x = e.head? := hq.input.next
      simp only [InputQueue.someOob, hhead, List.head?_cons, hq.first_end hr hx he, hnext]
      refine congrArg some (Eq.trans ?_ hany.symm)
      cases hfirst : iq.isOob first with
      | true => simp [hfirst]
      | false =>
          rw [Bool.or_false, heq, List.any_append, List.any_cons, hx, hfirst, Bool.false_or]
          have hrun : r.any iq.isOob = false :=
            List.any_eq_false.mpr fun a ha => by rw [hr a ha, hfirst]; exact Bool.false_ne_true
          rw [hrun, Bool.false_or]
          cases e with
          | nil => rfl
          | cons b e =>
              have hb : iq.isOob b = true := by
                have := he b rfl
                rw [hfirst] at this
                exact Bool.of_not_eq_false this
              rw [List.any_cons, hb, Bool.true_or]
              rfl

end Waverous.Tasks
