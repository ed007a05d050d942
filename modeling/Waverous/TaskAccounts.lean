import Waverous.TaskQueues

/-! # The accounts of background tasks — `tasks.c`

    A queue counts the background tasks of its player, those on its own list and those
    that wait.  A task that an external queue gives back is counted by nobody, and the
    queues of players who have logged in again all get `NOTHING` for their player, so that
    its tasks may be counted on one queue and looked for on another. -/

namespace Waverous.Tasks

open Relation

variable {s s' : State} {q p : TqPtr} {t : Task}

/-- How many of the tasks have the programmer. -/
def tasksOf (progr : Objid) (ts : List Task) : Nat := ts.countP fun t => t.progr = progr

/-- The counts are right. -/
structure Accounted (s : State) : Prop extends Linked s where
  count : ∀ q ∈ s.activeTqueues ++ s.idleTqueues, (s.tqs q).numBgTasks
    = (s.tqs q).bg.length + tasksOf (s.tqs q).player s.waitingTasks
  /-- two queues of one player have no task, and no player -/
  unique : ∀ p ∈ s.activeTqueues ++ s.idleTqueues, ∀ q ∈ s.activeTqueues ++ s.idleTqueues,
    p ≠ q → (s.tqs p).player = (s.tqs q).player →
    (s.tqs p).player = nothing ∧ (s.tqs p).numBgTasks = 0
  cover : ∀ t ∈ s.waitingTasks, ∃ q ∈ s.activeTqueues ++ s.idleTqueues, (s.tqs q).player = t.progr

/-- What the counts depend on. -/
structure SameBooks (s s' : State) : Prop where
  mem : ∀ q, q ∈ s'.activeTqueues ++ s'.idleTqueues ↔ q ∈ s.activeTqueues ++ s.idleTqueues
  player : ∀ q ∈ s.activeTqueues ++ s.idleTqueues, (s'.tqs q).player = (s.tqs q).player
  num : ∀ q ∈ s.activeTqueues ++ s.idleTqueues, (s'.tqs q).numBgTasks = (s.tqs q).numBgTasks
  bg : ∀ q ∈ s.activeTqueues ++ s.idleTqueues, (s'.tqs q).bg.length = (s.tqs q).bg.length
  waiting : s'.waitingTasks = s.waitingTasks

theorem Accounted.same (h : Accounted s) (hl : Linked s') (hb : SameBooks s s') : Accounted s' where
  toLinked := hl
  count := by
    intro q hq
    have hq' := (hb.mem q).mp hq
    rw [hb.num q hq', hb.bg q hq', hb.player q hq', hb.waiting]
    exact h.count q hq'
  unique := by
    intro p hp q hq hne hpl
    have hp' := (hb.mem p).mp hp
    have hq' := (hb.mem q).mp hq
    rw [hb.player p hp', hb.player q hq'] at hpl
    rw [hb.player p hp', hb.num p hp']
    exact h.unique p hp' q hq' hne hpl
  cover := by
    intro t ht
    rw [hb.waiting] at ht
    obtain ⟨q, hq, hpl⟩ := h.cover t ht
    exact ⟨q, (hb.mem q).mpr hq, (hb.player q hq).trans hpl⟩

theorem SameBooks.woken (h : Woken q s s') : SameBooks s s' where
  mem := fun _ => h.perm.mem_iff
  player := fun p _ => h.field TQueue.player (fun _ _ => rfl) p
  num := fun p _ => h.field TQueue.numBgTasks (fun _ _ => rfl) p
  bg := fun p _ => h.field (fun tq => tq.bg.length) (fun _ _ => rfl) p
  waiting := h.waiting

theorem SameBooks.beside (h : Beside s s') : SameBooks s s' where
  mem := fun q => by rw [h.active, h.idle]
  player := fun p _ => by rw [h.tqs]
  num := fun p _ => by rw [h.tqs]
  bg := fun p _ => by rw [h.tqs]
  waiting := h.waiting

theorem SameBooks.modifyTq {f : TQueue → TQueue} (hf : Spares (s.tqs q) (f (s.tqs q))) :
    SameBooks s (s.modifyTq q f) where
  mem := fun _ => Iff.rfl
  player := fun p _ => modifyTq_field s q p f TQueue.player hf.player
  num := fun p _ => modifyTq_field s q p f TQueue.numBgTasks hf.numBgTasks
  bg := fun p _ => modifyTq_field s q p f (fun tq => tq.bg.length) hf.bg
  waiting := rfl

theorem SameBooks.refl (s : State) : SameBooks s s :=
  ⟨fun _ => Iff.rfl, fun _ _ => rfl, fun _ _ => rfl, fun _ _ => rfl, rfl⟩

theorem SameBooks.trans {s'' : State} (h : SameBooks s s') (h' : SameBooks s' s'') :
    SameBooks s s'' where
  mem := fun q => (h'.mem q).trans (h.mem q)
  player := fun q hq => (h'.player q ((h.mem q).mpr hq)).trans (h.player q hq)
  num := fun q hq => (h'.num q ((h.mem q).mpr hq)).trans (h.num q hq)
  bg := fun q hq => (h'.bg q ((h.mem q).mpr hq)).trans (h.bg q hq)
  waiting := h'.waiting.trans h.waiting

/-! ## One queue changes -/

/-- A change of one queue's list and count and of the waiting list, in step. -/
theorem Accounted.adjust (h : Accounted s) (ts : List Task)
    (hq : q ∈ s.activeTqueues ++ s.idleTqueues) {f : TQueue → TQueue}
    (hpl : (f (s.tqs q)).player = (s.tqs q).player) (husage : (f (s.tqs q)).usage = (s.tqs q).usage)
    (hn : (f (s.tqs q)).numBgTasks = (f (s.tqs q)).bg.length + tasksOf (s.tqs q).player ts)
    (honly : ∀ p ∈ s.activeTqueues ++ s.idleTqueues, p ≠ q → (s.tqs p).player ≠ (s.tqs q).player)
    (hts : ∀ progr, progr ≠ (s.tqs q).player → tasksOf progr ts = tasksOf progr s.waitingTasks)
    (hcover : ∀ t ∈ ts, t ∈ s.waitingTasks ∨ t.progr = (s.tqs q).player) :
    Accounted { s.modifyTq q f with waitingTasks := ts } := by
  have hl : Linked (s.modifyTq q f) := h.toLinked.modifyTq husage
  have hpls : ∀ p, ((s.modifyTq q f).tqs p).player = (s.tqs p).player := fun p =>
    modifyTq_field s q p f TQueue.player hpl
  have hne : ∀ p, p ≠ q → (s.modifyTq q f).tqs p = s.tqs p := fun p hp => modifyTq_tqs_ne s f hp
  refine ⟨hl.congr rfl rfl rfl fun _ => rfl, ?_, ?_, ?_⟩
  · intro p hp
    show ((s.modifyTq q f).tqs p).numBgTasks
      = ((s.modifyTq q f).tqs p).bg.length + tasksOf ((s.modifyTq q f).tqs p).player ts
    rw [hpls]
    by_cases hpq : p = q
    · rw [hpq, modifyTq_tqs_self]
      exact hn
    · rw [hne p hpq, hts _ (honly p hp hpq)]
      exact h.count p hp
  · intro p hp p' hp' hpp' heq
    have heq' : (s.tqs p).player = (s.tqs p').player := (hpls p).symm.trans (heq.trans (hpls p'))
    have hpq : p ≠ q := by
      rintro rfl
      exact honly p' hp' (Ne.symm hpp') heq'.symm
    show ((s.modifyTq q f).tqs p).player = nothing ∧ ((s.modifyTq q f).tqs p).numBgTasks = 0
    rw [hne p hpq]
    exact h.unique p hp p' hp' hpp' heq'
  · intro t ht
    rcases hcover t ht with hw | hprogr
    · obtain ⟨p, hp, hppl⟩ := h.cover t hw
      exact ⟨p, hp, (hpls p).trans hppl⟩
    · exact ⟨q, hq, (hpls q).trans hprogr.symm⟩

theorem tasksOf_cons (progr : Objid) (t : Task) (ts : List Task) :
    tasksOf progr (t :: ts) = tasksOf progr ts + if t.progr = progr then 1 else 0 := by
  simp only [tasksOf, List.countP_cons, decide_eq_true_eq]

theorem tasksOf_perm {ts ts' : List Task} (h : ts.Perm ts') (progr : Objid) :
    tasksOf progr ts = tasksOf progr ts' := h.countP_eq _

theorem tasksOf_pos {ts : List Task} {progr : Objid} (ht : t ∈ ts) (hpl : progr = t.progr) :
    0 < tasksOf progr ts :=
  List.countP_pos_iff.mpr ⟨t, ht, decide_eq_true hpl.symm⟩

/-- While a task waits, its programmer has one queue. -/
theorem Accounted.only (h : Accounted s) (ht : t ∈ s.waitingTasks)
    (hq : q ∈ s.activeTqueues ++ s.idleTqueues) (hpl : (s.tqs q).player = t.progr) :
    ∀ p ∈ s.activeTqueues ++ s.idleTqueues, p ≠ q → (s.tqs p).player ≠ (s.tqs q).player := by
  intro p hp hne heq
  have hzero := (h.unique p hp q hq hne heq).2
  have hcount := h.count p hp
  have hpos := tasksOf_pos ht (heq.trans hpl)
  omega

/-- A task leaves the waiting list, and its queue changes in step. -/
theorem Accounted.unwait (h : Accounted s) {ts : List Task} (hperm : s.waitingTasks.Perm (t :: ts))
    (hq : q ∈ s.activeTqueues ++ s.idleTqueues) (hqpl : (s.tqs q).player = t.progr)
    {f : TQueue → TQueue}
    (hpl : (f (s.tqs q)).player = (s.tqs q).player) (husage : (f (s.tqs q)).usage = (s.tqs q).usage)
    (hn : (f (s.tqs q)).numBgTasks - (f (s.tqs q)).bg.length
      = (s.tqs q).numBgTasks - (s.tqs q).bg.length - 1) :
    Accounted { s.modifyTq q f with waitingTasks := ts } := by
  have hmem : ∀ {t'}, t' ∈ t :: ts ↔ t' ∈ s.waitingTasks := hperm.mem_iff.symm
  refine h.adjust _ hq hpl husage ?_ (h.only (hmem.mp List.mem_cons_self) hq hqpl) ?_ ?_
  · have hcount := h.count q hq
    rw [tasksOf_perm hperm, tasksOf_cons, if_pos hqpl.symm] at hcount
    omega
  · intro progr hne
    rw [tasksOf_perm hperm, tasksOf_cons, if_neg (fun heq => hne (heq.symm.trans hqpl.symm)),
      Nat.add_zero]
  · exact fun t' ht' => .inl (hmem.mp (List.mem_cons_of_mem t ht'))

/-! ## Calls and the scheduler -/

theorem mem_linked_of_findTqueue_none {player : Objid} (h : findTqueue player s = none)
    (hq : q ∈ s.activeTqueues ++ s.idleTqueues) : (s.tqs q).player ≠ player := by
  have := List.find?_eq_none.mp h q hq
  simpa using this

theorem Accounted.tasksOf_none (h : Accounted s) {player : Objid}
    (hnone : findTqueue player s = none) : tasksOf player s.waitingTasks = 0 := by
  refine List.countP_eq_zero.mpr fun t ht => ?_
  obtain ⟨q, hq, hpl⟩ := h.cover t ht
  simpa [← hpl] using mem_linked_of_findTqueue_none hnone hq

theorem Accounted.newTqueue (h : Accounted s) {player : Objid} (hnone : findTqueue player s = none) :
    Accounted (newTqueue player s) := by
  have hne : ∀ p ∈ s.activeTqueues ++ s.idleTqueues, p ≠ s.nextTq := fun p hp =>
    Nat.ne_of_lt (h.fresh p hp)
  have hold : ∀ p ∈ s.activeTqueues ++ s.idleTqueues,
      (Tasks.newTqueue player s).tqs p = s.tqs p := fun p hp => newTqueue_ne player (hne p hp)
  have hmem : ∀ p, p ∈ (Tasks.newTqueue player s).activeTqueues ++ (Tasks.newTqueue player s).idleTqueues ↔
      p = s.nextTq ∨ p ∈ s.activeTqueues ++ s.idleTqueues := fun p => by
    rw [← List.mem_cons]
    exact List.perm_middle.mem_iff
  refine ⟨h.toLinked.newTqueue player, ?_, ?_, ?_⟩
  · intro p hp
    rcases (hmem p).mp hp with rfl | hp
    · -- nobody waits for a player without a queue
      have hzero := h.tasksOf_none hnone
      rw [newTqueue_self]
      show (0 : Int) = (0 : Nat) + tasksOf player s.waitingTasks
      rw [hzero]
      rfl
    · rw [hold p hp]
      exact h.count p hp
  · intro p hp p' hp' hpp' heq
    rcases (hmem p).mp hp with rfl | hp
    · rcases (hmem p').mp hp' with rfl | hp'
      · exact absurd rfl hpp'
      · rw [newTqueue_self, hold p' hp'] at heq
        exact absurd heq.symm (mem_linked_of_findTqueue_none hnone hp')
    · rcases (hmem p').mp hp' with rfl | hp'
      · rw [newTqueue_self, hold p hp] at heq
        exact absurd heq (mem_linked_of_findTqueue_none hnone hp)
      · rw [hold p hp, hold p' hp'] at heq
        rw [hold p hp]
        exact h.unique p hp p' hp' hpp' heq
  · intro t ht
    obtain ⟨q, hq, hpl⟩ := h.cover t ht
    exact ⟨q, (hmem q).mpr (.inr hq), (congrArg TQueue.player (hold q hq)).trans hpl⟩

theorem Accounted.call (h : Accounted s) (hc : Call s s') : Accounted s' := by
  have hl := (h.toLinked.call hc).1
  cases hc with
  | note hb _ => exact h.same hl (SameBooks.beside hb)
  | create player hnone => exact h.newTqueue hnone
  | @store q f b hq hf _ =>
      have h1 : Accounted (s.modifyTq q f) :=
        h.same (h.toLinked.modifyTq hf.usage) (SameBooks.modifyTq hf)
      cases b with
      | false => exact h1
      | true => exact h1.same hl (SameBooks.woken (h1.toLinked.ensureUsage hq).2)
  | @ready q t t' ts hperm hprogr hq hpl =>
      rw [← ensureUsage_enqueueBgTask] at hl ⊢
      have h1 : Accounted (enqueueBgTask q t' { s with waitingTasks := ts }) := by
        refine h.unwait (f := fun tq => { tq with bg := tq.bg ++ [t'] }) hperm hq hpl rfl rfl ?_
        show (s.tqs q).numBgTasks - (((s.tqs q).bg ++ [t']).length : Int) = _
        rw [List.length_append, List.length_singleton]
        omega
      exact h1.same hl (SameBooks.woken (h1.toLinked.ensureUsage hq).2)
  | @killWaiting t ts hperm =>
      obtain ⟨q, hq, hqpl⟩ := h.cover t (hperm.mem_iff.mpr List.mem_cons_self)
      obtain ⟨q', hfind⟩ : ∃ q', findTqueue t.progr s = some q' := by
        cases hfind : findTqueue t.progr s with
        | some q' => exact ⟨q', rfl⟩
        | none => exact absurd hqpl (mem_linked_of_findTqueue_none hfind hq)
      obtain ⟨hq', hpl'⟩ := mem_of_findTqueue hfind
      simp only [hfind]
      refine h.unwait (f := fun tq => { tq with numBgTasks := tq.numBgTasks - 1 }) hperm hq' hpl'
        rfl rfl ?_
      show (s.tqs q').numBgTasks - 1 - ((s.tqs q').bg.length : Int) = _
      omega
  | @leave q t rest hbg hq =>
      have hq' := List.mem_append_left s.idleTqueues hq
      have hcount := h.count q hq'
      rw [hbg.length_eq, List.length_cons] at hcount
      refine h.adjust s.waitingTasks
        (f := fun tq => { tq with bg := rest, numBgTasks := tq.numBgTasks - 1 }) hq' rfl rfl ?_ ?_ (fun _ _ => rfl) fun _ ht => .inl ht
      · show (s.tqs q).numBgTasks - 1 = rest.length + tasksOf (s.tqs q).player s.waitingTasks
        omega
      · intro p hp hne heq
        have hzero := (h.unique q hq' p hp (Ne.symm hne) heq.symm).2
        omega

/-- Freeing a queue whose count is zero loses nobody's tasks. -/
theorem Accounted.free (h : Accounted s) : Accounted (freeEmptyTqueues s) := by
  have hidle : (freeEmptyTqueues s).idleTqueues.Sublist s.idleTqueues := List.filter_sublist
  have hlists := hidle.append_left s.activeTqueues
  refine ⟨h.toLinked.free, fun q hq => h.count q (hlists.subset hq),
    fun p hp q hq => h.unique p (hlists.subset hp) q (hlists.subset hq), fun t ht => ?_⟩
  obtain ⟨q, hq, hpl⟩ := h.cover t ht
  refine ⟨q, ?_, hpl⟩
  rcases List.mem_append.mp hq with ha | hi
  · exact List.mem_append_left _ ha
  · refine List.mem_append_right _ (List.mem_filter.mpr ⟨hi, ?_⟩)
    have hcount := h.count q hq
    have hpos : 0 < tasksOf _ s.waitingTasks := tasksOf_pos ht hpl
    have hne : (s.tqs q).numBgTasks ≠ 0 := by omega
    simp [hne]

/-- Calls and the scheduler keep the counts right. -/
theorem Accounted.closed : Closed Accounted where
  linked := Accounted.toLinked
  call := Accounted.call
  beside h hb := h.same (h.toLinked.beside hb) (SameBooks.beside hb)
  deactivate := by
    intro s q rest h hact _ _
    refine h.same (h.toLinked.deactivate hact) ⟨fun p => ?_, fun p _ => ?_, fun p _ => ?_,
      fun p _ => ?_, rfl⟩
    · rw [hact]
      exact List.perm_middle.mem_iff
    · exact modifyTq_field s q p (fun tq => { tq with usage := noUsage }) TQueue.player rfl
    · exact modifyTq_field s q p (fun tq => { tq with usage := noUsage }) TQueue.numBgTasks rfl
    · exact modifyTq_field s q p (fun tq => { tq with usage := noUsage }) (fun tq => tq.bg.length) rfl
  rotate := by
    intro s q l n h hq hperm
    refine h.same (h.toLinked.rotate n hq hperm) ⟨fun p => ?_, fun p _ => ?_, fun p _ => ?_,
      fun p _ => ?_, rfl⟩
    · exact (hperm.append_right _).mem_iff
    · exact modifyTq_field s q p (fun tq => { tq with usage := tq.usage + n }) TQueue.player rfl
    · exact modifyTq_field s q p (fun tq => { tq with usage := tq.usage + n }) TQueue.numBgTasks rfl
    · exact modifyTq_field s q p (fun tq => { tq with usage := tq.usage + n })
        (fun tq => tq.bg.length) rfl
  free := Accounted.free

/-! ## New tasks -/

/-- The programmer has at most one queue, if it is `NOTHING`. -/
def OneQueue (s : State) (progr : Objid) : Prop :=
  progr = nothing → ∀ p ∈ s.activeTqueues ++ s.idleTqueues, ∀ q ∈ s.activeTqueues ++ s.idleTqueues,
    (s.tqs p).player = nothing → (s.tqs q).player = nothing → p = q

/-- A task comes to the waiting list, and its queue counts it. -/
theorem Accounted.wait (h : Accounted s) (hq : q ∈ s.activeTqueues ++ s.idleTqueues)
    (hqpl : (s.tqs q).player = t.progr)
    (honly : ∀ p ∈ s.activeTqueues ++ s.idleTqueues, p ≠ q → (s.tqs p).player ≠ (s.tqs q).player)
    {ts : List Task} (hperm : ts.Perm (t :: s.waitingTasks)) :
    Accounted { s.modifyTq q (fun tq => { tq with numBgTasks := tq.numBgTasks + 1 }) with
      waitingTasks := ts } := by
  refine h.adjust _ (f := fun tq => { tq with numBgTasks := tq.numBgTasks + 1 }) hq rfl rfl ?_ honly
    ?_ ?_
  · have hcount := h.count q hq
    rw [tasksOf_perm hperm, tasksOf_cons, if_pos hqpl.symm]
    show (s.tqs q).numBgTasks + 1 = (s.tqs q).bg.length + (tasksOf _ s.waitingTasks + 1 : Nat)
    omega
  · intro progr hne
    rw [tasksOf_perm hperm, tasksOf_cons, if_neg (fun heq => hne (heq.symm.trans hqpl.symm)),
      Nat.add_zero]
  · intro t' ht'
    rcases List.mem_cons.mp (hperm.mem_iff.mp ht') with rfl | ht'
    · exact .inr hqpl.symm
    · exact .inl ht'

/-- A new task waits, and its programmer's queue counts it. -/
theorem Accounted.enqueueWaiting (h : Accounted s) (t : Task) (hone : OneQueue s t.progr) :
    Accounted (enqueueWaiting t s) := by
  have h1 : Accounted (findOrCreateTqueue t.progr s).2 :=
    Accounted.closed.calls h (calls_findOrCreate t.progr s)
  obtain ⟨hq, hqpl⟩ := findOrCreateTqueue_mem t.progr s
  refine h1.wait hq hqpl ?_ (insertWaiting_perm t _)
  intro p hp hne heq
  have hnothing := (h1.unique p hp _ hq hne heq).1
  have hprogr : t.progr = nothing := hqpl.symm.trans (heq.symm.trans hnothing)
  rcases findOrCreateTqueue_cases t.progr s with ⟨q, hfind, hr⟩ | ⟨hnone, hr⟩
  · rw [hr] at hp hne hnothing
    obtain ⟨hqm, hqp⟩ := mem_of_findTqueue hfind
    exact hne (hone hprogr p hp q hqm hnothing (hqp.trans hprogr))
  · rw [hr] at hp hne hnothing
    rcases List.mem_cons.mp (List.perm_middle.mem_iff.mp hp) with rfl | hp
    · exact hne rfl
    · have hpn : p ≠ s.nextTq := hne
      have hold : (Tasks.newTqueue t.progr s).tqs p = s.tqs p := newTqueue_ne t.progr hpn
      rw [hold] at hnothing
      exact mem_linked_of_findTqueue_none hnone hp (hnothing.trans hprogr.symm)

/-! ## Logins -/

/-- The counts are right but for one queue, and nobody needs that one. -/
structure AccountedBut (q : TqPtr) (s : State) : Prop where
  count : ∀ p ∈ s.activeTqueues ++ s.idleTqueues, p ≠ q → (s.tqs p).numBgTasks
    = (s.tqs p).bg.length + tasksOf (s.tqs p).player s.waitingTasks
  unique : ∀ p ∈ s.activeTqueues ++ s.idleTqueues, ∀ p' ∈ s.activeTqueues ++ s.idleTqueues,
    p ≠ q → p' ≠ q → p ≠ p' → (s.tqs p).player = (s.tqs p').player →
    (s.tqs p).player = nothing ∧ (s.tqs p).numBgTasks = 0
  cover : ∀ t ∈ s.waitingTasks, ∃ p ∈ s.activeTqueues ++ s.idleTqueues, p ≠ q ∧
    (s.tqs p).player = t.progr

/-- What the first part of a login leaves: the queue has a new player and no task. -/
structure Left (q : TqPtr) (newPlayer : Objid) (s s' : State) : Prop extends AccountedBut q s' where
  mem : q ∈ s'.activeTqueues ++ s'.idleTqueues
  player : (s'.tqs q).player = newPlayer
  num : (s'.tqs q).numBgTasks = 0
  bg : (s'.tqs q).bg = []
  old : ∀ p ∈ s.activeTqueues ++ s.idleTqueues, p ≠ q →
    p ∈ s'.activeTqueues ++ s'.idleTqueues ∧ s'.tqs p = s.tqs p
  /-- the others were there, or one has been made -/
  origin : ∀ p ∈ s'.activeTqueues ++ s'.idleTqueues, p ≠ q →
    p ∈ s.activeTqueues ++ s.idleTqueues ∧ s'.tqs p = s.tqs p ∨
      (s'.tqs p).player = (s.tqs q).player ∧ (s.tqs q).numBgTasks ≠ 0

/-- What has become of a queue that had background tasks: a new one has them. -/
structure MovedOff (q : TqPtr) (newPlayer : Objid) (s s' : State) : Prop where
  old : s'.tqs q = { s.tqs q with player := newPlayer, numBgTasks := 0, bg := [] }
  new : s'.tqs s.nextTq = {
    player := (s.tqs q).player
    numBgTasks := (s.tqs q).numBgTasks
    bg := (s.tqs q).bg }
  others : ∀ p ∈ s.activeTqueues ++ s.idleTqueues, p ≠ q → s'.tqs p = s.tqs p
  mem : ∀ p, p ∈ s'.activeTqueues ++ s'.idleTqueues ↔
    p = s.nextTq ∨ p ∈ s.activeTqueues ++ s.idleTqueues
  waiting : s'.waitingTasks = s.waitingTasks

/-- The queue has been renumbered, so its old player has none, and gets one. -/
theorem Accounted.movedOff (h : Accounted s) (hq : q ∈ s.activeTqueues ++ s.idleTqueues)
    {newPlayer : Objid} (hnew : (s.tqs q).player ≠ newPlayer) (hnum : (s.tqs q).numBgTasks ≠ 0) :
    MovedOff q newPlayer s (Tasks.leaveOldQueue q (s.tqs q).player
      (s.modifyTq q fun tq => { tq with player := newPlayer })) := by
  let s1 := s.modifyTq q fun tq => { tq with player := newPlayer }
  have hq1 : s1.tqs q = { s.tqs q with player := newPlayer } := modifyTq_tqs_self s q _
  have hp1 : ∀ p, p ≠ q → s1.tqs p = s.tqs p := fun p hp => modifyTq_tqs_ne s _ hp
  have hnum1 : (s1.tqs q).numBgTasks ≠ 0 := by rwa [hq1]
  have hnone : findTqueue (s.tqs q).player s1 = none := by
    refine List.find?_eq_none.mpr fun p hp heq => ?_
    rw [decide_eq_true_eq] at heq
    by_cases hpq : p = q
    · rw [hpq, hq1] at heq
      exact hnew heq.symm
    · rw [hp1 p hpq] at heq
      exact hnum (h.unique q hq p hp (Ne.symm hpq) heq.symm).2
  have hr : findOrCreateTqueue (s.tqs q).player s1
      = (s.nextTq, Tasks.newTqueue (s.tqs q).player s1) := by
    rcases findOrCreateTqueue_cases (s.tqs q).player s1 with ⟨p, hfind, -⟩ | ⟨-, hr⟩
    · rw [hnone] at hfind
      cases hfind
    · exact hr
  show MovedOff q newPlayer s (Tasks.leaveOldQueue q (s.tqs q).player s1)
  rw [Tasks.leaveOldQueue, if_pos hnum1]
  simp only [hr]
  have hqn : q ≠ s.nextTq := Nat.ne_of_lt (h.fresh q hq)
  let s2 := Tasks.newTqueue (s.tqs q).player s1
  let s3 := s2.modifyTq s.nextTq fun tq => { tq with numBgTasks := (s2.tqs q).numBgTasks }
  have hq2 : s2.tqs q = { s.tqs q with player := newPlayer } := (newTqueue_ne (s := s1) _ hqn).trans hq1
  have hq3 : s3.tqs q = { s.tqs q with player := newPlayer } := (modifyTq_tqs_ne s2 _ hqn).trans hq2
  have hn3 : s3.tqs s.nextTq
      = { player := (s.tqs q).player, numBgTasks := (s.tqs q).numBgTasks } := by
    have hn : s3.tqs s.nextTq = { s2.tqs s.nextTq with numBgTasks := (s2.tqs q).numBgTasks } :=
      modifyTq_tqs_self s2 s.nextTq _
    rw [hn, hq2]
    exact congrArg (fun tq : TQueue => { tq with numBgTasks := (s.tqs q).numBgTasks })
      (newTqueue_self (s.tqs q).player s1)
  obtain ⟨hlists, hq4, hn4, hp4⟩ := moveBgTasks_spec (s := s3) hqn rfl
  let s4 := moveBgTasks q s.nextTq (s3.tqs q).bg.length s3
  let s5 := s4.modifyTq q fun tq => { tq with numBgTasks := 0 }
  show MovedOff q newPlayer s s5
  have hq5 : s5.tqs q = { s4.tqs q with numBgTasks := 0 } := modifyTq_tqs_self s4 q _
  refine ⟨?_, ?_, fun p hp hpq => ?_, fun p => ?_, hlists.waiting⟩
  · rw [hq5, hq4, hq3]
  · refine (modifyTq_tqs_ne s4 _ hqn.symm).trans (hn4.trans ?_)
    rw [hn3, hq3]
    rfl
  · have hpn : p ≠ s.nextTq := Nat.ne_of_lt (h.fresh p hp)
    exact (modifyTq_tqs_ne s4 _ hpq).trans <| (hp4 p hpq hpn).trans <|
      (modifyTq_tqs_ne s2 _ hpn).trans <| (newTqueue_ne (s := s1) _ hpn).trans (hp1 p hpq)
  · rw [show s5.activeTqueues = s.activeTqueues from hlists.active,
      show s5.idleTqueues = s.nextTq :: s.idleTqueues from hlists.idle, ← List.mem_cons]
    exact List.perm_middle.mem_iff

theorem MovedOff.left {newPlayer : Objid} (hm : MovedOff q newPlayer s s') (h : Accounted s)
    (hq : q ∈ s.activeTqueues ++ s.idleTqueues) (hnum : (s.tqs q).numBgTasks ≠ 0) :
    Left q newPlayer s s' := by
  have hqn : q ≠ s.nextTq := Nat.ne_of_lt (h.fresh q hq)
  have hold : ∀ p ∈ s.activeTqueues ++ s.idleTqueues, p ≠ q →
      (s.tqs p).player ≠ (s.tqs q).player := fun p hp hpq heq =>
    hnum (h.unique q hq p hp (Ne.symm hpq) heq.symm).2
  refine ⟨⟨?_, ?_, ?_⟩, (hm.mem q).mpr (.inr hq), ?_, ?_, ?_,
    fun p hp hpq => ⟨(hm.mem p).mpr (.inr hp), hm.others p hp hpq⟩, ?_⟩
  · intro p hp hpq
    rw [hm.waiting]
    rcases (hm.mem p).mp hp with rfl | hp
    · rw [hm.new]
      exact h.count q hq
    · rw [hm.others p hp hpq]
      exact h.count p hp
  · intro p hp p' hp' hpq hpq' hne heq
    rcases (hm.mem p).mp hp with rfl | hp
    · rcases (hm.mem p').mp hp' with rfl | hp'
      · exact absurd rfl hne
      · rw [hm.new, hm.others p' hp' hpq'] at heq
        exact absurd heq.symm (hold p' hp' hpq')
    · rcases (hm.mem p').mp hp' with rfl | hp'
      · rw [hm.new, hm.others p hp hpq] at heq
        exact absurd heq (hold p hp hpq)
      · rw [hm.others p hp hpq, hm.others p' hp' hpq'] at heq
        rw [hm.others p hp hpq]
        exact h.unique p hp p' hp' hne heq
  · intro t ht
    rw [hm.waiting] at ht
    obtain ⟨p, hp, hpl⟩ := h.cover t ht
    by_cases hpq : p = q
    · rw [hpq] at hpl
      exact ⟨s.nextTq, (hm.mem _).mpr (.inl rfl), hqn.symm, (congrArg TQueue.player hm.new).trans hpl⟩
    · exact ⟨p, (hm.mem p).mpr (.inr hp), hpq,
        (congrArg TQueue.player (hm.others p hp hpq)).trans hpl⟩
  · rw [hm.old]
  · rw [hm.old]
  · rw [hm.old]
  · intro p hp hpq
    rcases (hm.mem p).mp hp with rfl | hp
    · exact .inr ⟨by rw [hm.new], hnum⟩
    · exact .inl ⟨hp, hm.others p hp hpq⟩

/-- A queue without background tasks is only renumbered. -/
theorem Accounted.left (h : Accounted s) (hq : q ∈ s.activeTqueues ++ s.idleTqueues)
    (newPlayer : Objid) (hnum : (s.tqs q).numBgTasks = 0) :
    Left q newPlayer s (s.modifyTq q fun tq => { tq with player := newPlayer }) := by
  have hq1 : (s.modifyTq q fun tq => { tq with player := newPlayer }).tqs q
      = { s.tqs q with player := newPlayer } := modifyTq_tqs_self s q _
  have hp1 : ∀ p, p ≠ q → (s.modifyTq q fun tq => { tq with player := newPlayer }).tqs p = s.tqs p :=
    fun p hp => modifyTq_tqs_ne s _ hp
  have hcount := h.count q hq
  have hbg : (s.tqs q).bg = [] := by
    refine List.length_eq_zero_iff.mp ?_
    omega
  refine ⟨⟨fun p hp hpq => ?_, fun p hp p' hp' hpq hpq' hne heq => ?_, fun t ht => ?_⟩,
    hq, ?_, ?_, ?_, fun p hp hpq => ⟨hp, hp1 p hpq⟩, fun p hp hpq => .inl ⟨hp, hp1 p hpq⟩⟩
  · rw [hp1 p hpq]
    exact h.count p hp
  · rw [hp1 p hpq, hp1 p' hpq'] at heq
    rw [hp1 p hpq]
    exact h.unique p hp p' hp' hne heq
  · obtain ⟨p, hp, hpl⟩ := h.cover t ht
    have hpq : p ≠ q := by
      rintro rfl
      have hpos : 0 < tasksOf _ s.waitingTasks := tasksOf_pos ht hpl
      omega
    exact ⟨p, hp, hpq, (congrArg TQueue.player (hp1 p hpq)).trans hpl⟩
  · rw [hq1]
  · rw [hq1]
    exact hnum
  · rw [hq1]
    exact hbg

theorem Accounted.leaveOldQueue (h : Accounted s) (hq : q ∈ s.activeTqueues ++ s.idleTqueues)
    {newPlayer : Objid} (hnew : (s.tqs q).player ≠ newPlayer) :
    Left q newPlayer s (leaveOldQueue q (s.tqs q).player
      (s.modifyTq q fun tq => { tq with player := newPlayer })) := by
  by_cases hnum : (s.tqs q).numBgTasks = 0
  · have hq1 : ((s.modifyTq q fun tq => { tq with player := newPlayer }).tqs q).numBgTasks = 0 := by
      rw [modifyTq_tqs_self]
      exact hnum
    rw [Tasks.leaveOldQueue, if_neg (not_not.mpr hq1)]
    exact h.left hq newPlayer hnum
  · exact (h.movedOff hq hnew hnum).left h hq hnum

/-- Flushing input touches no account. -/
theorem SameBooks.flushInput (n : Nat) : SameBooks s (flushInput q n s) := by
  induction n generalizing s with
  | zero => exact SameBooks.refl s
  | succ n ih =>
      simp only [Tasks.flushInput]
      split
      next line s1 hd =>
        simp only [dequeueInputTask] at hd
        split at hd
        · cases hd
        · split at hd
          · cases hd
          · cases hd
            exact (SameBooks.modifyTq ⟨rfl, rfl, rfl, rfl⟩).trans ih
      · exact SameBooks.refl s

/-- Without an old queue of the player, the rest is right already. -/
theorem Left.none (hl : Linked s') {newPlayer : Objid} (h : Left q newPlayer s s')
    (hnone : findTqueue newPlayer s = none) (hnew : (s.tqs q).player ≠ newPlayer) : Accounted s' := by
  have hne : ∀ p ∈ s'.activeTqueues ++ s'.idleTqueues, p ≠ q → (s'.tqs p).player ≠ newPlayer := by
    intro p hp hpq heq
    rcases h.origin p hp hpq with ⟨hps, hsame⟩ | ⟨hpl, -⟩
    · rw [hsame] at heq
      exact mem_linked_of_findTqueue_none hnone hps heq
    · exact hnew (hpl.symm.trans heq)
  refine ⟨hl, fun p hp => ?_, fun p hp p' hp' hpp' heq => ?_, fun t ht => ?_⟩
  · by_cases hpq : p = q
    · have hzero : tasksOf newPlayer s'.waitingTasks = 0 := by
        refine List.countP_eq_zero.mpr fun t ht => ?_
        obtain ⟨p', hp', hne', hpl⟩ := h.cover t ht
        simpa [← hpl] using hne p' hp' hne'
      rw [hpq, h.num, h.bg, h.player, hzero]
      rfl
    · exact h.count p hp hpq
  · by_cases hpq : p = q
    · rw [hpq, h.player] at heq
      exact absurd heq.symm (hne p' hp' fun hp'q => hpp' (hpq.trans hp'q.symm))
    · by_cases hp'q : p' = q
      · rw [hp'q, h.player] at heq
        exact absurd heq (hne p hp hpq)
      · exact h.unique p hp p' hp' hpq hp'q hpp' heq
  · obtain ⟨p, hp, -, hpl⟩ := h.cover t ht
    exact ⟨p, hp, hpl⟩

/-- What has become of the queues when one has taken over another's tasks. -/
structure TookOver (q dead : TqPtr) (s s' : State) : Prop where
  taker : (s'.tqs q).player = (s.tqs q).player ∧ (s'.tqs q).numBgTasks = (s.tqs dead).numBgTasks ∧
    (s'.tqs q).bg.length = (s.tqs q).bg.length + (s.tqs dead).bg.length
  emptied : (s'.tqs dead).player = nothing ∧ (s'.tqs dead).numBgTasks = 0 ∧ (s'.tqs dead).bg = []
  others : ∀ p ∈ s.activeTqueues ++ s.idleTqueues, p ≠ q → p ≠ dead →
    (s'.tqs p).player = (s.tqs p).player ∧ (s'.tqs p).numBgTasks = (s.tqs p).numBgTasks ∧
      (s'.tqs p).bg.length = (s.tqs p).bg.length
  mem : ∀ p, p ∈ s'.activeTqueues ++ s'.idleTqueues ↔ p ∈ s.activeTqueues ++ s.idleTqueues
  waiting : s'.waitingTasks = s.waitingTasks

theorem takeOver_tookOver {dead : TqPtr} (hdq : dead ≠ q) (hq : q ∈ s.activeTqueues ++ s.idleTqueues)
    (hdead : dead ∈ s.activeTqueues ++ s.idleTqueues) : TookOver q dead s (takeOver q dead s) := by
  let s1 := s.modifyTq q fun tq => { tq with numBgTasks := (s.tqs dead).numBgTasks }
  let s2 := flushAll dead s1
  let s3 := moveBgTasks dead q (s2.tqs dead).bg.length s2
  let s4 := s3.modifyTq dead fun tq => { tq with player := nothing, numBgTasks := 0 }
  have hb : SameBooks s1 s2 := SameBooks.flushInput _
  obtain ⟨hlists, hd3, hq3, hp3⟩ := moveBgTasks_spec (s := s2) hdq rfl
  have hd4 : s4.tqs dead = { s3.tqs dead with player := nothing, numBgTasks := 0 } :=
    modifyTq_tqs_self s3 dead _
  have hq1 : s1.tqs q = { s.tqs q with numBgTasks := (s.tqs dead).numBgTasks } :=
    modifyTq_tqs_self s q _
  have hd1 : s1.tqs dead = s.tqs dead := modifyTq_tqs_ne s _ hdq
  have hq4 : s4.tqs q = { s2.tqs q with bg := (s2.tqs q).bg ++ (s2.tqs dead).bg } :=
    (modifyTq_tqs_ne s3 _ hdq.symm).trans hq3
  show TookOver q dead s s4
  refine ⟨?_, ?_, fun p hp hpq hpd => ?_, fun p => ?_, hlists.waiting.trans hb.waiting⟩
  · rw [hq4]
    refine ⟨(hb.player q hq).trans ?_, (hb.num q hq).trans ?_, ?_⟩
    · rw [hq1]
    · rw [hq1]
    · rw [List.length_append, hb.bg q hq, hb.bg dead hdead, hd1, hq1]
  · rw [hd4]
    exact ⟨rfl, rfl, congrArg TQueue.bg hd3⟩
  · have hp4 : s4.tqs p = s2.tqs p := (modifyTq_tqs_ne s3 _ hpd).trans (hp3 p hpd hpq)
    have hp1 : s1.tqs p = s.tqs p := modifyTq_tqs_ne s _ hpq
    rw [hp4, ← hp1]
    exact ⟨hb.player p hp, hb.num p hp, hb.bg p hp⟩
  · rw [show s4.activeTqueues = s2.activeTqueues from hlists.active,
      show s4.idleTqueues = s2.idleTqueues from hlists.idle]
    exact hb.mem p

/-- Nobody has tasks of `NOTHING`. -/
theorem Left.tasksOf_nothing {newPlayer : Objid} (h : Left q newPlayer s s')
    (hzero : ∀ p ∈ s'.activeTqueues ++ s'.idleTqueues, p ≠ q → (s'.tqs p).player = nothing →
      (s'.tqs p).numBgTasks = 0) : tasksOf nothing s'.waitingTasks = 0 := by
  refine List.countP_eq_zero.mpr fun t ht heq => ?_
  obtain ⟨p, hp, hpq, hpl⟩ := h.cover t ht
  have hpn : (s'.tqs p).player = nothing := hpl.trans (of_decide_eq_true heq)
  have hcount := h.count p hp hpq
  rw [hzero p hp hpq hpn] at hcount
  have hpos : 0 < tasksOf _ s'.waitingTasks := tasksOf_pos ht hpl
  omega

/-- The player's old queue hands its accounts over, when nobody has tasks of `NOTHING`. -/
theorem Left.takeOver {dead : TqPtr} {newPlayer : Objid} (h : Left q newPlayer s s')
    (hl : Linked (takeOver q dead s')) (hdead : dead ∈ s.activeTqueues ++ s.idleTqueues)
    (hdq : dead ≠ q) (hdpl : (s.tqs dead).player = newPlayer) (hnew : newPlayer ≠ nothing)
    (hq : q ∈ s.activeTqueues ++ s.idleTqueues)
    (hnothing : ∀ p ∈ s.activeTqueues ++ s.idleTqueues, (s.tqs p).player = nothing →
      (s.tqs p).numBgTasks = 0) : Accounted (Tasks.takeOver q dead s') := by
  obtain ⟨hdmem, hdsame⟩ := h.old dead hdead hdq
  have hdpl' : (s'.tqs dead).player = newPlayer := by
    rw [hdsame]
    exact hdpl
  have htook := takeOver_tookOver hdq h.mem hdmem
  obtain ⟨hqpl, hqnum, hqbg⟩ := htook.taker
  rw [h.player] at hqpl
  rw [h.bg, List.length_nil, Nat.zero_add] at hqbg
  obtain ⟨hdpl4, hdnum4, hdbg4⟩ := htook.emptied
  have hzero : ∀ p ∈ s'.activeTqueues ++ s'.idleTqueues, p ≠ q → (s'.tqs p).player = nothing →
      (s'.tqs p).numBgTasks = 0 := by
    intro p hp hpq hpl
    rcases h.origin p hp hpq with ⟨hpm, hsame⟩ | ⟨hplq, hnum⟩
    · rw [hsame] at hpl ⊢
      exact hnothing p hpm hpl
    · exact absurd (hnothing q hq (hplq.symm.trans hpl)) hnum
  -- the player has no queue but these two
  have honly : ∀ p ∈ s'.activeTqueues ++ s'.idleTqueues, p ≠ q → p ≠ dead →
      (s'.tqs p).player ≠ newPlayer := by
    intro p hp hpq hpd hpl
    have := (h.unique p hp dead hdmem hpq hdq hpd (hpl.trans hdpl'.symm)).1
    exact hnew (hpl.symm.trans this)
  refine ⟨hl, fun p hp => ?_, fun p hp p' hp' hpp' heq => ?_, fun t ht => ?_⟩
  · have hp' := (htook.mem p).mp hp
    rw [htook.waiting]
    by_cases hpq : p = q
    · rw [hpq, hqpl, hqnum, hqbg, ← hdpl']
      exact h.count dead hdmem hdq
    · by_cases hpd : p = dead
      · rw [hpd, hdpl4, hdnum4, hdbg4, h.tasksOf_nothing hzero]
        rfl
      · obtain ⟨hpl, hnum, hbg⟩ := htook.others p hp' hpq hpd
        rw [hpl, hnum, hbg]
        exact h.count p hp' hpq
  · have hpm := (htook.mem p).mp hp
    have hpm' := (htook.mem p').mp hp'
    by_cases hpd : p = dead
    · rw [hpd]
      exact ⟨hdpl4, hdnum4⟩
    · by_cases hpq : p = q
      · have hp'q : p' ≠ q := fun h' => hpp' (hpq.trans h'.symm)
        rw [hpq, hqpl] at heq
        by_cases hp'd : p' = dead
        · rw [hp'd, hdpl4] at heq
          exact absurd heq hnew
        · rw [(htook.others p' hpm' hp'q hp'd).1] at heq
          exact absurd heq.symm (honly p' hpm' hp'q hp'd)
      · obtain ⟨hpl, hnum, -⟩ := htook.others p hpm hpq hpd
        rw [hnum, hpl]
        rw [hpl] at heq
        by_cases hp'd : p' = dead
        · rw [hp'd, hdpl4] at heq
          exact ⟨heq, hzero p hpm hpq heq⟩
        · by_cases hp'q : p' = q
          · rw [hp'q, hqpl] at heq
            exact absurd heq (honly p hpm hpq hpd)
          · rw [(htook.others p' hpm' hp'q hp'd).1] at heq
            exact h.unique p hpm p' hpm' hpq hp'q hpp' heq
  · rw [htook.waiting] at ht
    obtain ⟨p, hp, hpq, hpl⟩ := h.cover t ht
    by_cases hpd : p = dead
    · refine ⟨q, (htook.mem q).mpr h.mem, ?_⟩
      rw [hqpl, ← hdpl', ← hpd]
      exact hpl
    · refine ⟨p, (htook.mem p).mpr hp, ?_⟩
      rw [(htook.others p hp hpq hpd).1]
      exact hpl

/-! ## Runs -/

/-- What the accounts stand.  No external queue gives a task back; a task of `NOTHING` comes
    only while at most one queue has that player; and no queue gets that player while such
    tasks are there. -/
def KeepsAccounts (s : State) : Action → Prop
  | .externalResume .. => False
  | .fork progr .. => OneQueue s progr
  | .suspend progr .. => OneQueue s progr
  | .restore _ _ progr .. => OneQueue s progr
  | .loginReturns (some player) => (findTqueue player s).isSome = true →
      ∀ q ∈ s.activeTqueues ++ s.idleTqueues, (s.tqs q).player = nothing → (s.tqs q).numBgTasks = 0
  | _ => True

theorem Accounted.newWaiting (h : Accounted s) (hs : Serving s) (kind : BgKind) (id : Int)
    {progr : Objid} (startTime : Int) (value : Var) (hone : OneQueue s progr) :
    let n := newTask kind id progr startTime value s
    Accounted (Tasks.enqueueWaiting n.1 n.2) ∧ Serving (Tasks.enqueueWaiting n.1 n.2) := by
  intro n
  have hb : Beside s n.2 := ⟨rfl, rfl, rfl, rfl, rfl⟩
  have hn : Accounted n.2 := Accounted.closed.beside h hb
  have hsn : Serving n.2 := hs
  exact ⟨hn.enqueueWaiting n.1 hone, hsn.of_keeps (hn.toLinked.enqueueWaiting n.1).2⟩

theorem Accounted.doLoginTask (h : Accounted s) {result : Option Objid}
    (hq : q ∈ s.activeTqueues) (hlogin : (s.tqs q).player < 0) (hres : ∀ p ∈ result, 0 ≤ p)
    (hok : KeepsAccounts s (.loginReturns result)) : Accounted (Tasks.doLoginTask q result s) := by
  have hl := (h.toLinked.edits (edits_doLoginTask q result s)).1
  cases result with
  | none => exact h
  | some newPlayer =>
      have hnew : 0 ≤ newPlayer := hres newPlayer rfl
      have hne : (s.tqs q).player ≠ newPlayer := fun h' =>
        absurd hnew (Int.not_le.mpr (h' ▸ hlogin))
      have hqm := List.mem_append_left s.idleTqueues hq
      have hleft := h.leaveOldQueue hqm hne
      have hl1 := (h.toLinked.modifyTq (q := q) (f := fun tq => { tq with player := newPlayer })
        rfl).edits (edits_leaveOldQueue q (s.tqs q).player _)
      rw [doLoginTask_eq] at hl ⊢
      split at hl
      next hc =>
        rw [if_pos hc]
        exact h
      next hc =>
        rw [if_neg hc]
        cases hdead : findTqueue newPlayer s with
        | none => exact hleft.none hl1.1 hdead hne
        | some dead =>
            simp only [hdead] at hl
            obtain ⟨hdm, hdpl⟩ := mem_of_findTqueue hdead
            have hdq : dead ≠ q := by
              rintro rfl
              exact hne hdpl
            have hnn : newPlayer ≠ nothing := by
              rintro rfl
              exact absurd hnew (by decide)
            exact hleft.takeOver hl hdm hdq hdpl hnn hqm (hok (by rw [hdead]; rfl))

/-- A step that meets the condition keeps the counts right. -/
theorem Accounted.step (h : Accounted s) (hs : Serving s) {a : Action} (hok : KeepsAccounts s a)
    (hstep : Step s a s') : Accounted s' ∧ Serving s' := by
  by_cases ha : a.isCall = true ∨ (∃ now, a = .runReady now) ∨ (∃ d e, a = .taskEnds d e) ∨
      ∃ p vm, a = .promptReads p vm
  · exact Accounted.closed.step h hs hstep ha
  · cases hstep with
    | fork p ul sl st id =>
        simp only [enqueueForkedTask]
        split
        · exact h.newWaiting hs .forked id st zero hok
        · exact ⟨h, hs⟩
    | suspend p ul sl st id =>
        simp only [enqueueSuspendedTask]
        split
        · exact h.newWaiting hs .suspended id st zero hok
        · exact ⟨h, hs⟩
    | restore k id p st v => exact h.newWaiting hs k id st v hok
    | externalResume id p v => exact hok.elim
    | loginReturns q r hctl hres =>
        obtain ⟨hhead, hlogin⟩ := hs q .login hctl
        have hq : q ∈ s.activeTqueues := List.mem_of_mem_head? hhead
        have h1 := h.doLoginTask hq (hlogin rfl) hres hok
        obtain ⟨-, hact⟩ := h.toLinked.edits (edits_doLoginTask q r s)
        refine ⟨Accounted.closed.beside h1 ⟨rfl, rfl, rfl, rfl, rfl⟩, fun p w hp => ?_⟩
        cases hp
        refine ⟨?_, fun hw => (by cases hw)⟩
        show (Tasks.doLoginTask q r s).activeTqueues.head? = some q
        rw [hact]
        exact hhead
    | _ => exact absurd (by simp [Action.isCall]) ha

theorem Accounted.init : Accounted State.init where
  nodup := List.nodup_nil
  fresh := fun _ h => nomatch h
  usageActive := fun _ h => nomatch h
  usageIdle := fun _ h => nomatch h
  count := fun _ h => nomatch h
  unique := fun _ h => nomatch h
  cover := fun _ h => nomatch h

/-- The background tasks of a player: on the list of the queue, and waiting. -/
def backgroundTasks (player : Objid) (s : State) : Nat :=
  ((findTqueue player s).map fun q => (s.tqs q).bg.length).getD 0 + tasksOf player s.waitingTasks

/-- The limit that `check_user_task_limit` compares with; there is none below 0. -/
def taskLimit (userLimit : Option Int) (serverLimit : Int) : Int :=
  match userLimit with
  | some n => if n < 0 then serverLimit else n
  | none => serverLimit

theorem checkUserTaskLimit_eq (player : Objid) (userLimit : Option Int) (serverLimit : Int)
    (s : State) : checkUserTaskLimit player userLimit serverLimit s
      = if taskLimit userLimit serverLimit < 0 then true
        else !decide (taskLimit userLimit serverLimit
          ≤ ((findTqueue player s).map fun q => (s.tqs q).numBgTasks).getD 0) := by
  unfold checkUserTaskLimit taskLimit
  cases findTqueue player s <;> rfl

/-- The queue of a player counts the background tasks, and the limit is kept. -/
structure Counted (s : State) (player : Objid) : Prop where
  count : ((findTqueue player s).map fun q => (s.tqs q).numBgTasks).getD 0 = backgroundTasks player s
  limit : ∀ userLimit serverLimit, checkUserTaskLimit player userLimit serverLimit s = true ↔
    taskLimit userLimit serverLimit < 0 ∨
      (backgroundTasks player s : Int) < taskLimit userLimit serverLimit

theorem Accounted.counted (h : Accounted s) (player : Objid) : Counted s player := by
  have hcount : ((findTqueue player s).map fun q => (s.tqs q).numBgTasks).getD 0
      = backgroundTasks player s := by
    rw [backgroundTasks]
    cases hfind : findTqueue player s with
    | none =>
        rw [h.tasksOf_none hfind]
        rfl
    | some q =>
        obtain ⟨hq, hpl⟩ := mem_of_findTqueue hfind
        have := h.count q hq
        rw [hpl] at this
        exact this
  refine ⟨hcount, fun ul sl => ?_⟩
  rw [← hcount, checkUserTaskLimit_eq]
  split
  next hneg => exact ⟨fun _ => .inl hneg, fun _ => rfl⟩
  next hpos =>
    rw [Bool.not_eq_true', decide_eq_false_iff_not, Int.not_le]
    exact ⟨.inr, fun h' => h'.resolve_left hpos⟩

/-- In every state of a run whose steps meet the condition, the queues count the background
    tasks of their players, and no count is negative. -/
theorem background_tasks_counted {as : List Action}
    (hrun : Runs.Run (Runs.guarded KeepsAccounts Step) State.init as s) :
    (∀ player, Counted s player) ∧
      ∀ q ∈ s.activeTqueues ++ s.idleTqueues, 0 ≤ (s.tqs q).numBgTasks := by
  have hstep : ∀ s a s', Accounted s ∧ Serving s → Runs.guarded KeepsAccounts Step s a s' →
      Accounted s' ∧ Serving s' := by
    intro s a s' h hs
    exact h.1.step h.2 hs.1 hs.2
  obtain ⟨h, -⟩ := hrun.invariant hstep ⟨Accounted.init, fun _ _ hc => nomatch hc⟩
  refine ⟨h.counted, fun q hq => ?_⟩
  rw [h.count q hq]
  omega

/-- The task that the connection's code forks is counted before and after the login. -/
theorem background_tasks_counted_forkBeforeLogin :
    ∃ s, Runs.Run (Runs.guarded KeepsAccounts Step) State.init (forkBeforeLogin (-5)) s ∧
      backgroundTasks (-5) s = 1 ∧ Counted s (-5) := by
  have hrun : ∃ s, Runs.Run (Runs.guarded KeepsAccounts Step) State.init (forkBeforeLogin (-5)) s ∧
      backgroundTasks (-5) s = 1 := by
    refine ⟨_, .cons ⟨trivial, .newConnection _ _ _ (by decide)⟩ <|
      .cons ⟨trivial, .input _ _ _ _ _ (by decide)⟩ <| .cons ⟨trivial, .runReady _ _ rfl⟩ <|
      .cons ⟨fun h => absurd h (by decide), .fork _ _ _ _ _ _⟩ <|
      .cons ⟨trivial, .loginReturns _ 0 _ rfl (by decide)⟩ <|
      .cons ⟨trivial, .taskEnds _ 0 _ rfl⟩ <|
      .cons ⟨trivial, .input _ _ _ _ _ (by decide)⟩ <| .cons ⟨trivial, .runReady _ _ rfl⟩ <|
      .cons ⟨fun h => absurd h (by decide), .loginReturns _ 0 _ rfl (by decide)⟩ (.nil _), ?_⟩
    decide
  obtain ⟨s, hs, hone⟩ := hrun
  exact ⟨s, hs, hone, (background_tasks_counted hs).1 (-5)⟩

/-- A task that an external queue gives back runs, and the count of its programmer is −1. -/
theorem resume_task_uncounted :
    ∃ s, Runs.Run Step State.init [.externalResume 42 7 zero, .runReady 1] s ∧
      ¬ Counted s 7 ∧ ∃ q ∈ s.activeTqueues ++ s.idleTqueues, (s.tqs q).numBgTasks < 0 := by
  have hrun : ∃ s, Runs.Run Step State.init [.externalResume 42 7 zero, .runReady 1] s ∧
      ((findTqueue 7 s).map fun q => (s.tqs q).numBgTasks).getD 0 = -1 ∧
      backgroundTasks 7 s = 0 ∧ ∃ q ∈ s.activeTqueues ++ s.idleTqueues, (s.tqs q).numBgTasks < 0 := by
    refine ⟨_, .cons (.externalResume _ _ _ _) <| .cons (.runReady _ _ rfl) (.nil _), ?_⟩
    decide
  obtain ⟨s, hs, hnum, hbg, hneg⟩ := hrun
  refine ⟨s, hs, fun h => ?_, hneg⟩
  have hcount := h.count
  rw [hnum, hbg] at hcount
  exact absurd hcount (by decide)

end Waverous.Tasks
