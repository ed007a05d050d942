import Waverous.TaskWakeups

/-! # The order of the waiting list — `tasks.c`

    `enqueue_waiting` puts a task behind all that do not start later, `kill_task` and
    `do_resume` take one out, and `run_ready_tasks` takes the front.  Nothing else touches
    the list, so it stays sorted, and the front is what is due. -/

namespace Waverous.Tasks

open Runs

variable {s s' s'' : State} {q p : TqPtr} {t : Task}

/-! ## Start times -/

/-- `struct timeval`, as the module makes it: the microseconds are less than a second, and
    of the sign of the seconds. -/
structure Timeval where
  sec : Int
  usec : Int
  below : usec.natAbs < 1000000
  after : 0 < sec → 0 ≤ usec
  before : sec < 0 → usec ≤ 0

/-- `timeval_lt`. -/
def timevalLt (tv1 tv2 : Timeval) : Bool :=
  decide (tv1.sec < tv2.sec) || (decide (tv1.sec = tv2.sec) && decide (tv1.usec < tv2.usec))

/-- The time in microseconds, which is what a task has for its start time here. -/
def Timeval.micros (tv : Timeval) : Int := tv.sec * 1000000 + tv.usec

/-- The parts of a time in microseconds. -/
theorem micros_parts (m : Int) :
    m.tdiv 1000000 * 1000000 + m.tmod 1000000 = m ∧ (m.tmod 1000000).natAbs < 1000000 ∧
      (0 ≤ m → 0 ≤ m.tmod 1000000) ∧ (m ≤ 0 → m.tmod 1000000 ≤ 0) := by
  refine ⟨Int.tdiv_mul_add_tmod m 1000000, ?_, fun h => Int.tmod_nonneg _ h, fun h => ?_⟩
  · rw [Int.natAbs_tmod]
    exact Nat.mod_lt _ (by decide)
  · have hneg := Int.tmod_nonneg 1000000 (show 0 ≤ -m by omega)
    rw [Int.neg_tmod] at hneg
    omega

/-- The start time of a task. -/
def Task.start (t : Task) : Timeval where
  sec := t.startTime.tdiv 1000000
  usec := t.startTime.tmod 1000000
  below := (micros_parts t.startTime).2.1
  after := by
    obtain ⟨hsum, hbelow, hpos, hneg⟩ := micros_parts t.startTime
    omega
  before := by
    obtain ⟨hsum, hbelow, hpos, hneg⟩ := micros_parts t.startTime
    omega

theorem timevalLt_iff (tv1 tv2 : Timeval) :
    timevalLt tv1 tv2 = true ↔ tv1.micros < tv2.micros := by
  obtain ⟨sec1, usec1, below1, after1, before1⟩ := tv1
  obtain ⟨sec2, usec2, below2, after2, before2⟩ := tv2
  simp only [timevalLt, Timeval.micros, Bool.or_eq_true, Bool.and_eq_true, decide_eq_true_eq]
  omega

theorem Task.micros_start (t : Task) : t.start.micros = t.startTime := by
  exact (micros_parts t.startTime).1

/-- `timeval_lt` of the start times of two tasks. -/
theorem timevalLt_start (t u : Task) :
    timevalLt t.start u.start = true ↔ t.startTime < u.startTime := by
  rw [timevalLt_iff, Task.micros_start, Task.micros_start]

/-- One task is to come before another: it starts before, or at the same time and was put
    on the list first.  A task is put there when it is made, so `uid` counts both. -/
def ComesBefore (t u : Task) : Prop :=
  timevalLt t.start u.start = true ∨ (timevalLt u.start t.start = false ∧ t.uid < u.uid)

theorem comesBefore_iff (t u : Task) :
    ComesBefore t u ↔ t.startTime < u.startTime ∨ (t.startTime = u.startTime ∧ t.uid < u.uid) := by
  rw [ComesBefore, timevalLt_start, ← Bool.not_eq_true, timevalLt_start]
  omega

/-! ## The order is kept -/

/-- The waiting list is in order, and what comes to it next comes last. -/
structure InOrder (s : State) : Prop where
  order : s.waitingTasks.Pairwise ComesBefore
  below : ∀ t ∈ s.waitingTasks, t.uid < s.nextUid

/-- Tasks have been taken out of the waiting list, and none put there. -/
structure Shrinks (s s' : State) : Prop where
  sub : s'.waitingTasks.Sublist s.waitingTasks
  uid : s.nextUid ≤ s'.nextUid

theorem Shrinks.refl (s : State) : Shrinks s s := ⟨List.Sublist.refl _, Nat.le_refl _⟩

theorem Shrinks.trans (h1 : Shrinks s s') (h2 : Shrinks s' s'') : Shrinks s s'' :=
  ⟨h2.sub.trans h1.sub, Nat.le_trans h1.uid h2.uid⟩

theorem InOrder.shrinks (h : InOrder s) (hs : Shrinks s s') : InOrder s' :=
  ⟨h.order.sublist hs.sub, fun t ht => Nat.lt_of_lt_of_le (h.below t (hs.sub.mem ht)) hs.uid⟩

theorem mem_insertWaiting {u : Task} {ts : List Task} :
    u ∈ insertWaiting t ts ↔ u = t ∨ u ∈ ts := by
  rw [(insertWaiting_perm t ts).mem_iff, List.mem_cons]

/-- `enqueue_waiting` keeps the order for a task that is newer than all others. -/
theorem insertWaiting_order {ts : List Task} (h : ts.Pairwise ComesBefore)
    (hnew : ∀ u ∈ ts, u.uid < t.uid) : (insertWaiting t ts).Pairwise ComesBefore := by
  induction ts with
  | nil => exact List.pairwise_singleton _ _
  | cons u rest ih =>
      obtain ⟨hu, hrest⟩ := List.pairwise_cons.mp h
      rw [insertWaiting]
      split
      · case isTrue hlt =>
          refine List.pairwise_cons.mpr ⟨fun v hv => ?_, h⟩
          rw [comesBefore_iff]
          rcases List.mem_cons.mp hv with rfl | hv
          · exact .inl hlt
          · have := (comesBefore_iff u v).mp (hu v hv)
            omega
      · case isFalse hge =>
          have hall := ih hrest fun v hv => hnew v (List.mem_cons_of_mem _ hv)
          refine List.pairwise_cons.mpr ⟨fun v hv => ?_, hall⟩
          rcases mem_insertWaiting.mp hv with rfl | hv
          · have := hnew u List.mem_cons_self
            rw [comesBefore_iff]
            omega
          · exact hu v hv

/-! ## What leaves the list alone -/

/-- The waiting list is the same one. -/
structure Leaves (s s' : State) : Prop where
  waiting : s'.waitingTasks = s.waitingTasks
  uid : s.nextUid ≤ s'.nextUid

theorem Leaves.refl (s : State) : Leaves s s := ⟨rfl, Nat.le_refl _⟩

theorem Leaves.trans (h1 : Leaves s s') (h2 : Leaves s' s'') : Leaves s s'' :=
  ⟨h2.waiting.trans h1.waiting, Nat.le_trans h1.uid h2.uid⟩

theorem Leaves.of_eq (hw : s'.waitingTasks = s.waitingTasks) (hu : s'.nextUid = s.nextUid) :
    Leaves s s' := ⟨hw, Nat.le_of_eq hu.symm⟩

theorem Leaves.same (h : SameTasks s s') : Leaves s s' := .of_eq h.waiting h.nextUid

theorem Leaves.shrinks (h : Leaves s s') : Shrinks s s' :=
  ⟨h.waiting ▸ List.Sublist.refl _, h.uid⟩

theorem Leaves.ensureUsage (q : TqPtr) (s : State) : Leaves s (ensureUsage q s) := by
  rw [Tasks.ensureUsage]
  split
  · exact .of_eq rfl rfl
  · exact .refl s

theorem Leaves.findOrCreate (player : Objid) (s : State) :
    Leaves s (findOrCreateTqueue player s).2 := by
  rcases findOrCreateTqueue_cases player s with ⟨q, -, heq⟩ | ⟨-, heq⟩
  · rw [heq]
    exact .refl s
  · rw [heq]
    exact .of_eq rfl rfl

theorem Leaves.modifyTq (q : TqPtr) (f : TQueue → TQueue) (s : State) :
    Leaves s (s.modifyTq q f) := .of_eq rfl rfl

theorem Leaves.resumeTask (id : Int) (progr : Objid) (value : Var) (s : State) :
    Leaves s (resumeTask id progr value s) := by
  rw [Tasks.resumeTask]
  have hnew : Leaves (findOrCreateTqueue progr s).2
      (newTask .suspended id progr 0 value (findOrCreateTqueue progr s).2).2 :=
    ⟨rfl, Nat.le_succ _⟩
  exact ((Leaves.findOrCreate progr s).trans hnew).trans
    ((Leaves.modifyTq _ _ _).trans (.ensureUsage _ _))

theorem Leaves.makeReadingTask (player : Objid) (vm : Int) (s : State) :
    Leaves s (makeReadingTask player vm s).2 := by
  rw [Tasks.makeReadingTask]
  split
  · exact .refl s
  · simp only
    split
    · exact .refl s
    · split
      · exact .of_eq rfl rfl
      · exact (Leaves.modifyTq _ _ s).trans (.ensureUsage _ _)

theorem Leaves.killActive {id : Int} {owner : Objid} {wizard : Bool} {e : Error}
    {qs : List TqPtr} (h : killActive id owner wizard s qs = some (e, s')) : Leaves s s' := by
  induction qs with
  | nil => exact nomatch h
  | cons q qs ih =>
      rw [Tasks.killActive] at h
      simp only at h
      split at h
      · split at h
        · cases h
          exact .refl s
        · cases h
          exact .modifyTq _ _ s
      · split at h
        · split at h
          · cases h
            exact .refl s
          · cases h
            exact .of_eq rfl rfl
        · exact ih h

theorem Shrinks.killTask {id : Int} {owner : Objid} {wizard : Bool} {e : Error}
    (h : killTask id owner wizard s = some (e, s')) : Shrinks s s' := by
  rw [Tasks.killTask] at h
  split at h
  · cases h
    exact .refl s
  · split at h
    · case h_1 t rest hext =>
        split at h
        · cases h
          exact .refl s
        · cases h
          refine ⟨extractFirst_sublist hext, ?_⟩
          split
          · exact Nat.le_refl _
          · exact Nat.le_refl _
    · split at h
      · split at h
        · cases h
          exact .refl s
        · cases h
          exact (Leaves.modifyTq _ _ s).shrinks
      · exact (Leaves.killActive h).shrinks

theorem Leaves.resumeActive (id : Int) (value : Var) (progr : Objid) (wizard : Bool)
    (qs : List TqPtr) : Leaves s (resumeActive id value progr wizard s qs).2 := by
  induction qs with
  | nil => exact .refl s
  | cons q qs ih =>
      rw [Tasks.resumeActive]
      split
      · split
        · exact .refl s
        · exact .of_eq rfl rfl
      · exact ih

theorem Shrinks.doResume (id : Int) (value : Var) (progr : Objid) (wizard : Bool) (s : State) :
    Shrinks s (doResume id value progr wizard s).2 := by
  rw [Tasks.doResume]
  split
  · case h_1 t rest hext =>
      split
      · exact .refl s
      · have hfind := Leaves.findOrCreate t.progr s
        have hout : Shrinks s { (findOrCreateTqueue t.progr s).2 with waitingTasks := rest } :=
          ⟨extractFirst_sublist hext, hfind.uid⟩
        refine hout.trans ?_
        show Shrinks _ (enqueueBgTask (findOrCreateTqueue t.progr s).1 _ (Tasks.ensureUsage _ _))
        exact ((Leaves.ensureUsage _ _).trans (.modifyTq _ _ _)).shrinks
  · exact (Leaves.resumeActive id value progr wizard _).shrinks

theorem Leaves.dequeueInputTask {how : DequeueHow} {line : InputTask}
    (h : dequeueInputTask q how s = some (line, s')) : Leaves s s' :=
  .same (SameTasks.dequeueInputTask h).1

theorem Leaves.readInputNow (player : Objid) (s : State) :
    Leaves s (readInputNow player s).2 := by
  rw [Tasks.readInputNow]
  split
  · exact .refl s
  · split
    · exact .refl s
    · split
      · exact .refl s
      · case h_2 line s1 hd => exact .dequeueInputTask hd

theorem Leaves.flushAll (q : TqPtr) (s : State) : Leaves s (flushAll q s) :=
  .same (SameTasks.flushInput q _ s).1

/-- A store, after which the queue may be woken. -/
theorem Leaves.storeAndWake (q : TqPtr) (f : TQueue → TQueue) (b : Bool) (s : State) :
    Leaves s (if b then Tasks.ensureUsage q (s.modifyTq q f) else s.modifyTq q f) := by
  split
  · exact (Leaves.modifyTq q f s).trans (.ensureUsage _ _)
  · exact .modifyTq q f s

theorem Leaves.enqueueInputTask (q : TqPtr) (input : Str) (atFront binary : Bool) (s : State) :
    Leaves s (enqueueInputTask q input atFront binary s) := by
  rw [Tasks.enqueueInputTask]
  exact (Leaves.storeAndWake q _ _ s).trans (.modifyTq q _ _)

theorem Leaves.newInputTask (q : TqPtr) (input : Str) (binary isFlush : Bool) (s : State) :
    Leaves s (newInputTask q input binary isFlush s) := by
  rw [Tasks.newInputTask]
  split
  · exact .flushAll q s
  · exact .enqueueInputTask q input false binary s

theorem Leaves.newTaskQueue (player handler : Objid) (s : State) :
    Leaves s (newTaskQueue player handler s).2 := by
  have hfind := Leaves.findOrCreate player s
  rw [Tasks.newTaskQueue]
  exact hfind.trans (.of_eq rfl rfl)

theorem Leaves.dequeueBgTask (h : dequeueBgTask q s = some (t, s')) : Leaves s s' := by
  rw [Tasks.dequeueBgTask] at h
  split at h
  · cases h
  · cases h
    exact .modifyTq _ _ s

theorem Leaves.moveBgTasks (q p : TqPtr) (n : Nat) (s : State) :
    Leaves s (moveBgTasks q p n s) := by
  induction n generalizing s with
  | zero => exact .refl s
  | succ n ih =>
      rw [Tasks.moveBgTasks]
      split
      · case h_1 t s1 hd =>
          exact (Leaves.dequeueBgTask hd).trans ((Leaves.modifyTq p _ s1).trans (ih _))
      · exact .refl s

/-- The queue of a connection gives its tasks back to that of the old player. -/
theorem Leaves.leaveOldQueue (q : TqPtr) (oldPlayer : Objid) (s : State) :
    Leaves s (if (s.tqs q).numBgTasks ≠ 0 then
      let (old, s) := findOrCreateTqueue oldPlayer s
      let s := s.modifyTq old fun tq => { tq with numBgTasks := (s.tqs q).numBgTasks }
      let s := Tasks.moveBgTasks q old (s.tqs q).bg.length s
      s.modifyTq q fun tq => { tq with numBgTasks := 0 }
    else s) := by
  split
  · have hfind := Leaves.findOrCreate oldPlayer s
    generalize findOrCreateTqueue oldPlayer s = r at hfind ⊢
    obtain ⟨old, s1⟩ := r
    exact (hfind.trans (.modifyTq old _ s1)).trans
      ((Leaves.moveBgTasks q old _ _).trans (.modifyTq q _ _))
  · exact .refl s

theorem Leaves.doLoginTask (q : TqPtr) (result : Option Objid) (s : State) :
    Leaves s (doLoginTask q result s) := by
  rw [Tasks.doLoginTask.eq_def]
  split
  · exact .refl s
  · case h_2 newPlayer =>
      split
      · exact .refl s
      · have hleave := (Leaves.modifyTq q (fun tq => { tq with player := newPlayer }) s).trans
          (Leaves.leaveOldQueue q (s.tqs q).player _)
        simp only
        split
        · exact hleave
        · case h_2 dead _ =>
            exact (hleave.trans (.modifyTq q _ _)).trans ((Leaves.flushAll dead _).trans
              ((Leaves.moveBgTasks dead q _ _).trans (.modifyTq dead _ _)))

theorem Leaves.startInput (q : TqPtr) (line : InputTask) (s : State) :
    Leaves s (startInput q line s) := by
  rw [Tasks.startInput]
  split
  · exact .of_eq rfl rfl
  · split
    · exact .of_eq rfl rfl
    · split
      · exact .of_eq rfl rfl
      · exact .of_eq rfl rfl

theorem Leaves.tryTqueue (h : tryTqueue q s = some s') : Leaves s s' := by
  rw [Tasks.tryTqueue] at h
  split at h
  · case h_1 line s1 hd =>
      cases h
      exact (Leaves.dequeueInputTask hd).trans (.startInput q line s1)
  · split at h
    · case h_1 t s1 hd =>
        cases h
        exact (Leaves.dequeueBgTask hd).trans (.of_eq rfl rfl)
    · cases h

theorem Leaves.scanTqueues (qs : List TqPtr) (s : State) : Leaves s (scanTqueues qs s) := by
  induction qs generalizing s with
  | nil => exact .of_eq rfl rfl
  | cons q rest ih =>
      rw [Tasks.scanTqueues]
      split
      · exact .of_eq rfl rfl
      · split
        · case h_1 s1 ht => exact .tryTqueue ht
        · have hidle : Leaves s (deactivateTqueue q { s with activeTqueues := rest }) :=
            .of_eq rfl rfl
          exact hidle.trans (ih _)

theorem Leaves.endTask (q : TqPtr) (didOne : Bool) (elapsed : Nat) (s : State) :
    Leaves s (endTask q didOne elapsed s) := by
  rw [Tasks.endTask]
  split
  · exact .of_eq rfl rfl
  · split
    · case h_1 s1 ht => exact .tryTqueue ht
    · have hleave : Leaves s (deactivateTqueue q
          { s with activeTqueues := afterTq q s.activeTqueues }) := .of_eq rfl rfl
      exact hleave.trans (.scanTqueues _ _)

/-! ## What `run_ready_tasks` takes -/

/-- The queues that are linked. -/
def State.linked (s : State) : List TqPtr := s.activeTqueues ++ s.idleTqueues

/-- The background tasks of a queue; one that is yet to be made has none. -/
def State.bgAt (s : State) (q : TqPtr) : List Task := if q ∈ s.linked then (s.tqs q).bg else []

/-- Tasks have come to queues of their programmers, each to one, in the order of `ts`. -/
structure HandsOut (ts : List Task) (s s' : State) : Prop where
  linked : Linked s'
  grow : ∀ p ∈ s.linked, p ∈ s'.linked
  mono : ∀ p ∈ s.activeTqueues, p ∈ s'.activeTqueues ∧ (s'.tqs p).player = (s.tqs p).player
  placed : ∃ dest : Task → TqPtr,
    (∀ t ∈ ts, dest t ∈ s'.activeTqueues ∧ (s'.tqs (dest t)).player = t.progr) ∧
      ∀ p ∈ s'.linked, (s'.tqs p).bg = s.bgAt p ++ ts.filter fun t => dest t = p

/-- Making a queue changes no list of background tasks. -/
theorem findOrCreate_bg (h : Linked s) (player : Objid) :
    Linked (findOrCreateTqueue player s).2 ∧
      (∀ p ∈ s.linked, p ∈ (findOrCreateTqueue player s).2.linked) ∧
      (∀ p ∈ s.activeTqueues, p ∈ (findOrCreateTqueue player s).2.activeTqueues ∧
        ((findOrCreateTqueue player s).2.tqs p).player = (s.tqs p).player) ∧
      ∀ p ∈ (findOrCreateTqueue player s).2.linked,
        ((findOrCreateTqueue player s).2.tqs p).bg = s.bgAt p := by
  have hself : ∀ p ∈ s.linked, (s.tqs p).bg = s.bgAt p := fun p hp => (if_pos hp).symm
  rcases findOrCreateTqueue_cases player s with ⟨q, -, heq⟩ | ⟨-, heq⟩
  · rw [heq]
    exact ⟨h, fun p hp => hp, fun p hp => ⟨hp, rfl⟩, hself⟩
  · rw [heq]
    have hne : ∀ p ∈ s.linked, p ≠ s.nextTq := fun p hp => Nat.ne_of_lt (h.fresh p hp)
    refine ⟨h.newTqueue player, fun p hp => ?_, fun p hp => ⟨hp, ?_⟩, fun p hp => ?_⟩
    · exact List.perm_middle.mem_iff.mpr (List.mem_cons_of_mem _ hp)
    · show ((newTqueue player s).tqs p).player = _
      rw [newTqueue_ne player (hne p (List.mem_append_left _ hp))]
    · show ((newTqueue player s).tqs p).bg = s.bgAt p
      rcases List.mem_cons.mp (List.perm_middle.mem_iff.mp hp) with rfl | hp
      · rw [newTqueue_self, State.bgAt, if_neg fun hmem => hne _ hmem rfl]
      · rw [newTqueue_ne player (hne p hp)]
        exact hself p hp

/-- One turn of the loop. -/
theorem handsOut_one (h : Linked s) (t : Task) :
    HandsOut [t] s (enqueueBgTask (findOrCreateTqueue t.progr s).1 t
      (ensureUsage (findOrCreateTqueue t.progr s).1 (findOrCreateTqueue t.progr s).2)) := by
  obtain ⟨hmem, hpl⟩ := findOrCreateTqueue_mem t.progr s
  obtain ⟨h1, hgrow, hmono, hbg⟩ := findOrCreate_bg h t.progr
  generalize findOrCreateTqueue t.progr s = r at hmem hpl h1 hgrow hmono hbg
  obtain ⟨q, s1⟩ := r
  obtain ⟨h2, hw⟩ := h1.ensureUsage hmem
  have hplayer := hw.field TQueue.player fun _ _ => rfl
  have hbgs := hw.field TQueue.bg fun _ _ => rfl
  have hstore : ∀ p, ((enqueueBgTask q t (ensureUsage q s1)).tqs p).player = (s1.tqs p).player :=
    fun p => (modifyTq_field _ q p _ TQueue.player rfl).trans (hplayer p)
  constructor
  · exact h2.modifyTq rfl
  · exact fun p hp => hw.perm.mem_iff.mpr (hgrow p hp)
  · intro p hp
    obtain ⟨hact, heq⟩ := hmono p hp
    exact ⟨hw.mono p hact, (hstore p).trans heq⟩
  · refine ⟨fun _ => q, ?_, fun p hp => ?_⟩
    · intro t' ht'
      obtain rfl := List.mem_singleton.mp ht'
      exact ⟨hw.active, (hstore q).trans hpl⟩
    · have hp1 : p ∈ s1.linked := hw.perm.mem_iff.mp hp
      rw [← hbg p hp1, ← hbgs p]
      show (((ensureUsage q s1).modifyTq q fun tq => { tq with bg := tq.bg ++ [t] }).tqs p).bg = _
      by_cases hpq : p = q
      · rw [hpq, modifyTq_tqs_self]
        simp
      · rw [modifyTq_tqs_ne _ _ hpq, List.filter_cons_of_neg (by simpa using Ne.symm hpq)]
        simp

theorem HandsOut.refl (h : Linked s) : HandsOut [] s s := by
  refine ⟨h, fun p hp => hp, fun p hp => ⟨hp, rfl⟩, fun _ => 0, ?_, fun p hp => ?_⟩
  · intro t ht
    exact nomatch ht
  · rw [State.bgAt, if_pos hp]
    exact (List.append_nil _).symm

/-- Turns follow on each other. -/
theorem HandsOut.trans {ts : List Task} (h1 : HandsOut [t] s s') (h2 : HandsOut ts s' s'')
    (hnew : t ∉ ts) : HandsOut (t :: ts) s s'' := by
  obtain ⟨-, hgrow1, hmono1, dest1, hdest1, hbg1⟩ := h1
  obtain ⟨hlink, hgrow2, hmono2, dest2, hdest2, hbg2⟩ := h2
  obtain ⟨ha1, hp1⟩ := hdest1 t List.mem_cons_self
  have hne : ∀ u ∈ ts, u ≠ t := by
    rintro u hu rfl
    exact hnew hu
  refine ⟨hlink, fun p hp => hgrow2 p (hgrow1 p hp), fun p hp => ?_,
    fun u => if u = t then dest1 t else dest2 u, fun u hu => ?_, fun p hp => ?_⟩
  · obtain ⟨ha, hpl⟩ := hmono1 p hp
    obtain ⟨ha', hpl'⟩ := hmono2 p ha
    exact ⟨ha', hpl'.trans hpl⟩
  · obtain ⟨ha2, hp2⟩ := hmono2 _ ha1
    by_cases hut : u = t
    · simp only [hut, if_true]
      exact ⟨ha2, hp2.trans hp1⟩
    · simp only [hut, if_false]
      exact hdest2 u ((List.mem_cons.mp hu).resolve_left hut)
  · have hrest : ts.filter (fun u => decide ((if u = t then dest1 t else dest2 u) = p)) =
        ts.filter fun u => decide (dest2 u = p) := by
      refine List.filter_congr fun u hu => ?_
      rw [if_neg (hne u hu)]
    have hfirst : s'.bgAt p = s.bgAt p ++ [t].filter fun u => decide (dest1 u = p) := by
      by_cases hp' : p ∈ s'.linked
      · rw [State.bgAt, if_pos hp', hbg1 p hp']
      · -- a queue that is made later
        have hdest : dest1 t ≠ p := by
          rintro rfl
          exact hp' (List.mem_append_left _ ha1)
        rw [State.bgAt, if_neg hp', State.bgAt, if_neg fun hp0 => hp' (hgrow1 p hp0),
          List.filter_cons_of_neg (by simpa using hdest)]
        rfl
    rw [hbg2 p hp, hfirst, List.append_assoc]
    congr 1
    simp only [List.filter_cons, hrest, if_true, List.filter_nil]
    split <;> rfl

/-- The list that the next turn finds. -/
theorem moveReady_next (t : Task) (s : State) (rest : List Task) :
    (enqueueBgTask (findOrCreateTqueue t.progr { s with waitingTasks := rest }).1 t
      (ensureUsage (findOrCreateTqueue t.progr { s with waitingTasks := rest }).1
        (findOrCreateTqueue t.progr { s with waitingTasks := rest }).2)).waitingTasks = rest := by
  rw [findOrCreateTqueue_waiting]
  show (ensureUsage _ { (findOrCreateTqueue t.progr s).2 with waitingTasks := rest }).waitingTasks = _
  rw [ensureUsage]
  split <;> rfl

/-- The loop takes what is due off the front, and hands it out in that order. -/
theorem moveReady_handsOut (now : Int) {ts : List Task} (h : Linked s)
    (hw : s.waitingTasks = ts) (hnd : ts.Nodup) :
    HandsOut (ts.takeWhile fun t => t.startTime < now) s (moveReady now ts s) := by
  induction ts generalizing s with
  | nil => exact .refl h
  | cons t rest ih =>
      obtain ⟨hnew, hnd⟩ := List.nodup_cons.mp hnd
      rw [Tasks.moveReady]
      split
      · case isTrue hdue =>
          rw [List.takeWhile_cons_of_pos (by simpa using hdue)]
          have hs : Linked { s with waitingTasks := rest } := h.congr rfl rfl rfl fun _ => rfl
          have hone := handsOut_one hs t
          have hwait := moveReady_next t s rest
          generalize findOrCreateTqueue t.progr { s with waitingTasks := rest } = r at hone hwait ⊢
          obtain ⟨q, s1⟩ := r
          have hfirst : HandsOut [t] s (enqueueBgTask q t (ensureUsage q s1)) :=
            ⟨hone.linked, hone.grow, hone.mono, hone.placed⟩
          refine hfirst.trans (ih hone.linked hwait hnd) fun hmem => hnew ?_
          exact (List.takeWhile_sublist _).mem hmem
      · case isFalse hdue =>
          rw [List.takeWhile_cons_of_neg (by simpa using hdue)]
          exact .refl h

theorem Shrinks.moveReady (now : Int) {ts : List Task} (hw : s.waitingTasks = ts) :
    Shrinks s (moveReady now ts s) := by
  induction ts generalizing s with
  | nil => exact .refl s
  | cons t rest ih =>
      rw [Tasks.moveReady]
      split
      · have hwait := moveReady_next t s rest
        have hfind := Leaves.findOrCreate t.progr { s with waitingTasks := rest }
        generalize findOrCreateTqueue t.progr { s with waitingTasks := rest } = r at hwait hfind ⊢
        obtain ⟨q, s1⟩ := r
        have hone : Shrinks s (enqueueBgTask q t (Tasks.ensureUsage q s1)) := by
          refine ⟨?_, (hfind.trans (Leaves.ensureUsage q s1)).uid⟩
          rw [hwait, hw]
          exact List.sublist_cons_self t rest
        exact hone.trans (ih hwait)
      · exact .refl s

/-! ## Every step -/

/-- A step makes the list shorter, or inserts the newest task. -/
theorem Step.waiting {a : Action} (hstep : Step s a s') :
    Shrinks s s' ∨ ∃ t, t.uid = s.nextUid ∧ s'.nextUid = s.nextUid + 1 ∧
      s'.waitingTasks = insertWaiting t s.waitingTasks := by
  have hnew : ∀ kind id progr startTime value,
      let n := newTask kind id progr startTime value s
      ∃ t, t.uid = s.nextUid ∧ (enqueueWaiting n.1 n.2).nextUid = s.nextUid + 1 ∧
        (enqueueWaiting n.1 n.2).waitingTasks = insertWaiting t s.waitingTasks := by
    intro kind id progr startTime value n
    have hfind := Leaves.findOrCreate n.1.progr n.2
    refine ⟨n.1, rfl, ?_, ?_⟩
    · show (findOrCreateTqueue n.1.progr n.2).2.nextUid = s.nextUid + 1
      rcases findOrCreateTqueue_cases n.1.progr n.2 with ⟨q, -, heq⟩ | ⟨-, heq⟩ <;> rw [heq] <;> rfl
    · show insertWaiting n.1 (findOrCreateTqueue n.1.progr n.2).2.waitingTasks = _
      rw [hfind.waiting]
      rfl
  cases hstep with
  | fork p ul sl st id =>
      rw [enqueueForkedTask]
      split
      · exact .inr (hnew .forked id p st zero)
      · exact .inl (.refl s)
  | suspend p ul sl st id =>
      rw [enqueueSuspendedTask]
      split
      · exact .inr (hnew .suspended id p st zero)
      · exact .inl (.refl s)
  | restore k id p st v => exact .inr (hnew k id p st v)
  | externalResume id p v => exact .inl (Leaves.resumeTask id p v s).shrinks
  | resume id v p w => exact .inl (.doResume id v p w s)
  | killed id o w e _ hk => exact .inl (.killTask hk)
  | killExternal => exact .inl (.refl s)
  | read p vm => exact .inl (Leaves.makeReadingTask p vm s).shrinks
  | readNow p => exact .inl (Leaves.readInputNow p s).shrinks
  | suspendInput q _ => exact .inl (Leaves.modifyTq q _ s).shrinks
  | newConnection p h _ => exact .inl (Leaves.newTaskQueue p h s).shrinks
  | disconnect q _ => exact .inl (Leaves.storeAndWake q _ _ s).shrinks
  | input q l b f _ => exact .inl (Leaves.newInputTask q l b f s).shrinks
  | forceInput p l front =>
      exact .inl ((Leaves.findOrCreate p s).trans (.enqueueInputTask _ l front false _)).shrinks
  | flush p => exact .inl ((Leaves.findOrCreate p s).trans (.flushAll _ _)).shrinks
  | holdInput q v _ => exact .inl (Leaves.storeAndWake q _ _ s).shrinks
  | disableOob q v _ => exact .inl (Leaves.storeAndWake q _ _ s).shrinks
  | serverTask id =>
      have hid : Leaves s { s with currentTaskId := id } := .of_eq rfl rfl
      exact .inl hid.shrinks
  | runReady now _ =>
      exact .inl ((Shrinks.moveReady now rfl).trans (Leaves.scanTqueues _ _).shrinks)
  | loginReturns q r _ _ =>
      have hlogin := Leaves.doLoginTask q r s
      have hctl : Leaves s { doLoginTask q r s with control := .running q .plain } :=
        ⟨hlogin.waiting, hlogin.uid⟩
      exact .inl hctl.shrinks
  | commandEnds q d e _ _ => exact .inl (Leaves.endTask q d e s).shrinks
  | promptReads q p vm _ _ _ =>
      exact .inl ((Leaves.makeReadingTask p vm s).trans (.endTask q false 0 _)).shrinks
  | taskEnds q e _ => exact .inl (Leaves.endTask q true e s).shrinks

theorem InOrder.init : InOrder State.init :=
  ⟨List.Pairwise.nil, fun _ ht => nomatch ht⟩

theorem InOrder.step (h : InOrder s) {a : Action} (hstep : Step s a s') : InOrder s' := by
  rcases hstep.waiting with hs | ⟨t, huid, hnext, hw⟩
  · exact h.shrinks hs
  · constructor
    · rw [hw]
      refine insertWaiting_order h.order fun u hu => ?_
      rw [huid]
      exact h.below u hu
    · intro u hu
      rw [hw] at hu
      rw [hnext]
      rcases mem_insertWaiting.mp hu with rfl | hu
      · rw [huid]
        exact Nat.lt_succ_self _
      · exact Nat.lt_succ_of_lt (h.below u hu)

theorem InOrder.run {as : List Action} (hrun : Run Step State.init as s) : InOrder s :=
  hrun.invariant (fun _ _ _ h hs => h.step hs) .init

/-- What is due is in front. -/
theorem takeWhile_due {ts : List Task} (h : ts.Pairwise ComesBefore) (now : Int) :
    ts.takeWhile (fun t => t.startTime < now) = ts.filter (fun t => t.startTime < now) ∧
      ts.dropWhile (fun t => t.startTime < now) = ts.filter (fun t => !decide (t.startTime < now)) := by
  induction ts with
  | nil => exact ⟨rfl, rfl⟩
  | cons t rest ih =>
      obtain ⟨hfirst, hrest⟩ := List.pairwise_cons.mp h
      obtain ⟨htake, hdrop⟩ := ih hrest
      by_cases hdue : t.startTime < now
      · simp [hdue, htake, hdrop]
      · -- nothing behind it starts before it
        have hnone : ∀ u ∈ rest, ¬ u.startTime < now := by
          intro u hu
          have := (comesBefore_iff t u).mp (hfirst u hu)
          omega
        have hfilter : rest.filter (fun u => decide (u.startTime < now)) = [] := by
          refine List.filter_eq_nil_iff.mpr fun u hu => ?_
          simpa using hnone u hu
        have hkeep : rest.filter (fun u => !decide (u.startTime < now)) = rest := by
          refine List.filter_eq_self.mpr fun u hu => ?_
          simpa using hnone u hu
        simp [hdue, hfilter, hkeep]

theorem ComesBefore.ne {t u : Task} (h : ComesBefore t u) : t ≠ u := by
  rintro rfl
  have := (comesBefore_iff t t).mp h
  omega

/-- The tasks that start before `now`, in the order of the list. -/
def State.due (s : State) (now : Timeval) : List Task :=
  s.waitingTasks.filter fun t => timevalLt t.start now

/-- What `run_ready_tasks` does with the waiting list. -/
structure TakesDue (now : Timeval) (s : State) : Prop where
  /-- each task that is due goes to the end of the list of one queue of its programmer -/
  handsOut : HandsOut (s.due now) s (moveReady now.micros s.waitingTasks s)
  /-- the others stay, in their order -/
  stays : (moveReady now.micros s.waitingTasks s).waitingTasks =
    s.waitingTasks.filter fun t => !timevalLt t.start now
  /-- and the search for a task to run leaves them there -/
  left : (runReadyTasks now.micros s).waitingTasks =
    s.waitingTasks.filter fun t => !timevalLt t.start now

theorem timevalLt_now (t : Task) (now : Timeval) :
    timevalLt t.start now = decide (t.startTime < now.micros) := by
  rw [Bool.eq_iff_iff, timevalLt_iff, Task.micros_start, decide_eq_true_eq]

theorem InOrder.takesDue (h : InOrder s) (hl : Linked s) (now : Timeval) : TakesDue now s := by
  obtain ⟨htake, hdrop⟩ := takeWhile_due h.order now.micros
  have hnd : s.waitingTasks.Nodup := h.order.imp fun hb => hb.ne
  have hstays : (moveReady now.micros s.waitingTasks s).waitingTasks =
      s.waitingTasks.filter fun t => !timevalLt t.start now := by
    simp only [timevalLt_now]
    rw [← hdrop]
    exact (moveReady_waiting now.micros s.waitingTasks rfl).1
  constructor
  · rw [State.due]
    simp only [timevalLt_now]
    rw [← htake]
    exact moveReady_handsOut now.micros hl rfl hnd
  · exact hstays
  · exact (Leaves.scanTqueues _ _).waiting.trans hstays

/-- In every state the waiting list is sorted, tasks that start at one time being in the
    order in which they came to it, and `run_ready_tasks` takes just what is due. -/
theorem waiting_queue {as : List Action} (hrun : Run Step State.init as s) :
    s.waitingTasks.Pairwise ComesBefore ∧
      (∀ a s', Step s a s' → ∀ t ∈ s'.waitingTasks, t ∉ s.waitingTasks →
        ∀ u ∈ s.waitingTasks, u.uid < t.uid) ∧
      ∀ now, TakesDue now s := by
  have h := InOrder.run hrun
  refine ⟨h.order, fun a s' hstep t ht hnew u hu => ?_, fun now => ?_⟩
  · rcases hstep.waiting with hs | ⟨t', huid, -, hw⟩
    · exact absurd (hs.sub.mem ht) hnew
    · rw [hw] at ht
      obtain rfl := (mem_insertWaiting.mp ht).resolve_right hnew
      rw [huid]
      exact h.below u hu
  · exact h.takesDue (Awake.run hrun).1.toLinked now

/-- Two tasks that start at one time stay in their order. -/
theorem waiting_queue_twoForks :
    ∃ s, Run Step State.init
        [.fork 7 none 10 5000000 1, .suspend 8 none 10 3000000 2, .fork 7 none 10 3000000 3] s ∧
      s.waitingTasks.map Task.id = [2, 3, 1] ∧ s.waitingTasks.Pairwise ComesBefore ∧
      ∀ now, TakesDue now s := by
  have hrun : ∃ s, Run Step State.init
      [.fork 7 none 10 5000000 1, .suspend 8 none 10 3000000 2, .fork 7 none 10 3000000 3] s ∧
      s.waitingTasks.map Task.id = [2, 3, 1] := by
    refine ⟨_, .cons (.fork _ _ _ _ _ _) <| .cons (.suspend _ _ _ _ _ _) <|
      .cons (.fork _ _ _ _ _ _) (.nil _), ?_⟩
    decide
  obtain ⟨s, hs, hids⟩ := hrun
  exact ⟨s, hs, hids, (waiting_queue hs).1, (waiting_queue hs).2.2⟩

end Waverous.Tasks
