import Waverous.TaskQueues

/-! # No wake-up of input is lost — `tasks.c`

    Queues are woken by hand wherever something may have become runnable, and put to sleep
    in the loop of `run_ready_tasks` alone.  The invariant is that every idle queue is
    quiet; a task that reads is then on an active queue as soon as there is something to
    resume it with, and every turn of that queue resumes it or takes an out-of-band line
    away in front of it. -/

namespace Waverous.Tasks

open Relation

variable {s s' : State} {q p : TqPtr} {t : Task}

/-- The queues but `q` that are idle are quiet, and whoever reads has a linked queue. -/
structure AwakeBut (q : TqPtr) (s : State) : Prop extends Linked s where
  idle : ∀ p ∈ s.idleTqueues, p ≠ q → Quiet (s.tqs p)
  reader : ∀ p, (s.tqs p).reading = true → p ∈ s.activeTqueues ++ s.idleTqueues

/-- All idle queues are quiet. -/
structure Awake (s : State) : Prop extends Linked s where
  idle : ∀ p ∈ s.idleTqueues, Quiet (s.tqs p)
  reader : ∀ p, (s.tqs p).reading = true → p ∈ s.activeTqueues ++ s.idleTqueues

theorem Quiet.withUsage {tq : TQueue} (h : Quiet tq) (u : Int) : Quiet { tq with usage := u } :=
  ⟨h.input, h.reader⟩

/-- Waking the queue mends the invariant. -/
theorem AwakeBut.ensureUsage (h : AwakeBut q s) (hq : q ∈ s.activeTqueues ++ s.idleTqueues) :
    Awake (ensureUsage q s) := by
  obtain ⟨hl, hw⟩ := h.toLinked.ensureUsage hq
  refine ⟨hl, fun p hp => ?_, fun p hr => ?_⟩
  · obtain ⟨hpi, hpq⟩ := (hw.idle p).mp hp
    obtain ⟨u, hu⟩ := hw.queue p
    rw [hu]
    exact (h.idle p hpi hpq).withUsage u
  · rw [hw.field TQueue.reading (fun _ _ => rfl)] at hr
    exact hw.perm.mem_iff.mpr (h.reader p hr)

/-- A store in a linked queue spoils at most that queue. -/
theorem Awake.store (h : Awake s) (hq : q ∈ s.activeTqueues ++ s.idleTqueues)
    {f : TQueue → TQueue} (husage : (f (s.tqs q)).usage = (s.tqs q).usage) :
    AwakeBut q (s.modifyTq q f) := by
  refine ⟨h.toLinked.modifyTq husage, fun p hp hpq => ?_, fun p hr => ?_⟩
  · rw [modifyTq_tqs_ne s f hpq]
    exact h.idle p hp
  · by_cases hpq : p = q
    · rw [hpq]
      exact hq
    · rw [modifyTq_tqs_ne s f hpq] at hr
      exact h.reader p hr

/-- A store that no reader and no line comes with. -/
theorem Awake.modifyTq (h : Awake s) {f : TQueue → TQueue}
    (husage : (f (s.tqs q)).usage = (s.tqs q).usage)
    (hread : (f (s.tqs q)).reading = true → q ∈ s.activeTqueues ++ s.idleTqueues)
    (hquiet : Quiet (s.tqs q) → Quiet (f (s.tqs q))) : Awake (s.modifyTq q f) := by
  refine ⟨h.toLinked.modifyTq husage, fun p hp => ?_, fun p hr => ?_⟩
  · by_cases hpq : p = q
    · rw [hpq, modifyTq_tqs_self]
      exact hquiet (h.idle q (hpq ▸ hp))
    · rw [modifyTq_tqs_ne s f hpq]
      exact h.idle p hp
  · by_cases hpq : p = q
    · rw [hpq, modifyTq_tqs_self] at hr
      rw [hpq]
      exact hread hr
    · rw [modifyTq_tqs_ne s f hpq] at hr
      exact h.reader p hr

theorem Awake.congr (h : Awake s) (hl : Linked s') (htqs : s'.tqs = s.tqs)
    (hact : s'.activeTqueues = s.activeTqueues) (hidle : s'.idleTqueues = s.idleTqueues) :
    Awake s' := by
  refine ⟨hl, ?_, ?_⟩
  · rw [hidle, htqs]
    exact h.idle
  · rw [hact, hidle, htqs]
    exact h.reader

theorem Awake.beside (h : Awake s) (hb : Beside s s') : Awake s' :=
  h.congr (h.toLinked.beside hb) hb.tqs hb.active hb.idle

/-- A new queue has nothing to do. -/
theorem Awake.newTqueue (h : Awake s) (player : Objid) : Awake (Tasks.newTqueue player s) := by
  have hold : ∀ p ∈ s.activeTqueues ++ s.idleTqueues,
      (Tasks.newTqueue player s).tqs p = s.tqs p := fun p hp =>
    newTqueue_ne player (Nat.ne_of_lt (h.fresh p hp))
  refine ⟨h.toLinked.newTqueue player, fun p hp => ?_, fun p hr => ?_⟩
  · rcases List.mem_cons.mp hp with rfl | hp
    · rw [newTqueue_self]
      exact ⟨.inl rfl, fun hr => nomatch hr⟩
    · rw [hold p (List.mem_append_right _ hp)]
      exact h.idle p hp
  · have hpn : p ≠ s.nextTq := by
      rintro rfl
      rw [newTqueue_self] at hr
      exact nomatch hr
    rw [newTqueue_ne player hpn] at hr
    exact List.perm_middle.mem_iff.mpr (List.mem_cons_of_mem _ (h.reader p hr))

/-- Every call leaves the idle queues quiet. -/
theorem Awake.call (h : Awake s) (hc : Call s s') : Awake s' := by
  cases hc with
  | note hb _ => exact h.beside hb
  | create player _ => exact h.newTqueue player
  | @store q f b hq hf hquiet =>
      cases b with
      | false => exact h.modifyTq hf.usage (fun _ => hq) (hquiet rfl)
      | true => exact (h.store hq hf.usage).ensureUsage hq
  | @ready q t t' ts _ _ hq _ =>
      have h1 : Awake { s with waitingTasks := ts } :=
        h.congr (h.toLinked.congr rfl rfl rfl fun _ => rfl) rfl rfl rfl
      have h2 : AwakeBut q { s with waitingTasks := ts } :=
        ⟨h1.toLinked, fun p hp _ => h1.idle p hp, h1.reader⟩
      exact (h2.ensureUsage hq).modifyTq rfl (fun hr => (h2.ensureUsage hq).reader q hr)
        fun hq' => ⟨hq'.input, hq'.reader⟩
  | @killWaiting t ts _ =>
      split
      next q _ =>
        have h1 : Awake (s.modifyTq q fun tq => { tq with numBgTasks := tq.numBgTasks - 1 }) :=
          h.modifyTq rfl (fun hr => h.reader q hr) fun hq => ⟨hq.input, hq.reader⟩
        exact h1.congr (h1.toLinked.congr rfl rfl rfl fun _ => rfl) rfl rfl rfl
      · exact h.congr (h.toLinked.congr rfl rfl rfl fun _ => rfl) rfl rfl rfl
  | leave _ hq =>
      exact h.modifyTq rfl (fun hr => h.reader _ hr) fun hq => ⟨hq.input, hq.reader⟩

/-- The scheduler puts quiet queues to sleep, and frees none that is read from. -/
theorem Awake.closed : Closed Awake where
  linked := fun h => h.toLinked
  call := fun h hc => h.call hc
  beside := fun h hb => h.beside hb
  deactivate := by
    intro s q rest h hact _ hquiet
    have hne : ∀ p, p ≠ q → (deactivateTqueue q { s with activeTqueues := rest }).tqs p = s.tqs p :=
      fun p hp => modifyTq_tqs_ne s (fun tq => { tq with usage := noUsage }) hp
    have hself : (deactivateTqueue q { s with activeTqueues := rest }).tqs q
        = { s.tqs q with usage := noUsage } :=
      modifyTq_tqs_self s q fun tq => { tq with usage := noUsage }
    have hmem : ∀ p, p ∈ s.activeTqueues ++ s.idleTqueues → p ∈ rest ++ q :: s.idleTqueues := by
      intro p hp
      rw [hact] at hp
      exact List.perm_middle.mem_iff.mpr hp
    refine ⟨h.toLinked.deactivate hact, fun p hp => ?_, fun p hr => hmem p (h.reader p ?_)⟩
    · by_cases hpq : p = q
      · rw [hpq, hself]
        exact hquiet.withUsage noUsage
      · rw [hne p hpq]
        exact h.idle p ((List.mem_cons.mp hp).resolve_left hpq)
    · by_cases hpq : p = q
      · rw [hpq, hself] at hr
        rw [hpq]
        exact hr
      · rw [hne p hpq] at hr
        exact hr
  rotate := by
    intro s q l n h hq hperm
    have h1 : ∀ p, p ≠ q → (s.modifyTq q fun tq => { tq with usage := tq.usage + n }).tqs p
        = s.tqs p := fun p hp => modifyTq_tqs_ne s _ hp
    refine ⟨h.toLinked.rotate n hq hperm, fun p hp => ?_, fun p hr => ?_⟩
    · have hpq : p ≠ q := by
        rintro rfl
        exact h.toLinked.disjoint hq hp
      show Quiet ((s.modifyTq q fun tq => { tq with usage := tq.usage + n }).tqs p)
      rw [h1 p hpq]
      exact h.idle p hp
    · have hr' : (s.tqs p).reading = true :=
        (modifyTq_field s q p (fun tq => { tq with usage := tq.usage + n }) TQueue.reading rfl).symm.trans
          hr
      exact (hperm.append_right s.idleTqueues).mem_iff.mpr (h.reader p hr')
  free := by
    intro s h
    refine ⟨h.toLinked.free, fun p hp => h.idle p (List.mem_of_mem_filter hp), fun p hr => ?_⟩
    rcases List.mem_append.mp (h.reader p hr) with ha | hi
    · exact List.mem_append_left _ ha
    · have hconn : (s.tqs p).connected = true := (h.idle p hi).reader hr
      refine List.mem_append_right _ (List.mem_filter.mpr ⟨hi, ?_⟩)
      simp [hconn]

/-! ## The other steps -/

theorem Awake.edits (h : Awake s) (he : ReflTransGen Edit s s') : Awake s' := by
  induction he with
  | refl => exact h
  | tail _ hlast ih =>
      cases hlast with
      | create player _ => exact ih.newTqueue player
      | store q husage hread hquiet =>
          exact ih.modifyTq husage (fun hr => ih.reader q (hread.symm.trans hr)) hquiet

theorem Awake.enqueueWaiting (h : Awake s) (t : Task) : Awake (Tasks.enqueueWaiting t s) := by
  have h1 : Awake (findOrCreateTqueue t.progr s).2 :=
    Awake.closed.calls h (calls_findOrCreate t.progr s)
  have h2 : Awake ((findOrCreateTqueue t.progr s).2.modifyTq (findOrCreateTqueue t.progr s).1
      fun tq => { tq with numBgTasks := tq.numBgTasks + 1 }) :=
    h1.modifyTq rfl (fun hr => h1.reader _ hr) fun hq => ⟨hq.input, hq.reader⟩
  exact h2.congr (h2.toLinked.congr rfl rfl rfl fun _ => rfl) rfl rfl rfl

theorem Awake.newTask (h : Awake s) (kind : BgKind) (id : Int) (progr : Objid) (startTime : Int)
    (value : Var) : Awake (Tasks.newTask kind id progr startTime value s).2 :=
  h.beside ⟨rfl, rfl, rfl, rfl, rfl⟩

theorem Awake.resumeTask (h : Awake s) (id : Int) (progr : Objid) (value : Var) :
    Awake (Tasks.resumeTask id progr value s) := by
  let r := findOrCreateTqueue progr s
  let n := Tasks.newTask .suspended id progr 0 value r.2
  have h1 : Awake r.2 := Awake.closed.calls h (calls_findOrCreate progr s)
  have h2 : Awake n.2 := h1.newTask .suspended id progr 0 value
  have hq : r.1 ∈ n.2.activeTqueues ++ n.2.idleTqueues := (findOrCreateTqueue_mem progr s).1
  exact (h2.store (f := fun tq => { tq with bg := tq.bg ++ [n.1] }) hq rfl).ensureUsage hq

/-- Every step leaves the idle queues quiet. -/
theorem Awake.step (h : Awake s) (hs : Serving s) {a : Action} (hstep : Step s a s') :
    Awake s' ∧ Serving s' := by
  have hwait : ∀ kind id progr startTime value, let n := Tasks.newTask kind id progr startTime value s
      Awake (Tasks.enqueueWaiting n.1 n.2) ∧ Serving (Tasks.enqueueWaiting n.1 n.2) := by
    intro kind id progr startTime value n
    have hn : Awake n.2 := h.newTask kind id progr startTime value
    have hsn : Serving n.2 := hs
    exact ⟨hn.enqueueWaiting n.1, hsn.of_keeps (hn.toLinked.enqueueWaiting n.1).2⟩
  by_cases ha : a.isCall = true ∨ (∃ now, a = .runReady now) ∨ (∃ d e, a = .taskEnds d e) ∨
      ∃ p vm, a = .promptReads p vm
  · exact Awake.closed.step h hs hstep ha
  · cases hstep with
    | fork p ul sl st id =>
        simp only [enqueueForkedTask]
        split
        · exact hwait .forked id p st zero
        · exact ⟨h, hs⟩
    | suspend p ul sl st id =>
        simp only [enqueueSuspendedTask]
        split
        · exact hwait .suspended id p st zero
        · exact ⟨h, hs⟩
    | restore k id p st v => exact hwait k id p st v
    | externalResume id p v =>
        exact ⟨h.resumeTask id p v, hs.of_keeps (h.toLinked.resumeTask id p v).2⟩
    | loginReturns q r hctl hres =>
        obtain ⟨hhead, -⟩ := hs q .login hctl
        have h1 := h.edits (edits_doLoginTask q r s)
        obtain ⟨-, hact⟩ := h.toLinked.edits (edits_doLoginTask q r s)
        refine ⟨h1.beside ⟨rfl, rfl, rfl, rfl, rfl⟩, fun p w hp => ?_⟩
        cases hp
        refine ⟨?_, fun hw => (by cases hw)⟩
        show (doLoginTask q r s).activeTqueues.head? = some q
        rw [hact]
        exact hhead
    | _ => exact absurd (by simp [Action.isCall]) ha

theorem Awake.init : Awake State.init where
  nodup := List.nodup_nil
  fresh := fun _ h => nomatch h
  usageActive := fun _ h => nomatch h
  usageIdle := fun _ h => nomatch h
  idle := fun _ h => nomatch h
  reader := fun _ h => nomatch h

theorem Awake.run {as : List Action} (hrun : Runs.Run Step State.init as s) :
    Awake s ∧ Serving s := by
  have hstep : ∀ s a s', Awake s ∧ Serving s → Step s a s' → Awake s' ∧ Serving s' := by
    intro s a s' h hs
    exact h.1.step h.2 hs
  exact hrun.invariant hstep ⟨Awake.init, fun _ _ hc => nomatch hc⟩

/-! ## A reader's turn -/

/-- There is something to resume the reader with. -/
structure Due (tq : TQueue) : Prop where
  reading : tq.reading = true
  ready : tq.connected = false ∨ tq.input ≠ []

/-- A queue whose reader could be resumed is active. -/
theorem Awake.active_of_due (h : Awake s) (hd : Due (s.tqs q)) : q ∈ s.activeTqueues := by
  rcases List.mem_append.mp (h.reader q hd.reading) with ha | hi
  · exact ha
  · have hquiet := h.idle q hi
    rcases hd.ready with hconn | hin
    · exact absurd (hconn.symm.trans (hquiet.reader hd.reading)) (by decide)
    · rcases hquiet.input with hnil | ⟨-, hr, -⟩
      · exact absurd hnil hin
      · exact absurd (hd.reading.symm.trans hr) (by decide)

/-- What a turn of the queue, which was `tq`, has done for the task that reads there. -/
inductive Served (q : TqPtr) (tq : TQueue) (resumed : List (Int × Var)) (s' : State) : Prop where
  | error : tq.connected = false → tq.input = [] → (s'.tqs q).reading = false →
      s'.resumed = resumed ++ [(tq.readingVm, .err .eInvarg)] → Served q tq resumed s'
  | line (t : InputTask) : tq.input = t :: (s'.tqs q).input → (s'.tqs q).reading = false →
      s'.resumed = resumed ++ [(tq.readingVm, .str (t.dequeued tq.disableOob).string)] →
      Served q tq resumed s'
  | oob (t : InputTask) : tq.input = t :: (s'.tqs q).input → t.kind = .oob → Served q tq resumed s'

/-- What the reader's turn depends on. -/
structure SameInput (tq tq' : TQueue) : Prop where
  input : tq'.input = tq.input
  connected : tq'.connected = tq.connected
  reading : tq'.reading = tq.reading
  readingVm : tq'.readingVm = tq.readingVm
  disableOob : tq'.disableOob = tq.disableOob

theorem SameInput.trans {tq tq' tq'' : TQueue} (h : SameInput tq tq') (h' : SameInput tq' tq'') :
    SameInput tq tq'' :=
  ⟨h'.input.trans h.input, h'.connected.trans h.connected, h'.reading.trans h.reading,
    h'.readingVm.trans h.readingVm, h'.disableOob.trans h.disableOob⟩

theorem Due.same {tq tq' : TQueue} (h : Due tq) (hs : SameInput tq tq') : Due tq' := by
  refine ⟨hs.reading.trans h.reading, ?_⟩
  rw [hs.connected, hs.input]
  exact h.ready

theorem Served.same {tq tq' : TQueue} {r : List (Int × Var)} (hs : SameInput tq tq')
    (h : Served q tq' r s') : Served q tq r s' := by
  cases h with
  | error hconn hin hread hres =>
      rw [hs.readingVm] at hres
      exact .error (hs.connected.symm.trans hconn) (hs.input.symm.trans hin) hread hres
  | line t hin hread hres =>
      rw [hs.readingVm, hs.disableOob] at hres
      exact .line t (hs.input.symm.trans hin) hread hres
  | oob t hin hkind => exact .oob t (hs.input.symm.trans hin) hkind

/-- The first line, whatever its kind, is what a reader's queue dequeues. -/
theorem dequeueInputTask_first {line : InputTask} {rest : List InputTask}
    (hin : (s.tqs q).input = line :: rest) :
    ∃ f : TQueue → TQueue, dequeueInputTask q .first s
        = some (line.dequeued (s.tqs q).disableOob, s.modifyTq q f) ∧
      ∀ tq, (f tq).input = rest ∧ (f tq).reading = tq.reading ∧ (f tq).readingVm = tq.readingVm := by
  have hhow : ¬((s.tqs q).disableOob && DequeueHow.first = .oob) = true := by simp
  have he : extractFirst (if (s.tqs q).disableOob then DequeueHow.first else .first).wants
      (s.tqs q).input = some (line, rest) := by
    rw [ite_self, hin]
    rfl
  simp only [dequeueInputTask, if_neg hhow, he]
  exact ⟨_, rfl, fun tq => ⟨rfl, rfl, rfl⟩⟩

theorem resumeReader_spec (value : Var) :
    ((resumeReader q value s).tqs q).reading = false ∧
      ((resumeReader q value s).tqs q).input = (s.tqs q).input ∧
      (resumeReader q value s).resumed = s.resumed ++ [((s.tqs q).readingVm, value)] := by
  have hself : (resumeReader q value s).tqs q = { s.tqs q with reading := false } := by
    simp [resumeReader, State.modifyTq]
  rw [hself]
  exact ⟨rfl, rfl, rfl⟩

/-- The kind of a line after the dequeue is out-of-band only if it was before. -/
theorem InputTask.dequeued_oob {line : InputTask} {disableOob : Bool}
    (h : (line.dequeued disableOob).kind = .oob) : line.kind = .oob := by
  cases hk : line.kind with
  | oob => rfl
  | inband => simp [InputTask.dequeued, hk] at h
  | quoted => simp [InputTask.dequeued, hk] at h
  | binary => simp [InputTask.dequeued, hk] at h

/-- A turn of a queue with a reader and with input. -/
theorem tryTqueue_served (hd : Due (s.tqs q)) (hin : (s.tqs q).input ≠ []) :
    ∃ s', tryTqueue q s = some s' ∧ Served q (s.tqs q) s.resumed s' := by
  obtain ⟨line, rest, hcons⟩ := List.exists_cons_of_ne_nil hin
  obtain ⟨f, hdeq, hf⟩ := dequeueInputTask_first hcons
  obtain ⟨hfin, hfread, hfvm⟩ := hf (s.tqs q)
  let s1 := s.modifyTq q f
  have hs1 : s1.tqs q = f (s.tqs q) := modifyTq_tqs_self s q f
  refine ⟨startInput q (line.dequeued (s.tqs q).disableOob) s1, ?_, ?_⟩
  · have hhow : ¬((s.tqs q).holdInput && !(s.tqs q).reading) = true := by
      rw [hd.reading]
      simp
    simp only [tryTqueue, if_neg hhow, hdeq]
    rfl
  · simp only [startInput]
    split
    next hkind =>
      refine .oob line ?_ (InputTask.dequeued_oob hkind)
      show (s.tqs q).input = line :: (s1.tqs q).input
      rw [hs1, hfin, hcons]
    next =>
      have hread : (s1.tqs q).reading = true := by
        rw [hs1, hfread]
        exact hd.reading
      rw [if_pos hread]
      obtain ⟨hr, hi, hres⟩ := resumeReader_spec (s := s1) (q := q)
        (.str (line.dequeued (s.tqs q).disableOob).string)
      refine .line line ?_ hr ?_
      · rw [hi, hs1, hfin, hcons]
      · rw [hres, hs1, hfvm]
        rfl

theorem tryTqueue_control (ht : tryTqueue q s = some s') : ∃ what, s'.control = .running q what := by
  simp only [tryTqueue] at ht
  split at ht
  next line s1 _ =>
    cases ht
    simp only [startInput]
    split
    · exact ⟨.plain, rfl⟩
    · split
      · exact ⟨.plain, rfl⟩
      · split
        · exact ⟨.command, rfl⟩
        · exact ⟨.login, rfl⟩
  · split at ht
    · cases ht
      exact ⟨.plain, rfl⟩
    · cases ht

/-- When the loop over the active queues stops at the reader's queue, it has served it. -/
theorem scanTqueues_served {w : Running} (qs : List TqPtr) (hd : Due (s.tqs q)) (hq : q ∈ qs)
    (hnodup : qs.Nodup) (hctl : (scanTqueues qs s).control = .running q w) :
    Served q (s.tqs q) s.resumed (scanTqueues qs s) := by
  induction qs generalizing s with
  | nil => exact nomatch hq
  | cons p rest ih =>
      simp only [scanTqueues] at hctl ⊢
      by_cases hpq : p = q
      · subst hpq
        split
        next hout =>
          simp only [isOutOfInput, Bool.and_eq_true, Bool.not_eq_true', List.isEmpty_iff] at hout
          obtain ⟨hr, -, hres⟩ := resumeReader_spec (s := s) (q := p) (.err .eInvarg)
          exact .error hout.2.1 hout.2.2 hr hres
        next hout =>
          have hin : (s.tqs p).input ≠ [] := by
            intro hnil
            rcases hd.ready with hconn | hin
            · exact hout (by simp [isOutOfInput, hd.reading, hconn, hnil])
            · exact hin hnil
          obtain ⟨s', ht, hserved⟩ := tryTqueue_served hd hin
          rw [ht]
          exact hserved
      · split at hctl
        · cases hctl
          exact absurd rfl hpq
        next hout =>
          rw [if_neg hout]
          split at hctl
          next s' ht =>
            obtain ⟨what, hwhat⟩ := tryTqueue_control ht
            rw [hwhat] at hctl
            cases hctl
            exact absurd rfl hpq
          next ht =>
            let s1 := deactivateTqueue p { s with activeTqueues := rest }
            have hsame : s1.tqs q = s.tqs q :=
              modifyTq_tqs_ne s (fun tq => { tq with usage := noUsage }) (Ne.symm hpq)
            have hd1 : Due (s1.tqs q) := hsame ▸ hd
            have := ih hd1 ((List.mem_cons.mp hq).resolve_left (Ne.symm hpq))
              (List.nodup_cons.mp hnodup).2 hctl
            rw [hsame] at this
            exact this

/-! ## Steps of the scheduler -/

theorem SameInput.ensureUsage (q p : TqPtr) (s : State) :
    SameInput (s.tqs q) ((ensureUsage p s).tqs q) :=
  ⟨ensureUsage_field s p q TQueue.input fun _ _ => rfl,
    ensureUsage_field s p q TQueue.connected fun _ _ => rfl,
    ensureUsage_field s p q TQueue.reading fun _ _ => rfl,
    ensureUsage_field s p q TQueue.readingVm fun _ _ => rfl,
    ensureUsage_field s p q TQueue.disableOob fun _ _ => rfl⟩

theorem SameInput.enqueueBgTask (q p : TqPtr) (t : Task) (s : State) :
    SameInput (s.tqs q) ((enqueueBgTask p t s).tqs q) := by
  let f : TQueue → TQueue := fun tq => { tq with bg := tq.bg ++ [t] }
  exact ⟨modifyTq_field s p q f TQueue.input rfl, modifyTq_field s p q f TQueue.connected rfl,
    modifyTq_field s p q f TQueue.reading rfl, modifyTq_field s p q f TQueue.readingVm rfl,
    modifyTq_field s p q f TQueue.disableOob rfl⟩

theorem ensureUsage_resumed (q : TqPtr) (s : State) :
    (ensureUsage q s).resumed = s.resumed ∧ (ensureUsage q s).nextTq = s.nextTq := by
  rw [ensureUsage]
  split
  · exact ⟨rfl, rfl⟩
  · exact ⟨rfl, rfl⟩

/-- Finding a queue for a player touches no queue that there is. -/
theorem findOrCreateTqueue_frame (player : Objid) (hq : q < s.nextTq) :
    (findOrCreateTqueue player s).2.tqs q = s.tqs q ∧ q < (findOrCreateTqueue player s).2.nextTq ∧
      (findOrCreateTqueue player s).2.resumed = s.resumed := by
  rcases findOrCreateTqueue_cases player s with ⟨p, -, heq⟩ | ⟨-, heq⟩
  · rw [heq]
    exact ⟨rfl, hq, rfl⟩
  · rw [heq]
    exact ⟨newTqueue_ne player (Nat.ne_of_lt hq), Nat.lt_succ_of_lt hq, rfl⟩

/-- The due tasks come to their queues beside the input. -/
theorem moveReady_same (now : Int) (ts : List Task) (hq : q < s.nextTq) :
    SameInput (s.tqs q) ((moveReady now ts s).tqs q) ∧ (moveReady now ts s).resumed = s.resumed := by
  induction ts generalizing s with
  | nil => exact ⟨⟨rfl, rfl, rfl, rfl, rfl⟩, rfl⟩
  | cons t rest ih =>
      simp only [moveReady]
      split
      · obtain ⟨htq, hlt, hres⟩ :=
          findOrCreateTqueue_frame (s := { s with waitingTasks := rest }) t.progr hq
        let r := findOrCreateTqueue t.progr { s with waitingTasks := rest }
        have hu := ensureUsage_resumed r.1 r.2
        have h1 := SameInput.ensureUsage q r.1 r.2
        rw [htq] at h1
        have h2 := SameInput.enqueueBgTask q r.1 t (ensureUsage r.1 r.2)
        have hlt2 : q < (enqueueBgTask r.1 t (ensureUsage r.1 r.2)).nextTq := by
          show q < (ensureUsage r.1 r.2).nextTq
          rw [hu.2]
          exact hlt
        obtain ⟨h3, hres3⟩ := ih hlt2
        refine ⟨(h1.trans h2).trans h3, hres3.trans ?_⟩
        show (ensureUsage r.1 r.2).resumed = s.resumed
        rw [hu.1]
        exact hres
      · exact ⟨⟨rfl, rfl, rfl, rfl, rfl⟩, rfl⟩

/-- Another task that reads leaves a queue with a reader alone. -/
theorem makeReadingTask_same (player : Objid) (vm : Int) (hr : (s.tqs q).reading = true) :
    SameInput (s.tqs q) ((makeReadingTask player vm s).2.tqs q) ∧
      (makeReadingTask player vm s).2.resumed = s.resumed := by
  simp only [makeReadingTask]
  split
  · exact ⟨⟨rfl, rfl, rfl, rfl, rfl⟩, rfl⟩
  next p _ =>
    split
    · exact ⟨⟨rfl, rfl, rfl, rfl, rfl⟩, rfl⟩
    next hguard =>
      have hqp : q ≠ p := by
        rintro rfl
        exact hguard (by rw [hr, Bool.true_or])
      let s1 := s.modifyTq p fun tq => { tq with reading := true, readingVm := vm }
      have hs1 : s1.tqs q = s.tqs q :=
        modifyTq_tqs_ne s (fun tq => { tq with reading := true, readingVm := vm }) hqp
      split
      · refine ⟨?_, rfl⟩
        show SameInput (s.tqs q) (s1.tqs q)
        rw [hs1]
        exact ⟨rfl, rfl, rfl, rfl, rfl⟩
      · have h1 := SameInput.ensureUsage q p s1
        rw [hs1] at h1
        exact ⟨h1, (ensureUsage_resumed p s1).1⟩

/-- The actions in which the scheduler goes on to another task. -/
def Action.schedules : Action → Bool
  | .runReady .. | .taskEnds .. | .promptReads .. => true
  | _ => false

/-- A task is over and has done nothing: the reader that is served next is on another queue. -/
theorem Awake.served_endTask (h : Awake s) {p : TqPtr} {w : Running} {d : Bool} {e : Nat}
    (hhead : s.activeTqueues.head? = some p) (hd : Due (s.tqs q)) (hpq : d = false → q ≠ p)
    (hctl : (endTask p d e s).control = .running q w) :
    Served q (s.tqs q) s.resumed (endTask p d e s) := by
  cases d with
  | true => exact nomatch hctl
  | false =>
      obtain ⟨rest, hact⟩ := List.head?_eq_some_iff.mp hhead
      have hne := hpq rfl
      have hafter : afterTq p s.activeTqueues = rest := by rw [hact, afterTq_head]
      simp only [endTask, Bool.false_eq_true, if_false, hafter] at hctl ⊢
      split at hctl
      next s' ht =>
        obtain ⟨what, hwhat⟩ := tryTqueue_control ht
        rw [hwhat] at hctl
        cases hctl
        exact absurd rfl hne
      next ht =>
        let s1 := deactivateTqueue p { s with activeTqueues := rest }
        have hsame : s1.tqs q = s.tqs q :=
          modifyTq_tqs_ne s (fun tq => { tq with usage := noUsage }) hne
        have hq : q ∈ rest := by
          have := h.active_of_due hd
          rw [hact] at this
          exact (List.mem_cons.mp this).resolve_left hne
        have hnodup : rest.Nodup := by
          have := (List.nodup_append.mp h.nodup).1
          rw [hact] at this
          exact (List.nodup_cons.mp this).2
        have := scanTqueues_served (s := s1) rest (hsame ▸ hd) hq hnodup hctl
        rw [hsame] at this
        exact this

/-- Each turn of a queue whose reader could be resumed resumes the reader, or takes one
    out-of-band line away. -/
theorem Awake.served (h : Awake s) (hs : Serving s) {a : Action} {w : Running} (hstep : Step s a s')
    (ha : a.schedules = true) (hd : Due (s.tqs q)) (hctl : s'.control = .running q w) :
    Served q (s.tqs q) s.resumed s' := by
  cases hstep with
  | runReady now htop =>
      have hlt : q < s.nextTq := h.fresh q (h.reader q hd.reading)
      have h1 : Awake (moveReady now s.waitingTasks s) :=
        Awake.closed.calls h (calls_moveReady now _ rfl)
      obtain ⟨hsame, hres⟩ := moveReady_same now s.waitingTasks hlt
      have hd1 := hd.same hsame
      have hserved := scanTqueues_served _ hd1 (h1.active_of_due hd1)
        (List.nodup_append.mp h1.nodup).1 hctl
      rw [hres] at hserved
      exact hserved.same hsame
  | commandEnds p d e hp hr =>
      refine h.served_endTask (hs p .command hp).1 hd (fun hdf => ?_) hctl
      rintro rfl
      exact absurd (hd.reading.symm.trans (hr hdf)) (by decide)
  | taskEnds p e hp => exact h.served_endTask (hs p .plain hp).1 hd (fun hf => nomatch hf) hctl
  | promptReads p p' vm hp hr _ =>
      have hcalls := calls_makeReadingTask (s := s) p' vm
      have h1 := Awake.closed.calls h hcalls
      obtain ⟨-, hk⟩ := h.toLinked.calls hcalls
      obtain ⟨hsame, hres⟩ := makeReadingTask_same (s := s) p' vm hd.reading
      have hserved := h1.served_endTask (hk.head p (hs p .command hp).1) (hd.same hsame) (fun _ => by
        rintro rfl
        exact absurd (hd.reading.symm.trans hr) (by decide)) hctl
      rw [hres] at hserved
      exact hserved.same hsame
  | _ => exact nomatch ha

/-! ## Runs -/

/-- A run during which the task that reads on the queue stays blocked.  In `turns` of its
    steps the scheduler serves the queue while there is something to resume the task with,
    and `lines` counts by how much the others make the queue's input longer. -/
inductive Blocked (q : TqPtr) (s : State) : Nat → Nat → State → Prop where
  | start : (s.tqs q).reading = true → Blocked q s 0 0 s
  | turn {turns lines : Nat} {s1 s2 : State} {a : Action} {w : Running} :
      Blocked q s turns lines s1 → Step s1 a s2 → a.schedules = true → Due (s1.tqs q) →
      s2.control = .running q w → (s2.tqs q).reading = true → Blocked q s (turns + 1) lines s2
  | other {turns lines : Nat} {s1 s2 : State} {a : Action} :
      Blocked q s turns lines s1 → Step s1 a s2 → (s2.tqs q).reading = true →
      Blocked q s turns (lines + ((s2.tqs q).input.length - (s1.tqs q).input.length)) s2

theorem Blocked.awake {turns lines : Nat} (hb : Blocked q s turns lines s') (h : Awake s)
    (hs : Serving s) : Awake s' ∧ Serving s' := by
  induction hb with
  | start => exact ⟨h, hs⟩
  | turn _ hstep _ _ _ _ ih => exact ih.1.step ih.2 hstep
  | other _ hstep _ ih => exact ih.1.step ih.2 hstep

/-- Every turn that does not end the wait takes a line away. -/
theorem Blocked.bound {turns lines : Nat} (hb : Blocked q s turns lines s') (h : Awake s)
    (hs : Serving s) :
    turns + (s'.tqs q).input.length ≤ (s.tqs q).input.length + lines := by
  induction hb with
  | start => omega
  | turn hb hstep ha hd hctl hread ih =>
      obtain ⟨h1, hs1⟩ := hb.awake h hs
      cases h1.served hs1 hstep ha hd hctl with
      | error _ _ hr => exact absurd (hread.symm.trans hr) (by decide)
      | line _ _ hr => exact absurd (hread.symm.trans hr) (by decide)
      | oob t hin _ =>
          have hlen := congrArg List.length hin
          rw [List.length_cons] at hlen
          omega
  | other _ _ _ ih => omega

/-- No wake-up is lost. -/
structure WakesUp (s : State) : Prop where
  /-- an idle queue has no runnable input -/
  idle : ∀ q ∈ s.idleTqueues, (s.tqs q).input = [] ∨ (s.tqs q).holdInput = true ∧
    (s.tqs q).reading = false ∧ ((s.tqs q).disableOob = true ∨ ∀ t ∈ (s.tqs q).input, t.kind ≠ .oob)
  /-- a task that reads is on a queue that is there, and that can give it something -/
  reader : ∀ q, (s.tqs q).reading = true → q ∈ s.activeTqueues ++ s.idleTqueues ∧
    ((s.tqs q).connected = true ∨ (s.tqs q).input ≠ [] ∨ q ∈ s.activeTqueues)
  /-- once there is something, the scheduler will come to the queue -/
  due : ∀ q, Due (s.tqs q) → q ∈ s.activeTqueues
  /-- and when it comes, the task is resumed, unless the first line is out of band -/
  served : ∀ q a s' w, Due (s.tqs q) → Step s a s' → a.schedules = true →
    s'.control = .running q w → Served q (s.tqs q) s.resumed s'
  /-- which does not happen more often than there are lines -/
  resumed : ∀ q turns lines s', Blocked q s turns lines s' →
    turns + (s'.tqs q).input.length ≤ (s.tqs q).input.length + lines
  /-- the clean-up of empty queues does not free the queue -/
  kept : ∀ q, (s.tqs q).reading = true → q ∈ s.idleTqueues → q ∈ (freeEmptyTqueues s).idleTqueues

/-- In every reachable state, whatever the order of the steps, no wake-up is lost. -/
theorem no_lost_wakeup {as : List Action} (hrun : Runs.Run Step State.init as s) : WakesUp s := by
  obtain ⟨h, hs⟩ := Awake.run hrun
  constructor
  · exact fun q hq => (h.idle q hq).input
  · intro q hr
    have hq := h.reader q hr
    refine ⟨hq, ?_⟩
    rcases List.mem_append.mp hq with ha | hi
    · exact .inr (.inr ha)
    · exact .inl ((h.idle q hi).reader hr)
  · exact fun q hd => h.active_of_due hd
  · exact fun q a s' w hd hstep ha hctl => h.served hs hstep ha hd hctl
  · exact fun q turns lines s' hb => hb.bound h hs
  · intro q hr hq
    have hconn : (s.tqs q).connected = true := (h.idle q hq).reader hr
    exact List.mem_filter.mpr ⟨hq, by simp [hconn]⟩

/-- A connection logs in, and the code of its first command reads. -/
theorem no_lost_wakeup_reader :
    ∃ s, Runs.Run Step State.init [.newConnection (-5) 0, .input 0 (Str.ofString "one") false false,
        .runReady 1, .loginReturns none, .read (-5) 77, .taskEnds true 0, .runReady 2] s ∧
      (s.tqs 0).reading = true ∧ 0 ∈ s.idleTqueues ∧ WakesUp s := by
  have hrun : ∃ s, Runs.Run Step State.init [.newConnection (-5) 0,
        .input 0 (Str.ofString "one") false false, .runReady 1, .loginReturns none, .read (-5) 77,
        .taskEnds true 0, .runReady 2] s ∧
      (s.tqs 0).reading = true ∧ 0 ∈ s.idleTqueues := by
    refine ⟨_, .cons (.newConnection _ _ _ (by decide)) <|
      .cons (.input _ _ _ _ _ (by decide)) <| .cons (.runReady _ _ rfl) <|
      .cons (.loginReturns _ 0 _ rfl (by decide)) <| .cons (.read _ _ _) <|
      .cons (.taskEnds _ 0 _ rfl) <| .cons (.runReady _ _ rfl) (.nil _), ?_⟩
    decide
  obtain ⟨s, hs, hread, hidle⟩ := hrun
  exact ⟨s, hs, hread, hidle, no_lost_wakeup hs⟩

end Waverous.Tasks
