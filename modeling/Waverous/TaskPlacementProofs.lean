import Waverous.TaskStepProofs

/-! # Background task placement — `tasks.c`

    The scheduler's own steps keep the tasks in place, and so does a login whose
    connection has no background task; hence every run all of whose logins are
    such keeps every pending task exactly once where the scheduler, the listings
    and `kill_task` look for it.  A login of a connection that has background
    tasks moves them to an idle queue, where none of them does. -/

namespace Waverous.Tasks

variable {s : State} {tr : List Task}

/-! ## Logging in -/

/-- Storing into a queue without background tasks, but for its usage. -/
theorem Core.rekey (h : Core s tr) {q : TqPtr} {f : TQueue → TQueue}
    (hbg : (s.tqs q).bg = []) (hfbg : (f (s.tqs q)).bg = [])
    (hus : (f (s.tqs q)).usage = (s.tqs q).usage) : Core (s.modifyTq q f) tr := by
  have hbg' : ∀ p, ((s.modifyTq q f).tqs p).bg = (s.tqs p).bg :=
    fun p => modifyTq_field s q p f TQueue.bg (hfbg.trans hbg.symm)
  have hus' : ∀ p, ((s.modifyTq q f).tqs p).usage = (s.tqs p).usage :=
    fun p => modifyTq_field s q p f TQueue.usage hus
  exact
    { linked := h.linked
      fresh := h.fresh
      usageActive := fun p hp => by rw [hus']; exact h.usageActive p hp
      usageIdle := fun p hp => by rw [hus']; exact h.usageIdle p hp
      idleBg := fun p hp => by rw [hbg']; exact h.idleBg p hp
      owner := by
        intro p hp t ht
        rw [hbg'] at ht
        by_cases hpq : p = q
        · rw [hpq, hbg] at ht
          exact absurd ht List.not_mem_nil
        · rw [modifyTq_tqs_ne s f hpq]
          exact h.owner p hp t ht
      uids := h.uids
      uidsBelow := h.uidsBelow
      goneBelow := h.goneBelow
      accounted := by
        have : (s.modifyTq q f).bgOf s.activeTqueues = s.bgOf s.activeTqueues :=
          List.flatMap_congr fun p _ => hbg' p
        show ((tr ++ s.waitingTasks ++ (s.modifyTq q f).bgOf s.activeTqueues).map _).Perm _
        rw [this]
        exact h.accounted }

/-- What moving background tasks leaves alone. -/
structure SameQueues (s s' : State) : Prop where
  active : s'.activeTqueues = s.activeTqueues
  idle : s'.idleTqueues = s.idleTqueues
  control : s'.control = s.control
  player : ∀ p, (s'.tqs p).player = (s.tqs p).player

theorem SameQueues.trans {s s' s'' : State} (h1 : SameQueues s s') (h2 : SameQueues s' s'') :
    SameQueues s s'' :=
  ⟨h2.active.trans h1.active, h2.idle.trans h1.idle, h2.control.trans h1.control,
    fun p => (h2.player p).trans (h1.player p)⟩

/-- Moving tasks between two active queues of one player. -/
theorem Core.moveBgTasks {q p : TqPtr} (h : Core s tr) (hq : q ∈ s.activeTqueues)
    (hp : p ∈ s.activeTqueues) (hpl : (s.tqs q).player = (s.tqs p).player) (hne : q ≠ p)
    (n : Nat) (hn : n = (s.tqs q).bg.length) :
    Core (moveBgTasks q p n s) tr ∧ SameQueues s (moveBgTasks q p n s) ∧
      ((moveBgTasks q p n s).tqs q).bg = [] := by
  induction n generalizing s with
  | zero => exact ⟨h, ⟨rfl, rfl, rfl, fun _ => rfl⟩, List.length_eq_zero_iff.mp hn.symm⟩
  | succ n ih =>
      cases hbg : (s.tqs q).bg with
      | nil => rw [hbg] at hn; exact nomatch hn
      | cons t rest =>
          let s1 := s.modifyTq q fun tq =>
            { tq with bg := rest, numBgTasks := tq.numBgTasks - 1 }
          have hd : Tasks.dequeueBgTask q s = some (t, s1) := by
            simp only [Tasks.dequeueBgTask, hbg, s1]
          have hpl1 : ∀ p', (s1.tqs p').player = (s.tqs p').player := fun p' =>
            modifyTq_field s q p' (fun tq =>
              { tq with bg := rest, numBgTasks := tq.numBgTasks - 1 }) TQueue.player rfl
          have hpl2 : ∀ p', ((Tasks.enqueueBgTask p t s1).tqs p').player = (s.tqs p').player :=
            fun p' => (modifyTq_field s1 p p' (fun tq => { tq with bg := tq.bg ++ [t] })
              TQueue.player rfl).trans (hpl1 p')
          obtain ⟨hc, -, hown, -⟩ := h.dequeueBgTask hd hq
          have hc' : Core (Tasks.enqueueBgTask p t s1) tr := by
            refine hc.enqueueBgTask hp ?_
            rw [hpl1, hown, hpl]
          have hlen : n = ((Tasks.enqueueBgTask p t s1).tqs q).bg.length := by
            rw [show (Tasks.enqueueBgTask p t s1).tqs q = s1.tqs q from
              modifyTq_tqs_ne s1 _ hne]
            show n = ((s.modifyTq q _).tqs q).bg.length
            rw [modifyTq_tqs_self]
            rw [hbg] at hn
            exact Nat.succ.inj hn
          have hstep : Tasks.moveBgTasks q p (n + 1) s
              = Tasks.moveBgTasks q p n (Tasks.enqueueBgTask p t s1) := by
            rw [Tasks.moveBgTasks, hd]
          rw [hstep]
          obtain ⟨hm, hsame, hnil⟩ := ih hc' hq hp (by rw [hpl2, hpl2]; exact hpl) hlen
          have hsq : SameQueues s (Tasks.enqueueBgTask p t s1) := ⟨rfl, rfl, rfl, hpl2⟩
          exact ⟨hm, hsq.trans hsame, hnil⟩

/-- An empty list moves nothing. -/
theorem moveBgTasks_nil {q p : TqPtr} (n : Nat) (hbg : (s.tqs q).bg = []) :
    moveBgTasks q p n s = s := by
  cases n with
  | zero => rfl
  | succ n => simp only [Tasks.moveBgTasks, Tasks.dequeueBgTask, hbg]

/-- The queue of `q`'s former player gets the count, and no task. -/
theorem Core.leaveOldQueue (h : Core s tr) {q : TqPtr} (oldPlayer : Objid)
    (hq : q ∈ s.activeTqueues) (hbg : (s.tqs q).bg = []) :
    let s' :=
      if (s.tqs q).numBgTasks ≠ 0 then
        let (old, s) := findOrCreateTqueue oldPlayer s
        let s := s.modifyTq old fun tq => { tq with numBgTasks := (s.tqs q).numBgTasks }
        let s := Tasks.moveBgTasks q old (s.tqs q).bg.length s
        s.modifyTq q fun tq => { tq with numBgTasks := 0 }
      else s
    Core s' tr ∧ s'.activeTqueues = s.activeTqueues ∧
      (∀ p ∈ s.idleTqueues, p ∈ s'.idleTqueues) ∧
      (∀ p ∈ s.activeTqueues ++ s.idleTqueues, (s'.tqs p).player = (s.tqs p).player ∧
        (s'.tqs p).bg = (s.tqs p).bg) := by
  intro s'
  by_cases hnum : (s.tqs q).numBgTasks ≠ 0
  · obtain ⟨hc, hk, -, -, -, hact, hsame⟩ := h.findOrCreate oldPlayer
    set r := findOrCreateTqueue oldPlayer s with hr
    let s1 := r.2.modifyTq r.1 fun tq => { tq with numBgTasks := (r.2.tqs q).numBgTasks }
    have h1 : SameTasks r.2 s1 := SameTasks.modifyTq r.2 r.1 rfl rfl rfl
    have hbg1 : (s1.tqs q).bg = [] := by
      rw [h1.bg, hsame q (List.mem_append_left _ hq)]
      exact hbg
    have hs' : s' = s1.modifyTq q fun tq => { tq with numBgTasks := 0 } := by
      have : s' = (Tasks.moveBgTasks q r.1 (s1.tqs q).bg.length s1).modifyTq q
          fun tq => { tq with numBgTasks := 0 } := if_pos hnum
      rw [this, moveBgTasks_nil _ hbg1]
    have h2 : SameTasks r.2 s' := by
      rw [hs']
      exact h1.trans (SameTasks.modifyTq s1 q rfl rfl rfl)
    have hidle : ∀ p ∈ s.idleTqueues, p ∈ r.2.idleTqueues := by
      intro p hp
      have hpa : r.2 = s ∨ r.2.idleTqueues = s.nextTq :: s.idleTqueues := by
        simp only [hr, findOrCreateTqueue]
        split
        · exact .inl rfl
        · exact .inr rfl
      rcases hpa with heq | heq
      · rw [heq]; exact hp
      · rw [heq]; exact List.mem_cons_of_mem _ hp
    refine ⟨hc.of_same h2, h2.active.trans hact, fun p hp => ?_, fun p hp => ⟨?_, ?_⟩⟩
    · rw [h2.idle]; exact hidle p hp
    · rw [h2.player, hsame p hp]
    · rw [h2.bg, hsame p hp]
  · have hs' : s' = s := if_neg hnum
    rw [hs']
    exact ⟨h, rfl, fun _ hp => hp, fun _ _ => ⟨rfl, rfl⟩⟩

/-- A login on the queue being served, when it has no background task. -/
theorem Core.doLoginTask (h : Core s []) {q : TqPtr} {result : Option Objid}
    (hq : q ∈ s.activeTqueues) (hlogin : (s.tqs q).player < 0) (hres : ∀ p ∈ result, 0 ≤ p)
    (hbg : ∀ p, result = some p → (s.tqs q).connected = true → (s.tqs q).bg = []) :
    Core (doLoginTask q result s) [] ∧
      (Tasks.doLoginTask q result s).activeTqueues = s.activeTqueues := by
  cases result with
  | none => exact ⟨h, rfl⟩
  | some newPlayer =>
      have hnew : 0 ≤ newPlayer := hres newPlayer rfl
      simp only [Tasks.doLoginTask]
      split
      · exact ⟨h, rfl⟩
      next hconn =>
        have hnil : (s.tqs q).bg = [] := hbg newPlayer rfl (by simpa using hconn)
        let s1 := s.modifyTq q fun tq => { tq with player := newPlayer }
        have hc1 : Core s1 [] := h.rekey hnil hnil rfl
        have hnil1 : (s1.tqs q).bg = [] := by
          show ((s.modifyTq q _).tqs q).bg = []
          rw [modifyTq_tqs_self]
          exact hnil
        obtain ⟨hc2, hact2, hidle2, hsame2⟩ := hc1.leaveOldQueue (s.tqs q).player hq hnil1
        revert hc2 hact2 hidle2 hsame2
        generalize (if (s1.tqs q).numBgTasks ≠ 0 then
            let (old, s) := findOrCreateTqueue (s.tqs q).player s1
            let s := s.modifyTq old fun tq => { tq with numBgTasks := (s.tqs q).numBgTasks }
            let s := Tasks.moveBgTasks q old (s.tqs q).bg.length s
            s.modifyTq q fun tq => { tq with numBgTasks := 0 }
          else s1) = s2
        intro hc2 hact2 hidle2 hsame2
        cases hdead : findTqueue newPlayer s with
        | none => exact ⟨hc2, hact2⟩
        | some dead =>
            obtain ⟨hmem, hdpl⟩ := mem_of_findTqueue hdead
            have hqd : dead ≠ q := by
              rintro rfl
              rw [hdpl] at hlogin
              exact absurd hnew (Int.not_le.mpr hlogin)
            have hmem2 : dead ∈ s2.activeTqueues ++ s2.idleTqueues := by
              rcases List.mem_append.mp hmem with hd | hd
              · exact List.mem_append_left _ (hact2 ▸ hd)
              · exact List.mem_append_right _ (hidle2 dead hd)
            have hdpl2 : (s2.tqs dead).player = newPlayer := by
              rw [(hsame2 dead hmem).1, modifyTq_tqs_ne s _ hqd]
              exact hdpl
            have hqpl2 : (s2.tqs q).player = newPlayer := by
              rw [(hsame2 q (List.mem_append_left _ hq)).1]
              show ((s.modifyTq q _).tqs q).player = newPlayer
              rw [modifyTq_tqs_self]
            have hq2 : q ∈ s2.activeTqueues := hact2 ▸ hq
            let s3 := s2.modifyTq q fun tq => { tq with numBgTasks := (s2.tqs dead).numBgTasks }
            let s4 := Tasks.flushAll dead s3
            have hsame3 : SameTasks s2 s3 := SameTasks.modifyTq s2 q rfl rfl rfl
            have hsame4 : SameTasks s2 s4 :=
              hsame3.trans (SameTasks.flushInput dead (s3.tqs dead).input.length s3).1
            have hc4 : Core s4 [] := hc2.of_same hsame4
            have hact4 : s4.activeTqueues = s.activeTqueues := hsame4.active.trans hact2
            let s5 := Tasks.moveBgTasks dead q (s4.tqs dead).bg.length s4
            -- an active queue of the player hands its tasks over, an idle one has none
            have hmove : Core s5 [] ∧ s5.activeTqueues = s.activeTqueues ∧
                (s5.tqs dead).bg = [] := by
              rcases List.mem_append.mp hmem2 with hda | hdi
              · obtain ⟨hm, hsq, hnil'⟩ := hc4.moveBgTasks (q := dead) (p := q)
                  (by rw [hsame4.active]; exact hda) (by rw [hsame4.active]; exact hq2)
                  (by rw [hsame4.player, hsame4.player, hdpl2, hqpl2]) hqd _ rfl
                exact ⟨hm, hsq.active.trans hact4, hnil'⟩
              · have hnil' : (s4.tqs dead).bg = [] := by
                  rw [hsame4.bg]
                  exact hc2.idleBg dead hdi
                have hs5 : s5 = s4 := moveBgTasks_nil _ hnil'
                rw [hs5]
                exact ⟨hc4, hact4, hnil'⟩
            obtain ⟨hc5, hact5, hnil5⟩ := hmove
            exact ⟨hc5.rekey hnil5 hnil5 rfl, hact5⟩

/-! ## The scheduler -/

/-- The two invariants together. -/
def Good (s : State) : Prop := Core s [] ∧ Serving s

theorem Core.moveReady (now : Int) (ts : List Task) (h : Core s tr)
    (hw : s.waitingTasks = ts) :
    Core (moveReady now ts s) tr ∧ (Tasks.moveReady now ts s).control = s.control := by
  induction ts generalizing s with
  | nil => exact ⟨h, rfl⟩
  | cons t rest ih =>
      simp only [Tasks.moveReady]
      split
      · have h1 : Core { s with waitingTasks := rest } (t :: tr) :=
          h.ofWaiting (List.Perm.of_eq hw)
        obtain ⟨h2, hk2, hq, hpl, hw2, -⟩ := h1.findOrCreate t.progr
        obtain ⟨h3, hk3, hw3⟩ := h2.wakeAndEnqueue hq hpl
        obtain ⟨h4, hc4⟩ := ih h3 (hw3.trans hw2)
        exact ⟨h4, hc4.trans (hk3.control.trans hk2.control)⟩
      · exact ⟨h, rfl⟩

/-- Taking queues without tasks off the idle list. -/
theorem Core.freeEmptyTqueues (h : Core s tr) : Core (freeEmptyTqueues s) tr := by
  have hsub : (Tasks.freeEmptyTqueues s).idleTqueues.Sublist s.idleTqueues :=
    List.filter_sublist
  have hall : (s.activeTqueues ++ (Tasks.freeEmptyTqueues s).idleTqueues).Sublist
      (s.activeTqueues ++ s.idleTqueues) := hsub.append_left _
  exact
    { linked := hall.nodup h.linked
      fresh := fun q hq => h.fresh q (hall.subset hq)
      usageActive := h.usageActive
      usageIdle := fun q hq => h.usageIdle q (hsub.subset hq)
      idleBg := fun q hq => h.idleBg q (hsub.subset hq)
      owner := h.owner
      uids := h.uids
      uidsBelow := h.uidsBelow
      goneBelow := h.goneBelow
      accounted := h.accounted }

/-- The first active queue goes idle when it has no background task. -/
theorem Core.deactivate (h : Core s tr) {q : TqPtr} {rest : List TqPtr}
    (hact : s.activeTqueues = q :: rest) (hbg : (s.tqs q).bg = []) :
    Core (deactivateTqueue q { s with activeTqueues := rest }) tr := by
  have hnd := h.linked
  rw [hact] at hnd
  have hperm : (rest ++ q :: s.idleTqueues).Perm (s.activeTqueues ++ s.idleTqueues) := by
    rw [hact]
    exact List.perm_middle
  have hne : ∀ p ∈ rest ++ s.idleTqueues, p ≠ q := by
    rintro p hp rfl
    exact (List.nodup_cons.mp hnd).1 hp
  have hfield : ∀ {β : Type} (g : TQueue → β) (p : TqPtr),
      g { s.tqs q with usage := noUsage } = g (s.tqs q) →
      g ((deactivateTqueue q { s with activeTqueues := rest }).tqs p) = g (s.tqs p) :=
    fun g p hg => modifyTq_field s q p (fun tq => { tq with usage := noUsage }) g hg
  have husage : ∀ p, p ≠ q →
      (deactivateTqueue q { s with activeTqueues := rest }).tqs p = s.tqs p :=
    fun p hp => modifyTq_tqs_ne s (fun tq => { tq with usage := noUsage }) hp
  exact
    { linked := hperm.nodup_iff.mpr h.linked
      fresh := fun p hp => h.fresh p (hperm.mem_iff.mp hp)
      usageActive := fun p hp => by
        rw [husage p (hne p (List.mem_append_left _ hp))]
        exact h.usageActive p (by rw [hact]; exact List.mem_cons_of_mem q hp)
      usageIdle := by
        intro p hp
        rcases List.mem_cons.mp hp with rfl | hp
        · show ((s.modifyTq p fun tq => { tq with usage := noUsage }).tqs p).usage = noUsage
          rw [modifyTq_tqs_self]
        · rw [husage p (hne p (List.mem_append_right _ hp))]
          exact h.usageIdle p hp
      idleBg := by
        intro p hp
        rw [hfield TQueue.bg p rfl]
        rcases List.mem_cons.mp hp with rfl | hp
        · exact hbg
        · exact h.idleBg p hp
      owner := by
        intro p hp t ht
        rw [hfield TQueue.bg p rfl] at ht
        rw [hfield TQueue.player p rfl]
        exact h.owner p (by rw [hact]; exact List.mem_cons_of_mem q hp) t ht
      uids := h.uids
      uidsBelow := h.uidsBelow
      goneBelow := h.goneBelow
      accounted := by
        refine List.Perm.trans (List.Perm.of_eq ?_) h.accounted
        refine congrArg (List.map Task.key) (congrArg _ ?_)
        rw [hact]
        show State.bgOf _ rest = (s.tqs q).bg ++ s.bgOf rest
        rw [hbg, List.nil_append]
        exact List.flatMap_congr fun p _ => hfield TQueue.bg p rfl }

/-- Handing control to MOO code for the first active queue. -/
theorem Good.serve (h : Core s []) {q : TqPtr} (what : Running) {s' : State}
    (hsame : SameTasks s s') (hc : s'.control = .running q what)
    (hhead : s.activeTqueues.head? = some q)
    (hlogin : what = .login → (s.tqs q).player < 0) : Good s' := by
  refine ⟨h.of_same hsame, fun p w hp => ?_⟩
  rw [hc] at hp
  cases hp
  rw [hsame.active, hsame.player]
  exact ⟨hhead, hlogin⟩

/-- Handing control to the reader of a queue. -/
theorem SameTasks.resumeReader (s : State) (q : TqPtr) (value : Var) :
    SameTasks s (resumeReader q value s) := by
  let s1 : State := { s with
    currentTaskId := (s.tqs q).readingVm
    control := .running q .plain
    resumed := s.resumed ++ [((s.tqs q).readingVm, value)] }
  have h1 : SameTasks s s1 :=
    ⟨rfl, rfl, rfl, rfl, rfl, rfl, rfl, rfl, fun _ => rfl, fun _ => rfl, fun _ => rfl⟩
  exact h1.trans (SameTasks.setReading s1 q false)

theorem Good.startInput (h : Core s []) {q : TqPtr} (t : InputTask)
    (hhead : s.activeTqueues.head? = some q) : Good (startInput q t s) := by
  have hnone : ∀ what, SameTasks s { s with control := .running q what } := fun _ =>
    ⟨rfl, rfl, rfl, rfl, rfl, rfl, rfl, rfl, fun _ => rfl, fun _ => rfl, fun _ => rfl⟩
  have hplain : Good { s with control := .running q .plain } :=
    Good.serve h _ (hnone _) rfl hhead (fun hw => nomatch hw)
  have hline : Good
      (if (s.tqs q).reading then resumeReader q (.str t.string) s
      else if 0 ≤ (s.tqs q).player then { s with control := .running q .command }
      else { s with control := .running q .login }) := by
    split
    · exact Good.serve h .plain (SameTasks.resumeReader s q _) rfl hhead (fun hw => nomatch hw)
    · split
      · exact Good.serve h _ (hnone _) rfl hhead (fun hw => nomatch hw)
      next hneg =>
        exact Good.serve h _ (hnone _) rfl hhead (fun _ => Int.not_le.mp hneg)
  simp only [Tasks.startInput]
  cases t.kind with
  | oob => exact hplain
  | inband => exact hline
  | quoted => exact hline
  | binary => exact hline

theorem dequeueBgTask_eq_none {q : TqPtr} (h : dequeueBgTask q s = none) :
    (s.tqs q).bg = [] := by
  simp only [Tasks.dequeueBgTask] at h
  split at h
  next hbg => exact hbg
  · cases h

/-- One turn of the loop over the tasks of the first active queue. -/
theorem Good.tryTqueue (h : Core s []) {q : TqPtr} {rest : List TqPtr}
    (hact : s.activeTqueues = q :: rest) :
    (∀ s', tryTqueue q s = some s' → Good s') ∧
      (tryTqueue q s = none → (s.tqs q).bg = []) := by
  have hhead : s.activeTqueues.head? = some q := by rw [hact]; rfl
  simp only [Tasks.tryTqueue]
  split
  next t s1 hd =>
    obtain ⟨hsame, -⟩ := SameTasks.dequeueInputTask hd
    refine ⟨fun s' hs' => ?_, fun hn => nomatch hn⟩
    cases hs'
    exact Good.startInput (h.of_same hsame) t (by rw [hsame.active]; exact hhead)
  next =>
    split
    next t s1 hd =>
      refine ⟨fun s' hs' => ?_, fun hn => nomatch hn⟩
      cases hs'
      obtain ⟨hc, -, -, hact1, -⟩ := h.dequeueBgTask hd (by rw [hact]; exact List.mem_cons_self)
      have hc1 : Core { s1 with started := s1.started ++ [t.uid] } [] := hc.leave (.inl rfl)
      refine Good.serve hc1 .plain
        ⟨rfl, rfl, rfl, rfl, rfl, rfl, rfl, rfl, fun _ => rfl, fun _ => rfl, fun _ => rfl⟩
        rfl ?_ (fun hw => nomatch hw)
      show s1.activeTqueues.head? = some q
      rw [hact1]
      exact hhead
    next hd => exact ⟨fun s' hs' => (nomatch hs'), fun _ => dequeueBgTask_eq_none hd⟩

theorem Good.scanTqueues (qs : List TqPtr) (h : Core s []) (hact : s.activeTqueues = qs) :
    Good (scanTqueues qs s) := by
  induction qs generalizing s with
  | nil =>
      have htop : Core { s with control := .top } [] := h.of_same
        ⟨rfl, rfl, rfl, rfl, rfl, rfl, rfl, rfl, fun _ => rfl, fun _ => rfl, fun _ => rfl⟩
      exact ⟨htop.freeEmptyTqueues, fun q w hc => nomatch hc⟩
  | cons q rest ih =>
      have hhead : s.activeTqueues.head? = some q := by rw [hact]; rfl
      obtain ⟨hsome, hnone⟩ := Good.tryTqueue h hact
      simp only [Tasks.scanTqueues]
      split
      · -- the reader gets its error
        exact Good.serve h .plain (SameTasks.resumeReader s q _) rfl hhead (fun hw => nomatch hw)
      · split
        next s' hs' => exact hsome s' hs'
        next hn => exact ih (h.deactivate hact (hnone hn)) rfl

theorem Good.runReadyTasks (h : Core s []) (now : Int) : Good (runReadyTasks now s) := by
  obtain ⟨hc, -⟩ := h.moveReady now s.waitingTasks rfl
  exact Good.scanTqueues _ hc rfl

theorem afterTq_head (q : TqPtr) (rest : List TqPtr) : afterTq q (q :: rest) = rest := by
  simp [afterTq]

/-- Adding to the usage of a queue. -/
theorem Core.addUsage (h : Core s tr) {q : TqPtr} (hq : q ∈ s.activeTqueues) (n : Nat) :
    Core (s.modifyTq q fun tq => { tq with usage := tq.usage + n }) tr := by
  have hfield : ∀ {β : Type} (g : TQueue → β) (p : TqPtr),
      g { s.tqs q with usage := (s.tqs q).usage + n } = g (s.tqs q) →
      g ((s.modifyTq q fun tq => { tq with usage := tq.usage + n }).tqs p) = g (s.tqs p) :=
    fun g p hg => modifyTq_field s q p (fun tq => { tq with usage := tq.usage + n }) g hg
  exact
    { linked := h.linked
      fresh := h.fresh
      usageActive := by
        intro p hp
        by_cases hpq : p = q
        · rw [hpq, modifyTq_tqs_self]
          have := h.usageActive q hq
          show 0 ≤ (s.tqs q).usage + n
          omega
        · rw [modifyTq_tqs_ne s _ hpq]
          exact h.usageActive p hp
      usageIdle := by
        intro p hp
        have hpq : p ≠ q := by
          rintro rfl
          exact (List.nodup_append.mp h.linked).2.2 p hq p hp rfl
        rw [modifyTq_tqs_ne s _ hpq]
        exact h.usageIdle p hp
      idleBg := fun p hp => by rw [hfield TQueue.bg p rfl]; exact h.idleBg p hp
      owner := fun p hp t ht => by
        rw [hfield TQueue.bg p rfl] at ht
        rw [hfield TQueue.player p rfl]
        exact h.owner p hp t ht
      uids := h.uids
      uidsBelow := h.uidsBelow
      goneBelow := h.goneBelow
      accounted := by
        refine List.Perm.trans (List.Perm.of_eq ?_) h.accounted
        refine congrArg (List.map Task.key) (congrArg _ ?_)
        exact List.flatMap_congr fun p _ => hfield TQueue.bg p rfl }

theorem Good.endTask (h : Core s []) {q : TqPtr} (hhead : s.activeTqueues.head? = some q)
    (didOne : Bool) (elapsed : Nat) : Good (endTask q didOne elapsed s) := by
  obtain ⟨rest, hact⟩ : ∃ rest, s.activeTqueues = q :: rest := by
    cases hl : s.activeTqueues with
    | nil => rw [hl] at hhead; exact nomatch hhead
    | cons p ps => rw [hl] at hhead; cases hhead; exact ⟨ps, rfl⟩
  have hq : q ∈ s.activeTqueues := by rw [hact]; exact List.mem_cons_self
  have hafter : afterTq q s.activeTqueues = rest := by rw [hact, afterTq_head]
  cases didOne with
  | true =>
      have hc := h.addUsage hq elapsed
      have hperm : (insertByUsage (s.modifyTq q fun tq =>
          { tq with usage := tq.usage + elapsed }).tqs q rest).Perm s.activeTqueues := by
        rw [hact]
        exact insertByUsage_perm _ q rest
      have hc' := hc.perm_active hperm
      refine ⟨Core.freeEmptyTqueues ?_, fun p w hp => nomatch hp⟩
      simp only [hafter]
      exact Core.of_same hc'
        ⟨rfl, rfl, rfl, rfl, rfl, rfl, rfl, rfl, fun _ => rfl, fun _ => rfl, fun _ => rfl⟩
  | false =>
      obtain ⟨hsome, hnone⟩ := Good.tryTqueue h hact
      simp only [Tasks.endTask, Bool.false_eq_true, if_false, hafter]
      split
      next s' hs' => exact hsome s' hs'
      next hn => exact Good.scanTqueues rest (h.deactivate hact (hnone hn)) rfl

/-! ## Runs -/

/-- A login that returns a player finds no background task on the queue of its
    connection, or the connection is gone. -/
def LoginHasNoTasks (s : State) (a : Action) : Prop :=
  ∀ p q, a = .loginReturns (some p) → s.control = .running q .login →
    (s.tqs q).connected = true → (s.tqs q).bg = []

theorem Good.of_keeps {s' : State} (h : Good s) (hc : Core s' [] ∧ Keeps s s') : Good s' :=
  ⟨hc.1, h.2.of_keeps hc.2⟩

/-- Every step whose login, if it is one, finds no background task. -/
theorem Good.step {a : Action} {s' : State} (h : Good s) (hok : LoginHasNoTasks s a)
    (hstep : Step s a s') : Good s' := by
  obtain ⟨hc, hs⟩ := h
  cases hstep with
  | fork p ul sl st id => exact Good.of_keeps ⟨hc, hs⟩ (hc.enqueueForkedTask p ul sl st id)
  | suspend p ul sl st id =>
      exact Good.of_keeps ⟨hc, hs⟩ (hc.enqueueSuspendedTask p ul sl st id)
  | restore k id p st v => exact Good.of_keeps ⟨hc, hs⟩ (hc.newWaiting k id p st v)
  | externalResume id p v => exact Good.of_keeps ⟨hc, hs⟩ (hc.resumeTask id p v)
  | resume id v p w => exact Good.of_keeps ⟨hc, hs⟩ (hc.doResume id v p w)
  | killed id o w e _ hk => exact Good.of_keeps ⟨hc, hs⟩ (hc.killTask hk)
  | killExternal => exact ⟨hc, hs⟩
  | read p vm => exact Good.of_keeps ⟨hc, hs⟩ (hc.makeReadingTask p vm)
  | readNow p => exact Good.of_keeps ⟨hc, hs⟩ (hc.readInputNow p)
  | suspendInput q _ => exact Good.of_keeps ⟨hc, hs⟩ (hc.taskSuspendInput q)
  | newConnection p hd _ => exact Good.of_keeps ⟨hc, hs⟩ (hc.newTaskQueue p hd)
  | disconnect q hq => exact Good.of_keeps ⟨hc, hs⟩ (hc.freeTaskQueue hq)
  | input q l b f hq => exact Good.of_keeps ⟨hc, hs⟩ (hc.newInputTask l b f hq)
  | forceInput p l front =>
      obtain ⟨hc1, hk1, hq, -⟩ := hc.findOrCreate p
      obtain ⟨hc2, hk2⟩ := hc1.enqueueInputTask l front false hq
      exact Good.of_keeps ⟨hc, hs⟩ ⟨hc2, hk1.trans hk2⟩
  | flush p =>
      obtain ⟨hc1, hk1, -⟩ := hc.findOrCreate p
      obtain ⟨hc2, hk2⟩ := hc1.flushAll (findOrCreateTqueue p s).1
      exact Good.of_keeps ⟨hc, hs⟩ ⟨hc2, hk1.trans hk2⟩
  | holdInput q v hq => exact Good.of_keeps ⟨hc, hs⟩ (hc.setHoldInput v hq)
  | disableOob q v hq => exact Good.of_keeps ⟨hc, hs⟩ (hc.setDisableOob v hq)
  | serverTask id =>
      have hsame : SameTasks s { s with currentTaskId := id } :=
        ⟨rfl, rfl, rfl, rfl, rfl, rfl, rfl, rfl, fun _ => rfl, fun _ => rfl, fun _ => rfl⟩
      exact Good.of_keeps ⟨hc, hs⟩ ⟨hc.of_same hsame, Keeps.of_same hsame rfl⟩
  | runReady now _ => exact Good.runReadyTasks hc now
  | loginReturns q r hctl hres =>
      obtain ⟨hhead, hlogin⟩ := hs q .login hctl
      have hq : q ∈ s.activeTqueues := List.mem_of_mem_head? hhead
      obtain ⟨hc', hact⟩ := hc.doLoginTask hq (hlogin rfl) hres
        (fun p hp hconn => hok p q (by rw [hp]) hctl hconn)
      refine Good.serve hc' .plain
        ⟨rfl, rfl, rfl, rfl, rfl, rfl, rfl, rfl, fun _ => rfl, fun _ => rfl, fun _ => rfl⟩
        rfl ?_ (fun hw => nomatch hw)
      rw [hact]
      exact hhead
  | commandEnds q d e hctl _ => exact Good.endTask hc (hs q .command hctl).1 d e
  | promptReads q p vm hctl _ _ =>
      obtain ⟨hc', hk⟩ := hc.makeReadingTask p vm
      exact Good.endTask hc' (hk.head q (hs q .command hctl).1) false 0
  | taskEnds q e hctl => exact Good.endTask hc (hs q .plain hctl).1 true e

theorem Good.init : Good State.init := by
  refine ⟨?_, fun q w hc => nomatch hc⟩
  exact
    { linked := List.nodup_nil
      fresh := fun q hq => nomatch hq
      usageActive := fun q hq => nomatch hq
      usageIdle := fun q hq => nomatch hq
      idleBg := fun q hq => nomatch hq
      owner := fun q hq => nomatch hq
      uids := List.nodup_nil
      uidsBelow := fun h hh => nomatch hh
      goneBelow := fun u hu => nomatch hu
      accounted := List.Perm.refl _ }

/-- Every state of a run whose logins find no background task. -/
theorem Good.run {as : List Action} (hrun : Runs.Run (Runs.guarded LoginHasNoTasks Step)
    State.init as s) : Good s :=
  hrun.invariant (fun _ _ _ h hs => h.step hs.1 hs.2) Good.init

/-! ## Placement -/

/-- Where the pending task `x` is, and what follows from it. -/
structure Placed (s : State) (x : Handed) : Prop where
  /-- it is found once in the waiting list and the linked queues together -/
  once : ((s.waitingTasks ++ s.bgOf (s.activeTqueues ++ s.idleTqueues)).map Task.uid).count
    x.uid = 1
  /-- it waits, or it is on an active queue whose player is its programmer -/
  place : ∃ t, t.key = x ∧ (t ∈ s.waitingTasks ∨
    ∃ q ∈ s.activeTqueues, (s.tqs q).player = x.progr ∧ t ∈ (s.tqs q).bg)
  /-- once nothing that is not due waits before it, `run_ready_tasks` does not
      return without having started some task -/
  runs : ∀ now, (∀ t ∈ s.waitingTasks, t.key = x →
      t ∈ s.waitingTasks.takeWhile fun t => t.startTime < now) →
    ∃ q what, (runReadyTasks now s).control = .running q what
  /-- `queued_tasks` lists it once for its programmer -/
  listed : ((queuedTasks x.progr false s).map Task.uid).count x.uid = 1
  /-- its programmer can kill it, if it alone has its id -/
  killable : ∀ t ∈ s.waitingTasks ++ s.bgOf s.activeTqueues, t.key = x →
    t.id ≠ s.currentTaskId →
    (∀ t' ∈ s.waitingTasks ++ s.bgOf s.activeTqueues, t'.id = t.id → t' = t) →
    (∀ q ∈ s.activeTqueues ++ s.idleTqueues, (s.tqs q).reading = true →
      (s.tqs q).readingVm ≠ t.id) →
    ∃ s', killTask t.id x.progr false s = some (.eNone, s') ∧ s'.killed = s.killed ++ [x.uid]
  /-- `write_task_queue` writes it once -/
  written : ((writeTaskQueue s).map Task.uid).count x.uid = 1

/-- The pending tasks' identities differ. -/
theorem Core.pending_uids (h : Core s tr) : (s.pending.map Handed.uid).Nodup :=
  (List.filter_sublist.map Handed.uid).nodup h.uids

/-- The identities on the lists are those of the pending tasks. -/
theorem Core.uids_perm (h : Core s []) :
    ((s.waitingTasks ++ s.bgOf s.activeTqueues).map Task.uid).Perm
      (s.pending.map Handed.uid) := by
  have := h.accounted.map Handed.uid
  rw [List.map_map] at this
  exact this

theorem Core.bgOf_idle (h : Core s tr) : s.bgOf s.idleTqueues = [] :=
  List.flatMap_eq_nil_iff.mpr h.idleBg

theorem Core.bgOf_linked (h : Core s tr) :
    s.bgOf (s.activeTqueues ++ s.idleTqueues) = s.bgOf s.activeTqueues := by
  have : s.bgOf (s.activeTqueues ++ s.idleTqueues)
      = s.bgOf s.activeTqueues ++ s.bgOf s.idleTqueues := List.flatMap_append
  rw [this, h.bgOf_idle, List.append_nil]

/-- A pending task is counted once in any arrangement of the lists. -/
theorem Core.count_uid (h : Core s []) {x : Handed} (hx : x ∈ s.pending) {ts : List Task}
    (hperm : ts.Perm (s.waitingTasks ++ s.bgOf s.activeTqueues)) :
    (ts.map Task.uid).count x.uid = 1 := by
  rw [((hperm.map Task.uid).trans h.uids_perm).count_eq]
  exact List.count_eq_one_of_mem h.pending_uids (List.mem_map_of_mem hx)

/-- A pending task waits or is on an active queue of its programmer. -/
theorem Core.place (h : Core s []) {x : Handed} (hx : x ∈ s.pending) :
    ∃ t, t.key = x ∧ (t ∈ s.waitingTasks ∨
      ∃ q ∈ s.activeTqueues, (s.tqs q).player = x.progr ∧ t ∈ (s.tqs q).bg) := by
  obtain ⟨t, ht, hkey⟩ := List.mem_map.mp (h.accounted.mem_iff.mpr hx)
  refine ⟨t, hkey, ?_⟩
  rcases List.mem_append.mp ht with hw | hb
  · exact .inl hw
  · obtain ⟨q, hq, hb⟩ := List.mem_flatMap.mp hb
    refine .inr ⟨q, hq, ?_, hb⟩
    rw [← h.owner q hq t hb, ← hkey]
    rfl

/-- Filtering by a test and by its negation splits a list. -/
theorem writeTaskQueue_perm (s : State) :
    (writeTaskQueue s).Perm (s.waitingTasks ++ s.bgOf s.activeTqueues) := by
  have hsplit : ∀ ts : List Task, (ts.filter (fun t => t.kind = .forked)
      ++ ts.filter (fun t => t.kind ≠ .forked)).Perm ts := by
    intro ts
    have := List.filter_append_perm (fun t : Task => decide (t.kind = .forked)) ts
    simpa using this
  refine List.Perm.trans ?_ ((hsplit s.waitingTasks).append (hsplit (s.bgOf s.activeTqueues)))
  simp only [Tasks.writeTaskQueue, State.bgOf, List.append_assoc]
  refine List.Perm.append_left _ ?_
  rw [← List.append_assoc, ← List.append_assoc]
  exact List.Perm.append_right _ List.perm_append_comm

theorem queuedTasks_count (s : State) {x : Handed} {t : Task}
    (hall : ∀ t' ∈ s.waitingTasks ++ s.bgOf s.activeTqueues, t'.uid = x.uid → t' = t)
    (ht : t.key = x) :
    ((queuedTasks x.progr false s).map Task.uid).count x.uid
      = ((s.waitingTasks ++ s.bgOf s.activeTqueues).map Task.uid).count x.uid := by
  have hcomm : (s.bgOf s.activeTqueues ++ s.waitingTasks).Perm
      (s.waitingTasks ++ s.bgOf s.activeTqueues) := List.perm_append_comm
  rw [← (hcomm.map Task.uid).count_eq]
  simp only [Tasks.queuedTasks, List.count_eq_countP, List.countP_map, List.countP_filter]
  refine List.countP_congr fun t' ht' => ?_
  have hmem : t' ∈ s.waitingTasks ++ s.bgOf s.activeTqueues := hcomm.mem_iff.mp ht'
  constructor
  · intro hp
    simp only [Function.comp, Bool.and_eq_true] at hp
    exact hp.1
  · intro hp
    have huid : t'.uid = x.uid := by simpa using hp
    have hprogr : t'.progr = x.progr := by
      rw [hall t' hmem huid, ← ht]
      rfl
    simp [Function.comp, huid, hprogr]

/-! ### Killing -/

theorem extractFirst_of_mem {α : Type*} {p : α → Bool} {l : List α} {t : α} (ht : t ∈ l)
    (hp : p t = true) (huniq : ∀ t' ∈ l, p t' = true → t' = t) :
    ∃ rest, extractFirst p l = some (t, rest) := by
  induction l with
  | nil => exact nomatch ht
  | cons a l ih =>
      simp only [extractFirst]
      by_cases ha : p a = true
      · rw [if_pos ha, huniq a List.mem_cons_self ha]
        exact ⟨l, rfl⟩
      · rw [if_neg ha]
        have htl : t ∈ l := by
          rcases List.mem_cons.mp ht with rfl | htl
          · exact absurd hp ha
          · exact htl
        obtain ⟨rest, hrest⟩ := ih htl fun t' ht' => huniq t' (List.mem_cons_of_mem a ht')
        exact ⟨a :: rest, by rw [hrest]; rfl⟩

theorem extractFirst_none {α : Type*} {p : α → Bool} {l : List α}
    (h : ∀ t ∈ l, p t = false) : extractFirst p l = none := by
  induction l with
  | nil => rfl
  | cons a l ih =>
      simp only [extractFirst, h a List.mem_cons_self, Bool.false_eq_true, if_false]
      rw [ih fun t ht => h t (List.mem_cons_of_mem a ht)]
      rfl

/-- The loop of `kill_task` finds the task on the queue of its owner. -/
theorem killActive_found {t : Task} {qs : List TqPtr}
    (hin : ∃ q ∈ qs, t ∈ (s.tqs q).bg)
    (hown : ∀ q ∈ qs, t ∈ (s.tqs q).bg → (s.tqs q).player = t.progr)
    (huniq : ∀ q ∈ qs, ∀ t' ∈ (s.tqs q).bg, t'.id = t.id → t' = t)
    (hread : ∀ q ∈ qs, (s.tqs q).reading = true → (s.tqs q).readingVm ≠ t.id) :
    ∃ s', killActive t.id t.progr false s qs = some (.eNone, s') ∧
      s'.killed = s.killed ++ [t.uid] := by
  induction qs with
  | nil =>
      obtain ⟨q, hq, -⟩ := hin
      exact nomatch hq
  | cons q qs ih =>
      have hq : q ∈ q :: qs := List.mem_cons_self
      have hnoread : ¬((s.tqs q).reading && (s.tqs q).readingVm = t.id) = true := by
        intro hr
        simp only [Bool.and_eq_true, decide_eq_true_eq] at hr
        exact hread q hq hr.1 hr.2
      simp only [Tasks.killActive, if_neg hnoread]
      by_cases htq : t ∈ (s.tqs q).bg
      · obtain ⟨rest, hrest⟩ := extractFirst_of_mem (p := fun t' => t'.id = t.id) htq (by simp)
          fun t' ht' hp => huniq q hq t' ht' (by simpa using hp)
        rw [hrest]
        refine ⟨_, if_neg ?_, rfl⟩
        simp [hown q hq htq]
      · have hnone : extractFirst (fun t' : Task => t'.id = t.id) (s.tqs q).bg = none := by
          refine extractFirst_none fun t' ht' => ?_
          rw [decide_eq_false_iff_not]
          intro hid
          exact htq (huniq q hq t' ht' hid ▸ ht')
        rw [hnone]
        refine ih ?_ (fun p hp => hown p (List.mem_cons_of_mem q hp))
          (fun p hp => huniq p (List.mem_cons_of_mem q hp))
          (fun p hp => hread p (List.mem_cons_of_mem q hp))
        obtain ⟨p, hp, htp⟩ := hin
        rcases List.mem_cons.mp hp with rfl | hp
        · exact absurd htp htq
        · exact ⟨p, hp, htp⟩

theorem Core.killable (h : Core s []) {t : Task}
    (ht : t ∈ s.waitingTasks ++ s.bgOf s.activeTqueues) (hcur : t.id ≠ s.currentTaskId)
    (huniq : ∀ t' ∈ s.waitingTasks ++ s.bgOf s.activeTqueues, t'.id = t.id → t' = t)
    (hread : ∀ q ∈ s.activeTqueues ++ s.idleTqueues, (s.tqs q).reading = true →
      (s.tqs q).readingVm ≠ t.id) :
    ∃ s', Tasks.killTask t.id t.progr false s = some (.eNone, s') ∧
      s'.killed = s.killed ++ [t.uid] := by
  simp only [Tasks.killTask, if_neg hcur]
  by_cases hw : t ∈ s.waitingTasks
  · obtain ⟨rest, hrest⟩ := extractFirst_of_mem (p := fun t' => t'.id = t.id) hw (by simp)
      fun t' ht' hp => huniq t' (List.mem_append_left _ ht') (by simpa using hp)
    rw [hrest]
    cases hfind : findTqueue t.progr s with
    | some q =>
        simp only [hfind]
        exact ⟨_, if_neg (by simp), rfl⟩
    | none =>
        simp only [hfind]
        exact ⟨_, if_neg (by simp), rfl⟩
  · have hnone : extractFirst (fun t' : Task => t'.id = t.id) s.waitingTasks = none := by
      refine extractFirst_none fun t' ht' => ?_
      rw [decide_eq_false_iff_not]
      intro hid
      exact hw (huniq t' (List.mem_append_left _ ht') hid ▸ ht')
    have hidle : findReading t.id s s.idleTqueues = none := by
      refine List.find?_eq_none.mpr fun q hq => ?_
      intro hr
      simp only [Bool.and_eq_true, decide_eq_true_eq] at hr
      exact hread q (List.mem_append_right _ hq) hr.1 hr.2
    rw [hnone, hidle]
    have hb : t ∈ s.bgOf s.activeTqueues := (List.mem_append.mp ht).resolve_left hw
    obtain ⟨q, hq, htq⟩ := List.mem_flatMap.mp hb
    exact killActive_found ⟨q, hq, htq⟩ (fun p hp htp => (h.owner p hp t htp).symm)
      (fun p hp t' ht' => huniq t' (List.mem_append_right _ (List.mem_flatMap.mpr ⟨p, hp, ht'⟩)))
      (fun p hp => hread p (List.mem_append_left _ hp))

/-! ### Running -/

/-- What the loop over the due tasks leaves on the waiting list, and the history. -/
theorem moveReady_waiting (now : Int) (ts : List Task) (hw : s.waitingTasks = ts) :
    (moveReady now ts s).waitingTasks = ts.dropWhile (fun t => t.startTime < now) ∧
      (moveReady now ts s).pending = s.pending := by
  have hwake : ∀ (q : TqPtr) (t : Task) (s : State),
      (enqueueBgTask q t (ensureUsage q s)).waitingTasks = s.waitingTasks ∧
      (enqueueBgTask q t (ensureUsage q s)).pending = s.pending := by
    intro q t s
    simp only [ensureUsage]
    split <;> exact ⟨rfl, rfl⟩
  have hfind : ∀ (player : Objid) (s : State),
      (findOrCreateTqueue player s).2.waitingTasks = s.waitingTasks ∧
      (findOrCreateTqueue player s).2.pending = s.pending := by
    intro player s
    simp only [findOrCreateTqueue]
    split <;> exact ⟨rfl, rfl⟩
  induction ts generalizing s with
  | nil => exact ⟨hw, rfl⟩
  | cons t rest ih =>
      simp only [Tasks.moveReady]
      split
      next hdue =>
        set r := findOrCreateTqueue t.progr { s with waitingTasks := rest }
        obtain ⟨h1, h1'⟩ := hfind t.progr { s with waitingTasks := rest }
        obtain ⟨h2, h2'⟩ := hwake r.1 t r.2
        obtain ⟨h3, h3'⟩ := ih (h2.trans h1)
        refine ⟨h3.trans ?_, h3'.trans (h2'.trans h1')⟩
        rw [List.dropWhile_cons_of_pos (by simpa using hdue)]
      next hdue =>
        rw [List.dropWhile_cons_of_neg (by simpa using hdue)]
        exact ⟨hw, rfl⟩

theorem startInput_running (q : TqPtr) (t : InputTask) (s : State) :
    ∃ what, (startInput q t s).control = .running q what := by
  simp only [startInput]
  split
  · exact ⟨_, rfl⟩
  · split
    · exact ⟨_, rfl⟩
    · split
      · exact ⟨_, rfl⟩
      · exact ⟨_, rfl⟩

theorem tryTqueue_running {q : TqPtr} {s' : State} (h : tryTqueue q s = some s') :
    ∃ what, s'.control = .running q what := by
  simp only [tryTqueue] at h
  split at h
  next t s1 _ =>
    cases h
    exact startInput_running q t s1
  next =>
    split at h
    · cases h
      exact ⟨_, rfl⟩
    · exact nomatch h

/-- The scan starts something when some active queue has a background task. -/
theorem scanTqueues_running (qs : List TqPtr) (h : Core s []) (hact : s.activeTqueues = qs)
    (hbg : ∃ q ∈ qs, (s.tqs q).bg ≠ []) :
    ∃ q what, (scanTqueues qs s).control = .running q what := by
  induction qs generalizing s with
  | nil =>
      obtain ⟨q, hq, -⟩ := hbg
      exact nomatch hq
  | cons q rest ih =>
      simp only [Tasks.scanTqueues]
      split
      · exact ⟨q, _, rfl⟩
      · split
        next s' hs' => exact ⟨q, tryTqueue_running hs'⟩
        next hn =>
          have hnil : (s.tqs q).bg = [] := (Good.tryTqueue h hact).2 hn
          refine ih (h.deactivate hact hnil) rfl ?_
          obtain ⟨p, hp, hne⟩ := hbg
          have hpq : p ≠ q := by
            rintro rfl
            exact hne hnil
          refine ⟨p, (List.mem_cons.mp hp).resolve_left hpq, ?_⟩
          rw [show (deactivateTqueue q { s with activeTqueues := rest }).tqs p = s.tqs p from
            modifyTq_tqs_ne s (fun tq => { tq with usage := noUsage }) hpq]
          exact hne

theorem Core.runs (h : Core s []) {x : Handed} (hx : x ∈ s.pending) (now : Int)
    (hdue : ∀ t ∈ s.waitingTasks, t.key = x →
      t ∈ s.waitingTasks.takeWhile fun t => t.startTime < now) :
    ∃ q what, (runReadyTasks now s).control = .running q what := by
  obtain ⟨hc, -⟩ := h.moveReady now s.waitingTasks rfl
  obtain ⟨hwait, hpend⟩ := moveReady_waiting (s := s) now s.waitingTasks rfl
  obtain ⟨t, hkey, hplace⟩ := hc.place (by rw [hpend]; exact hx)
  refine scanTqueues_running _ hc rfl ?_
  rcases hplace with hw | ⟨q, hq, -, ht⟩
  · -- a due task is no longer on the waiting list
    rw [hwait] at hw
    have hnd : (s.waitingTasks.map Task.uid).Nodup := by
      have := h.uids_perm.nodup_iff.mpr h.pending_uids
      rw [List.map_append] at this
      exact (List.nodup_append.mp this).1
    have htake := hdue t ((List.dropWhile_sublist _).subset hw) hkey
    rw [← List.takeWhile_append_dropWhile (p := fun t : Task => t.startTime < now)
      (l := s.waitingTasks), List.map_append] at hnd
    exact absurd rfl ((List.nodup_append.mp hnd).2.2 _ (List.mem_map_of_mem htake) _
      (List.mem_map_of_mem hw))
  · exact ⟨q, hq, List.ne_nil_of_mem ht⟩

theorem Core.placed (h : Core s []) {x : Handed} (hx : x ∈ s.pending) : Placed s x := by
  obtain ⟨t, hkey, hplace⟩ := h.place hx
  have hnd := h.uids_perm.nodup_iff.mpr h.pending_uids
  have hmem : t ∈ s.waitingTasks ++ s.bgOf s.activeTqueues := by
    rcases hplace with hw | ⟨q, hq, -, ht⟩
    · exact List.mem_append_left _ hw
    · exact List.mem_append_right _ (List.mem_flatMap.mpr ⟨q, hq, ht⟩)
  have hall : ∀ t' ∈ s.waitingTasks ++ s.bgOf s.activeTqueues, t'.uid = x.uid → t' = t := by
    intro t' ht' huid
    refine List.inj_on_of_nodup_map hnd ht' hmem ?_
    rw [huid, ← hkey]
    rfl
  exact
    { once := by
        rw [h.bgOf_linked]
        exact h.count_uid hx (List.Perm.refl _)
      place := ⟨t, hkey, hplace⟩
      runs := fun now => h.runs hx now
      listed := by
        rw [queuedTasks_count s hall hkey]
        exact h.count_uid hx (List.Perm.refl _)
      killable := by
        intro t' ht' hkey' hcur huniq hread
        subst hkey'
        exact h.killable ht' hcur huniq hread
      written := h.count_uid hx (writeTaskQueue_perm s) }

/-- In every state of a run whose logins find no background task on the queue of
    their connection, every pending task is in its place. -/
theorem background_tasks_placed {as : List Action}
    (hrun : Runs.Run (Runs.guarded LoginHasNoTasks Step) State.init as s) :
    ∀ x ∈ s.pending, Placed s x :=
  fun _ hx => (Good.run hrun).1.placed hx

/-- Connection −5 gives two lines: the code of the first forks a task with the
    given programmer, and the second logs in as player 7. -/
def forkBeforeLogin (progr : Objid) : List Action :=
  [.newConnection (-5) 0, .input 0 (Str.ofString "one") false false, .runReady 1,
    .fork progr none 10 4 42, .loginReturns none, .taskEnds true 0,
    .input 0 (Str.ofString "two") false false, .runReady 5, .loginReturns (some 7)]

/-- The task of another programmer is on that programmer's queue. -/
theorem background_tasks_placed_forkBeforeLogin :
    ∃ s, Runs.Run (Runs.guarded LoginHasNoTasks Step) State.init (forkBeforeLogin 3) s ∧
      s.pending = [⟨0, 3⟩] ∧ ∀ x ∈ s.pending, Placed s x := by
  have hok : ∀ s a, (∀ p, a ≠ .loginReturns (some p)) → LoginHasNoTasks s a :=
    fun s a ha p q hp _ _ => absurd hp (ha p)
  have hrun : ∃ s, Runs.Run (Runs.guarded LoginHasNoTasks Step) State.init
      (forkBeforeLogin 3) s ∧ s.pending = [⟨0, 3⟩] := by
    refine ⟨_, .cons ⟨hok _ _ (by intro p h; cases h), .newConnection _ _ _ (by decide)⟩ <|
      .cons ⟨hok _ _ (by intro p h; cases h), .input _ _ _ _ _ (by decide)⟩ <|
      .cons ⟨hok _ _ (by intro p h; cases h), .runReady _ _ rfl⟩ <|
      .cons ⟨hok _ _ (by intro p h; cases h), .fork _ _ _ _ _ _⟩ <|
      .cons ⟨hok _ _ (by intro p h; cases h), .loginReturns _ 0 _ rfl (by decide)⟩ <|
      .cons ⟨hok _ _ (by intro p h; cases h), .taskEnds _ 0 _ rfl⟩ <|
      .cons ⟨hok _ _ (by intro p h; cases h), .input _ _ _ _ _ (by decide)⟩ <|
      .cons ⟨hok _ _ (by intro p h; cases h), .runReady _ _ rfl⟩ <|
      .cons ⟨?_, .loginReturns _ 0 _ rfl (by decide)⟩ (.nil _), ?_⟩
    · -- at the login, queue 0 is served and its background list is empty
      intro p q _ hctl _
      cases hctl
      rfl
    · decide
  obtain ⟨s, hs, hpend⟩ := hrun
  exact ⟨s, hs, hpend, background_tasks_placed hs⟩

/-- The task of the connection itself is moved to an idle queue: it is neither
    listed nor written, and nothing will run it. -/
theorem login_loses_task :
    ∃ s, Runs.Run Step State.init (forkBeforeLogin (-5)) s ∧
      ∃ x ∈ s.pending, queuedTasks x.progr false s = [] ∧ writeTaskQueue s = [] ∧
        ¬ Placed s x := by
  have hrun : ∃ s, Runs.Run Step State.init (forkBeforeLogin (-5)) s ∧
      (⟨0, -5⟩ : Handed) ∈ s.pending ∧ queuedTasks (-5) false s = [] ∧
        writeTaskQueue s = [] := by
    refine ⟨_, .cons (.newConnection _ _ _ (by decide)) <|
      .cons (.input _ _ _ _ _ (by decide)) <| .cons (.runReady _ _ rfl) <|
      .cons (.fork _ _ _ _ _ _) <| .cons (.loginReturns _ 0 _ rfl (by decide)) <|
      .cons (.taskEnds _ 0 _ rfl) <| .cons (.input _ _ _ _ _ (by decide)) <|
      .cons (.runReady _ _ rfl) <| .cons (.loginReturns _ 0 _ rfl (by decide)) (.nil _), ?_⟩
    decide
  obtain ⟨s, hs, hpend, hlist, hwrite⟩ := hrun
  refine ⟨s, hs, ⟨0, -5⟩, hpend, hlist, hwrite, fun hp => ?_⟩
  have := hp.written
  rw [hwrite] at this
  exact absurd this (by decide)

end Waverous.Tasks
