import Waverous.TasksProofs

/-! # Every call keeps the tasks in place — `tasks.c`

    One lemma for each function of the task module that the rest of the server
    calls: it preserves `Core`, and unless it is the scheduler's own it leaves
    the queue being served where it is (`Keeps`). -/

namespace Waverous.Tasks

variable {s : State} {tr : List Task}

/-- `ensure_usage` only looks at usages, so it can be done before a store that
    keeps them. -/
theorem insertByUsage_congr {tqs tqs' : TqPtr → TQueue}
    (h : ∀ p, (tqs' p).usage = (tqs p).usage) (q : TqPtr) (qs : List TqPtr) :
    insertByUsage tqs' q qs = insertByUsage tqs q qs := by
  induction qs with
  | nil => rfl
  | cons p ps ih => simp only [insertByUsage, h, ih]

theorem ensureUsage_enqueueBgTask (q : TqPtr) (t : Task) (s : State) :
    ensureUsage q (enqueueBgTask q t s) = enqueueBgTask q t (ensureUsage q s) := by
  have hus : ∀ p, ((enqueueBgTask q t s).tqs p).usage = (s.tqs p).usage := fun p =>
    modifyTq_field s q p (fun tq => { tq with bg := tq.bg ++ [t] }) TQueue.usage rfl
  by_cases hu : (s.tqs q).usage = noUsage
  · have hu' : ((enqueueBgTask q t s).tqs q).usage = noUsage := by rw [hus]; exact hu
    have hact : (enqueueBgTask q t s).activeTqueues = s.activeTqueues := rfl
    -- both orders store the same two fields of `q`
    have hstore : ∀ u, ((enqueueBgTask q t s).modifyTq q fun tq => { tq with usage := u }).tqs
        = (enqueueBgTask q t (s.modifyTq q fun tq => { tq with usage := u })).tqs := by
      intro u
      simp [enqueueBgTask, State.modifyTq]
    have hins : ∀ u, insertByUsage
        ((enqueueBgTask q t s).modifyTq q fun tq => { tq with usage := u }).tqs q s.activeTqueues
        = insertByUsage (s.modifyTq q fun tq => { tq with usage := u }).tqs q
          s.activeTqueues := by
      intro u
      rw [hstore]
      refine insertByUsage_congr (fun p => ?_) q _
      exact modifyTq_field _ q p (fun tq => { tq with bg := tq.bg ++ [t] }) TQueue.usage rfl
    have hact' : ∀ u, activateTqueue q
        { (enqueueBgTask q t s).modifyTq q (fun tq => { tq with usage := u }) with
          idleTqueues := s.idleTqueues.erase q }
        = enqueueBgTask q t (activateTqueue q
          { s.modifyTq q (fun tq => { tq with usage := u }) with
            idleTqueues := s.idleTqueues.erase q }) := by
      intro u
      simp only [activateTqueue]
      rw [show ((enqueueBgTask q t s).modifyTq q _).activeTqueues = s.activeTqueues from rfl,
        hins, hstore]
      rfl
    simp only [ensureUsage, if_pos hu, if_pos hu', hact]
    cases s.activeTqueues with
    | nil => exact hact' 0
    | cons p ps =>
        simp only [hus]
        exact hact' (s.tqs p).usage
  · have hu' : ¬((enqueueBgTask q t s).tqs q).usage = noUsage := by rw [hus]; exact hu
    simp only [ensureUsage, if_neg hu, if_neg hu']

/-! ## New tasks -/

theorem Core.newWaiting (h : Core s tr) (kind : BgKind) (id : Int) (progr : Objid)
    (startTime : Int) (value : Var) :
    Core (restoreTask kind id progr startTime value s) tr ∧
      Keeps s (restoreTask kind id progr startTime value s) := by
  obtain ⟨hc, hk⟩ := h.newTask kind id progr startTime value
  obtain ⟨hc', hk'⟩ := hc.enqueueWaiting
  exact ⟨hc', hk.trans hk'⟩

theorem Core.enqueueForkedTask (h : Core s tr) (progr : Objid) (userLimit : Option Int)
    (serverLimit startTime id : Int) :
    Core (enqueueForkedTask progr userLimit serverLimit startTime id s).2 tr ∧
      Keeps s (enqueueForkedTask progr userLimit serverLimit startTime id s).2 := by
  rw [Tasks.enqueueForkedTask]
  split
  · exact h.newWaiting .forked id progr startTime zero
  · exact ⟨h, Keeps.refl s⟩

theorem Core.enqueueSuspendedTask (h : Core s tr) (progr : Objid) (userLimit : Option Int)
    (serverLimit startTime id : Int) :
    Core (enqueueSuspendedTask progr userLimit serverLimit startTime id s).2 tr ∧
      Keeps s (enqueueSuspendedTask progr userLimit serverLimit startTime id s).2 := by
  rw [Tasks.enqueueSuspendedTask]
  split
  · exact h.newWaiting .suspended id progr startTime zero
  · exact ⟨h, Keeps.refl s⟩

/-- `ensure_usage` and then `enqueue_bg_task` put the task in transit on a linked
    queue of its owner. -/
theorem Core.wakeAndEnqueue {t : Task} (h : Core s (t :: tr)) {q : TqPtr}
    (hq : q ∈ s.activeTqueues ++ s.idleTqueues) (hown : (s.tqs q).player = t.progr) :
    Core (Tasks.enqueueBgTask q t (Tasks.ensureUsage q s)) tr ∧
      Keeps s (Tasks.enqueueBgTask q t (Tasks.ensureUsage q s)) ∧
      (Tasks.enqueueBgTask q t (Tasks.ensureUsage q s)).waitingTasks = s.waitingTasks := by
  obtain ⟨hc, hk, hqa, hsame, hwait⟩ := h.ensureUsage hq
  refine ⟨hc.enqueueBgTask hqa ?_, hk.trans (Keeps.enqueueBgTask _ q t), hwait⟩
  rw [(hsame q).2, hown]

theorem Core.resumeTask (h : Core s tr) (id : Int) (progr : Objid) (value : Var) :
    Core (resumeTask id progr value s) tr ∧ Keeps s (resumeTask id progr value s) := by
  obtain ⟨hc, hk, hq, hpl, -⟩ := h.findOrCreate progr
  obtain ⟨hc', hk'⟩ := hc.newTask .suspended id progr 0 value
  obtain ⟨hc'', hk'', -⟩ := hc'.wakeAndEnqueue hq hpl
  rw [Tasks.resumeTask]
  simp only [ensureUsage_enqueueBgTask]
  exact ⟨hc'', (hk.trans hk').trans hk''⟩

/-! ## Killing and resuming -/

/-- A task of the waiting list may be taken into transit. -/
theorem Core.ofWaiting {t : Task} {rest : List Task} (h : Core s tr)
    (hw : s.waitingTasks.Perm (t :: rest)) :
    Core { s with waitingTasks := rest } (t :: tr) where
  linked := h.linked
  fresh := h.fresh
  usageActive := h.usageActive
  usageIdle := h.usageIdle
  idleBg := h.idleBg
  owner := h.owner
  uids := h.uids
  uidsBelow := h.uidsBelow
  goneBelow := h.goneBelow
  accounted := by
    refine List.Perm.trans (List.Perm.map _ (List.Perm.append_right _ ?_)) h.accounted
    exact List.perm_middle.symm.trans (List.Perm.append_left tr hw.symm)

theorem Keeps.waiting (s : State) (ts : List Task) : Keeps s { s with waitingTasks := ts } :=
  ⟨rfl, fun _ h => h, fun _ h => h, fun _ _ => rfl⟩

theorem Keeps.kill (s : State) (u : List Nat) : Keeps s { s with killed := u } :=
  ⟨rfl, fun _ h => h, fun _ h => h, fun _ _ => rfl⟩

theorem SameTasks.setReading (s : State) (q : TqPtr) (b : Bool) :
    SameTasks s (s.modifyTq q fun tq => { tq with reading := b }) :=
  SameTasks.modifyTq s q rfl rfl rfl

theorem Core.killActive (h : Core s tr) (id : Int) (owner : Objid) (wizard : Bool)
    {qs : List TqPtr} (hqs : ∀ q ∈ qs, q ∈ s.activeTqueues) {e : Error} {s' : State}
    (hkill : killActive id owner wizard s qs = some (e, s')) : Core s' tr ∧ Keeps s s' := by
  induction qs with
  | nil => exact nomatch hkill
  | cons q qs ih =>
      have hq : q ∈ s.activeTqueues := hqs q List.mem_cons_self
      simp only [Tasks.killActive] at hkill
      split at hkill
      · -- the reader of this queue
        split at hkill
        · cases hkill
          exact ⟨h, Keeps.refl s⟩
        · cases hkill
          exact ⟨h.of_same (SameTasks.setReading s q false),
            Keeps.of_same (SameTasks.setReading s q false) rfl⟩
      · split at hkill
        next t rest hext =>
          -- a task of this queue
          split at hkill
          · cases hkill
            exact ⟨h, Keeps.refl s⟩
          · cases hkill
            have hperm := (extractFirst_spec hext).2
            have htake : Core (s.modifyTq q fun tq =>
                { tq with bg := rest, numBgTasks := tq.numBgTasks - 1 }) (t :: tr) := by
              refine h.setBg hq rfl rfl (fun t' ht' => ?_) (List.Perm.map _ ?_)
              · exact h.owner q hq t' (hperm.mem_iff.mpr (List.mem_cons_of_mem t ht'))
              · exact List.perm_middle.symm.trans (hperm.symm.append_left tr)
            exact ⟨htake.leave (.inr rfl), (Keeps.modifyTq s q rfl).trans (Keeps.kill _ _)⟩
        · exact ih (fun p hp => hqs p (List.mem_cons_of_mem q hp)) hkill

theorem Core.killTask (h : Core s tr) {id : Int} {owner : Objid} {wizard : Bool} {e : Error}
    {s' : State} (hkill : killTask id owner wizard s = some (e, s')) :
    Core s' tr ∧ Keeps s s' := by
  simp only [Tasks.killTask] at hkill
  split at hkill
  · cases hkill
    exact ⟨h, Keeps.refl s⟩
  · split at hkill
    next t rest hext =>
      split at hkill
      · cases hkill
        exact ⟨h, Keeps.refl s⟩
      · -- the queue's count of tasks goes down, if the owner still has a queue
        have hcount : ∀ s1 : State, (s1 = s ∨ ∃ q, s1 = s.modifyTq q fun tq =>
            { tq with numBgTasks := tq.numBgTasks - 1 }) →
            Core { s1 with waitingTasks := rest, killed := s1.killed ++ [t.uid] } tr ∧
            Keeps s { s1 with waitingTasks := rest, killed := s1.killed ++ [t.uid] } := by
          intro s1 hs1
          have hsame : SameTasks s s1 ∧ s1.control = s.control := by
            rcases hs1 with rfl | ⟨q, rfl⟩
            · exact ⟨SameTasks.refl _, rfl⟩
            · exact ⟨SameTasks.modifyTq s q rfl rfl rfl, rfl⟩
          have hc1 := h.of_same hsame.1
          have hw : s1.waitingTasks.Perm (t :: rest) := by
            rw [hsame.1.waiting]
            exact (extractFirst_spec hext).2
          exact ⟨(hc1.ofWaiting hw).leave (.inr rfl),
            ((Keeps.of_same hsame.1 hsame.2).trans (Keeps.waiting s1 rest)).trans
              (Keeps.kill _ _)⟩
        cases hkill
        split
        next q _ => exact hcount _ (.inr ⟨q, rfl⟩)
        next => exact hcount _ (.inl rfl)
    next =>
      split at hkill
      next q _ =>
        split at hkill
        · cases hkill
          exact ⟨h, Keeps.refl s⟩
        · cases hkill
          exact ⟨h.of_same (SameTasks.setReading s q false),
            Keeps.of_same (SameTasks.setReading s q false) rfl⟩
      next => exact h.killActive id owner wizard (fun q hq => hq) hkill

/-- Giving a queued task a value does not change who it is. -/
theorem map_key_modify (ts : List Task) (i : Nat) (value : Var) :
    (ts.modify i fun t => { t with value }).map Task.key = ts.map Task.key := by
  induction ts generalizing i with
  | nil => cases i <;> rfl
  | cons t ts ih =>
      cases i with
      | zero => rfl
      | succ i =>
          rw [List.modify_succ_cons, List.map_cons, List.map_cons, ih]

theorem Core.resumeActive (h : Core s tr) (id : Int) (value : Var) (progr : Objid)
    (wizard : Bool) {qs : List TqPtr} (hqs : ∀ q ∈ qs, q ∈ s.activeTqueues) :
    Core (resumeActive id value progr wizard s qs).2 tr ∧
      Keeps s (resumeActive id value progr wizard s qs).2 := by
  induction qs with
  | nil => exact ⟨h, Keeps.refl s⟩
  | cons q qs ih =>
      have hq : q ∈ s.activeTqueues := hqs q List.mem_cons_self
      simp only [Tasks.resumeActive]
      split
      · split
        · exact ⟨h, Keeps.refl s⟩
        · dsimp only
          refine ⟨h.setBg hq rfl rfl ?_ ?_, Keeps.modifyTq s q rfl⟩
          · intro t ht
            have hkey : t.key ∈ _ := List.mem_map_of_mem ht
            rw [map_key_modify] at hkey
            obtain ⟨t', ht', heq⟩ := List.mem_map.mp hkey
            have howner := h.owner q hq t' ht'
            exact (congrArg Handed.progr heq).symm.trans howner
          · rw [List.map_append, List.map_append, map_key_modify]
      · exact ih fun p hp => hqs p (List.mem_cons_of_mem q hp)

theorem Core.doResume (h : Core s tr) (id : Int) (value : Var) (progr : Objid)
    (wizard : Bool) :
    Core (doResume id value progr wizard s).2 tr ∧
      Keeps s (doResume id value progr wizard s).2 := by
  simp only [Tasks.doResume]
  split
  next t rest hext =>
    split
    · exact ⟨h, Keeps.refl s⟩
    · obtain ⟨hc, hk, hq, hpl, hwait, -⟩ := h.findOrCreate t.progr
      have hw : (findOrCreateTqueue t.progr s).2.waitingTasks.Perm (t :: rest) := by
        rw [hwait]
        exact (extractFirst_spec hext).2
      have hc' := hc.ofWaiting hw
      -- the resumed task starts at once and with a value, and is still who it was
      have hc'' : Core { (findOrCreateTqueue t.progr s).2 with waitingTasks := rest }
          ({ t with startTime := 0, value } :: tr) := { hc' with accounted := hc'.accounted }
      obtain ⟨hd, hkd, -⟩ := hc''.wakeAndEnqueue hq hpl
      exact ⟨hd, (hk.trans (Keeps.waiting _ rest)).trans hkd⟩
  next => exact h.resumeActive id value progr wizard fun q hq => hq

/-! ## Input and connections -/

theorem SameTasks.dequeueInputTask {q : TqPtr} {how : DequeueHow} {t : InputTask} {s' : State}
    (hd : dequeueInputTask q how s = some (t, s')) :
    SameTasks s s' ∧ s'.control = s.control := by
  simp only [Tasks.dequeueInputTask] at hd
  split at hd
  · exact nomatch hd
  · split at hd
    · exact nomatch hd
    · cases hd
      exact ⟨SameTasks.modifyTq s q rfl rfl rfl, rfl⟩

theorem SameTasks.flushInput (q : TqPtr) (n : Nat) (s : State) :
    SameTasks s (flushInput q n s) ∧ (flushInput q n s).control = s.control := by
  induction n generalizing s with
  | zero => exact ⟨SameTasks.refl s, rfl⟩
  | succ n ih =>
      simp only [Tasks.flushInput]
      split
      next t s' hd =>
        obtain ⟨hs, hc⟩ := SameTasks.dequeueInputTask hd
        obtain ⟨hs', hc'⟩ := ih s'
        exact ⟨hs.trans hs', hc'.trans hc⟩
      next => exact ⟨SameTasks.refl s, rfl⟩

/-- `ensure_usage` on a linked queue, when a condition holds. -/
theorem Core.ensureUsageIf (h : Core s tr) {q : TqPtr} (b : Bool)
    (hq : q ∈ s.activeTqueues ++ s.idleTqueues) :
    Core (if b then Tasks.ensureUsage q s else s) tr ∧
      Keeps s (if b then Tasks.ensureUsage q s else s) := by
  cases b with
  | false => exact ⟨h, Keeps.refl s⟩
  | true =>
      obtain ⟨hc, hk, -⟩ := h.ensureUsage hq
      exact ⟨hc, hk⟩

/-- A store that leaves the tasks alone and then `ensure_usage`, under a condition. -/
theorem Core.storeAndWake (h : Core s tr) {q : TqPtr} {f : TQueue → TQueue} (b : Bool)
    (hbg : (f (s.tqs q)).bg = (s.tqs q).bg) (hpl : (f (s.tqs q)).player = (s.tqs q).player)
    (hus : (f (s.tqs q)).usage = (s.tqs q).usage)
    (hq : q ∈ s.activeTqueues ++ s.idleTqueues) :
    Core (if b then Tasks.ensureUsage q (s.modifyTq q f) else s.modifyTq q f) tr ∧
      Keeps s (if b then Tasks.ensureUsage q (s.modifyTq q f) else s.modifyTq q f) := by
  have hsame : SameTasks s (s.modifyTq q f) := SameTasks.modifyTq s q hbg hpl hus
  obtain ⟨hc, hk⟩ := (h.of_same hsame).ensureUsageIf b hq
  exact ⟨hc, (Keeps.of_same hsame rfl).trans hk⟩

theorem Core.enqueueInputTask (h : Core s tr) {q : TqPtr} (input : Str) (atFront binary : Bool)
    (hq : q ∈ s.activeTqueues ++ s.idleTqueues) :
    Core (enqueueInputTask q input atFront binary s) tr ∧
      Keeps s (enqueueInputTask q input atFront binary s) := by
  simp only [Tasks.enqueueInputTask]
  obtain ⟨hc, hk⟩ := h.storeAndWake (f := fun tq =>
    { tq with
      input := if atFront then ⟨inputKind input binary, input⟩ :: tq.input
        else tq.input ++ [⟨inputKind input binary, input⟩]
      totalInputLength := tq.totalInputLength + input.length }) _ rfl rfl rfl hq
  have hsame := fun s' : State => SameTasks.modifyTq s' q (f := fun tq => { tq with
    inputSuspended := tq.inputSuspended || (tq.connected && inputHiwat < tq.totalInputLength) })
    rfl rfl rfl
  exact ⟨hc.of_same (hsame _), hk.trans (Keeps.of_same (hsame _) rfl)⟩

theorem Core.flushAll (h : Core s tr) (q : TqPtr) :
    Core (flushAll q s) tr ∧ Keeps s (flushAll q s) := by
  obtain ⟨hs, hc⟩ := SameTasks.flushInput q (s.tqs q).input.length s
  exact ⟨h.of_same hs, Keeps.of_same hs hc⟩

theorem Core.newInputTask (h : Core s tr) {q : TqPtr} (input : Str) (binary isFlush : Bool)
    (hq : q ∈ s.activeTqueues ++ s.idleTqueues) :
    Core (newInputTask q input binary isFlush s) tr ∧
      Keeps s (newInputTask q input binary isFlush s) := by
  rw [Tasks.newInputTask]
  split
  · exact h.flushAll q
  · exact h.enqueueInputTask input false binary hq

theorem Core.makeReadingTask (h : Core s tr) (player : Objid) (vm : Int) :
    Core (makeReadingTask player vm s).2 tr ∧ Keeps s (makeReadingTask player vm s).2 := by
  simp only [Tasks.makeReadingTask]
  split
  · exact ⟨h, Keeps.refl s⟩
  next q hfind =>
    split
    · exact ⟨h, Keeps.refl s⟩
    · have hq := (mem_of_findTqueue hfind).1
      have hwake := h.storeAndWake (q := q)
        (f := fun tq => { tq with reading := true, readingVm := vm })
        (!(s.tqs q).input.isEmpty) rfl rfl rfl hq
      cases hemp : (s.tqs q).input.isEmpty <;> simp only [hemp] at hwake ⊢ <;> exact hwake

theorem Core.readInputNow (h : Core s tr) (player : Objid) :
    Core (readInputNow player s).2 tr ∧ Keeps s (readInputNow player s).2 := by
  simp only [Tasks.readInputNow]
  split
  · exact ⟨h, Keeps.refl s⟩
  · split
    · exact ⟨h, Keeps.refl s⟩
    · split
      · exact ⟨h, Keeps.refl s⟩
      next t s' hd =>
        obtain ⟨hsame, hc⟩ := SameTasks.dequeueInputTask hd
        exact ⟨h.of_same hsame, Keeps.of_same hsame hc⟩

theorem Core.taskSuspendInput (h : Core s tr) (q : TqPtr) :
    Core (taskSuspendInput q s) tr ∧ Keeps s (taskSuspendInput q s) :=
  ⟨h.of_same (SameTasks.modifyTq s q rfl rfl rfl), Keeps.modifyTq s q rfl⟩

theorem Core.newTaskQueue (h : Core s tr) (player handler : Objid) :
    Core (newTaskQueue player handler s).2 tr ∧ Keeps s (newTaskQueue player handler s).2 := by
  obtain ⟨hc, hk, -⟩ := h.findOrCreate player
  have hsame : SameTasks (findOrCreateTqueue player s).2 (Tasks.newTaskQueue player handler s).2 := by
    simp only [Tasks.newTaskQueue]
    exact SameTasks.modifyTq _ _ rfl rfl rfl
  exact ⟨hc.of_same hsame, hk.trans (Keeps.of_same hsame rfl)⟩

theorem Core.freeTaskQueue (h : Core s tr) {q : TqPtr}
    (hq : q ∈ s.activeTqueues ++ s.idleTqueues) :
    Core (freeTaskQueue q s) tr ∧ Keeps s (freeTaskQueue q s) :=
  h.storeAndWake _ rfl rfl rfl hq

theorem Core.setHoldInput (h : Core s tr) {q : TqPtr} (value : Bool)
    (hq : q ∈ s.activeTqueues ++ s.idleTqueues) :
    Core (setHoldInput q value s) tr ∧ Keeps s (setHoldInput q value s) :=
  h.storeAndWake _ rfl rfl rfl hq

theorem Core.setDisableOob (h : Core s tr) {q : TqPtr} (value : Bool)
    (hq : q ∈ s.activeTqueues ++ s.idleTqueues) :
    Core (setDisableOob q value s) tr ∧ Keeps s (setDisableOob q value s) :=
  h.storeAndWake _ rfl rfl rfl hq

end Waverous.Tasks
