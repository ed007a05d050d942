import Mathlib.Data.List.Perm.Basic
import Mathlib.Data.List.Nodup
import Waverous.Lib.Runs
import Waverous.Tasks

/-! # Where background tasks are — `tasks.c`

    The invariant of the task module behind background task placement, and its
    preservation by every call.  `Core s transit` says where the tasks are:
    linked queues are linked once, idle queues hold no background task, the
    tasks on an active queue belong to its player, and the waiting list, the
    active queues and the tasks in `transit` (taken from one list and not yet put
    on the next) are together exactly the pending tasks.  `Serving s` says that
    the queue being served is the first of the active ones. -/

namespace Waverous.Tasks

/-- Who a queued task is. -/
def Task.key (t : Task) : Handed := ⟨t.uid, t.progr⟩

/-- The tasks handed to the queues that have neither started nor been killed. -/
def State.pending (s : State) : List Handed :=
  s.handed.filter fun h => h.uid ∉ s.started ∧ h.uid ∉ s.killed

/-- The background tasks of the queues in a list. -/
def State.bgOf (s : State) (qs : List TqPtr) : List Task := qs.flatMap fun q => (s.tqs q).bg

/-- Where the background tasks are; `transit` has left one list for another. -/
structure Core (s : State) (transit : List Task) : Prop where
  linked : (s.activeTqueues ++ s.idleTqueues).Nodup
  fresh : ∀ q ∈ s.activeTqueues ++ s.idleTqueues, q < s.nextTq
  usageActive : ∀ q ∈ s.activeTqueues, 0 ≤ (s.tqs q).usage
  usageIdle : ∀ q ∈ s.idleTqueues, (s.tqs q).usage = noUsage
  idleBg : ∀ q ∈ s.idleTqueues, (s.tqs q).bg = []
  owner : ∀ q ∈ s.activeTqueues, ∀ t ∈ (s.tqs q).bg, t.progr = (s.tqs q).player
  uids : (s.handed.map Handed.uid).Nodup
  uidsBelow : ∀ h ∈ s.handed, h.uid < s.nextUid
  goneBelow : ∀ u ∈ s.started ++ s.killed, u < s.nextUid
  accounted :
    ((transit ++ s.waitingTasks ++ s.bgOf s.activeTqueues).map Task.key).Perm s.pending

/-- The queue being served is the first active one; one that is logging in has
    no player yet. -/
def Serving (s : State) : Prop :=
  ∀ q w, s.control = .running q w →
    s.activeTqueues.head? = some q ∧ (w = .login → (s.tqs q).player < 0)

/-- What the calls of running MOO code leave alone. -/
structure Keeps (s s' : State) : Prop where
  control : s'.control = s.control
  head : ∀ q, s.activeTqueues.head? = some q → s'.activeTqueues.head? = some q
  active : ∀ q ∈ s.activeTqueues, q ∈ s'.activeTqueues
  player : ∀ q ∈ s.activeTqueues, (s'.tqs q).player = (s.tqs q).player

theorem Keeps.refl (s : State) : Keeps s s :=
  ⟨rfl, fun _ h => h, fun _ h => h, fun _ _ => rfl⟩

theorem Keeps.trans {s s' s'' : State} (h1 : Keeps s s') (h2 : Keeps s' s'') : Keeps s s'' where
  control := h2.control.trans h1.control
  head := fun q h => h2.head q (h1.head q h)
  active := fun q h => h2.active q (h1.active q h)
  player := fun q h => (h2.player q (h1.active q h)).trans (h1.player q h)

theorem Serving.of_keeps {s s' : State} (hs : Serving s) (hk : Keeps s s') : Serving s' := by
  intro q w hc
  rw [hk.control] at hc
  obtain ⟨hhead, hlogin⟩ := hs q w hc
  have hq : q ∈ s.activeTqueues := List.mem_of_mem_head? hhead
  refine ⟨hk.head q hhead, fun hw => ?_⟩
  rw [hk.player q hq]
  exact hlogin hw

/-! ## Lists -/

theorem insertByUsage_perm (tqs : TqPtr → TQueue) (q : TqPtr) (qs : List TqPtr) :
    (insertByUsage tqs q qs).Perm (q :: qs) := by
  induction qs with
  | nil => exact List.Perm.refl _
  | cons p ps ih =>
      simp only [insertByUsage]
      split
      · exact (ih.cons p).trans (List.Perm.swap q p ps)
      · exact List.Perm.refl _

theorem insertWaiting_perm (t : Task) (ts : List Task) : (insertWaiting t ts).Perm (t :: ts) := by
  induction ts with
  | nil => exact List.Perm.refl _
  | cons h rest ih =>
      simp only [insertWaiting]
      split
      · exact List.Perm.refl _
      · exact (ih.cons h).trans (List.Perm.swap t h rest)

theorem extractFirst_spec {α : Type*} {p : α → Bool} {l : List α} {t : α} {rest : List α}
    (h : extractFirst p l = some (t, rest)) : p t = true ∧ l.Perm (t :: rest) := by
  induction l generalizing rest with
  | nil => exact nomatch h
  | cons a l ih =>
      simp only [extractFirst] at h
      split at h
      next hp =>
          cases h
          exact ⟨hp, List.Perm.refl _⟩
      next hp =>
          cases he : extractFirst p l with
          | none => rw [he] at h; exact nomatch h
          | some x =>
              obtain ⟨t', rest'⟩ := x
              rw [he] at h
              cases h
              obtain ⟨hpt, hperm⟩ := ih he
              exact ⟨hpt, (hperm.cons a).trans (List.Perm.swap _ _ _)⟩

/-- Changing what one member of a duplicate-free list contributes changes the
    whole by just that. -/
theorem flatMap_perm_of_mem {α β : Type*} {l : List α} {q : α} {f g : α → List β}
    {xs ys : List β} (hnd : l.Nodup) (hq : q ∈ l) (hne : ∀ p ∈ l, p ≠ q → f p = g p)
    (hperm : (xs ++ f q).Perm (ys ++ g q)) :
    (xs ++ l.flatMap f).Perm (ys ++ l.flatMap g) := by
  obtain ⟨l1, l2, rfl⟩ := List.append_of_mem hq
  have hq1 : ∀ p ∈ l1, p ≠ q := by
    rintro p hp rfl
    exact (List.nodup_append.mp hnd).2.2 p hp p (List.mem_cons_self) rfl
  have hq2 : ∀ p ∈ l2, p ≠ q := by
    rintro p hp rfl
    exact (List.nodup_cons.mp (List.nodup_append.mp hnd).2.1).1 hp
  have h1 : l1.flatMap f = l1.flatMap g :=
    List.flatMap_congr fun p hp => hne p (by simp [hp]) (hq1 p hp)
  have h2 : l2.flatMap f = l2.flatMap g :=
    List.flatMap_congr fun p hp => hne p (by simp [hp]) (hq2 p hp)
  simp only [List.flatMap_append, List.flatMap_cons, h1, h2]
  have hshuffle : ∀ zs : List β, ∀ w : List β,
      (zs ++ (l1.flatMap g ++ (w ++ l2.flatMap g))).Perm
        ((zs ++ w) ++ (l1.flatMap g ++ l2.flatMap g)) := by
    intro zs w
    rw [List.append_assoc]
    refine List.Perm.append_left zs ?_
    rw [← List.append_assoc, ← List.append_assoc]
    exact List.Perm.append_right _ List.perm_append_comm
  exact (hshuffle xs (f q)).trans ((hperm.append_right _).trans (hshuffle ys (g q)).symm)

/-! ## Stores into a queue -/

@[simp] theorem modifyTq_tqs_self (s : State) (q : TqPtr) (f : TQueue → TQueue) :
    (s.modifyTq q f).tqs q = f (s.tqs q) := by simp [State.modifyTq]

theorem modifyTq_tqs_ne (s : State) {q p : TqPtr} (f : TQueue → TQueue) (h : p ≠ q) :
    (s.modifyTq q f).tqs p = s.tqs p := by simp [State.modifyTq, h]

/-- A field that a store keeps is the same on every queue. -/
theorem modifyTq_field {β : Type*} (s : State) (q p : TqPtr) (f : TQueue → TQueue)
    (g : TQueue → β) (h : g (f (s.tqs q)) = g (s.tqs q)) :
    g ((s.modifyTq q f).tqs p) = g (s.tqs p) := by
  by_cases hp : p = q
  · rw [hp, modifyTq_tqs_self, h]
  · rw [modifyTq_tqs_ne s f hp]

variable {s : State} {tr : List Task}

/-- The two states have the same queues, with the same background tasks, players
    and usage, the same waiting list and the same history. -/
structure SameTasks (s s' : State) : Prop where
  active : s'.activeTqueues = s.activeTqueues
  idle : s'.idleTqueues = s.idleTqueues
  waiting : s'.waitingTasks = s.waitingTasks
  nextTq : s'.nextTq = s.nextTq
  nextUid : s'.nextUid = s.nextUid
  handed : s'.handed = s.handed
  started : s'.started = s.started
  killed : s'.killed = s.killed
  bg : ∀ p, (s'.tqs p).bg = (s.tqs p).bg
  player : ∀ p, (s'.tqs p).player = (s.tqs p).player
  usage : ∀ p, (s'.tqs p).usage = (s.tqs p).usage

theorem SameTasks.refl (s : State) : SameTasks s s :=
  ⟨rfl, rfl, rfl, rfl, rfl, rfl, rfl, rfl, fun _ => rfl, fun _ => rfl, fun _ => rfl⟩

theorem SameTasks.trans {s s' s'' : State} (h1 : SameTasks s s') (h2 : SameTasks s' s'') :
    SameTasks s s'' :=
  ⟨h2.active.trans h1.active, h2.idle.trans h1.idle, h2.waiting.trans h1.waiting,
    h2.nextTq.trans h1.nextTq, h2.nextUid.trans h1.nextUid,
    h2.handed.trans h1.handed, h2.started.trans h1.started, h2.killed.trans h1.killed,
    fun p => (h2.bg p).trans (h1.bg p), fun p => (h2.player p).trans (h1.player p),
    fun p => (h2.usage p).trans (h1.usage p)⟩

/-- A store that leaves tasks, player and usage of the queue alone. -/
theorem SameTasks.modifyTq (s : State) (q : TqPtr) {f : TQueue → TQueue}
    (hbg : (f (s.tqs q)).bg = (s.tqs q).bg) (hpl : (f (s.tqs q)).player = (s.tqs q).player)
    (hus : (f (s.tqs q)).usage = (s.tqs q).usage) : SameTasks s (s.modifyTq q f) :=
  ⟨rfl, rfl, rfl, rfl, rfl, rfl, rfl, rfl,
    fun p => modifyTq_field s q p f TQueue.bg hbg,
    fun p => modifyTq_field s q p f TQueue.player hpl,
    fun p => modifyTq_field s q p f TQueue.usage hus⟩

theorem Core.of_same {s' : State} (h : Core s tr) (hs : SameTasks s s') : Core s' tr where
  linked := by rw [hs.active, hs.idle]; exact h.linked
  fresh := by rw [hs.active, hs.idle, hs.nextTq]; exact h.fresh
  usageActive := fun p hp => by
    rw [hs.usage]; exact h.usageActive p (hs.active ▸ hp)
  usageIdle := fun p hp => by rw [hs.usage]; exact h.usageIdle p (hs.idle ▸ hp)
  idleBg := fun p hp => by rw [hs.bg]; exact h.idleBg p (hs.idle ▸ hp)
  owner := fun p hp t ht => by
    rw [hs.player]; rw [hs.bg] at ht; exact h.owner p (hs.active ▸ hp) t ht
  uids := by rw [hs.handed]; exact h.uids
  uidsBelow := by rw [hs.handed, hs.nextUid]; exact h.uidsBelow
  goneBelow := by rw [hs.started, hs.killed, hs.nextUid]; exact h.goneBelow
  accounted := by
    have hbg : s'.bgOf s'.activeTqueues = s.bgOf s.activeTqueues := by
      rw [hs.active]
      exact List.flatMap_congr fun p _ => hs.bg p
    have hpend : s'.pending = s.pending := by
      simp only [State.pending, hs.handed, hs.started, hs.killed]
    rw [hbg, hpend, hs.waiting]
    exact h.accounted

theorem Keeps.of_same {s' : State} (hs : SameTasks s s') (hc : s'.control = s.control) :
    Keeps s s' :=
  ⟨hc, fun q hq => by rw [hs.active]; exact hq,
    fun q hq => by rw [hs.active]; exact hq, fun q _ => hs.player q⟩

theorem Keeps.modifyTq (s : State) (q : TqPtr) {f : TQueue → TQueue}
    (hpl : (f (s.tqs q)).player = (s.tqs q).player) : Keeps s (s.modifyTq q f) :=
  ⟨rfl, fun _ h => h, fun _ h => h, fun p _ => modifyTq_field s q p f TQueue.player hpl⟩

/-- The order of the active queues does not matter to where the tasks are. -/
theorem Core.perm_active (h : Core s tr) {l : List TqPtr} (hl : l.Perm s.activeTqueues) :
    Core { s with activeTqueues := l } tr where
  linked := (hl.append_right _).nodup_iff.mpr h.linked
  fresh := fun q hq => h.fresh q ((hl.append_right _).mem_iff.mp hq)
  usageActive := fun q hq => h.usageActive q (hl.mem_iff.mp hq)
  usageIdle := h.usageIdle
  idleBg := h.idleBg
  owner := fun q hq => h.owner q (hl.mem_iff.mp hq)
  uids := h.uids
  uidsBelow := h.uidsBelow
  goneBelow := h.goneBelow
  accounted := by
    refine List.Perm.trans (List.Perm.map _ ?_) h.accounted
    exact List.Perm.append_left _ (List.Perm.flatMap_right _ hl)

/-- Activating an idle queue. -/
theorem Core.activate (h : Core s tr) {q : TqPtr} (hq : q ∈ s.idleTqueues) {u : Int}
    (hu : 0 ≤ u) :
    Core (activateTqueue q
      { s.modifyTq q (fun tq => { tq with usage := u }) with
        idleTqueues := s.idleTqueues.erase q }) tr := by
  have hqa : q ∉ s.activeTqueues := fun hmem =>
    (List.nodup_append.mp h.linked).2.2 q hmem q hq rfl
  have hne : ∀ p ∈ s.activeTqueues, p ≠ q := by rintro p hp rfl; exact hqa hp
  have hnodupIdle : s.idleTqueues.Nodup := (List.nodup_append.mp h.linked).2.1
  have hperm := insertByUsage_perm (s.modifyTq q fun tq => { tq with usage := u }).tqs q
    s.activeTqueues
  -- the two lists together hold the queues they held before
  have hlists : (insertByUsage (s.modifyTq q fun tq => { tq with usage := u }).tqs q
      s.activeTqueues ++ s.idleTqueues.erase q).Perm (s.activeTqueues ++ s.idleTqueues) := by
    refine (hperm.append_right _).trans ?_
    refine List.Perm.trans ?_ (List.Perm.append_left _ (List.perm_cons_erase hq).symm)
    exact List.perm_middle.symm
  have hbg : ∀ p, ((s.modifyTq q fun tq => { tq with usage := u }).tqs p).bg = (s.tqs p).bg :=
    fun p => modifyTq_field s q p _ TQueue.bg rfl
  have hpl : ∀ p, ((s.modifyTq q fun tq => { tq with usage := u }).tqs p).player
      = (s.tqs p).player := fun p => modifyTq_field s q p _ TQueue.player rfl
  exact
    { linked := hlists.nodup_iff.mpr h.linked
      fresh := fun p hp => h.fresh p (hlists.mem_iff.mp hp)
      usageActive := by
        intro p hp
        show 0 ≤ ((s.modifyTq q fun tq => { tq with usage := u }).tqs p).usage
        rcases List.mem_cons.mp (hperm.mem_iff.mp hp) with rfl | hp
        · rw [modifyTq_tqs_self]; exact hu
        · rw [modifyTq_tqs_ne s _ (hne p hp)]; exact h.usageActive p hp
      usageIdle := by
        intro p hp
        show ((s.modifyTq q fun tq => { tq with usage := u }).tqs p).usage = noUsage
        have hpq := (hnodupIdle.mem_erase_iff.mp hp)
        rw [modifyTq_tqs_ne s _ hpq.1]
        exact h.usageIdle p hpq.2
      idleBg := by
        intro p hp
        show ((s.modifyTq q fun tq => { tq with usage := u }).tqs p).bg = []
        rw [hbg]
        exact h.idleBg p (List.mem_of_mem_erase hp)
      owner := by
        intro p hp t ht
        show t.progr = ((s.modifyTq q fun tq => { tq with usage := u }).tqs p).player
        have ht' : t ∈ (s.tqs p).bg := by rw [← hbg p]; exact ht
        rw [hpl]
        rcases List.mem_cons.mp (hperm.mem_iff.mp hp) with rfl | hp
        · rw [h.idleBg _ hq] at ht'; exact absurd ht' List.not_mem_nil
        · exact h.owner p hp t ht'
      uids := h.uids
      uidsBelow := h.uidsBelow
      goneBelow := h.goneBelow
      accounted := by
        refine List.Perm.trans (List.Perm.map _ (List.Perm.append_left _ ?_)) h.accounted
        -- the activated queue brings no task along
        refine (List.Perm.flatMap_right _ hperm).trans ?_
        rw [List.flatMap_cons]
        have hq0 : ((s.modifyTq q fun tq => { tq with usage := u }).tqs q).bg = [] := by
          rw [hbg]; exact h.idleBg q hq
        refine List.Perm.of_eq ?_
        show ((s.modifyTq q fun tq => { tq with usage := u }).tqs q).bg ++ _ = _
        rw [hq0, List.nil_append]
        exact List.flatMap_congr fun p _ => hbg p }

/-! ## Finding and waking queues -/

theorem insertByUsage_head {tqs : TqPtr → TQueue} {q p : TqPtr} {ps : List TqPtr}
    (h : (tqs p).usage ≤ (tqs q).usage) : (insertByUsage tqs q (p :: ps)).head? = some p := by
  rw [insertByUsage, if_pos h]
  rfl

/-- `ensure_usage` leaves a linked queue active. -/
theorem Core.ensureUsage (h : Core s tr) {q : TqPtr}
    (hq : q ∈ s.activeTqueues ++ s.idleTqueues) :
    Core (ensureUsage q s) tr ∧ Keeps s (ensureUsage q s) ∧
      q ∈ (ensureUsage q s).activeTqueues ∧
      (∀ p, ((Tasks.ensureUsage q s).tqs p).bg = (s.tqs p).bg ∧
        ((Tasks.ensureUsage q s).tqs p).player = (s.tqs p).player) ∧
      (Tasks.ensureUsage q s).waitingTasks = s.waitingTasks := by
  by_cases hu : (s.tqs q).usage = noUsage
  · have hqi : q ∈ s.idleTqueues := by
      rcases List.mem_append.mp hq with hqa | hqi
      · have := h.usageActive q hqa
        rw [hu] at this
        exact absurd this (by decide)
      · exact hqi
    have hne : ∀ p ∈ s.activeTqueues, p ≠ q := by
      rintro p hp rfl
      exact (List.nodup_append.mp h.linked).2.2 p hp p hqi rfl
    -- the usage given to the woken queue is that of the first active one
    obtain ⟨u, hdef, hu0, hhead⟩ : ∃ u,
        Tasks.ensureUsage q s = activateTqueue q
          { s.modifyTq q (fun tq => { tq with usage := u }) with
            idleTqueues := s.idleTqueues.erase q } ∧
        0 ≤ u ∧ ∀ p, s.activeTqueues.head? = some p → (s.tqs p).usage = u := by
      cases hact : s.activeTqueues with
      | nil =>
          refine ⟨0, ?_, Int.le_refl _, fun p hp => nomatch hp⟩
          simp only [Tasks.ensureUsage, if_pos hu, hact, State.modifyTq]
      | cons p ps =>
          refine ⟨(s.tqs p).usage, ?_, h.usageActive p (by simp [hact]), ?_⟩
          · simp only [Tasks.ensureUsage, if_pos hu, hact, State.modifyTq]
          · intro p' hp'
            cases hp'
            rfl
    rw [hdef]
    have hperm := insertByUsage_perm (s.modifyTq q fun tq => { tq with usage := u }).tqs q
      s.activeTqueues
    refine ⟨h.activate hqi hu0, ⟨rfl, ?_, ?_, ?_⟩, ?_, ?_, rfl⟩
    · intro p hp
      obtain ⟨ps, hps⟩ : ∃ ps, s.activeTqueues = p :: ps := by
        cases hact : s.activeTqueues with
        | nil => rw [hact] at hp; exact nomatch hp
        | cons p' ps => rw [hact] at hp; cases hp; exact ⟨ps, rfl⟩
      show (insertByUsage _ q s.activeTqueues).head? = some p
      have hpq : p ≠ q := hne p (by simp [hps])
      rw [hps]
      refine insertByUsage_head ?_
      show ((s.modifyTq q fun tq => { tq with usage := u }).tqs p).usage
        ≤ ((s.modifyTq q fun tq => { tq with usage := u }).tqs q).usage
      rw [modifyTq_tqs_ne s _ hpq, modifyTq_tqs_self]
      exact Int.le_of_eq (hhead p hp)
    · intro p hp
      exact hperm.mem_iff.mpr (List.mem_cons_of_mem q hp)
    · intro p hp
      exact modifyTq_field s q p (fun tq => { tq with usage := u }) TQueue.player rfl
    · exact hperm.mem_iff.mpr List.mem_cons_self
    · intro p
      exact ⟨modifyTq_field s q p (fun tq => { tq with usage := u }) TQueue.bg rfl,
        modifyTq_field s q p (fun tq => { tq with usage := u }) TQueue.player rfl⟩
  · have hqa : q ∈ s.activeTqueues := by
      rcases List.mem_append.mp hq with hqa | hqi
      · exact hqa
      · exact absurd (h.usageIdle q hqi) hu
    rw [show Tasks.ensureUsage q s = s from by rw [Tasks.ensureUsage, if_neg hu]]
    exact ⟨h, Keeps.refl s, hqa, fun _ => ⟨rfl, rfl⟩, rfl⟩

theorem mem_of_findTqueue {player : Objid} {q : TqPtr} (h : findTqueue player s = some q) :
    q ∈ s.activeTqueues ++ s.idleTqueues ∧ (s.tqs q).player = player :=
  ⟨List.mem_of_find?_eq_some h, by simpa using List.find?_some h⟩

/-- `find_tqueue(player, 1)` gives a linked queue of the player. -/
theorem Core.findOrCreate (h : Core s tr) (player : Objid) :
    let r := findOrCreateTqueue player s
    Core r.2 tr ∧ Keeps s r.2 ∧ r.1 ∈ r.2.activeTqueues ++ r.2.idleTqueues ∧
      (r.2.tqs r.1).player = player ∧ r.2.waitingTasks = s.waitingTasks ∧
      r.2.activeTqueues = s.activeTqueues ∧
      (∀ p ∈ s.activeTqueues ++ s.idleTqueues, r.2.tqs p = s.tqs p) := by
  intro r
  cases hfind : findTqueue player s with
  | some q =>
      have hr : r = (q, s) := by simp only [r, findOrCreateTqueue, hfind]
      obtain ⟨hmem, hpl⟩ := mem_of_findTqueue hfind
      rw [hr]
      exact ⟨h, Keeps.refl s, hmem, hpl, rfl, rfl, fun _ _ => rfl⟩
  | none =>
      -- a new queue, linked on the idle list at an address no linked queue has
      let tqs' := Function.update
        (Function.update s.tqs s.nextTq { player }) s.nextTq { player }
      have hr : r = (s.nextTq,
          { s with nextTq := s.nextTq + 1, tqs := tqs',
                   idleTqueues := s.nextTq :: s.idleTqueues }) := by
        simp only [r, findOrCreateTqueue, hfind, deactivateTqueue, State.modifyTq,
          Function.update_self, tqs', noUsage]
      have hnew : ∀ p ∈ s.activeTqueues ++ s.idleTqueues, p ≠ s.nextTq := fun p hp =>
        Nat.ne_of_lt (h.fresh p hp)
      have hold : ∀ p ∈ s.activeTqueues ++ s.idleTqueues, tqs' p = s.tqs p := by
        intro p hp
        have := hnew p hp
        simp [tqs', this]
      have hself : tqs' s.nextTq = { player } := by simp [tqs']
      have hactive : ∀ p ∈ s.activeTqueues, tqs' p = s.tqs p :=
        fun p hp => hold p (List.mem_append_left _ hp)
      have hidle : ∀ p ∈ s.idleTqueues, tqs' p = s.tqs p :=
        fun p hp => hold p (List.mem_append_right _ hp)
      rw [hr]
      refine ⟨?_, ⟨rfl, fun _ hp => hp, fun _ hp => hp, fun p hp => ?_⟩, ?_, ?_, rfl, rfl, hold⟩
      · exact
          { linked := by
              refine (List.perm_middle).nodup_iff.mpr (List.nodup_cons.mpr ⟨?_, h.linked⟩)
              intro hmem
              exact hnew _ hmem rfl
            fresh := by
              intro p hp
              show p < s.nextTq + 1
              rcases List.mem_cons.mp (List.perm_middle.mem_iff.mp hp) with rfl | hp
              · exact Nat.lt_succ_self _
              · exact Nat.lt_succ_of_lt (h.fresh p hp)
            usageActive := fun p hp => by
              show 0 ≤ (tqs' p).usage
              rw [hactive p hp]; exact h.usageActive p hp
            usageIdle := by
              intro p hp
              show (tqs' p).usage = noUsage
              rcases List.mem_cons.mp hp with rfl | hp
              · rw [hself]
              · rw [hidle p hp]; exact h.usageIdle p hp
            idleBg := by
              intro p hp
              show (tqs' p).bg = []
              rcases List.mem_cons.mp hp with rfl | hp
              · rw [hself]
              · rw [hidle p hp]; exact h.idleBg p hp
            owner := by
              intro p hp t ht
              show t.progr = (tqs' p).player
              have ht' : t ∈ (tqs' p).bg := ht
              rw [hactive p hp] at ht' ⊢
              exact h.owner p hp t ht'
            uids := h.uids
            uidsBelow := h.uidsBelow
            goneBelow := h.goneBelow
            accounted := by
              refine List.Perm.trans (List.Perm.of_eq ?_) h.accounted
              refine congrArg (List.map Task.key) (congrArg _ ?_)
              exact List.flatMap_congr fun p hp => by
                show (tqs' p).bg = _
                rw [hactive p hp] }
      · show (tqs' p).player = _
        rw [hactive p hp]
      · simp
      · show (tqs' s.nextTq).player = player
        rw [hself]

/-! ## Moving tasks -/

/-- Changing the background list of an active queue, against the tasks in transit. -/
theorem Core.setBg (h : Core s tr) {q : TqPtr} (hq : q ∈ s.activeTqueues) {f : TQueue → TQueue}
    {tr' : List Task} (hpl : (f (s.tqs q)).player = (s.tqs q).player)
    (hus : (f (s.tqs q)).usage = (s.tqs q).usage)
    (hown : ∀ t ∈ (f (s.tqs q)).bg, t.progr = (s.tqs q).player)
    (hperm : ((tr' ++ (f (s.tqs q)).bg).map Task.key).Perm
      ((tr ++ (s.tqs q).bg).map Task.key)) :
    Core (s.modifyTq q f) tr' := by
  have hpl' : ∀ p, ((s.modifyTq q f).tqs p).player = (s.tqs p).player :=
    fun p => modifyTq_field s q p f TQueue.player hpl
  have hus' : ∀ p, ((s.modifyTq q f).tqs p).usage = (s.tqs p).usage :=
    fun p => modifyTq_field s q p f TQueue.usage hus
  have hnd : s.activeTqueues.Nodup := (List.nodup_append.mp h.linked).1
  have hqi : ∀ p ∈ s.idleTqueues, p ≠ q := by
    rintro p hp rfl
    exact (List.nodup_append.mp h.linked).2.2 p hq p hp rfl
  have hmove : ((tr' ++ (s.modifyTq q f).bgOf s.activeTqueues).map Task.key).Perm
      ((tr ++ s.bgOf s.activeTqueues).map Task.key) := by
    simp only [State.bgOf, List.map_append, List.map_flatMap]
    refine flatMap_perm_of_mem hnd hq (fun p _ hp => ?_) ?_
    · show (((s.modifyTq q f).tqs p).bg).map Task.key = _
      rw [modifyTq_tqs_ne s f hp]
    · rw [modifyTq_tqs_self, ← List.map_append, ← List.map_append]
      exact hperm
  exact
    { linked := h.linked
      fresh := h.fresh
      usageActive := fun p hp => by rw [hus']; exact h.usageActive p hp
      usageIdle := fun p hp => by rw [hus']; exact h.usageIdle p hp
      idleBg := fun p hp => by
        rw [modifyTq_tqs_ne s f (hqi p hp)]; exact h.idleBg p hp
      owner := by
        intro p hp t ht
        rw [hpl']
        by_cases hpq : p = q
        · subst hpq
          rw [modifyTq_tqs_self] at ht
          exact hown t ht
        · rw [modifyTq_tqs_ne s f hpq] at ht
          exact h.owner p hp t ht
      uids := h.uids
      uidsBelow := h.uidsBelow
      goneBelow := h.goneBelow
      accounted := by
        refine List.Perm.trans ?_ h.accounted
        have hswap : ∀ xs ys : List Task, ((xs ++ s.waitingTasks ++ ys).map Task.key).Perm
            (s.waitingTasks.map Task.key ++ (xs ++ ys).map Task.key) := by
          intro xs ys
          rw [← List.map_append]
          refine List.Perm.map _ ?_
          rw [List.append_assoc, ← List.append_assoc, ← List.append_assoc]
          exact List.Perm.append_right _ List.perm_append_comm
        exact (hswap tr' _).trans ((hmove.append_left _).trans (hswap tr _).symm) }

/-- `enqueue_bg_task` puts the task in transit on an active queue of its owner. -/
theorem Core.enqueueBgTask {t : Task} (h : Core s (t :: tr)) {q : TqPtr}
    (hq : q ∈ s.activeTqueues) (hown : t.progr = (s.tqs q).player) :
    Core (enqueueBgTask q t s) tr := by
  refine h.setBg hq rfl rfl ?_ ?_
  · intro t' ht'
    rcases List.mem_append.mp ht' with ht' | ht'
    · exact h.owner q hq t' ht'
    · rw [List.mem_singleton.mp ht']; exact hown
  · refine List.Perm.map _ ?_
    show (tr ++ ((s.tqs q).bg ++ [t])).Perm ((t :: tr) ++ (s.tqs q).bg)
    rw [← List.append_assoc]
    exact List.perm_append_singleton t _

theorem Keeps.enqueueBgTask (s : State) (q : TqPtr) (t : Task) :
    Keeps s (enqueueBgTask q t s) := Keeps.modifyTq s q rfl

/-- `dequeue_bg_task` takes a task of the queue's player into transit. -/
theorem Core.dequeueBgTask (h : Core s tr) {q : TqPtr} {t : Task} {s' : State}
    (hd : dequeueBgTask q s = some (t, s')) (hq : q ∈ s.activeTqueues) :
    Core s' (t :: tr) ∧ Keeps s s' ∧ t.progr = (s.tqs q).player ∧
      s'.activeTqueues = s.activeTqueues ∧ s'.waitingTasks = s.waitingTasks := by
  cases hbg : (s.tqs q).bg with
  | nil => simp [Tasks.dequeueBgTask, hbg] at hd
  | cons t' rest =>
      simp only [Tasks.dequeueBgTask, hbg, Option.some.injEq, Prod.mk.injEq] at hd
      obtain ⟨rfl, rfl⟩ := hd
      have hin : ∀ t ∈ t' :: rest, t.progr = (s.tqs q).player := fun t ht =>
        h.owner q hq t (hbg ▸ ht)
      refine ⟨h.setBg hq rfl rfl (fun t ht => hin t (List.mem_cons_of_mem _ ht)) ?_,
        Keeps.modifyTq s q rfl, hin t' List.mem_cons_self, rfl, rfl⟩
      rw [hbg]
      exact List.Perm.map _ List.perm_middle.symm

/-- Dropping the history of a pending task that leaves transit for good. -/
theorem Core.leave {t : Task} (h : Core s (t :: tr)) {s' : State}
    (hs' : s' = { s with started := s.started ++ [t.uid] } ∨
      s' = { s with killed := s.killed ++ [t.uid] }) : Core s' tr := by
  have hmem : t.key ∈ s.pending :=
    h.accounted.mem_iff.mp (by simp)
  have hnd : (s.pending.map Handed.uid).Nodup :=
    (List.filter_sublist.map Handed.uid).nodup h.uids
  -- the only pending entry that goes is the one of `t`
  have hpend : (t.key :: s'.pending).Perm s.pending := by
    have herase : s'.pending = s.pending.erase t.key := by
      have hfilter : s'.pending = s.pending.filter fun x => x ≠ t.key := by
        rcases hs' with rfl | rfl
        all_goals
          simp only [State.pending, List.filter_filter]
          refine List.filter_congr fun x hx => ?_
          have hxt : x ∈ s.pending → (x = t.key ↔ x.uid = t.uid) := fun hxp =>
            ⟨fun he => congrArg Handed.uid he,
              fun he => List.inj_on_of_nodup_map hnd hxp hmem he⟩
          by_cases hp : x.uid ∉ s.started ∧ x.uid ∉ s.killed
          · have hxp : x ∈ s.pending := by
              simp only [State.pending, List.mem_filter]
              exact ⟨hx, by simpa using hp⟩
            have := hxt hxp
            simp [hp.1, hp.2, this]
          · have : ¬(x.uid ∉ s.started ∧ x.uid ∉ s.killed) := hp
            by_cases hst : x.uid ∈ s.started
            · simp [hst]
            · have hk : x.uid ∈ s.killed := by
                by_contra hk
                exact hp ⟨hst, hk⟩
              simp [hk]
      rw [hfilter, (List.Nodup.of_map _ hnd).erase_eq_filter]
      refine List.filter_congr fun x _ => ?_
      by_cases hx : x = t.key <;> simp [hx]
    rw [herase]
    exact (List.perm_cons_erase hmem).symm
  have hsame : s'.tqs = s.tqs ∧ s'.activeTqueues = s.activeTqueues ∧
      s'.idleTqueues = s.idleTqueues ∧ s'.waitingTasks = s.waitingTasks ∧
      s'.nextTq = s.nextTq ∧ s'.handed = s.handed ∧ s'.nextUid = s.nextUid := by
    rcases hs' with rfl | rfl <;> exact ⟨rfl, rfl, rfl, rfl, rfl, rfl, rfl⟩
  obtain ⟨htqs, hact, hidle, hwait, hnext, hhanded, huid⟩ := hsame
  exact
    { linked := by rw [hact, hidle]; exact h.linked
      fresh := by rw [hact, hidle, hnext]; exact h.fresh
      usageActive := by rw [hact, htqs]; exact h.usageActive
      usageIdle := by rw [hidle, htqs]; exact h.usageIdle
      idleBg := by rw [hidle, htqs]; exact h.idleBg
      owner := by rw [hact, htqs]; exact h.owner
      uids := by rw [hhanded]; exact h.uids
      uidsBelow := by rw [hhanded, huid]; exact h.uidsBelow
      goneBelow := by
        intro u hu
        rw [huid]
        have hcase : u ∈ s.started ++ s.killed ∨ u = t.uid := by
          rcases hs' with rfl | rfl <;> simp only [List.mem_append, List.mem_singleton] at hu ⊢ <;>
            tauto
        rcases hcase with hu | rfl
        · exact h.goneBelow u hu
        · exact h.uidsBelow t.key (List.mem_of_mem_filter hmem)
      accounted := by
        have hbg : s'.bgOf s'.activeTqueues = s.bgOf s.activeTqueues := by
          simp only [State.bgOf, htqs, hact]
        rw [hwait, hbg]
        exact (h.accounted.trans hpend.symm).cons_inv }

/-- A newly allocated task is in transit. -/
theorem Core.newTask (h : Core s tr) (kind : BgKind) (id : Int) (progr : Objid)
    (startTime : Int) (value : Var) :
    let r := newTask kind id progr startTime value s
    Core r.2 (r.1 :: tr) ∧ Keeps s r.2 := by
  intro r
  refine ⟨?_, ⟨rfl, fun _ hp => hp, fun _ hp => hp, fun _ _ => rfl⟩⟩
  have hst : s.nextUid ∉ s.started := fun hm =>
    Nat.lt_irrefl _ (h.goneBelow _ (List.mem_append_left _ hm))
  have hk : s.nextUid ∉ s.killed := fun hm =>
    Nat.lt_irrefl _ (h.goneBelow _ (List.mem_append_right _ hm))
  have hpend : r.2.pending = s.pending ++ [(⟨s.nextUid, progr⟩ : Handed)] := by
    show (s.handed ++ [(⟨s.nextUid, progr⟩ : Handed)]).filter _ = _
    rw [List.filter_append]
    congr 1
    simp [r, Tasks.newTask, hst, hk]
  exact
    { linked := h.linked
      fresh := h.fresh
      usageActive := h.usageActive
      usageIdle := h.usageIdle
      idleBg := h.idleBg
      owner := h.owner
      uids := by
        show ((s.handed ++ [(⟨s.nextUid, progr⟩ : Handed)]).map Handed.uid).Nodup
        rw [List.map_append, List.nodup_append]
        refine ⟨h.uids, List.nodup_singleton _, ?_⟩
        intro u hu v hv huv
        obtain ⟨x, hx, rfl⟩ := List.mem_map.mp hu
        have := h.uidsBelow x hx
        rw [List.map_singleton, List.mem_singleton] at hv
        rw [huv, hv] at this
        exact Nat.lt_irrefl _ this
      uidsBelow := by
        intro x hx
        show x.uid < s.nextUid + 1
        rcases List.mem_append.mp hx with hx | hx
        · exact Nat.lt_succ_of_lt (h.uidsBelow x hx)
        · rw [List.mem_singleton.mp hx]
          exact Nat.lt_succ_self _
      goneBelow := fun u hu => Nat.lt_succ_of_lt (h.goneBelow u hu)
      accounted := by
        rw [hpend]
        exact (h.accounted.cons _).trans (List.perm_append_singleton _ _).symm }

/-- `enqueue_waiting` puts the task in transit on the waiting list. -/
theorem Core.enqueueWaiting {t : Task} (h : Core s (t :: tr)) :
    Core (enqueueWaiting t s) tr ∧ Keeps s (enqueueWaiting t s) := by
  obtain ⟨hc, hk, -⟩ := h.findOrCreate t.progr
  have hsame : SameTasks (findOrCreateTqueue t.progr s).2
      ((findOrCreateTqueue t.progr s).2.modifyTq (findOrCreateTqueue t.progr s).1
        fun tq => { tq with numBgTasks := tq.numBgTasks + 1 }) :=
    SameTasks.modifyTq _ _ rfl rfl rfl
  have hc' := hc.of_same hsame
  have hk' := hk.trans (Keeps.of_same hsame rfl)
  refine ⟨?_, ⟨hk'.control, hk'.head, hk'.active, hk'.player⟩⟩
  exact
    { linked := hc'.linked
      fresh := hc'.fresh
      usageActive := hc'.usageActive
      usageIdle := hc'.usageIdle
      idleBg := hc'.idleBg
      owner := hc'.owner
      uids := hc'.uids
      uidsBelow := hc'.uidsBelow
      goneBelow := hc'.goneBelow
      accounted := by
        refine List.Perm.trans (List.Perm.map _ ?_) hc'.accounted
        refine List.Perm.append_right _ ?_
        exact ((insertWaiting_perm t _).append_left tr).trans List.perm_middle }

end Waverous.Tasks
