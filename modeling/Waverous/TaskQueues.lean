import Mathlib.Logic.Relation
import Waverous.TaskPlacementProofs

/-! # What calls do to queues — `tasks.c`

    The calls of the task module do a few kinds of things to its queues: a new queue is
    made, something is stored in a queue, which may wake it, and a background task moves
    from one list to another.  What each of them keeps, every call keeps. -/

namespace Waverous.Tasks

open Relation

variable {s s' : State} {q p : TqPtr} {t : Task}

/-- The queues are linked once each, and their usage tells on which list. -/
structure Linked (s : State) : Prop where
  nodup : (s.activeTqueues ++ s.idleTqueues).Nodup
  fresh : ∀ q ∈ s.activeTqueues ++ s.idleTqueues, q < s.nextTq
  usageActive : ∀ q ∈ s.activeTqueues, 0 ≤ (s.tqs q).usage
  usageIdle : ∀ q ∈ s.idleTqueues, (s.tqs q).usage = noUsage

theorem Linked.disjoint (h : Linked s) (ha : q ∈ s.activeTqueues) : q ∉ s.idleTqueues :=
  fun hi => (List.nodup_append.mp h.nodup).2.2 q ha q hi rfl

/-! ## Waking a queue -/

/-- What `ensure_usage` does. -/
structure Woken (q : TqPtr) (s s' : State) : Prop where
  active : q ∈ s'.activeTqueues
  perm : (s'.activeTqueues ++ s'.idleTqueues).Perm (s.activeTqueues ++ s.idleTqueues)
  idle : ∀ p, p ∈ s'.idleTqueues ↔ p ∈ s.idleTqueues ∧ p ≠ q
  queue : ∀ p, ∃ u, s'.tqs p = { s.tqs p with usage := u }
  head : ∀ p, s.activeTqueues.head? = some p → s'.activeTqueues.head? = some p
  mono : ∀ p ∈ s.activeTqueues, p ∈ s'.activeTqueues
  waiting : s'.waitingTasks = s.waitingTasks
  nextTq : s'.nextTq = s.nextTq
  control : s'.control = s.control

/-- Nothing but the usage of a queue changes. -/
theorem Woken.field {β : Type*} (h : Woken q s s') (g : TQueue → β)
    (hg : ∀ tq u, g { tq with usage := u } = g tq) (p : TqPtr) : g (s'.tqs p) = g (s.tqs p) := by
  obtain ⟨u, hu⟩ := h.queue p
  rw [hu, hg]

/-- An idle queue, moved to the active ones with some usage. -/
theorem Linked.activate (h : Linked s) (hq : q ∈ s.idleTqueues) {u : Int} (hu : 0 ≤ u)
    (hhead : ∀ p, s.activeTqueues.head? = some p → (s.tqs p).usage = u)
    (hs' : s' = activateTqueue q { s.modifyTq q (fun tq => { tq with usage := u }) with
      idleTqueues := s.idleTqueues.erase q }) : Linked s' ∧ Woken q s s' := by
  subst hs'
  have hne : ∀ p ∈ s.activeTqueues, p ≠ q := by
    rintro p hp rfl
    exact h.disjoint hp hq
  have hnodup : s.idleTqueues.Nodup := (List.nodup_append.mp h.nodup).2.1
  have hperm := insertByUsage_perm (s.modifyTq q fun tq => { tq with usage := u }).tqs q
    s.activeTqueues
  have hlists : (insertByUsage (s.modifyTq q fun tq => { tq with usage := u }).tqs q
      s.activeTqueues ++ s.idleTqueues.erase q).Perm (s.activeTqueues ++ s.idleTqueues) := by
    refine (hperm.append_right _).trans ?_
    refine List.Perm.trans ?_ (List.Perm.append_left _ (List.perm_cons_erase hq).symm)
    exact List.perm_middle.symm
  have hidle : ∀ p, p ∈ s.idleTqueues.erase q ↔ p ∈ s.idleTqueues ∧ p ≠ q := fun p => by
    rw [hnodup.mem_erase_iff, and_comm]
  constructor
  · constructor
    · exact hlists.nodup_iff.mpr h.nodup
    · exact fun p hp => h.fresh p (hlists.mem_iff.mp hp)
    · intro p hp
      show 0 ≤ ((s.modifyTq q fun tq => { tq with usage := u }).tqs p).usage
      rcases List.mem_cons.mp (hperm.mem_iff.mp hp) with rfl | hp
      · rw [modifyTq_tqs_self]
        exact hu
      · rw [modifyTq_tqs_ne s _ (hne p hp)]
        exact h.usageActive p hp
    · intro p hp
      show ((s.modifyTq q fun tq => { tq with usage := u }).tqs p).usage = noUsage
      obtain ⟨hp, hpq⟩ := (hidle p).mp hp
      rw [modifyTq_tqs_ne s _ hpq]
      exact h.usageIdle p hp
  · constructor
    · exact hperm.mem_iff.mpr List.mem_cons_self
    · exact hlists
    · exact hidle
    · intro p
      by_cases hpq : p = q
      · rw [hpq]
        exact ⟨u, modifyTq_tqs_self s q fun tq => { tq with usage := u }⟩
      · exact ⟨(s.tqs p).usage, modifyTq_tqs_ne s (fun tq => { tq with usage := u }) hpq⟩
    · intro p hp
      obtain ⟨ps, hps⟩ := List.head?_eq_some_iff.mp hp
      show (insertByUsage _ q s.activeTqueues).head? = some p
      have hpq : p ≠ q := hne p (by rw [hps]; exact List.mem_cons_self)
      rw [hps]
      refine insertByUsage_head ?_
      show ((s.modifyTq q fun tq => { tq with usage := u }).tqs p).usage
        ≤ ((s.modifyTq q fun tq => { tq with usage := u }).tqs q).usage
      rw [modifyTq_tqs_ne s _ hpq, modifyTq_tqs_self]
      exact Int.le_of_eq (hhead p hp)
    · intro p hp
      exact hperm.mem_iff.mpr (List.mem_cons_of_mem q hp)
    · rfl
    · rfl
    · rfl

/-- `ensure_usage` leaves a linked queue active. -/
theorem Linked.ensureUsage (h : Linked s) (hq : q ∈ s.activeTqueues ++ s.idleTqueues) :
    Linked (ensureUsage q s) ∧ Woken q s (ensureUsage q s) := by
  by_cases hu : (s.tqs q).usage = noUsage
  · have hqi : q ∈ s.idleTqueues := by
      rcases List.mem_append.mp hq with hqa | hqi
      · have := h.usageActive q hqa
        rw [hu] at this
        exact absurd this (by decide)
      · exact hqi
    cases hact : s.activeTqueues with
    | nil =>
        refine h.activate hqi (Int.le_refl 0) ?_ ?_
        · intro p hp
          rw [hact] at hp
          exact nomatch hp
        · simp only [Tasks.ensureUsage, if_pos hu, hact, State.modifyTq]
    | cons p ps =>
        refine h.activate hqi (h.usageActive p (by rw [hact]; exact List.mem_cons_self)) ?_ ?_
        · intro p' hp'
          rw [hact] at hp'
          cases hp'
          rfl
        · simp only [Tasks.ensureUsage, if_pos hu, hact, State.modifyTq]
  · have hqa : q ∈ s.activeTqueues := by
      rcases List.mem_append.mp hq with hqa | hqi
      · exact hqa
      · exact absurd (h.usageIdle q hqi) hu
    rw [show Tasks.ensureUsage q s = s from by rw [Tasks.ensureUsage, if_neg hu]]
    refine ⟨h, ⟨hqa, List.Perm.refl _, fun p => ?_, fun p => ⟨_, rfl⟩, fun _ hp => hp,
      fun _ hp => hp, rfl, rfl, rfl⟩⟩
    constructor
    · intro hp
      refine ⟨hp, ?_⟩
      rintro rfl
      exact h.disjoint hqa hp
    · exact And.left

/-! ## Queues for players -/

/-- The queue that `find_tqueue` makes. -/
def newTqueue (player : Objid) (s : State) : State :=
  deactivateTqueue s.nextTq
    ({ s with nextTq := s.nextTq + 1 }.modifyTq s.nextTq fun _ => { player })

theorem newTqueue_self (player : Objid) (s : State) :
    (newTqueue player s).tqs s.nextTq = { player } := by
  simp [newTqueue, deactivateTqueue, State.modifyTq, noUsage]

theorem newTqueue_ne (player : Objid) (h : p ≠ s.nextTq) : (newTqueue player s).tqs p = s.tqs p := by
  simp [newTqueue, deactivateTqueue, State.modifyTq, h]

/-- `find_tqueue(player, 1)` finds a queue or makes one. -/
theorem findOrCreateTqueue_cases (player : Objid) (s : State) :
    (∃ q, findTqueue player s = some q ∧ findOrCreateTqueue player s = (q, s)) ∨
      findTqueue player s = none ∧ findOrCreateTqueue player s = (s.nextTq, newTqueue player s) := by
  rw [findOrCreateTqueue]
  split
  next q hq => exact .inl ⟨q, hq, rfl⟩
  next hq => exact .inr ⟨hq, rfl⟩

theorem findOrCreateTqueue_mem (player : Objid) (s : State) :
    (findOrCreateTqueue player s).1 ∈ (findOrCreateTqueue player s).2.activeTqueues
        ++ (findOrCreateTqueue player s).2.idleTqueues ∧
      ((findOrCreateTqueue player s).2.tqs (findOrCreateTqueue player s).1).player = player := by
  rcases findOrCreateTqueue_cases player s with ⟨q, hfind, heq⟩ | ⟨-, heq⟩
  · rw [heq]
    exact mem_of_findTqueue hfind
  · rw [heq]
    refine ⟨List.mem_append_right _ List.mem_cons_self, ?_⟩
    show ((newTqueue player s).tqs s.nextTq).player = player
    rw [newTqueue_self]

theorem Linked.newTqueue (h : Linked s) (player : Objid) : Linked (newTqueue player s) := by
  have hne : ∀ p ∈ s.activeTqueues ++ s.idleTqueues, p ≠ s.nextTq := fun p hp =>
    Nat.ne_of_lt (h.fresh p hp)
  constructor
  · refine (List.perm_middle).nodup_iff.mpr (List.nodup_cons.mpr ⟨?_, h.nodup⟩)
    intro hmem
    exact hne _ hmem rfl
  · intro p hp
    show p < s.nextTq + 1
    rcases List.mem_cons.mp (List.perm_middle.mem_iff.mp hp) with rfl | hp
    · exact Nat.lt_succ_self _
    · exact Nat.lt_succ_of_lt (h.fresh p hp)
  · intro p hp
    rw [newTqueue_ne player (hne p (List.mem_append_left _ hp))]
    exact h.usageActive p hp
  · intro p hp
    rcases List.mem_cons.mp hp with rfl | hp
    · rw [newTqueue_self]
    · rw [newTqueue_ne player (hne p (List.mem_append_right _ hp))]
      exact h.usageIdle p hp

/-! ## Calls -/

/-- A queue that can wait for its next call: none of its lines can be given to anyone, and
    its reader, if it has one, has a connection to read from. -/
structure Quiet (tq : TQueue) : Prop where
  input : tq.input = [] ∨ tq.holdInput = true ∧ tq.reading = false ∧
    (tq.disableOob = true ∨ ∀ t ∈ tq.input, t.kind ≠ .oob)
  reader : tq.reading = true → tq.connected = true

/-- A store that leaves alone what the accounts of background tasks are made of. -/
structure Spares (tq tq' : TQueue) : Prop where
  player : tq'.player = tq.player
  usage : tq'.usage = tq.usage
  numBgTasks : tq'.numBgTasks = tq.numBgTasks
  bg : tq'.bg.length = tq.bg.length

/-- The states differ beside the queues and the waiting list. -/
structure Beside (s s' : State) : Prop where
  tqs : s'.tqs = s.tqs
  nextTq : s'.nextTq = s.nextTq
  active : s'.activeTqueues = s.activeTqueues
  idle : s'.idleTqueues = s.idleTqueues
  waiting : s'.waitingTasks = s.waitingTasks

/-- What a call does to the queues, but for handing a new background task over. -/
inductive Call : State → State → Prop where
  | note {s s' : State} : Beside s s' → s'.control = s.control → Call s s'
  | create {s : State} (player : Objid) : findTqueue player s = none → Call s (newTqueue player s)
  /-- a store, after which the queue is woken when something may be done there -/
  | store {s : State} {q : TqPtr} {f : TQueue → TQueue} (b : Bool) :
      q ∈ s.activeTqueues ++ s.idleTqueues → Spares (s.tqs q) (f (s.tqs q)) →
      (b = false → Quiet (s.tqs q) → Quiet (f (s.tqs q))) →
      Call s (if b then ensureUsage q (s.modifyTq q f) else s.modifyTq q f)
  /-- a waiting task is ready -/
  | ready {s : State} {q : TqPtr} {t t' : Task} {ts : List Task} :
      s.waitingTasks.Perm (t :: ts) → t'.progr = t.progr →
      q ∈ s.activeTqueues ++ s.idleTqueues → (s.tqs q).player = t.progr →
      Call s (enqueueBgTask q t' (ensureUsage q { s with waitingTasks := ts }))
  /-- a waiting task is killed -/
  | killWaiting {s : State} {t : Task} {ts : List Task} : s.waitingTasks.Perm (t :: ts) →
      Call s { (match findTqueue t.progr s with
        | some q => s.modifyTq q fun tq => { tq with numBgTasks := tq.numBgTasks - 1 }
        | none => s) with waitingTasks := ts }
  /-- a task leaves the background list of a queue -/
  | leave {s : State} {q : TqPtr} {t : Task} {rest : List Task} : (s.tqs q).bg.Perm (t :: rest) →
      q ∈ s.activeTqueues →
      Call s (s.modifyTq q fun tq => { tq with bg := rest, numBgTasks := tq.numBgTasks - 1 })

theorem Linked.congr (h : Linked s) (hnext : s'.nextTq = s.nextTq)
    (hact : s'.activeTqueues = s.activeTqueues) (hidle : s'.idleTqueues = s.idleTqueues)
    (husage : ∀ p, (s'.tqs p).usage = (s.tqs p).usage) : Linked s' := by
  constructor
  · rw [hact, hidle]
    exact h.nodup
  · rw [hact, hidle, hnext]
    exact h.fresh
  · rw [hact]
    exact fun p hp => (husage p).symm ▸ h.usageActive p hp
  · rw [hidle]
    exact fun p hp => (husage p).symm ▸ h.usageIdle p hp

theorem Linked.beside (h : Linked s) (hb : Beside s s') : Linked s' :=
  h.congr hb.nextTq hb.active hb.idle fun p => by rw [hb.tqs]

theorem Linked.modifyTq (h : Linked s) {f : TQueue → TQueue}
    (hf : (f (s.tqs q)).usage = (s.tqs q).usage) : Linked (s.modifyTq q f) :=
  h.congr rfl rfl rfl fun p => modifyTq_field s q p f TQueue.usage hf

theorem Keeps.woken (h : Woken q s s') : Keeps s s' :=
  ⟨h.control, h.head, h.mono, fun p _ => h.field TQueue.player (fun _ _ => rfl) p⟩

/-- A call keeps the queues linked, and the first active queue the first one. -/
theorem Linked.call (h : Linked s) (hc : Call s s') : Linked s' ∧ Keeps s s' := by
  cases hc with
  | note hb hctl =>
      refine ⟨h.beside hb, hctl, ?_, ?_, ?_⟩
      · rw [hb.active]
        exact fun _ hp => hp
      · rw [hb.active]
        exact fun _ hp => hp
      · exact fun p _ => by rw [hb.tqs]
  | create player _ =>
      refine ⟨h.newTqueue player, rfl, fun _ hp => hp, fun _ hp => hp, fun p hp => ?_⟩
      rw [newTqueue_ne player (Nat.ne_of_lt (h.fresh p (List.mem_append_left _ hp)))]
  | @store q f b hq hf _ =>
      have h1 : Linked (s.modifyTq q f) := h.modifyTq hf.usage
      have hk := Keeps.modifyTq s q hf.player
      cases b with
      | false => exact ⟨h1, hk⟩
      | true =>
          obtain ⟨h2, hw⟩ := h1.ensureUsage hq
          exact ⟨h2, hk.trans (Keeps.woken hw)⟩
  | @ready q t t' ts hperm hprogr hq hpl =>
      have h1 : Linked { s with waitingTasks := ts } := h.congr rfl rfl rfl fun _ => rfl
      obtain ⟨h2, hw⟩ := h1.ensureUsage hq
      exact ⟨h2.modifyTq rfl, (Keeps.waiting s ts).trans
        ((Keeps.woken hw).trans (Keeps.enqueueBgTask _ q t'))⟩
  | @killWaiting t ts hperm =>
      split
      next q _ =>
        have h1 : Linked (s.modifyTq q fun tq => { tq with numBgTasks := tq.numBgTasks - 1 }) :=
          h.modifyTq rfl
        refine ⟨h1.congr rfl rfl rfl fun _ => rfl, Keeps.trans ?_ (Keeps.waiting _ ts)⟩
        exact Keeps.modifyTq s q rfl
      · exact ⟨h.congr rfl rfl rfl fun _ => rfl, Keeps.waiting s ts⟩
  | leave hbg hq => exact ⟨h.modifyTq rfl, Keeps.modifyTq s _ rfl⟩

/-- So do several. -/
theorem Linked.calls (h : Linked s) (hc : ReflTransGen Call s s') : Linked s' ∧ Keeps s s' := by
  induction hc with
  | refl => exact ⟨h, Keeps.refl s⟩
  | tail _ hlast ih =>
      obtain ⟨h', hk⟩ := ih.1.call hlast
      exact ⟨h', ih.2.trans hk⟩

/-! ## The calls of MOO code and of the network -/

/-- A store without a wake-up. -/
theorem Call.modifyTq {f : TQueue → TQueue} (hq : q ∈ s.activeTqueues ++ s.idleTqueues)
    (hf : Spares (s.tqs q) (f (s.tqs q))) (hquiet : Quiet (s.tqs q) → Quiet (f (s.tqs q))) :
    Call s (s.modifyTq q f) := Call.store false hq hf fun _ => hquiet

/-- Waking a queue does not unlink one. -/
theorem mem_ensureUsage (hp : p ∈ s.activeTqueues ++ s.idleTqueues) :
    p ∈ (ensureUsage q s).activeTqueues ++ (ensureUsage q s).idleTqueues := by
  rw [ensureUsage]
  split
  next hu =>
    have hperm : ∀ tqs, p ∈ q :: s.activeTqueues → p ∈ insertByUsage tqs q s.activeTqueues :=
      fun tqs => (insertByUsage_perm tqs q s.activeTqueues).mem_iff.mpr
    show p ∈ insertByUsage _ q s.activeTqueues ++ s.idleTqueues.erase q
    by_cases hpq : p = q
    · exact List.mem_append_left _ (hperm _ (hpq ▸ List.mem_cons_self))
    · rcases List.mem_append.mp hp with ha | hi
      · exact List.mem_append_left _ (hperm _ (List.mem_cons_of_mem q ha))
      · exact List.mem_append_right _ ((List.mem_erase_of_ne hpq).mpr hi)
  · exact hp

theorem calls_findOrCreate (player : Objid) (s : State) :
    ReflTransGen Call s (findOrCreateTqueue player s).2 := by
  rcases findOrCreateTqueue_cases player s with ⟨q, -, heq⟩ | ⟨hnone, heq⟩
  · rw [heq]
  · rw [heq]
    exact .single (.create player hnone)

/-- Lines that are dequeued leave the rest in place. -/
theorem Quiet.sublist {tq tq' : TQueue} (h : Quiet tq) (hin : tq'.input.Sublist tq.input)
    (hhold : tq'.holdInput = tq.holdInput) (hread : tq'.reading = tq.reading)
    (hoob : tq'.disableOob = tq.disableOob) (hconn : tq'.connected = tq.connected) : Quiet tq' := by
  constructor
  · rcases h.input with hnil | ⟨hh, hr, hrest⟩
    · rw [hnil] at hin
      exact .inl (List.sublist_nil.mp hin)
    · refine .inr ⟨hhold.trans hh, hread.trans hr, ?_⟩
      rw [hoob]
      exact hrest.imp id fun hno t ht => hno t (hin.subset ht)
  · rw [hread, hconn]
    exact h.reader

theorem extractFirst_sublist {α : Type*} {f : α → Bool} {l rest : List α} {a : α}
    (h : extractFirst f l = some (a, rest)) : rest.Sublist l := by
  induction l generalizing rest with
  | nil => exact nomatch h
  | cons b l ih =>
      simp only [extractFirst] at h
      split at h
      · cases h
        exact List.sublist_cons_self _ _
      · obtain ⟨x, he, heq⟩ := Option.map_eq_some_iff.mp h
        cases heq
        exact (ih he).cons_cons b

theorem forall_of_extractFirst {α : Type*} {f : α → Bool} {l : List α}
    (h : extractFirst f l = none) : ∀ a ∈ l, f a = false := by
  induction l with
  | nil =>
      intro _ ha
      cases ha
  | cons b l ih =>
      simp only [extractFirst] at h
      split at h
      · cases h
      next hb =>
        intro a ha
        rcases List.mem_cons.mp ha with rfl | ha
        · exact Bool.eq_false_iff.mpr hb
        · exact ih (Option.map_eq_none_iff.mp h) a ha

theorem Call.dequeueInputTask {how : DequeueHow} {line : InputTask}
    (hq : q ∈ s.activeTqueues ++ s.idleTqueues)
    (hd : dequeueInputTask q how s = some (line, s')) : Call s s' := by
  simp only [Tasks.dequeueInputTask] at hd
  split at hd
  · cases hd
  · split at hd
    · cases hd
    next he =>
      cases hd
      exact Call.modifyTq hq ⟨rfl, rfl, rfl, rfl⟩ fun h =>
        h.sublist (extractFirst_sublist he) rfl rfl rfl rfl

theorem calls_flushInput (n : Nat) (hq : q ∈ s.activeTqueues ++ s.idleTqueues) :
    ReflTransGen Call s (flushInput q n s) := by
  induction n generalizing s with
  | zero => exact .refl
  | succ n ih =>
      simp only [flushInput]
      split
      next line s1 hd =>
        obtain ⟨hsame, -⟩ := SameTasks.dequeueInputTask hd
        refine .head (Call.dequeueInputTask hq hd) (ih ?_)
        rw [hsame.active, hsame.idle]
        exact hq
      · exact .refl

theorem calls_enqueueInputTask (input : Str) (atFront binary : Bool)
    (hq : q ∈ s.activeTqueues ++ s.idleTqueues) :
    ReflTransGen Call s (enqueueInputTask q input atFront binary s) := by
  let line : InputTask := { kind := inputKind input binary, string := input }
  let f : TQueue → TQueue := fun tq =>
    { tq with
      input := if atFront then line :: tq.input else tq.input ++ [line]
      totalInputLength := tq.totalInputLength + input.length }
  let s1 := s.modifyTq q f
  let b := !(s1.tqs q).holdInput || (s1.tqs q).reading ||
    (!(s1.tqs q).disableOob && decide (line.kind = .oob))
  have h1 : Call s (if b then ensureUsage q s1 else s1) := by
    refine Call.store b hq ⟨rfl, rfl, rfl, rfl⟩ fun hb h => ?_
    have hb' : (!(s.tqs q).holdInput || (s.tqs q).reading ||
        (!(s.tqs q).disableOob && decide (line.kind = .oob))) = false := by
      simpa only [b, s1, modifyTq_tqs_self, f] using hb
    simp only [Bool.or_eq_false_iff, Bool.not_eq_false', Bool.and_eq_false_iff,
      decide_eq_false_iff_not] at hb'
    obtain ⟨⟨hhold, hread⟩, hoob⟩ := hb'
    have hold : (s.tqs q).disableOob = true ∨ ∀ t ∈ (s.tqs q).input, t.kind ≠ .oob := by
      rcases h.input with hnil | ⟨-, -, hrest⟩
      · exact .inr fun t ht => by rw [hnil] at ht; exact nomatch ht
      · exact hrest
    constructor
    · refine .inr ⟨hhold, hread, ?_⟩
      show (s.tqs q).disableOob = true ∨ ∀ t ∈ (f (s.tqs q)).input, t.kind ≠ .oob
      rcases hoob with hdis | hkind
      · exact .inl hdis
      · refine hold.imp id fun hno t ht => ?_
        have ht' : t = line ∨ t ∈ (s.tqs q).input := by
          simp only [f] at ht
          split at ht
          · exact List.mem_cons.mp ht
          · exact (List.mem_append.mp ht).symm.imp List.mem_singleton.mp id
        rcases ht' with rfl | ht'
        · exact hkind
        · exact hno t ht'
    · intro hr
      exact absurd (hr.symm.trans hread) (by decide)
  have h2 : ∀ s2 : State, q ∈ s2.activeTqueues ++ s2.idleTqueues →
      Call s2 (s2.modifyTq q fun tq => { tq with
        inputSuspended := tq.inputSuspended || (tq.connected && inputHiwat < tq.totalInputLength) }) :=
    fun s2 hq2 => Call.modifyTq hq2 ⟨rfl, rfl, rfl, rfl⟩ fun h => ⟨h.input, h.reader⟩
  refine .tail (.single h1) (h2 _ ?_)
  cases b with
  | false => exact hq
  | true => exact mem_ensureUsage hq

theorem calls_newInputTask (input : Str) (binary isFlush : Bool)
    (hq : q ∈ s.activeTqueues ++ s.idleTqueues) :
    ReflTransGen Call s (newInputTask q input binary isFlush s) := by
  rw [newInputTask]
  split
  · exact calls_flushInput _ hq
  · exact calls_enqueueInputTask input false binary hq

theorem calls_makeReadingTask (player : Objid) (vm : Int) :
    ReflTransGen Call s (makeReadingTask player vm s).2 := by
  simp only [makeReadingTask]
  split
  · exact .refl
  next q hfind =>
    split
    · exact .refl
    next hguard =>
      simp only [Bool.or_eq_true, not_or, Bool.and_eq_true, Bool.not_eq_true', not_and] at hguard
      have hstore := Call.store (s := s) (f := fun tq => { tq with reading := true, readingVm := vm })
        (!(s.tqs q).input.isEmpty) (mem_of_findTqueue hfind).1 ⟨rfl, rfl, rfl, rfl⟩ fun hb _ => by
          have hempty : (s.tqs q).input.isEmpty = true := by simpa using hb
          refine ⟨.inl (List.isEmpty_iff.mp hempty), fun _ => ?_⟩
          cases hconn : (s.tqs q).connected with
          | true => rfl
          | false => exact absurd hempty (hguard.2 hconn)
      refine .single ?_
      cases hempty : (s.tqs q).input.isEmpty <;> simp only [hempty] at hstore ⊢ <;> exact hstore

theorem calls_readInputNow (connection : Objid) : ReflTransGen Call s (readInputNow connection s).2 := by
  simp only [readInputNow]
  split
  · exact .refl
  next q hfind =>
    split
    · exact .refl
    · split
      · exact .refl
      next hd => exact .single (Call.dequeueInputTask (mem_of_findTqueue hfind).1 hd)

theorem calls_newTaskQueue (player handler : Objid) :
    ReflTransGen Call s (newTaskQueue player handler s).2 := by
  refine .tail (calls_findOrCreate player s) ?_
  exact Call.modifyTq (f := fun tq => { tq with connected := true, handler })
    (findOrCreateTqueue_mem player s).1 ⟨rfl, rfl, rfl, rfl⟩ fun h => ⟨h.input, fun _ => rfl⟩

theorem Call.freeTaskQueue (hq : q ∈ s.activeTqueues ++ s.idleTqueues) :
    Call s (freeTaskQueue q s) := by
  refine Call.store (f := fun tq => { tq with connected := false }) _ hq ⟨rfl, rfl, rfl, rfl⟩
    fun hb h => ?_
  rw [modifyTq_tqs_self] at hb
  exact ⟨h.input, fun hr => absurd (hr.symm.trans hb) (by decide)⟩

theorem Call.setHoldInput (value : Bool) (hq : q ∈ s.activeTqueues ++ s.idleTqueues) :
    Call s (setHoldInput q value s) := by
  refine Call.store (f := fun tq => { tq with holdInput := value }) _ hq ⟨rfl, rfl, rfl, rfl⟩
    fun hb h => ?_
  rw [modifyTq_tqs_self, Bool.and_eq_false_iff, Bool.not_eq_false', Bool.not_eq_false',
    List.isEmpty_iff] at hb
  refine ⟨?_, h.reader⟩
  rcases hb with hvalue | hnil
  · exact h.input.imp id fun hrest => ⟨hvalue, hrest.2⟩
  · exact .inl hnil

theorem Call.setDisableOob (value : Bool) (hq : q ∈ s.activeTqueues ++ s.idleTqueues) :
    Call s (setDisableOob q value s) := by
  refine Call.store (f := fun tq => { tq with disableOob := value }) _ hq ⟨rfl, rfl, rfl, rfl⟩
    fun hb h => ?_
  rw [modifyTq_tqs_self, Bool.and_eq_false_iff, Bool.not_eq_false', List.any_eq_false] at hb
  refine ⟨?_, h.reader⟩
  refine h.input.imp id fun hrest => ⟨hrest.1, hrest.2.1, hb.imp id fun hno t ht => ?_⟩
  simpa using hno t ht

theorem Call.taskSuspendInput (hq : q ∈ s.activeTqueues ++ s.idleTqueues) :
    Call s (taskSuspendInput q s) :=
  Call.modifyTq hq ⟨rfl, rfl, rfl, rfl⟩ fun h => ⟨h.input, h.reader⟩

/-! ## Killing and resuming -/

theorem Call.killReader (hq : q ∈ s.activeTqueues ++ s.idleTqueues) :
    Call s (s.modifyTq q fun tq => { tq with reading := false }) :=
  Call.modifyTq hq ⟨rfl, rfl, rfl, rfl⟩ fun h =>
    ⟨h.input.imp id fun hrest => ⟨hrest.1, rfl, hrest.2.2⟩, fun hr => nomatch hr⟩

theorem calls_killActive {id : Int} {owner : Objid} {wizard : Bool} {e : Error} {qs : List TqPtr}
    (hqs : ∀ q ∈ qs, q ∈ s.activeTqueues) (hk : killActive id owner wizard s qs = some (e, s')) :
    ReflTransGen Call s s' := by
  induction qs with
  | nil => exact nomatch hk
  | cons q qs ih =>
      have hq : q ∈ s.activeTqueues := hqs q List.mem_cons_self
      simp only [killActive] at hk
      split at hk
      · split at hk
        · cases hk
          exact .refl
        · cases hk
          exact .single (Call.killReader (List.mem_append_left _ hq))
      · split at hk
        next t rest he =>
          split at hk
          · cases hk
            exact .refl
          · cases hk
            exact .tail (.single (Call.leave (extractFirst_spec he).2 hq))
              (.note ⟨rfl, rfl, rfl, rfl, rfl⟩ rfl)
        · exact ih (fun p hp => hqs p (List.mem_cons_of_mem q hp)) hk

theorem calls_killTask {id : Int} {owner : Objid} {wizard : Bool} {e : Error}
    (hk : killTask id owner wizard s = some (e, s')) : ReflTransGen Call s s' := by
  rw [killTask] at hk
  split at hk
  · cases hk
    exact .refl
  · split at hk
    next t rest he =>
      split at hk
      · cases hk
        exact .refl
      · cases hk
        exact .tail (.single (Call.killWaiting (extractFirst_spec he).2))
          (.note ⟨rfl, rfl, rfl, rfl, rfl⟩ rfl)
    · split at hk
      next q hfind =>
        split at hk
        · cases hk
          exact .refl
        · cases hk
          have hq : q ∈ s.idleTqueues := List.mem_of_find?_eq_some hfind
          exact .single (Call.killReader (List.mem_append_right _ hq))
      · exact calls_killActive (fun _ hq => hq) hk

theorem calls_resumeActive (id : Int) (value : Var) (progr : Objid) (wizard : Bool)
    {qs : List TqPtr} (hqs : ∀ q ∈ qs, q ∈ s.activeTqueues) :
    ReflTransGen Call s (resumeActive id value progr wizard s qs).2 := by
  induction qs with
  | nil => exact .refl
  | cons q qs ih =>
      simp only [resumeActive]
      split
      · split
        · exact .refl
        · dsimp only
          refine .single (Call.modifyTq (List.mem_append_left _ (hqs q List.mem_cons_self)) ?_ ?_)
          · exact ⟨rfl, rfl, rfl, List.length_modify _ _ _⟩
          · exact fun h => ⟨h.input, h.reader⟩
      · exact ih fun p hp => hqs p (List.mem_cons_of_mem q hp)

/-- Nothing looks for a queue in the waiting list. -/
theorem findOrCreateTqueue_waiting (player : Objid) (s : State) (ts : List Task) :
    findOrCreateTqueue player { s with waitingTasks := ts }
      = ((findOrCreateTqueue player s).1,
        { (findOrCreateTqueue player s).2 with waitingTasks := ts }) := by
  have hfind : findTqueue player { s with waitingTasks := ts } = findTqueue player s := rfl
  rw [findOrCreateTqueue, findOrCreateTqueue, hfind]
  split <;> rfl

theorem findOrCreateTqueue_waitingTasks (player : Objid) (s : State) :
    (findOrCreateTqueue player s).2.waitingTasks = s.waitingTasks := by
  rcases findOrCreateTqueue_cases player s with ⟨q, -, heq⟩ | ⟨-, heq⟩
  · rw [heq]
  · rw [heq]
    rfl

/-- A waiting task goes to the queue of its programmer. -/
theorem calls_ready (t' : Task) {ts : List Task} (hperm : s.waitingTasks.Perm (t :: ts))
    (hprogr : t'.progr = t.progr) :
    ReflTransGen Call s (enqueueBgTask (findOrCreateTqueue t.progr s).1 t'
      (ensureUsage (findOrCreateTqueue t.progr s).1
        { (findOrCreateTqueue t.progr s).2 with waitingTasks := ts })) := by
  obtain ⟨hmem, hpl⟩ := findOrCreateTqueue_mem t.progr s
  refine .tail (calls_findOrCreate t.progr s) (.ready ?_ hprogr hmem hpl)
  rw [findOrCreateTqueue_waitingTasks]
  exact hperm

theorem calls_doResume (id : Int) (value : Var) (progr : Objid) (wizard : Bool) :
    ReflTransGen Call s (doResume id value progr wizard s).2 := by
  simp only [doResume]
  split
  next t rest he =>
    split
    · exact .refl
    · exact calls_ready { t with startTime := 0, value } (extractFirst_spec he).2 rfl
  · exact calls_resumeActive id value progr wizard fun _ hq => hq

theorem calls_moveReady (now : Int) (ts : List Task) (hts : s.waitingTasks = ts) :
    ReflTransGen Call s (moveReady now ts s) := by
  induction ts generalizing s with
  | nil => exact .refl
  | cons t rest ih =>
      simp only [moveReady]
      split
      · rw [findOrCreateTqueue_waiting]
        refine (calls_ready t (List.Perm.of_eq hts) rfl).trans (ih ?_)
        show (ensureUsage _ { (findOrCreateTqueue t.progr s).2 with waitingTasks := rest }).waitingTasks
          = rest
        rw [ensureUsage]
        split <;> rfl
      · exact .refl

/-- The steps that are made of such calls. -/
def Action.isCall : Action → Bool
  | .resume .. | .kill .. | .read .. | .readNow .. | .suspendInput .. | .newConnection ..
  | .disconnect .. | .input .. | .forceInput .. | .flush .. | .holdInput .. | .disableOob ..
  | .serverTask .. => true
  | _ => false

theorem Step.calls {a : Action} (hstep : Step s a s') (ha : a.isCall = true) :
    ReflTransGen Call s s' := by
  cases hstep with
  | resume id v p w => exact calls_doResume id v p w
  | killed id o w e _ hk => exact calls_killTask hk
  | killExternal => exact .refl
  | read p vm => exact calls_makeReadingTask p vm
  | readNow p => exact calls_readInputNow p
  | suspendInput q hq => exact .single (Call.taskSuspendInput hq)
  | newConnection p h _ => exact calls_newTaskQueue p h
  | disconnect q hq => exact .single (Call.freeTaskQueue hq)
  | input q l b f hq => exact calls_newInputTask l b f hq
  | forceInput p l front =>
      exact (calls_findOrCreate p s).trans
        (calls_enqueueInputTask l front false (findOrCreateTqueue_mem p s).1)
  | flush p =>
      exact (calls_findOrCreate p s).trans (calls_flushInput _ (findOrCreateTqueue_mem p s).1)
  | holdInput q v hq => exact .single (Call.setHoldInput v hq)
  | disableOob q v hq => exact .single (Call.setDisableOob v hq)
  | serverTask id => exact .single (.note ⟨rfl, rfl, rfl, rfl, rfl⟩ rfl)
  | fork => exact nomatch ha
  | suspend => exact nomatch ha
  | restore => exact nomatch ha
  | externalResume => exact nomatch ha
  | runReady => exact nomatch ha
  | loginReturns => exact nomatch ha
  | commandEnds => exact nomatch ha
  | taskEnds => exact nomatch ha
  | promptReads => exact nomatch ha

/-! ## Logins -/

/-- The states differ in the queues at most. -/
structure SameLists (s s' : State) : Prop where
  nextTq : s'.nextTq = s.nextTq
  active : s'.activeTqueues = s.activeTqueues
  idle : s'.idleTqueues = s.idleTqueues
  waiting : s'.waitingTasks = s.waitingTasks

theorem SameLists.trans {s'' : State} (h : SameLists s s') (h' : SameLists s' s'') :
    SameLists s s'' :=
  ⟨h'.nextTq.trans h.nextTq, h'.active.trans h.active, h'.idle.trans h.idle,
    h'.waiting.trans h.waiting⟩

/-- `moveBgTasks` moves the whole list. -/
theorem moveBgTasks_spec (hqp : q ≠ p) {n : Nat} (hn : (s.tqs q).bg.length = n) :
    SameLists s (moveBgTasks q p n s) ∧
      (moveBgTasks q p n s).tqs q
        = { s.tqs q with bg := [], numBgTasks := (s.tqs q).numBgTasks - n } ∧
      (moveBgTasks q p n s).tqs p = { s.tqs p with bg := (s.tqs p).bg ++ (s.tqs q).bg } ∧
      ∀ r, r ≠ q → r ≠ p → (moveBgTasks q p n s).tqs r = s.tqs r := by
  induction n generalizing s with
  | zero =>
      have hnil : (s.tqs q).bg = [] := List.length_eq_zero_iff.mp hn
      refine ⟨⟨rfl, rfl, rfl, rfl⟩, ?_, ?_, fun _ _ _ => rfl⟩
      · rw [← hnil]
        show s.tqs q = { s.tqs q with bg := (s.tqs q).bg, numBgTasks := (s.tqs q).numBgTasks - 0 }
        rw [Int.sub_zero]
      · rw [hnil, List.append_nil]
        rfl
  | succ n ih =>
      cases hbg : (s.tqs q).bg with
      | nil =>
          rw [hbg] at hn
          exact nomatch hn
      | cons t rest =>
          let s1 := s.modifyTq q fun tq => { tq with bg := rest, numBgTasks := tq.numBgTasks - 1 }
          let s2 := enqueueBgTask p t s1
          have hstep : moveBgTasks q p (n + 1) s = moveBgTasks q p n s2 := by
            simp only [moveBgTasks, dequeueBgTask, hbg, s1, s2]
          have hq2 : s2.tqs q
              = { s.tqs q with bg := rest, numBgTasks := (s.tqs q).numBgTasks - 1 } :=
            (modifyTq_tqs_ne s1 _ hqp).trans (modifyTq_tqs_self s q _)
          have hp2 : s2.tqs p = { s.tqs p with bg := (s.tqs p).bg ++ [t] } := by
            have hp1 : s1.tqs p = s.tqs p := modifyTq_tqs_ne s _ hqp.symm
            have hp2 : s2.tqs p = { s1.tqs p with bg := (s1.tqs p).bg ++ [t] } :=
              modifyTq_tqs_self s1 p _
            rw [hp2, hp1]
          have hr2 : ∀ r, r ≠ q → r ≠ p → s2.tqs r = s.tqs r := fun r hrq hrp =>
            (modifyTq_tqs_ne s1 _ hrp).trans (modifyTq_tqs_ne s _ hrq)
          have hlen : (s2.tqs q).bg.length = n := by
            rw [hq2]
            rw [hbg] at hn
            exact Nat.succ.inj hn
          obtain ⟨hlists, hq, hp, hr⟩ := ih hlen
          have hlists2 : SameLists s s2 := ⟨rfl, rfl, rfl, rfl⟩
          rw [hstep]
          refine ⟨hlists2.trans hlists, ?_, ?_, ?_⟩
          · rw [hq, hq2]
            show _ = { s.tqs q with bg := [], numBgTasks := (s.tqs q).numBgTasks - (n + 1 : Nat) }
            have hsub : (s.tqs q).numBgTasks - 1 - (n : Int)
                = (s.tqs q).numBgTasks - ((n + 1 : Nat) : Int) := by omega
            rw [← hsub]
          · rw [hp, hp2, hq2]
            show { s.tqs p with bg := (s.tqs p).bg ++ [t] ++ rest } = _
            rw [List.append_assoc]
            rfl
          · intro r hrq hrp
            rw [hr r hrq hrp, hr2 r hrq hrp]

/-- What a login does to the queues: a new one is made, and something is stored in one. -/
inductive Edit : State → State → Prop where
  | create {s : State} (player : Objid) : findTqueue player s = none → Edit s (newTqueue player s)
  | store {s : State} (q : TqPtr) {f : TQueue → TQueue} : (f (s.tqs q)).usage = (s.tqs q).usage →
      (f (s.tqs q)).reading = (s.tqs q).reading → (Quiet (s.tqs q) → Quiet (f (s.tqs q))) →
      Edit s (s.modifyTq q f)

theorem Linked.edit (h : Linked s) (he : Edit s s') :
    Linked s' ∧ s'.activeTqueues = s.activeTqueues := by
  cases he with
  | create player _ => exact ⟨h.newTqueue player, rfl⟩
  | store q husage _ _ => exact ⟨h.modifyTq husage, rfl⟩

theorem Linked.edits (h : Linked s) (he : ReflTransGen Edit s s') :
    Linked s' ∧ s'.activeTqueues = s.activeTqueues := by
  induction he with
  | refl => exact ⟨h, rfl⟩
  | tail _ hlast ih =>
      obtain ⟨h', hact⟩ := ih.1.edit hlast
      exact ⟨h', hact.trans ih.2⟩

theorem edits_moveBgTasks (q p : TqPtr) (n : Nat) (s : State) :
    ReflTransGen Edit s (moveBgTasks q p n s) := by
  induction n generalizing s with
  | zero => exact .refl
  | succ n ih =>
      simp only [moveBgTasks]
      split
      next t s1 hd =>
        simp only [dequeueBgTask] at hd
        split at hd
        · cases hd
        next rest _ =>
          cases hd
          let s1 := s.modifyTq q fun tq => { tq with bg := rest, numBgTasks := tq.numBgTasks - 1 }
          have h1 : Edit s s1 := .store q rfl rfl fun h => ⟨h.input, h.reader⟩
          have h2 : Edit s1 (enqueueBgTask p t s1) := .store p rfl rfl fun h => ⟨h.input, h.reader⟩
          exact .head h1 (.head h2 (ih _))
      · exact .refl

theorem edits_flushInput (q : TqPtr) (n : Nat) (s : State) :
    ReflTransGen Edit s (flushInput q n s) := by
  induction n generalizing s with
  | zero => exact .refl
  | succ n ih =>
      simp only [flushInput]
      split
      next line s1 hd =>
        simp only [dequeueInputTask] at hd
        split at hd
        · cases hd
        · split at hd
          · cases hd
          next he =>
            cases hd
            refine .head (.store q rfl rfl fun h => ?_) (ih _)
            exact h.sublist (extractFirst_sublist he) rfl rfl rfl rfl
      · exact .refl

theorem edits_findOrCreate (player : Objid) (s : State) :
    ReflTransGen Edit s (findOrCreateTqueue player s).2 := by
  rcases findOrCreateTqueue_cases player s with ⟨q, -, heq⟩ | ⟨hnone, heq⟩
  · rw [heq]
  · rw [heq]
    exact .single (.create player hnone)

/-- The first part of a login: the tasks of the connection get a queue of their own. -/
def leaveOldQueue (q : TqPtr) (oldPlayer : Objid) (s : State) : State :=
  if (s.tqs q).numBgTasks ≠ 0 then
    let (old, s) := findOrCreateTqueue oldPlayer s
    let s := s.modifyTq old fun tq => { tq with numBgTasks := (s.tqs q).numBgTasks }
    let s := moveBgTasks q old (s.tqs q).bg.length s
    s.modifyTq q fun tq => { tq with numBgTasks := 0 }
  else s

/-- The second part: the tasks of the player's old queue come to the new one. -/
def takeOver (q dead : TqPtr) (s : State) : State :=
  let s := s.modifyTq q fun tq => { tq with numBgTasks := (s.tqs dead).numBgTasks }
  let s := flushAll dead s
  let s := moveBgTasks dead q (s.tqs dead).bg.length s
  s.modifyTq dead fun tq => { tq with player := nothing, numBgTasks := 0 }

theorem doLoginTask_eq (q : TqPtr) (newPlayer : Objid) (s : State) :
    doLoginTask q (some newPlayer) s = if !(s.tqs q).connected then s else
      let s1 := leaveOldQueue q (s.tqs q).player (s.modifyTq q fun tq => { tq with player := newPlayer })
      match findTqueue newPlayer s with
      | none => s1
      | some dead => takeOver q dead s1 := rfl

theorem edits_leaveOldQueue (q : TqPtr) (oldPlayer : Objid) (s : State) :
    ReflTransGen Edit s (leaveOldQueue q oldPlayer s) := by
  rw [leaveOldQueue]
  split
  · let r := findOrCreateTqueue oldPlayer s
    let s1 := r.2.modifyTq r.1 fun tq => { tq with numBgTasks := (r.2.tqs q).numBgTasks }
    let s2 := moveBgTasks q r.1 (s1.tqs q).bg.length s1
    have h1 : Edit r.2 s1 := .store r.1 rfl rfl fun h => ⟨h.input, h.reader⟩
    have h2 : Edit s2 (s2.modifyTq q fun tq => { tq with numBgTasks := 0 }) :=
      .store q rfl rfl fun h => ⟨h.input, h.reader⟩
    exact (edits_findOrCreate oldPlayer s).trans
      (.head h1 ((edits_moveBgTasks q r.1 _ s1).tail h2))
  · exact .refl

theorem edits_takeOver (q dead : TqPtr) (s : State) : ReflTransGen Edit s (takeOver q dead s) := by
  let s1 := s.modifyTq q fun tq => { tq with numBgTasks := (s.tqs dead).numBgTasks }
  let s2 := flushAll dead s1
  let s3 := moveBgTasks dead q (s2.tqs dead).bg.length s2
  have h1 : Edit s s1 := .store q rfl rfl fun h => ⟨h.input, h.reader⟩
  have h3 : Edit s3 (s3.modifyTq dead fun tq => { tq with player := nothing, numBgTasks := 0 }) :=
    .store dead rfl rfl fun h => ⟨h.input, h.reader⟩
  exact .head h1 ((edits_flushInput dead _ s1).trans ((edits_moveBgTasks dead q _ s2).tail h3))

theorem edits_doLoginTask (q : TqPtr) (result : Option Objid) (s : State) :
    ReflTransGen Edit s (doLoginTask q result s) := by
  cases result with
  | none => exact .refl
  | some newPlayer =>
      rw [doLoginTask_eq]
      split
      · exact .refl
      · have h1 : Edit s (s.modifyTq q fun tq => { tq with player := newPlayer }) :=
          .store q rfl rfl fun h => ⟨h.input, h.reader⟩
        have h2 := edits_leaveOldQueue q (s.tqs q).player
          (s.modifyTq q fun tq => { tq with player := newPlayer })
        split
        · exact .head h1 h2
        next dead _ => exact .head h1 (h2.trans (edits_takeOver q dead _))

/-! ## New background tasks -/

theorem Linked.enqueueWaiting (h : Linked s) (t : Task) :
    Linked (enqueueWaiting t s) ∧ Keeps s (enqueueWaiting t s) := by
  obtain ⟨h1, hk1⟩ := h.calls (calls_findOrCreate t.progr s)
  have h2 : Linked ((findOrCreateTqueue t.progr s).2.modifyTq (findOrCreateTqueue t.progr s).1
      fun tq => { tq with numBgTasks := tq.numBgTasks + 1 }) := h1.modifyTq rfl
  refine ⟨h2.congr rfl rfl rfl fun _ => rfl, hk1.trans (Keeps.trans ?_ (Keeps.waiting _ _))⟩
  exact Keeps.modifyTq _ _ rfl

theorem Linked.resumeTask (h : Linked s) (id : Int) (progr : Objid) (value : Var) :
    Linked (resumeTask id progr value s) ∧ Keeps s (resumeTask id progr value s) := by
  obtain ⟨h1, hk1⟩ := h.calls (calls_findOrCreate progr s)
  obtain ⟨hq, -⟩ := findOrCreateTqueue_mem progr s
  let r := findOrCreateTqueue progr s
  let n := newTask .suspended id progr 0 value r.2
  have h2 : Linked (enqueueBgTask r.1 n.1 n.2) := by
    have hn : Linked n.2 := h1.congr rfl rfl rfl fun _ => rfl
    exact hn.modifyTq rfl
  obtain ⟨h3, hw⟩ := h2.ensureUsage hq
  have hkn : Keeps r.2 n.2 := ⟨rfl, fun _ hp => hp, fun _ hp => hp, fun _ _ => rfl⟩
  exact ⟨h3, hk1.trans (hkn.trans ((Keeps.enqueueBgTask _ _ _).trans (Keeps.woken hw)))⟩

/-! ## The scheduler -/

/-- Starting a task of a queue takes it off its list, and may resume the reader. -/
theorem calls_tryTqueue (hq : q ∈ s.activeTqueues) (ht : tryTqueue q s = some s') :
    ∃ s1 what, ReflTransGen Call s s1 ∧ Beside s1 s' ∧ s'.control = .running q what ∧
      (what = .login → (s'.tqs q).player < 0) := by
  simp only [tryTqueue] at ht
  split at ht
  next line s1 hd =>
    cases ht
    have h1 : Call s s1 := Call.dequeueInputTask (List.mem_append_left _ hq) hd
    obtain ⟨hsame, -⟩ := SameTasks.dequeueInputTask hd
    have hq1 : q ∈ s1.activeTqueues := by
      rw [hsame.active]
      exact hq
    have hplain : ∀ w, w ≠ .login → ∃ s2 what, ReflTransGen Call s s2 ∧
        Beside s2 { s1 with control := .running q w } ∧
        ({ s1 with control := .running q w } : State).control = .running q what ∧
        (what = .login → (s1.tqs q).player < 0) := fun w hw =>
      ⟨s1, w, .single h1, ⟨rfl, rfl, rfl, rfl, rfl⟩, rfl, fun h => absurd h hw⟩
    simp only [startInput]
    split
    · exact hplain .plain (fun h => (by cases h))
    · split
      · have h2 : Call s1 (s1.modifyTq q fun tq => { tq with reading := false }) :=
          Call.killReader (List.mem_append_left _ hq1)
        exact ⟨_, .plain, .tail (.single h1) h2, ⟨rfl, rfl, rfl, rfl, rfl⟩, rfl, fun h => (by cases h)⟩
      · split
        · exact hplain .command (fun h => (by cases h))
        next hneg =>
          exact ⟨s1, .login, .single h1, ⟨rfl, rfl, rfl, rfl, rfl⟩, rfl,
            fun _ => Int.not_le.mp hneg⟩
  · split at ht
    next t s1 hd =>
      cases ht
      simp only [dequeueBgTask] at hd
      split at hd
      · cases hd
      next rest hbg =>
        cases hd
        exact ⟨_, .plain, .single (Call.leave (List.Perm.of_eq hbg) hq), ⟨rfl, rfl, rfl, rfl, rfl⟩,
          rfl, fun h => (by cases h)⟩
    · cases ht

/-- When there is nothing to dequeue. -/
theorem dequeueInputTask_none {how : DequeueHow} (hd : dequeueInputTask q how s = none) :
    (s.tqs q).disableOob = true ∧ how = .oob ∨
      ∀ line ∈ (s.tqs q).input, (if (s.tqs q).disableOob then .first else how).wants line = false := by
  simp only [dequeueInputTask, Bool.and_eq_true, decide_eq_true_eq] at hd
  split at hd
  next h => exact .inl h
  · split at hd
    next he => exact .inr (forall_of_extractFirst he)
    · cases hd

/-- A queue that has no task to start has no background task, and none of its lines can be
    given to anyone. -/
theorem tryTqueue_none (ht : tryTqueue q s = none)
    (hreader : (s.tqs q).reading = true → isOutOfInput (s.tqs q) = false) :
    (s.tqs q).bg = [] ∧ Quiet (s.tqs q) := by
  simp only [tryTqueue] at ht
  split at ht
  · cases ht
  next hd =>
    constructor
    · split at ht
      · cases ht
      next hbg => exact dequeueBgTask_eq_none hbg
    · have hin : (s.tqs q).input = [] ∨ (s.tqs q).holdInput = true ∧ (s.tqs q).reading = false ∧
          ((s.tqs q).disableOob = true ∨ ∀ t ∈ (s.tqs q).input, t.kind ≠ .oob) := by
        by_cases hhold : ((s.tqs q).holdInput && !(s.tqs q).reading) = true
        · obtain ⟨hh, hr⟩ := by simpa using hhold
          refine .inr ⟨hh, hr, ?_⟩
          rw [if_pos hhold] at hd
          cases hdis : (s.tqs q).disableOob with
          | true => exact .inl rfl
          | false =>
              rcases dequeueInputTask_none hd with ⟨hdis', -⟩ | hno
              · exact absurd (hdis.symm.trans hdis') (by decide)
              · rw [hdis] at hno
                exact .inr fun t ht => by simpa [DequeueHow.wants] using hno t ht
        · rw [if_neg hhold] at hd
          rcases dequeueInputTask_none hd with ⟨-, hfirst⟩ | hno
          · cases hfirst
          · rw [ite_self] at hno
            exact .inl (List.eq_nil_iff_forall_not_mem.mpr fun t ht => by cases hno t ht)
      refine ⟨hin, fun hr => ?_⟩
      have hnil : (s.tqs q).input = [] := by
        refine hin.resolve_right fun hrest => ?_
        exact absurd (hr.symm.trans hrest.2.1) (by decide)
      have hout := hreader hr
      rw [isOutOfInput, hnil] at hout
      simpa using hout

theorem Linked.deactivate (h : Linked s) {rest : List TqPtr} (hact : s.activeTqueues = q :: rest) :
    Linked (deactivateTqueue q { s with activeTqueues := rest }) := by
  have hperm : (rest ++ q :: s.idleTqueues).Perm (s.activeTqueues ++ s.idleTqueues) := by
    rw [hact]
    exact List.perm_middle
  have hne : ∀ p ∈ rest ++ s.idleTqueues, p ≠ q := by
    have hnd := h.nodup
    rw [hact] at hnd
    rintro p hp rfl
    exact (List.nodup_cons.mp hnd).1 hp
  have hold : ∀ p, p ≠ q → (deactivateTqueue q { s with activeTqueues := rest }).tqs p = s.tqs p :=
    fun p hp => modifyTq_tqs_ne s (fun tq => { tq with usage := noUsage }) hp
  constructor
  · exact hperm.nodup_iff.mpr h.nodup
  · exact fun p hp => h.fresh p (hperm.mem_iff.mp hp)
  · intro p hp
    rw [hold p (hne p (List.mem_append_left _ hp))]
    exact h.usageActive p (by rw [hact]; exact List.mem_cons_of_mem q hp)
  · intro p hp
    rcases List.mem_cons.mp hp with rfl | hp
    · exact congrArg TQueue.usage (modifyTq_tqs_self s p fun tq => { tq with usage := noUsage })
    · rw [hold p (hne p (List.mem_append_right _ hp))]
      exact h.usageIdle p hp

theorem Linked.rotate (h : Linked s) {l : List TqPtr} (n : Nat) (hq : q ∈ s.activeTqueues)
    (hperm : l.Perm s.activeTqueues) :
    Linked { s.modifyTq q (fun tq => { tq with usage := tq.usage + n }) with activeTqueues := l } := by
  have hlists := hperm.append_right s.idleTqueues
  constructor
  · exact hlists.nodup_iff.mpr h.nodup
  · exact fun p hp => h.fresh p (hlists.mem_iff.mp hp)
  · intro p hp
    have hpa := h.usageActive p (hperm.mem_iff.mp hp)
    show 0 ≤ ((s.modifyTq q fun tq => { tq with usage := tq.usage + n }).tqs p).usage
    by_cases hpq : p = q
    · subst hpq
      rw [modifyTq_tqs_self]
      show 0 ≤ (s.tqs p).usage + n
      omega
    · rw [modifyTq_tqs_ne s _ hpq]
      exact hpa
  · intro p hp
    show ((s.modifyTq q fun tq => { tq with usage := tq.usage + n }).tqs p).usage = noUsage
    have hpq : p ≠ q := by
      rintro rfl
      exact h.disjoint hq hp
    rw [modifyTq_tqs_ne s _ hpq]
    exact h.usageIdle p hp

theorem Linked.free (h : Linked s) : Linked (freeEmptyTqueues s) := by
  have hidle : (freeEmptyTqueues s).idleTqueues.Sublist s.idleTqueues := List.filter_sublist
  have hlists := hidle.append_left s.activeTqueues
  constructor
  · exact hlists.nodup h.nodup
  · exact fun p hp => h.fresh p (hlists.subset hp)
  · exact h.usageActive
  · exact fun p hp => h.usageIdle p (hidle.subset hp)

/-! ## What all of this keeps -/

/-- A property of the queues that calls and the scheduler keep. -/
structure Closed (P : State → Prop) : Prop where
  linked : ∀ {s}, P s → Linked s
  call : ∀ {s s'}, P s → Call s s' → P s'
  beside : ∀ {s s'}, P s → Beside s s' → P s'
  /-- the first active queue has nothing to do -/
  deactivate : ∀ {s q rest}, P s → s.activeTqueues = q :: rest → (s.tqs q).bg = [] →
    Quiet (s.tqs q) → P (deactivateTqueue q { s with activeTqueues := rest })
  /-- an active queue goes to another place -/
  rotate : ∀ {s q l} (n : Nat), P s → q ∈ s.activeTqueues → l.Perm s.activeTqueues →
    P { s.modifyTq q (fun tq => { tq with usage := tq.usage + n }) with activeTqueues := l }
  free : ∀ {s}, P s → P (freeEmptyTqueues s)

variable {P : State → Prop}

theorem Closed.calls (hP : Closed P) (h : P s) (hc : ReflTransGen Call s s') : P s' := by
  induction hc with
  | refl => exact h
  | tail _ hlast ih => exact hP.call ih hlast

/-- A task of the first active queue is started. -/
theorem Closed.tryTqueue (hP : Closed P) (h : P s) (hhead : s.activeTqueues.head? = some q)
    (ht : tryTqueue q s = some s') : P s' ∧ Serving s' := by
  obtain ⟨s1, what, hcalls, hb, hctl, hlogin⟩ := calls_tryTqueue (List.mem_of_mem_head? hhead) ht
  obtain ⟨-, hk⟩ := (hP.linked h).calls hcalls
  refine ⟨hP.beside (hP.calls h hcalls) hb, fun p w hp => ?_⟩
  rw [hctl] at hp
  cases hp
  rw [hb.active]
  exact ⟨hk.head q hhead, hlogin⟩

theorem Closed.scanTqueues (hP : Closed P) (qs : List TqPtr) (h : P s) (hact : s.activeTqueues = qs) :
    P (scanTqueues qs s) ∧ Serving (scanTqueues qs s) := by
  induction qs generalizing s with
  | nil =>
      have htop : P { s with control := .top } := hP.beside h ⟨rfl, rfl, rfl, rfl, rfl⟩
      exact ⟨hP.free htop, fun q w hc => (by cases hc)⟩
  | cons q rest ih =>
      have hhead : s.activeTqueues.head? = some q := by
        rw [hact]
        rfl
      simp only [Tasks.scanTqueues]
      split
      · -- the reader gets its error
        have hq : q ∈ s.activeTqueues := List.mem_of_mem_head? hhead
        have h1 := hP.call h (Call.killReader (List.mem_append_left _ hq))
        refine ⟨hP.beside h1 ⟨rfl, rfl, rfl, rfl, rfl⟩, fun p w hp => ?_⟩
        cases hp
        exact ⟨hhead, fun hw => (by cases hw)⟩
      next hreader =>
        split
        next s' ht => exact hP.tryTqueue h hhead ht
        next ht =>
          have hout : (s.tqs q).reading = true → isOutOfInput (s.tqs q) = false := by
            intro hr
            rw [hr, Bool.true_and] at hreader
            exact Bool.eq_false_iff.mpr hreader
          obtain ⟨hbg, hquiet⟩ := tryTqueue_none ht hout
          exact ih (hP.deactivate h hact hbg hquiet) rfl

theorem Closed.endTask (hP : Closed P) (h : P s) (hhead : s.activeTqueues.head? = some q)
    (didOne : Bool) (elapsed : Nat) (hreader : didOne = false → (s.tqs q).reading = true →
      isOutOfInput (s.tqs q) = false) :
    P (endTask q didOne elapsed s) ∧ Serving (endTask q didOne elapsed s) := by
  obtain ⟨rest, hact⟩ := List.head?_eq_some_iff.mp hhead
  have hq : q ∈ s.activeTqueues := List.mem_of_mem_head? hhead
  have hafter : afterTq q s.activeTqueues = rest := by rw [hact, afterTq_head]
  cases didOne with
  | true =>
      have hperm : (insertByUsage (s.modifyTq q fun tq =>
          { tq with usage := tq.usage + elapsed }).tqs q rest).Perm s.activeTqueues := by
        rw [hact]
        exact insertByUsage_perm _ q rest
      have hrot := hP.rotate elapsed h hq hperm
      refine ⟨hP.free ?_, fun p w hp => nomatch hp⟩
      simp only [hafter]
      exact hP.beside hrot ⟨rfl, rfl, rfl, rfl, rfl⟩
  | false =>
      simp only [Tasks.endTask, Bool.false_eq_true, if_false, hafter]
      split
      next s' ht => exact hP.tryTqueue h hhead ht
      next ht =>
        obtain ⟨hbg, hquiet⟩ := tryTqueue_none ht (hreader rfl)
        exact hP.scanTqueues rest (hP.deactivate h hact hbg hquiet) rfl

theorem Closed.runReadyTasks (hP : Closed P) (h : P s) (now : Int) :
    P (runReadyTasks now s) ∧ Serving (runReadyTasks now s) :=
  hP.scanTqueues _ (hP.calls h (calls_moveReady now _ rfl)) rfl

theorem ensureUsage_field {β : Type*} (s : State) (q p : TqPtr) (g : TQueue → β)
    (hg : ∀ tq u, g { tq with usage := u } = g tq) : g ((ensureUsage q s).tqs p) = g (s.tqs p) := by
  rw [ensureUsage]
  split
  · refine modifyTq_field s q p (fun tq => { tq with usage := _ }) g ?_
    exact hg _ _
  · rfl

/-- A reader comes to a queue that is connected or has input. -/
theorem makeReadingTask_reader {player : Objid} {vm : Int} (hr : (s.tqs q).reading = false)
    (hr' : ((makeReadingTask player vm s).2.tqs q).reading = true) :
    isOutOfInput ((makeReadingTask player vm s).2.tqs q) = false := by
  simp only [makeReadingTask] at hr' ⊢
  split at hr'
  · exact absurd (hr.symm.trans hr') (by decide)
  next q' hfind =>
    split at hr'
    · exact absurd (hr.symm.trans hr') (by decide)
    next hguard =>
      let s1 := s.modifyTq q' fun tq => { tq with reading := true, readingVm := vm }
      have hfield : ∀ {β : Type} (g : TQueue → β), (∀ tq u, g { tq with usage := u } = g tq) →
          g ((if (s.tqs q').input.isEmpty then s1 else ensureUsage q' s1).tqs q) = g (s1.tqs q) := by
        intro β g hg
        split
        · rfl
        · exact ensureUsage_field s1 q' q g hg
      have hread : (s1.tqs q).reading = true := (hfield TQueue.reading fun _ _ => rfl).symm.trans hr'
      have hq : q = q' := by
        by_contra hne
        rw [modifyTq_tqs_ne s _ hne] at hread
        exact absurd (hr.symm.trans hread) (by decide)
      rw [if_neg hguard]
      have hout := hfield isOutOfInput fun _ _ => rfl
      rw [hq, modifyTq_tqs_self] at hout
      rw [hq]
      refine hout.trans ?_
      simp only [Bool.or_eq_true, not_or, Bool.not_eq_true] at hguard
      exact hguard.2

/-- Every step but a login and the handing over of a new background task keeps a closed
    property. -/
theorem Closed.step (hP : Closed P) {a : Action} (h : P s) (hs : Serving s) (hstep : Step s a s')
    (ha : a.isCall = true ∨ (∃ now, a = .runReady now) ∨ (∃ d e, a = .taskEnds d e) ∨
      ∃ p vm, a = .promptReads p vm) : P s' ∧ Serving s' := by
  rcases ha with ha | ⟨now, rfl⟩ | ⟨d, e, rfl⟩ | ⟨p, vm, rfl⟩
  · have hcalls := hstep.calls ha
    exact ⟨hP.calls h hcalls, hs.of_keeps ((hP.linked h).calls hcalls).2⟩
  · cases hstep with
    | runReady => exact hP.runReadyTasks h now
  · cases hstep with
    | commandEnds q _ _ hctl hr =>
        refine hP.endTask h (hs q .command hctl).1 d e fun hd hr' => ?_
        exact absurd (hr'.symm.trans (hr hd)) (by decide)
    | taskEnds q _ hctl => exact hP.endTask h (hs q .plain hctl).1 true e fun hd => nomatch hd
  · cases hstep with
    | promptReads q _ _ hctl hr _ =>
        have hcalls := calls_makeReadingTask (s := s) p vm
        obtain ⟨-, hk⟩ := (hP.linked h).calls hcalls
        exact hP.endTask (hP.calls h hcalls) (hk.head q (hs q .command hctl).1) false 0
          fun _ hr' => makeReadingTask_reader hr hr'

end Waverous.Tasks
