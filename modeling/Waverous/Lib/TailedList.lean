import Mathlib.Logic.Function.Basic
import Mathlib.Data.List.Nodup

/-! # Lists threaded through slots

    A node holds a link to the next one, and so does the head of the list; whoever adds
    and takes away nodes keeps the address of such a slot.  `Threaded` says that the slot
    behind every initial part of a list holds the first node of the rest.  The ends of the
    runs of a list, in which a list of lists may be threaded, are in the second part. -/

namespace TailedList

universe u

/-- A place that holds a link. -/
inductive Slot (ι : Type u) where
  | head
  | link (a : ι)
  deriving DecidableEq, Repr

/-- The links of some nodes, and a first one. -/
structure Links (ι : Type u) where
  head : Option ι
  next : ι → Option ι

variable {ι : Type u}

/-- What a slot holds. -/
def Links.get (s : Links ι) : Slot ι → Option ι
  | .head => s.head
  | .link a => s.next a

/-- Store into a slot. -/
def Links.set [DecidableEq ι] (s : Links ι) (x : Slot ι) (v : Option ι) : Links ι :=
  match x with
  | .head => { s with head := v }
  | .link a => { s with next := Function.update s.next a v }

/-- The slot behind the nodes. -/
def slotAfter (l : List ι) : Slot ι :=
  match l.getLast? with
  | none => .head
  | some a => .link a

/-- The links thread the list. -/
def Threaded (s : Links ι) (l : List ι) : Prop :=
  ∀ l1 l2, l = l1 ++ l2 → s.get (slotAfter l1) = l2.head?

section Slots

variable {l l1 l2 d e : List ι} {a : ι}

@[simp] theorem slotAfter_nil : slotAfter ([] : List ι) = .head := rfl

@[simp] theorem slotAfter_concat (l : List ι) (a : ι) : slotAfter (l ++ [a]) = .link a := by
  rw [slotAfter, List.getLast?_concat]

@[simp] theorem slotAfter_singleton (a : ι) : slotAfter [a] = .link a := rfl

theorem slotAfter_append (l : List ι) (h : l2 ≠ []) : slotAfter (l ++ l2) = slotAfter l2 := by
  rw [slotAfter, slotAfter, List.getLast?_append_of_ne_nil l h]

theorem slotAfter_cons (a : ι) (h : l ≠ []) : slotAfter (a :: l) = slotAfter l :=
  slotAfter_append [a] h

theorem slotAfter_eq_head : slotAfter l = .head ↔ l = [] := by
  constructor
  · intro h
    rcases List.eq_nil_or_concat l with hl | ⟨m, a, rfl⟩
    · exact hl
    · rw [List.concat_eq_append, slotAfter_concat] at h
      exact nomatch h
  · rintro rfl
    rfl

theorem slotAfter_eq_link (h : slotAfter l = .link a) : a ∈ l := by
  rcases List.eq_nil_or_concat l with rfl | ⟨m, b, rfl⟩
  · exact nomatch h
  · rw [List.concat_eq_append, slotAfter_concat] at h
    cases h
    rw [List.concat_eq_append]
    exact List.mem_append_right m List.mem_cons_self

/-- Different parts of a list of different nodes end in different slots. -/
theorem slotAfter_ne (h : (l1 ++ l2).Nodup) (hne : l2 ≠ []) : slotAfter (l1 ++ l2) ≠ slotAfter l1 := by
  intro heq
  rw [slotAfter_append l1 hne] at heq
  cases hslot : slotAfter l1 with
  | head =>
      rw [hslot] at heq
      exact hne (slotAfter_eq_head.mp heq)
  | link a =>
      rw [hslot] at heq
      exact (List.nodup_append.mp h).2.2 a (slotAfter_eq_link hslot) a (slotAfter_eq_link heq) rfl

end Slots

section Threads

variable {s s' : Links ι} {l l1 l2 d e : List ι} {a b : ι}

theorem Threaded.nil_iff : Threaded s [] ↔ s.head = none := by
  constructor
  · exact fun h => h [] [] rfl
  · intro h l1 l2 hl
    obtain ⟨rfl, rfl⟩ := List.append_eq_nil_iff.mp hl.symm
    exact h

theorem Threaded.head (h : Threaded s l) : s.head = l.head? := h [] l rfl

theorem Threaded.next (h : Threaded s (l1 ++ a :: l2)) : s.next a = l2.head? := by
  have := h (l1 ++ [a]) l2 (by rw [List.append_assoc]; rfl)
  rw [slotAfter_concat] at this
  exact this

/-- The last slot is empty. -/
theorem Threaded.last (h : Threaded s l) : s.get (slotAfter l) = none :=
  h l [] (List.append_nil l).symm

theorem Threaded.congr (h : Threaded s l) (hhead : s'.head = s.head)
    (hnext : ∀ a ∈ l, s'.next a = s.next a) : Threaded s' l := by
  intro l1 l2 hl
  rw [← h l1 l2 hl]
  cases hslot : slotAfter l1 with
  | head => exact hhead
  | link a =>
      refine hnext a ?_
      rw [hl]
      exact List.mem_append_left l2 (slotAfter_eq_link hslot)

variable [DecidableEq ι]

theorem get_set_self (s : Links ι) (x : Slot ι) (v : Option ι) : (s.set x v).get x = v := by
  cases x with
  | head => rfl
  | link a => exact Function.update_self a v s.next

theorem get_set_ne (s : Links ι) {x y : Slot ι} (v : Option ι) (h : y ≠ x) :
    (s.set x v).get y = s.get y := by
  cases x with
  | head =>
      cases y with
      | head => exact absurd rfl h
      | link b => rfl
  | link a =>
      cases y with
      | head => rfl
      | link b =>
          have hba : b ≠ a := fun hba => h (congrArg Slot.link hba)
          exact Function.update_of_ne hba v s.next

theorem set_link_next_ne (s : Links ι) (v : Option ι) (h : b ≠ a) :
    (s.set (.link a) v).next b = s.next b := by
  show Function.update s.next a v b = s.next b
  rw [Function.update_of_ne h]

/-- The link of a node that is not on the list does not matter. -/
theorem Threaded.set_link (h : Threaded s l) (ha : a ∉ l) (v : Option ι) :
    Threaded (s.set (.link a) v) l := by
  refine h.congr rfl fun b hb => set_link_next_ne s v ?_
  rintro rfl
  exact ha hb

/-- What follows a slot gives way to another list, whose own links are right. -/
theorem Threaded.splice (h : Threaded s (d ++ e)) (hnodup : (d ++ l).Nodup)
    (hrest : ∀ m1 m2, l = m1 ++ m2 → m1 ≠ [] → s.get (slotAfter m1) = m2.head?) :
    Threaded (s.set (slotAfter d) l.head?) (d ++ l) := by
  intro p1 p2 hp
  rcases List.append_eq_append_iff.mp hp with ⟨m, rfl, rfl⟩ | ⟨m, rfl, rfl⟩
  · -- the slot is at the place or behind it
    by_cases hm : m = []
    · subst hm
      rw [List.append_nil, get_set_self]
      rfl
    · have hne : slotAfter (d ++ m) ≠ slotAfter d := by
        rw [← List.append_assoc] at hnodup
        exact slotAfter_ne (List.nodup_append.mp hnodup).1 hm
      rw [get_set_ne s _ hne, slotAfter_append d hm]
      exact hrest m p2 rfl hm
  · -- it is before the place
    by_cases hm : m = []
    · subst hm
      rw [List.append_nil, get_set_self]
      rfl
    · have hne : slotAfter p1 ≠ slotAfter (p1 ++ m) := by
        exact (slotAfter_ne (List.nodup_append.mp hnodup).1 hm).symm
      rw [get_set_ne s _ hne, h p1 (m ++ e) (List.append_assoc p1 m e)]
      cases m with
      | nil => exact absurd rfl hm
      | cons b m => rfl

/-- A node comes behind all others, or takes the place of those behind a slot. -/
theorem Threaded.concat (h : Threaded s (d ++ e)) (ha : a ∉ d) (hd : d.Nodup)
    (hnext : s.next a = none) : Threaded (s.set (slotAfter d) (some a)) (d ++ [a]) := by
  refine h.splice (l := [a]) (hd.append (List.nodup_singleton a) ?_) fun m1 m2 hm hne => ?_
  · intro b hb hba
    exact ha (List.mem_singleton.mp hba ▸ hb)
  · cases m1 with
    | nil => exact absurd rfl hne
    | cons b m1 =>
        injection hm with hab hm
        obtain ⟨rfl, rfl⟩ := List.append_eq_nil_iff.mp hm.symm
        rw [← hab]
        exact hnext

/-- A node comes before all others. -/
theorem Threaded.cons (h : Threaded s l) (ha : a ∉ l) (hl : l.Nodup) :
    Threaded ((s.set (.link a) s.head).set .head (some a)) (a :: l) := by
  have h1 : Threaded (s.set (.link a) s.head) ([] ++ l) := h.set_link ha s.head
  refine h1.splice (l := a :: l) (List.nodup_cons.mpr ⟨ha, hl⟩) fun m1 m2 hm hne => ?_
  cases m1 with
  | nil => exact absurd rfl hne
  | cons b m1 =>
      injection hm with hab hm
      subst hab
      by_cases hm1 : m1 = []
      · subst hm1
        rw [slotAfter_singleton, get_set_self, h.head, hm]
        rfl
      · rw [slotAfter_cons a hm1]
        exact h1 m1 m2 hm

/-- A node goes. -/
theorem Threaded.erase (h : Threaded s (d ++ a :: e)) (hnodup : (d ++ a :: e).Nodup) :
    Threaded (s.set (slotAfter d) (s.next a)) (d ++ e) := by
  rw [h.next]
  refine h.splice ?_ fun m1 m2 hm hne => ?_
  · exact hnodup.sublist ((List.sublist_cons_self a e).append_left d)
  · have hbehind := h (d ++ a :: m1) m2 (by rw [hm, List.append_assoc]; rfl)
    rw [slotAfter_append d (List.cons_ne_nil a m1), slotAfter_cons a hne] at hbehind
    exact hbehind

end Threads

/-! ## The ends of runs -/

section Runs

variable (c : ι → Bool)

/-- The last ones of the maximal runs of one class. -/
def runEnds : List ι → List ι
  | [] => []
  | [a] => [a]
  | a :: b :: l => if c a = c b then runEnds (b :: l) else a :: runEnds (b :: l)

variable {c} {c' : ι → Bool} {l r : List ι} {a b : ι} {k : Bool}

theorem runEnds_cons_same (h : c a = c b) : runEnds c (a :: b :: l) = runEnds c (b :: l) :=
  if_pos h

theorem runEnds_cons_other (h : c a ≠ c b) : runEnds c (a :: b :: l) = a :: runEnds c (b :: l) :=
  if_neg h

theorem runEnds_sublist (l : List ι) : (runEnds c l).Sublist l := by
  induction l with
  | nil => exact List.Sublist.refl []
  | cons a l ih =>
      cases l with
      | nil => exact List.Sublist.refl [a]
      | cons b l =>
          simp only [runEnds]
          split
          · exact ih.cons a
          · exact ih.cons_cons a

theorem runEnds_congr (h : ∀ a ∈ l, c' a = c a) : runEnds c' l = runEnds c l := by
  induction l with
  | nil => rfl
  | cons a l ih =>
      cases l with
      | nil => rfl
      | cons b l =>
          have ha := h a List.mem_cons_self
          have hb := h b (List.mem_cons_of_mem a List.mem_cons_self)
          simp only [runEnds, ha, hb]
          rw [ih fun x hx => h x (List.mem_cons_of_mem a hx)]

theorem runEnds_eq_nil : runEnds c l = [] ↔ l = [] := by
  constructor
  · intro h
    induction l with
    | nil => rfl
    | cons a l ih =>
        cases l with
        | nil => exact nomatch h
        | cons b l =>
            simp only [runEnds] at h
            split at h
            · exact nomatch ih h
            · exact nomatch h
  · rintro rfl
    rfl

/-- The last one of all ends the last run. -/
theorem runEnds_getLast? (l : List ι) : (runEnds c l).getLast? = l.getLast? := by
  induction l with
  | nil => rfl
  | cons a l ih =>
      cases l with
      | nil => rfl
      | cons b l =>
          have hne : runEnds c (b :: l) ≠ [] := fun h => nomatch runEnds_eq_nil.mp h
          rw [List.getLast?_cons_cons, ← ih]
          simp only [runEnds]
          split
          · rfl
          · exact List.getLast?_append_of_ne_nil [a] hne

/-- A first run before others of the other class. -/
theorem runEnds_append_other (hr : ∀ x ∈ r, c x = k) (ha : c a = k) (hb : c b ≠ k) :
    runEnds c (r ++ a :: b :: l) = a :: runEnds c (b :: l) := by
  induction r with
  | nil => exact runEnds_cons_other fun h => hb (h.symm.trans ha)
  | cons x r ih =>
      have hx := hr x List.mem_cons_self
      rw [← ih fun y hy => hr y (List.mem_cons_of_mem x hy)]
      cases r with
      | nil => exact runEnds_cons_same (hx.trans ha.symm)
      | cons y r =>
          have hy := hr y (List.mem_cons_of_mem x List.mem_cons_self)
          exact runEnds_cons_same (hx.trans hy.symm)

/-- A first run that goes on. -/
theorem runEnds_append_same (hr : ∀ x ∈ r, c x = k) (ha : c a = k) :
    runEnds c (r ++ a :: l) = runEnds c (a :: l) := by
  induction r with
  | nil => rfl
  | cons x r ih =>
      have hx := hr x List.mem_cons_self
      rw [← ih fun y hy => hr y (List.mem_cons_of_mem x hy)]
      cases r with
      | nil => exact runEnds_cons_same (hx.trans ha.symm)
      | cons y r =>
          have hy := hr y (List.mem_cons_of_mem x List.mem_cons_self)
          exact runEnds_cons_same (hx.trans hy.symm)

/-- One more at the end: it goes on with the last run, or it is a run of its own. -/
theorem runEnds_concat_same (h : c a = c b) :
    runEnds c (l ++ [a, b]) = (runEnds c (l ++ [a])).dropLast ++ [b] := by
  induction l with
  | nil => exact runEnds_cons_same h
  | cons x l ih =>
      cases l with
      | nil =>
          show runEnds c (x :: a :: [b]) = (runEnds c (x :: a :: [])).dropLast ++ [b]
          by_cases hx : c x = c a
          · rw [runEnds_cons_same hx, runEnds_cons_same hx]
            exact ih
          · rw [runEnds_cons_other hx, runEnds_cons_other hx]
            exact congrArg (x :: ·) ih
      | cons y l =>
          show runEnds c (x :: y :: (l ++ [a, b]))
            = (runEnds c (x :: y :: (l ++ [a]))).dropLast ++ [b]
          by_cases hx : c x = c y
          · rw [runEnds_cons_same hx, runEnds_cons_same hx]
            exact ih
          · have hne : runEnds c (y :: (l ++ [a])) ≠ [] := fun h => nomatch runEnds_eq_nil.mp h
            rw [runEnds_cons_other hx, runEnds_cons_other hx, List.dropLast_cons_of_ne_nil hne]
            exact congrArg (x :: ·) ih

theorem runEnds_concat_other (h : c a ≠ c b) :
    runEnds c (l ++ [a, b]) = runEnds c (l ++ [a]) ++ [b] := by
  induction l with
  | nil => exact runEnds_cons_other h
  | cons x l ih =>
      cases l with
      | nil =>
          show runEnds c (x :: a :: [b]) = runEnds c (x :: a :: []) ++ [b]
          by_cases hx : c x = c a
          · rw [runEnds_cons_same hx, runEnds_cons_same hx]
            exact ih
          · rw [runEnds_cons_other hx, runEnds_cons_other hx]
            exact congrArg (x :: ·) ih
      | cons y l =>
          show runEnds c (x :: y :: (l ++ [a, b])) = runEnds c (x :: y :: (l ++ [a])) ++ [b]
          by_cases hx : c x = c y
          · rw [runEnds_cons_same hx, runEnds_cons_same hx]
            exact ih
          · rw [runEnds_cons_other hx, runEnds_cons_other hx]
            exact congrArg (x :: ·) ih

/-- Every list begins with a run. -/
theorem exists_first_run (c : ι → Bool) (a : ι) (l : List ι) :
    ∃ r b rest, a :: l = r ++ b :: rest ∧ (∀ x ∈ r, c x = c a) ∧ c b = c a ∧
      ∀ x ∈ rest.head?, c x ≠ c a := by
  induction l generalizing a with
  | nil =>
      exact ⟨[], a, [], rfl, fun _ h => (nomatch h), rfl, fun _ h => (nomatch h)⟩
  | cons b l ih =>
      by_cases hab : c a = c b
      · obtain ⟨r, e, rest, heq, hr, he, hrest⟩ := ih b
        refine ⟨a :: r, e, rest, ?_, fun x hx => ?_, he.trans hab.symm, ?_⟩
        · rw [heq]
          rfl
        · rcases List.mem_cons.mp hx with rfl | hx
          · rfl
          · exact (hr x hx).trans hab.symm
        · rw [hab]
          exact hrest
      · refine ⟨[], a, b :: l, rfl, fun _ h => (nomatch h), rfl, fun x hx => ?_⟩
        cases hx
        exact fun h => hab h.symm

end Runs

end TailedList
