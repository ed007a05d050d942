import Mathlib.Logic.Equiv.Basic
import Mathlib.Data.List.Nodup
import Mathlib.Data.List.Perm.Subperm

/-! # Forests threaded through their nodes

    A node has a link to its parent, one to the first of its children, and one to
    the next child of its parent; a fixed value `nil`, which is no node, ends
    every list.  `Forest` says that the links are those of a forest whose lists of
    children are `L`; it is kept by making a lone node, by destroying one and by
    renaming nodes. -/

namespace LinkedForest

universe u

/-- The links of a node. -/
structure Links (α : Type u) where
  up : α
  first : α
  next : α
  deriving DecidableEq, Repr

variable {α : Type u}

/-! ## Walks -/

/-- Following `f` from `c` one passes through `cs` and comes to `d`. -/
def Seg (f : α → Option α) : α → List α → α → Prop
  | c, [], d => c = d
  | c, x :: cs, d => c = x ∧ ∃ m, f x = some m ∧ Seg f m cs d

section Seg

variable {f g : α → Option α} {a b c d nil x : α} {cs ds : List α}

theorem seg_append : Seg f c (cs ++ ds) d ↔ ∃ m, Seg f c cs m ∧ Seg f m ds d := by
  induction cs generalizing c with
  | nil =>
      constructor
      · intro h
        exact ⟨c, rfl, h⟩
      · rintro ⟨m, rfl, h⟩
        exact h
  | cons x cs ih =>
      constructor
      · rintro ⟨rfl, m, hm, h⟩
        obtain ⟨k, hk, hd⟩ := ih.mp h
        exact ⟨k, ⟨rfl, m, hm, hk⟩, hd⟩
      · rintro ⟨k, ⟨rfl, m, hm, hk⟩, hd⟩
        exact ⟨rfl, m, hm, ih.mpr ⟨k, hk, hd⟩⟩

theorem Seg.congr (h : Seg f c cs d) (hfg : ∀ x ∈ cs, g x = f x) : Seg g c cs d := by
  induction cs generalizing c with
  | nil => exact h
  | cons x cs ih =>
      obtain ⟨rfl, m, hm, h⟩ := h
      refine ⟨rfl, m, ?_, ih h fun y hy => hfg y (List.mem_cons_of_mem c hy)⟩
      rw [hfg c List.mem_cons_self, hm]

/-- Every node that is passed has a successor. -/
theorem Seg.succ (h : Seg f c cs d) (hx : x ∈ cs) : ∃ m, f x = some m := by
  obtain ⟨l, r, rfl⟩ := List.append_of_mem hx
  obtain ⟨m, -, rfl, k, hk, -⟩ := seg_append.mp h
  exact ⟨k, hk⟩

/-- Of two walks from one place, one continues the other. -/
theorem Seg.comparable (h : Seg f c cs a) (h' : Seg f c ds b) :
    (∃ rs, Seg f a rs b ∧ ds = cs ++ rs) ∨ ∃ rs, Seg f b rs a ∧ cs = ds ++ rs := by
  induction cs generalizing c ds with
  | nil =>
      cases h
      exact .inl ⟨ds, h', rfl⟩
  | cons x cs ih =>
      cases ds with
      | nil =>
          cases h'
          exact .inr ⟨x :: cs, h, rfl⟩
      | cons y ds =>
          obtain ⟨rfl, m, hm, h⟩ := h
          obtain ⟨rfl, m', hm', h'⟩ := h'
          rw [hm] at hm'
          cases hm'
          rcases ih h h' with ⟨rs, hrs, heq⟩ | ⟨rs, hrs, heq⟩
          · exact .inl ⟨rs, hrs, congrArg (c :: ·) heq⟩
          · exact .inr ⟨rs, hrs, congrArg (c :: ·) heq⟩

section End

variable (hnil : f nil = none)
include hnil

theorem Seg.nil_not_mem (h : Seg f c cs d) : nil ∉ cs := by
  intro hmem
  obtain ⟨m, hm⟩ := h.succ hmem
  rw [hnil] at hm
  exact nomatch hm

/-- A walk from `nil` stays there. -/
theorem Seg.from_nil (h : Seg f nil cs d) : cs = [] ∧ d = nil := by
  cases cs with
  | nil => exact ⟨rfl, h.symm⟩
  | cons x cs =>
      obtain ⟨rfl, m, hm, -⟩ := h
      rw [hnil] at hm
      exact nomatch hm

/-- The walk to the end is unique. -/
theorem Seg.det (h : Seg f c cs nil) (h' : Seg f c ds nil) : cs = ds := by
  rcases h.comparable h' with ⟨rs, hrs, heq⟩ | ⟨rs, hrs, heq⟩
  · rw [heq, (hrs.from_nil hnil).1, List.append_nil]
  · rw [heq, (hrs.from_nil hnil).1, List.append_nil]

/-- A walk that ends does not come back. -/
theorem Seg.nodup (h : Seg f c cs nil) : cs.Nodup := by
  induction cs generalizing c with
  | nil => exact List.nodup_nil
  | cons x cs ih =>
      have hall := h
      obtain ⟨rfl, m, hm, h⟩ := h
      refine List.nodup_cons.mpr ⟨fun hmem => ?_, ih h⟩
      -- from a second visit of `c` the walk would have to be the whole walk again
      obtain ⟨l, r, rfl⟩ := List.append_of_mem hmem
      obtain ⟨k, -, hk⟩ := seg_append.mp h
      have hkc : k = c := hk.1
      subst hkc
      have := congrArg List.length (hall.det hnil hk)
      simp only [List.length_cons, List.length_append] at this
      omega

end End

/-- A walk that goes anywhere comes to its end from somewhere. -/
theorem Seg.pred (h : Seg f c cs d) (hne : c ≠ d) : ∃ y ∈ cs, f y = some d := by
  induction cs generalizing c with
  | nil => exact absurd h hne
  | cons x cs ih =>
      obtain ⟨rfl, m, hm, h⟩ := h
      by_cases hmd : m = d
      · exact ⟨c, List.mem_cons_self, hm.trans (congrArg some hmd)⟩
      · obtain ⟨y, hy, hyd⟩ := ih h hmd
        exact ⟨y, List.mem_cons_of_mem c hy, hyd⟩

/-- Different nodes of a walk have different successors. -/
theorem Seg.succ_inj (hnil : f nil = none) (h : Seg f c cs nil) (ha : a ∈ cs) (hb : b ∈ cs)
    (hab : f a = f b) : a = b := by
  obtain ⟨l, r, rfl⟩ := List.append_of_mem ha
  obtain ⟨l', r', heq⟩ := List.append_of_mem hb
  have hb' := h
  rw [heq] at hb'
  obtain ⟨m, -, rfl, k, hk, hr⟩ := seg_append.mp h
  obtain ⟨m', -, rfl, k', hk', hr'⟩ := seg_append.mp hb'
  rw [hk, hk'] at hab
  cases hab
  have hrr : r = r' := hr.det hnil hr'
  subst hrr
  have hsame := List.append_inj' heq rfl
  exact (List.cons.inj hsame.2).1

/-- The walk from `c` to the end, when it has at most `fuel` nodes. -/
def follow [DecidableEq α] (nil : α) (f : α → Option α) : Nat → α → Option (List α)
  | 0, c => if c = nil then some [] else none
  | fuel + 1, c =>
      if c = nil then some []
      else do
        let d ← f c
        let cs ← follow nil f fuel d
        some (c :: cs)

/-- The first node on the walk from `c` whose successor is `what`, or `nil`. -/
def seek [DecidableEq α] (nil : α) (f : α → Option α) (what : α) : Nat → α → Option α
  | 0, c => if c = nil then some nil else none
  | fuel + 1, c =>
      if c = nil then some nil
      else do
        let d ← f c
        if d = what then some c else seek nil f what fuel d

variable [DecidableEq α]

theorem follow_eq (hnil : f nil = none) (h : Seg f c cs nil) {fuel : Nat}
    (hfuel : cs.length ≤ fuel) : follow nil f fuel c = some cs := by
  induction cs generalizing c fuel with
  | nil =>
      cases h
      cases fuel <;> simp [follow]
  | cons x cs ih =>
      have hne : c ≠ nil := by
        rintro rfl
        exact nomatch (h.from_nil hnil).1
      obtain ⟨rfl, m, hm, h⟩ := h
      obtain ⟨fuel, rfl⟩ : ∃ n, fuel = n + 1 :=
        ⟨fuel - 1, by rw [List.length_cons] at hfuel; omega⟩
      have hfuel' : cs.length ≤ fuel := Nat.le_of_succ_le_succ hfuel
      simp only [follow, if_neg hne, hm, ih h hfuel', Option.bind_eq_bind, Option.bind_some]

theorem seek_eq (hnil : f nil = none) {what : α} (h : Seg f c cs x)
    (hx : f x = some what) (hcs : ∀ y ∈ cs, f y ≠ some what) {fuel : Nat}
    (hfuel : cs.length < fuel) : seek nil f what fuel c = some x := by
  obtain ⟨fuel, rfl⟩ : ∃ n, fuel = n + 1 := ⟨fuel - 1, by omega⟩
  have hstart : ∀ {c : α} {cs : List α}, Seg f c cs x → c ≠ nil := by
    rintro c cs h rfl
    rw [(h.from_nil hnil).2, hnil] at hx
    exact nomatch hx
  induction cs generalizing c fuel with
  | nil =>
      have hcx : c = x := h
      subst hcx
      simp only [seek, if_neg (hstart h), hx, Option.bind_eq_bind, Option.bind_some, if_pos]
  | cons y cs ih =>
      have hne := hstart h
      obtain ⟨rfl, m, hm, h⟩ := h
      have hmw : m ≠ what := by
        rintro rfl
        exact hcs c List.mem_cons_self hm
      rw [List.length_cons] at hfuel
      obtain ⟨fuel, rfl⟩ : ∃ n, fuel = n + 1 := ⟨fuel - 1, by omega⟩
      have hrest := ih h (fun z hz => hcs z (List.mem_cons_of_mem c hz)) fuel (by omega)
      rw [seek, if_neg hne, hm]
      simp only [Option.bind_eq_bind, Option.bind_some, if_neg hmw]
      exact hrest

end Seg

/-! ## Forests -/

abbrev Graph (α : Type u) := α → Option (Links α)

def upOf (g : Graph α) (x : α) : Option α := (g x).map Links.up

def firstOf (g : Graph α) (x : α) : Option α := (g x).map Links.first

def nextOf (g : Graph α) (x : α) : Option α := (g x).map Links.next

/-- `x` is `r` or is below it. -/
def Below (g : Graph α) (r x : α) : Prop := ∃ ps, Seg (upOf g) x ps r

/-- The lists of the graph are exactly `L`. -/
structure Listed (nil : α) (g : Graph α) (L : α → List α) : Prop where
  nil_none : g nil = none
  seg : ∀ {p a}, firstOf g p = some a → Seg (nextOf g) a (L p) nil
  empty : ∀ {p}, g p = none → L p = []
  disjoint : ∀ {p q c}, c ∈ L p → c ∈ L q → p = q
  free : ∀ {c d}, nextOf g c = some d → (∀ p, c ∉ L p) → d = nil

/-- The lists are those of a forest. -/
structure Forest (nil : α) (g : Graph α) (L : α → List α) : Prop extends Listed nil g L where
  mem_iff : ∀ {p c}, c ∈ L p ↔ p ≠ nil ∧ upOf g c = some p
  path : ∀ {c l}, g c = some l → ∃ ps, Seg (upOf g) c ps nil

section Below

variable {nil p q r x : α} {g : Graph α} {L : α → List α} {l : Links α}

theorem Below.refl (g : Graph α) (x : α) : Below g x x := ⟨[], rfl⟩

theorem Below.step (hx : upOf g x = some p) (h : Below g r p) : Below g r x := by
  obtain ⟨ps, hps⟩ := h
  exact ⟨x :: ps, rfl, p, hx, hps⟩

theorem Below.cases (h : Below g r x) : x = r ∨ ∃ p, upOf g x = some p ∧ Below g r p := by
  obtain ⟨ps, hps⟩ := h
  cases ps with
  | nil => exact .inl hps
  | cons y ps =>
      obtain ⟨rfl, m, hm, hps⟩ := hps
      exact .inr ⟨m, hm, ps, hps⟩

theorem Below.trans (h : Below g q x) (h' : Below g r q) : Below g r x := by
  obtain ⟨ps, hps⟩ := h
  obtain ⟨qs, hqs⟩ := h'
  exact ⟨ps ++ qs, seg_append.mpr ⟨q, hps, hqs⟩⟩

/-- Links that go lose nodes below, they do not add any. -/
theorem Below.mono {g' : Graph α} (hup : ∀ {x p}, upOf g' x = some p → upOf g x = some p)
    (h : Below g' r x) : Below g r x := by
  obtain ⟨ps, hps⟩ := h
  induction ps generalizing x with
  | nil => exact ⟨[], hps⟩
  | cons y ps ih =>
      obtain ⟨rfl, m, hm, hps⟩ := hps
      exact (ih hps).step (hup hm)

/-- Of two nodes above a third, one is above the other. -/
theorem Below.comparable (h : Below g q x) (h' : Below g r x) : Below g r q ∨ Below g q r := by
  obtain ⟨ps, hps⟩ := h
  obtain ⟨qs, hqs⟩ := h'
  rcases hps.comparable hqs with ⟨rs, hrs, -⟩ | ⟨rs, hrs, -⟩
  · exact .inl ⟨rs, hrs⟩
  · exact .inr ⟨rs, hrs⟩

/-- What is below a node is a node. -/
theorem Below.valid (h : Below g r x) (hr : g r = some l) : ∃ lx, g x = some lx := by
  rcases h.cases with rfl | ⟨p, hp, -⟩
  · exact ⟨l, hr⟩
  · obtain ⟨lx, hlx, -⟩ := Option.map_eq_some_iff.mp hp
    exact ⟨lx, hlx⟩

/-- Only a node has a list. -/
theorem Listed.owner_valid (hl : Listed nil g L) (hx : x ∈ L p) : ∃ l, g p = some l :=
  Option.ne_none_iff_exists'.mp fun h => by
    rw [hl.empty h] at hx
    exact List.not_mem_nil hx

theorem Listed.nextOf_nil (hl : Listed nil g L) : nextOf g nil = none := by
  rw [nextOf, hl.nil_none]
  rfl

theorem Listed.list_nodup (hl : Listed nil g L) (p : α) : (L p).Nodup := by
  cases hp : g p with
  | none =>
      rw [hl.empty hp]
      exact List.nodup_nil
  | some l =>
      have hf : firstOf g p = some l.first := by rw [firstOf, hp]; rfl
      exact (hl.seg hf).nodup hl.nextOf_nil

variable (hg : Forest nil g L)
include hg

theorem Forest.upOf_nil : upOf g nil = none := by rw [upOf, hg.nil_none]; rfl

theorem Forest.ne_nil (hx : g x = some l) : x ≠ nil := by
  rintro rfl
  rw [hg.nil_none] at hx
  exact nomatch hx

/-- A parent is a node, or `nil`. -/
theorem Forest.up_valid (hx : g x = some l) (hp : l.up ≠ nil) : ∃ lp, g l.up = some lp := by
  obtain ⟨ps, hps⟩ := hg.path hx
  cases ps with
  | nil => exact absurd hps (hg.ne_nil hx)
  | cons y ps =>
      obtain ⟨rfl, m, hm, hps⟩ := hps
      have hm' : l.up = m := by
        rw [upOf, hx] at hm
        exact Option.some.inj hm
      subst hm'
      cases ps with
      | nil => exact absurd hps hp
      | cons z ps =>
          obtain ⟨hz, k, hk, -⟩ := hps
          rw [← hz] at hk
          obtain ⟨lp, hlp, -⟩ := Option.map_eq_some_iff.mp hk
          exact ⟨lp, hlp⟩

/-- A listed node is a node. -/
theorem Forest.mem_valid {c : α} (hc : c ∈ L p) : ∃ l, g c = some l ∧ l.up = p := by
  obtain ⟨-, hup⟩ := hg.mem_iff.mp hc
  obtain ⟨l, hl, heq⟩ := Option.map_eq_some_iff.mp hup
  exact ⟨l, hl, heq⟩

theorem Forest.mem_up (hx : g x = some l) (hp : l.up ≠ nil) : x ∈ L l.up :=
  hg.mem_iff.mpr ⟨hp, by rw [upOf, hx]; rfl⟩

/-- No node is below one of its children. -/
theorem Forest.not_below_child {c : α} (hc : c ∈ L p) : ¬ Below g c p := by
  rintro ⟨ps, hps⟩
  obtain ⟨l, hl, hup⟩ := hg.mem_valid hc
  obtain ⟨qs, hqs⟩ := hg.path hl
  have hcp : upOf g c = some p := by rw [upOf, hl, Option.map_some, hup]
  -- `c` would be met again on its own way up
  have hround : Seg (upOf g) c (c :: (ps ++ qs)) nil :=
    ⟨rfl, p, hcp, seg_append.mpr ⟨c, hps, hqs⟩⟩
  have := congrArg List.length (hround.det hg.upOf_nil hqs)
  simp only [List.length_cons, List.length_append] at this
  omega

/-- The subtrees of two children are disjoint. -/
theorem Forest.children_disjoint {c d : α} (hc : c ∈ L p) (hd : d ∈ L p) (hcd : c ≠ d)
    (hxc : Below g c x) : ¬ Below g d x := by
  intro hxd
  have hup : ∀ {a b}, a ∈ L p → b ∈ L p → a ≠ b → ¬ Below g b a := by
    intro a b ha hb hab hba
    rcases hba.cases with rfl | ⟨q, hq, hbq⟩
    · exact hab rfl
    · obtain ⟨-, hap⟩ := hg.mem_iff.mp ha
      rw [hap] at hq
      cases hq
      exact hg.not_below_child hb hbq
  rcases hxc.comparable hxd with h | h
  · exact hup hc hd hcd h
  · exact hup hd hc (Ne.symm hcd) h

/-- On the way up to `x` one does not pass `x`. -/
theorem Forest.not_mem_path {c : α} {ps : List α} (hx : g x = some l)
    (hps : Seg (upOf g) c ps x) : x ∉ ps := by
  obtain ⟨qs, hqs⟩ := hg.path hx
  have hnd := (seg_append.mpr ⟨x, hps, hqs⟩).nodup hg.upOf_nil
  have hxq : x ∈ qs := by
    cases qs with
    | nil => exact absurd hqs (hg.ne_nil hx)
    | cons y qs =>
        rw [hqs.1]
        exact List.mem_cons_self
  exact fun hxp => (List.nodup_append.mp hnd).2.2 x hxp x hxq rfl

/-- The first node of a list. -/
theorem Forest.first_mem (hp : firstOf g p = some x) (hx : x ≠ nil) : ∃ r, L p = x :: r := by
  have h := hg.seg hp
  cases hL : L p with
  | nil =>
      rw [hL] at h
      exact absurd h hx
  | cons y r =>
      rw [hL] at h
      exact ⟨r, by rw [h.1]⟩

/-- A node and the next one are in one list. -/
theorem Forest.next_mem {y : α} (hy : nextOf g y = some x) (hx : x ≠ nil) :
    ∃ p ds es, L p = ds ++ y :: x :: es := by
  by_cases hfree : ∀ p, y ∉ L p
  · exact absurd (hg.free hy hfree) hx
  · obtain ⟨p, hp⟩ := not_forall_not.mp hfree
    obtain ⟨l, hl⟩ : ∃ l, g p = some l := by
      cases hl : g p with
      | none =>
          rw [hg.empty hl] at hp
          exact nomatch hp
      | some l => exact ⟨l, rfl⟩
    have hf : firstOf g p = some l.first := by rw [firstOf, hl]; rfl
    have h := hg.seg hf
    obtain ⟨ds, r, hds⟩ := List.append_of_mem hp
    rw [hds] at h
    obtain ⟨m, -, hmy, k, hk, hr⟩ := seg_append.mp h
    rw [hy] at hk
    cases hk
    cases r with
    | nil => exact absurd hr hx
    | cons z es => exact ⟨p, ds, es, by rw [hds, hr.1]⟩

/-- Links lead to nodes, or to `nil`. -/
theorem Forest.first_valid (hp : firstOf g p = some x) (hx : x ≠ nil) : ∃ l, g x = some l := by
  obtain ⟨r, hr⟩ := hg.first_mem hp hx
  have hmem : x ∈ L p := by
    rw [hr]
    exact List.mem_cons_self
  obtain ⟨l, hl, -⟩ := hg.mem_valid hmem
  exact ⟨l, hl⟩

/-- Only the list of its parent has a node. -/
theorem Forest.owner_eq (hx : g x = some l) (hp : x ∈ L p) : p = l.up ∧ p ≠ nil := by
  obtain ⟨l', hl', heq⟩ := hg.mem_valid hp
  rw [hx] at hl'
  cases hl'
  exact ⟨heq.symm, (hg.mem_iff.mp hp).1⟩

theorem Forest.next_valid {y : α} (hy : nextOf g y = some x) (hx : x ≠ nil) :
    ∃ l, g x = some l := by
  obtain ⟨p, ds, es, hp⟩ := hg.next_mem hy hx
  have hmem : x ∈ L p := by
    rw [hp]
    exact List.mem_append_right _ (List.mem_cons_of_mem y List.mem_cons_self)
  obtain ⟨l, hl, -⟩ := hg.mem_valid hmem
  exact ⟨l, hl⟩

theorem Forest.first_leads (hp : firstOf g p = some x) : x = nil ∨ ∃ l, g x = some l := by
  by_cases hx : x = nil
  · exact .inl hx
  · exact .inr (hg.first_valid hp hx)

theorem Forest.next_leads {y : α} (hy : nextOf g y = some x) : x = nil ∨ ∃ l, g x = some l := by
  by_cases hx : x = nil
  · exact .inl hx
  · exact .inr (hg.next_valid hy hx)

/-- A node with which the list of `p` begins has `p` as its parent. -/
theorem Forest.first_owner (hx : g x = some l) (hp : firstOf g p = some x) :
    p = l.up ∧ p ≠ nil ∧ ∃ r, L p = x :: r := by
  obtain ⟨r, hr⟩ := hg.first_mem hp (hg.ne_nil hx)
  obtain ⟨h1, h2⟩ := hg.owner_eq hx (p := p) (by rw [hr]; exact List.mem_cons_self)
  exact ⟨h1, h2, r, hr⟩

/-- A node that is linked to stands behind the other in the list of its parent. -/
theorem Forest.next_owner {y : α} (hx : g x = some l) (hy : nextOf g y = some x) :
    l.up ≠ nil ∧ ∃ ds es, L l.up = ds ++ y :: x :: es := by
  obtain ⟨q, ds, es, hq⟩ := hg.next_mem hy (hg.ne_nil hx)
  obtain ⟨h1, h2⟩ := hg.owner_eq hx (p := q)
    (by rw [hq]; exact List.mem_append_right _ (List.mem_cons_of_mem y List.mem_cons_self))
  rw [h1] at hq h2
  exact ⟨h2, ds, es, hq⟩

/-- What is below a node, and is not that node, is below one of its children. -/
theorem Forest.below_child (h : Below g r x) (hr : r ≠ nil) (hne : x ≠ r) :
    ∃ c ∈ L r, Below g c x := by
  obtain ⟨ps, hps⟩ := h
  obtain ⟨y, hy, hyr⟩ := hps.pred hne
  obtain ⟨l1, l2, rfl⟩ := List.append_of_mem hy
  obtain ⟨m, hm, hmy, -⟩ := seg_append.mp hps
  exact ⟨y, hg.mem_iff.mpr ⟨hr, hyr⟩, l1, hmy ▸ hm⟩

theorem Forest.below_nil (h : Below g x nil) : x = nil := by
  obtain ⟨ps, hps⟩ := h
  exact (hps.from_nil hg.upOf_nil).2

/-- The nodes on the way up to the end are those that the node is below. -/
theorem Forest.mem_path_iff {y : α} {ps : List α} (hps : Seg (upOf g) x ps nil) (hy : y ≠ nil) :
    y ∈ ps ↔ Below g y x := by
  constructor
  · intro h
    obtain ⟨l, r, rfl⟩ := List.append_of_mem h
    obtain ⟨m, hm, hmx, -⟩ := seg_append.mp hps
    exact ⟨l, hmx ▸ hm⟩
  · rintro ⟨qs, hqs⟩
    rcases hqs.comparable hps with ⟨rs, hrs, heq⟩ | ⟨rs, hrs, heq⟩
    · rw [heq]
      refine List.mem_append_right _ ?_
      cases rs with
      | nil => exact absurd hrs hy
      | cons z rs =>
          rw [hrs.1]
          exact List.mem_cons_self
    · exact absurd (hrs.from_nil hg.upOf_nil).2 hy

/-- The way up from a node stays in the forest, so it is no longer than the number of nodes. -/
theorem Forest.length_le {c : α} {ps ns : List α} (hns : ∀ x l, g x = some l → x ∈ ns)
    (hps : Seg (upOf g) c ps nil) : ps.length ≤ ns.length := by
  refine (List.subperm_of_subset (hps.nodup hg.upOf_nil) fun y hy => ?_).length_le
  obtain ⟨m, hm⟩ := hps.succ hy
  obtain ⟨l, hl, -⟩ := Option.map_eq_some_iff.mp hm
  exact hns y l hl

/-- So is a list of children. -/
theorem Forest.length_children {ns : List α} (hns : ∀ x l, g x = some l → x ∈ ns)
    (hp : g p = some l) : (L p).length ≤ ns.length := by
  have hfirst : firstOf g p = some l.first := by rw [firstOf, hp]; rfl
  refine (List.subperm_of_subset ((hg.seg hfirst).nodup hg.toListed.nextOf_nil) fun y hy => ?_).length_le
  obtain ⟨l', hl', -⟩ := hg.mem_valid hy
  exact hns y l' hl'

theorem Forest.first_nil (hp : g p = some l) (hL : L p = []) : l.first = nil := by
  have hseg := hg.seg (show firstOf g p = some l.first by rw [firstOf, hp]; rfl)
  rw [hL] at hseg
  exact hseg

theorem Forest.list_nil (hp : g p = some l) (hl : l.first = nil) : L p = [] := by
  have hseg := hg.seg (show firstOf g p = some l.first by rw [firstOf, hp]; rfl)
  rw [hl] at hseg
  exact (hseg.from_nil hg.toListed.nextOf_nil).1

omit hg in
/-- A list of children that has lost one is shorter. -/
theorem Forest.length_lt {g' : Graph α} {L' : α → List α} {c : α} (hg' : Forest nil g' L')
    (hc : c ∈ L p) (hsub : ∀ d ∈ L' p, d ∈ L p ∧ d ≠ c) : (L' p).length < (L p).length := by
  have hnodup : (c :: L' p).Nodup :=
    List.nodup_cons.mpr ⟨fun h => (hsub c h).2 rfl, hg'.list_nodup p⟩
  refine (List.subperm_of_subset hnodup fun d hd => ?_).length_le
  rcases List.mem_cons.mp hd with rfl | hd
  · exact hc
  · exact (hsub d hd).1

end Below

/-! ## When the links up of one node change -/

section Moved

variable {r x y v : α} {g g' : Graph α} (hup : ∀ y, y ≠ r → upOf g' y = upOf g y)
include hup

/-- What is below the node stays below it. -/
theorem Below.moved (h : Below g r x) : Below g' r x := by
  obtain ⟨ps, hps⟩ := h
  induction ps generalizing x with
  | nil => exact ⟨[], hps⟩
  | cons y ps ih =>
      obtain ⟨rfl, m, hm, hps⟩ := hps
      by_cases hx : x = r
      · subst hx
        exact Below.refl _ _
      · exact (ih hps).step ((hup x hx).trans hm)

/-- What is not below it sees nothing of the change. -/
theorem Below.unmoved (hx : ¬ Below g r x) (h : Below g y x) : Below g' y x := by
  obtain ⟨ps, hps⟩ := h
  induction ps generalizing x with
  | nil => exact ⟨[], hps⟩
  | cons z ps ih =>
      obtain ⟨rfl, m, hm, hps⟩ := hps
      have hxr : x ≠ r := by
        rintro rfl
        exact hx (Below.refl _ _)
      exact (ih (fun hb => hx (hb.step hm)) hps).step ((hup x hxr).trans hm)

/-- What comes to be above a node: it was there before, or the node is below the one
    that moved. -/
theorem Below.of_moved (hv : upOf g' r = some v) (h : Below g' y x) :
    Below g y x ∨ Below g r x ∧ Below g' y v := by
  obtain ⟨ps, hps⟩ := h
  induction ps generalizing x with
  | nil =>
      cases hps
      exact .inl (Below.refl _ _)
  | cons z ps ih =>
      obtain ⟨rfl, m, hm, hps⟩ := hps
      by_cases hx : x = r
      · subst hx
        rw [hv] at hm
        cases hm
        exact .inr ⟨Below.refl _ _, ps, hps⟩
      · have hm' := (hup x hx).symm.trans hm
        rcases ih hps with h | ⟨h, hy⟩
        · exact .inl (h.step hm')
        · exact .inr ⟨h.step hm', hy⟩

end Moved

/-- A graph without nodes is a forest. -/
theorem forest_empty {nil : α} {g : Graph α} (hg : ∀ x, g x = none) :
    Forest nil g fun _ => [] where
  nil_none := hg nil
  seg h := by
    rw [firstOf, hg] at h
    exact nomatch h
  empty _ := rfl
  disjoint h := nomatch h
  free h := by
    rw [nextOf, hg] at h
    exact nomatch h
  mem_iff := by
    intro p c
    rw [upOf, hg]
    constructor
    · intro h
      exact nomatch h
    · rintro ⟨-, h⟩
      exact nomatch h
  path h := by
    rw [hg] at h
    exact nomatch h

/-- A graph is known by its three links. -/
theorem graph_ext {g g' : Graph α} (hup : upOf g = upOf g') (hfirst : firstOf g = firstOf g')
    (hnext : nextOf g = nextOf g') : g = g' := by
  funext y
  have h1 := congrFun hup y
  have h2 := congrFun hfirst y
  have h3 := congrFun hnext y
  simp only [upOf, firstOf, nextOf] at h1 h2 h3
  rcases hy : g y with _ | ⟨a, b, c⟩ <;> rcases hy' : g' y with _ | ⟨a', b', c'⟩ <;>
    rw [hy, hy'] at h1 h2 h3
  · exact nomatch h1
  · exact nomatch h1
  · cases h1
    cases h2
    cases h3
    rfl

/-! ## Lone nodes -/

section Node

variable {nil x : α} {g : Graph α} {L : α → List α} {l : Links α} [DecidableEq α]

/-- A new node that nothing is linked to. -/
theorem Forest.insertNode (hg : Forest nil g L) (hx : g x = none) (hne : x ≠ nil) :
    Forest nil (Function.update g x (some ⟨nil, nil, nil⟩)) L := by
  have hsame : ∀ {y}, y ≠ x → Function.update g x (some ⟨nil, nil, nil⟩) y = g y := fun hy =>
    Function.update_of_ne hy _ _
  have hmem : ∀ {p}, x ∉ L p := by
    intro p hp
    obtain ⟨l, hl, -⟩ := hg.mem_valid hp
    rw [hx] at hl
    exact nomatch hl
  have hseg : ∀ {a p}, Seg (nextOf g) a (L p) nil →
      Seg (nextOf (Function.update g x (some ⟨nil, nil, nil⟩))) a (L p) nil := by
    intro a p h
    refine h.congr fun y hy => ?_
    have hyx : y ≠ x := fun heq => hmem (heq ▸ hy)
    rw [nextOf, nextOf, hsame hyx]
  refine ⟨⟨?_, ?_, ?_, hg.disjoint, ?_⟩, ?_, ?_⟩
  · rw [hsame (Ne.symm hne)]
    exact hg.nil_none
  · intro p a hp
    by_cases hpx : p = x
    · subst hpx
      rw [firstOf, Function.update_self] at hp
      cases hp
      rw [hg.empty hx]
      rfl
    · rw [firstOf, hsame hpx] at hp
      exact hseg (hg.seg hp)
  · intro p hp
    by_cases hpx : p = x
    · subst hpx
      exact hg.empty hx
    · rw [hsame hpx] at hp
      exact hg.empty hp
  · intro c d hc hfree
    by_cases hcx : c = x
    · subst hcx
      rw [nextOf, Function.update_self] at hc
      cases hc
      rfl
    · rw [nextOf, hsame hcx] at hc
      exact hg.free hc hfree
  · intro p c
    by_cases hcx : c = x
    · subst hcx
      rw [upOf, Function.update_self]
      constructor
      · intro h
        exact absurd h hmem
      · rintro ⟨hp, heq⟩
        exact absurd (Option.some.inj heq).symm hp
    · rw [upOf, hsame hcx]
      exact hg.mem_iff
  · intro c l hc
    by_cases hcx : c = x
    · subst hcx
      refine ⟨[c], rfl, nil, ?_, rfl⟩
      rw [upOf, Function.update_self]
      rfl
    · rw [hsame hcx] at hc
      obtain ⟨ps, hps⟩ := hg.path hc
      refine ⟨ps, hps.congr fun y hy => ?_⟩
      have hyx : y ≠ x := by
        rintro rfl
        obtain ⟨m, hm⟩ := hps.succ hy
        rw [upOf, hx] at hm
        exact nomatch hm
      rw [upOf, upOf, hsame hyx]

/-- A node without parent and children is destroyed. -/
theorem Forest.eraseNode (hg : Forest nil g L) (hx : g x = some l) (hup : l.up = nil)
    (hfirst : l.first = nil) : Forest nil (Function.update g x none) L := by
  have hsame : ∀ {y}, y ≠ x → Function.update g x none y = g y := fun hy =>
    Function.update_of_ne hy _ _
  have hempty : L x = [] := hg.list_nil hx hfirst
  have hmem : ∀ {p}, x ∉ L p := by
    intro p hp
    obtain ⟨hpn, hup'⟩ := hg.mem_iff.mp hp
    rw [upOf, hx] at hup'
    exact hpn ((Option.some.inj hup').symm.trans hup)
  refine ⟨⟨?_, ?_, ?_, hg.disjoint, ?_⟩, ?_, ?_⟩
  · rw [hsame (Ne.symm (hg.ne_nil hx))]
    exact hg.nil_none
  · intro p a hp
    by_cases hpx : p = x
    · subst hpx
      rw [firstOf, Function.update_self] at hp
      exact nomatch hp
    · rw [firstOf, hsame hpx] at hp
      refine (hg.seg hp).congr fun y hy => ?_
      have hyx : y ≠ x := fun heq => hmem (heq ▸ hy)
      rw [nextOf, nextOf, hsame hyx]
  · intro p hp
    by_cases hpx : p = x
    · subst hpx
      exact hempty
    · rw [hsame hpx] at hp
      exact hg.empty hp
  · intro c d hc hfree
    by_cases hcx : c = x
    · subst hcx
      rw [nextOf, Function.update_self] at hc
      exact nomatch hc
    · rw [nextOf, hsame hcx] at hc
      exact hg.free hc hfree
  · intro p c
    by_cases hcx : c = x
    · subst hcx
      rw [upOf, Function.update_self]
      constructor
      · intro h
        exact absurd h hmem
      · rintro ⟨-, heq⟩
        exact nomatch heq
    · rw [upOf, hsame hcx]
      exact hg.mem_iff
  · intro c l' hc
    by_cases hcx : c = x
    · subst hcx
      rw [Function.update_self] at hc
      exact nomatch hc
    · rw [hsame hcx] at hc
      obtain ⟨ps, hps⟩ := hg.path hc
      refine ⟨ps, hps.congr fun y hy => ?_⟩
      -- `x` has no children, so no way up leads through it
      have hyx : y ≠ x := by
        rintro rfl
        obtain ⟨l1, r, rfl⟩ := List.append_of_mem hy
        obtain ⟨m, hm, hmy, -⟩ := seg_append.mp hps
        subst hmy
        obtain ⟨z, -, hz⟩ := hm.pred hcx
        have : z ∈ L m := hg.mem_iff.mpr ⟨hg.ne_nil hx, hz⟩
        rw [hempty] at this
        exact nomatch this
      rw [upOf, upOf, hsame hyx]

end Node

/-! ## Renaming -/

/-- The links of a renamed node. -/
def Links.map (f : α → α) (l : Links α) : Links α := ⟨f l.up, f l.first, f l.next⟩

/-- A graph under a renaming of its nodes. -/
def rename (e : Equiv.Perm α) (g : Graph α) : Graph α := fun y => (g (e.symm y)).map (Links.map e)

section Rename

variable {nil : α} {g : Graph α} {L : α → List α} (e : Equiv.Perm α)

theorem Seg.rename {f : α → Option α} {c d : α} {cs : List α} (h : Seg f c cs d) :
    Seg (fun y => (f (e.symm y)).map e) (e c) (cs.map e) (e d) := by
  induction cs generalizing c with
  | nil => exact congrArg e h
  | cons x cs ih =>
      obtain ⟨rfl, m, hm, h⟩ := h
      refine ⟨rfl, e m, ?_, ih h⟩
      show (f (e.symm (e c))).map e = some (e m)
      rw [e.symm_apply_apply, hm]
      rfl

theorem upOf_rename : upOf (rename e g) = fun y => (upOf g (e.symm y)).map e := by
  funext y
  simp only [upOf, LinkedForest.rename, Option.map_map]
  rfl

theorem firstOf_rename : firstOf (rename e g) = fun y => (firstOf g (e.symm y)).map e := by
  funext y
  simp only [firstOf, LinkedForest.rename, Option.map_map]
  rfl

theorem nextOf_rename : nextOf (rename e g) = fun y => (nextOf g (e.symm y)).map e := by
  funext y
  simp only [nextOf, LinkedForest.rename, Option.map_map]
  rfl

/-- What is above a renamed node was above the node. -/
theorem Below.of_rename {r x : α} (h : Below (LinkedForest.rename e g) r x) :
    Below g (e.symm r) (e.symm x) := by
  obtain ⟨ps, hps⟩ := h
  refine ⟨ps.map e.symm, ?_⟩
  have hseg := hps.rename e.symm
  rw [upOf_rename] at hseg
  refine hseg.congr fun y _ => ?_
  show upOf g y = ((upOf g (e.symm (e y))).map e).map e.symm
  rw [e.symm_apply_apply, Option.map_map, e.symm_comp_self, Option.map_id]
  rfl

/-- A forest stays one when its nodes are renamed. -/
theorem Forest.rename (hg : Forest nil g L) (hnil : e nil = nil) :
    Forest nil (rename e g) fun p => (L (e.symm p)).map e := by
  have hnil' : e.symm nil = nil := by rw [Equiv.symm_apply_eq, hnil]
  have hmem : ∀ {p c}, c ∈ (L (e.symm p)).map e ↔ e.symm c ∈ L (e.symm p) := by
    intro p c
    rw [List.mem_map]
    constructor
    · rintro ⟨d, hd, rfl⟩
      rwa [e.symm_apply_apply]
    · intro h
      exact ⟨e.symm c, h, e.apply_symm_apply c⟩
  have hseg : ∀ {f : α → Option α} {c cs}, Seg f c cs nil →
      Seg (fun y => (f (e.symm y)).map e) (e c) (cs.map e) nil := by
    intro f c cs h
    have := h.rename e
    rwa [hnil] at this
  refine ⟨⟨?_, ?_, ?_, ?_, ?_⟩, ?_, ?_⟩
  · rw [LinkedForest.rename, hnil', hg.nil_none]
    rfl
  · intro p a hp
    rw [firstOf_rename] at hp
    obtain ⟨b, hb, rfl⟩ := Option.map_eq_some_iff.mp hp
    rw [nextOf_rename]
    exact hseg (hg.seg hb)
  · intro p hp
    rw [hg.empty (Option.map_eq_none_iff.mp hp)]
    rfl
  · intro p q c hp hq
    exact e.symm.injective (hg.disjoint (hmem.mp hp) (hmem.mp hq))
  · intro c d hc hfree
    rw [nextOf_rename] at hc
    obtain ⟨b, hb, rfl⟩ := Option.map_eq_some_iff.mp hc
    rw [hg.free hb, hnil]
    intro p hp
    refine hfree (e p) (hmem.mpr ?_)
    rwa [e.symm_apply_apply]
  · intro p c
    rw [hmem, hg.mem_iff, upOf_rename]
    constructor
    · rintro ⟨hp, hup⟩
      refine ⟨fun hpn => hp ?_, ?_⟩
      · rw [hpn, hnil']
      · show (upOf g (e.symm c)).map e = some p
        rw [hup, Option.map_some, e.apply_symm_apply]
    · rintro ⟨hp, hup⟩
      obtain ⟨b, hb, rfl⟩ := Option.map_eq_some_iff.mp hup
      rw [e.symm_apply_apply]
      exact ⟨fun hbn => hp (hbn ▸ hnil), hb⟩
  · intro c l hc
    obtain ⟨l', hl', -⟩ := Option.map_eq_some_iff.mp hc
    obtain ⟨ps, hps⟩ := hg.path hl'
    refine ⟨ps.map e, ?_⟩
    rw [upOf_rename]
    have := hseg hps
    rwa [e.apply_symm_apply] at this

end Rename

end LinkedForest
