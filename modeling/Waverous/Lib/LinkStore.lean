import Waverous.Lib.LinkedForest

/-! # Stores of linked nodes

    The pointer code that edits the lists of a forest, over any store that lets
    the links of a node be read and changed: taking a node out of a list, putting
    it at the end of one, moving it to another parent, and following a node that
    has been renamed.  Each has one lemma that says what becomes of the lists, and
    one that says that what every change of links keeps it keeps. -/

namespace LinkedForest

universe u

variable {α σ : Type u}

/-- A place where nodes are kept, as far as their links go. -/
structure Store (σ α : Type u) [DecidableEq α] where
  get : σ → Graph α
  modify : α → (Links α → Links α) → σ → σ
  get_modify : ∀ x f s y, get (modify x f s) y = if y = x then (get s y).map f else get s y

namespace Store

variable [DecidableEq α] (st : Store σ α)

def setUp (x p : α) : σ → σ := st.modify x fun l => { l with up := p }

def setFirst (x c : α) : σ → σ := st.modify x fun l => { l with first := c }

def setNext (x c : α) : σ → σ := st.modify x fun l => { l with next := c }

/-- A field that is set. -/
def setAt (f : α → Option α) (x v : α) : α → Option α := fun y =>
  if y = x then (f y).map fun _ => v else f y

theorem setAt_self {f : α → Option α} {x v w : α} (h : f x = some w) : setAt f x v x = some v := by
  rw [setAt, if_pos rfl, h]
  rfl

theorem setAt_eq {f : α → Option α} {x v : α} (h : f x = some v) : setAt f x v = f := by
  funext y
  rw [setAt]
  split
  next hy => rw [hy, h]; rfl
  next => rfl

theorem setAt_ne {f : α → Option α} {x y v : α} (h : y ≠ x) : setAt f x v y = f y := by
  rw [setAt, if_neg h]

section Fields

variable (x v : α) (s : σ)

@[simp] theorem get_modify_eq_none (f : Links α → Links α) (y : α) :
    st.get (st.modify x f s) y = none ↔ st.get s y = none := by
  rw [st.get_modify]
  split
  · exact Option.map_eq_none_iff
  · exact Iff.rfl

@[simp] theorem upOf_setUp :
    upOf (st.get (st.setUp x v s)) = setAt (upOf (st.get s)) x v := by
  funext y
  rw [setAt, upOf, setUp, st.get_modify]
  split
  · rw [upOf, Option.map_map, Option.map_map]
    rfl
  · rfl

@[simp] theorem upOf_setFirst : upOf (st.get (st.setFirst x v s)) = upOf (st.get s) := by
  funext y
  rw [upOf, setFirst, st.get_modify]
  split
  · rw [Option.map_map]
    rfl
  · rfl

@[simp] theorem upOf_setNext : upOf (st.get (st.setNext x v s)) = upOf (st.get s) := by
  funext y
  rw [upOf, setNext, st.get_modify]
  split
  · rw [Option.map_map]
    rfl
  · rfl

@[simp] theorem firstOf_setUp : firstOf (st.get (st.setUp x v s)) = firstOf (st.get s) := by
  funext y
  rw [firstOf, setUp, st.get_modify]
  split
  · rw [Option.map_map]
    rfl
  · rfl

@[simp] theorem firstOf_setFirst :
    firstOf (st.get (st.setFirst x v s)) = setAt (firstOf (st.get s)) x v := by
  funext y
  rw [setAt, firstOf, setFirst, st.get_modify]
  split
  · rw [firstOf, Option.map_map, Option.map_map]
    rfl
  · rfl

@[simp] theorem firstOf_setNext : firstOf (st.get (st.setNext x v s)) = firstOf (st.get s) := by
  funext y
  rw [firstOf, setNext, st.get_modify]
  split
  · rw [Option.map_map]
    rfl
  · rfl

@[simp] theorem nextOf_setUp : nextOf (st.get (st.setUp x v s)) = nextOf (st.get s) := by
  funext y
  rw [nextOf, setUp, st.get_modify]
  split
  · rw [Option.map_map]
    rfl
  · rfl

@[simp] theorem nextOf_setFirst : nextOf (st.get (st.setFirst x v s)) = nextOf (st.get s) := by
  funext y
  rw [nextOf, setFirst, st.get_modify]
  split
  · rw [Option.map_map]
    rfl
  · rfl

@[simp] theorem nextOf_setNext :
    nextOf (st.get (st.setNext x v s)) = setAt (nextOf (st.get s)) x v := by
  funext y
  rw [setAt, nextOf, setNext, st.get_modify]
  split
  · rw [nextOf, Option.map_map, Option.map_map]
    rfl
  · rfl

end Fields

/-! ### Operations on lists -/

/-- Take `x` out of the list of `w`. -/
def llRemove (nil : α) (fuel : Nat) (w x : α) (s : σ) : Option σ := do
  let lw : Links α ← st.get s w
  let lx : Links α ← st.get s x
  if lw.first = x then some (st.setNext x nil (st.setFirst w lx.next s))
  else
    let lid ← seek nil (nextOf (st.get s)) x fuel lw.first
    if lid = nil then some (st.setNext x nil s)
    else some (st.setNext x nil (st.setNext lid lx.next s))

/-- Put `x` at the end of the list of `w`. -/
def llAppend (nil : α) (fuel : Nat) (w x : α) (s : σ) : Option σ := do
  let lw : Links α ← st.get s w
  let _lx : Links α ← st.get s x
  if lw.first = nil then some (st.setNext x nil (st.setFirst w x s))
  else
    let lid ← seek nil (nextOf (st.get s)) nil fuel lw.first
    if lid = nil then none
    else some (st.setNext x nil (st.setNext lid x s))

/-- Take `x` out of the list of `old`, put it at the end of that of `new`, and make
    `new` its parent. -/
def relink (nil : α) (fuel : Nat) (x old new : α) (hasOld hasNew : Bool) (s : σ) : Option σ := do
  let s ← (if hasOld then st.llRemove nil fuel old x s else some s)
  let s ← (if hasNew then st.llAppend nil fuel new x s else some s)
  some (st.setUp x new s)

/-- The link in the list of `p` that leads to `old` is made to lead to `new`. -/
def replaceLink (nil : α) (fuel : Nat) (p old new : α) (s : σ) : Option σ := do
  let lp : Links α ← st.get s p
  if lp.first = old then some (st.setFirst p new s)
  else
    let lid ← seek nil (nextOf (st.get s)) old fuel lp.first
    if lid = nil then none else some (st.setNext lid new s)

/-- After the node `old` has become `new`: make the links to it follow. -/
def renameLinks (nil : α) (fuel : Nat) (old new : α) (s : σ) : Option σ := do
  let lo : Links α ← st.get s new
  let s ← (if lo.up ≠ nil then st.replaceLink nil fuel lo.up old new s else some s)
  let cs ← follow nil (nextOf (st.get s)) fuel lo.first
  some (cs.foldl (fun s c => st.setUp c new s) s)

/-! ### What they keep -/

section Frame

variable {st} {P : σ → Prop} (hP : ∀ x f s, P s → P (st.modify x f s)) {s s' : σ} {nil : α}
  {fuel : Nat}
include hP

theorem llRemove_induct {w x : α} (h : st.llRemove nil fuel w x s = some s') (hs : P s) : P s' := by
  simp only [llRemove, Option.bind_eq_bind, Option.bind_eq_some_iff] at h
  obtain ⟨lw, -, lx, -, h⟩ := h
  split at h
  · cases h
    exact hP _ _ _ (hP _ _ _ hs)
  · obtain ⟨lid, -, h⟩ := Option.bind_eq_some_iff.mp h
    split at h
    · cases h
      exact hP _ _ _ hs
    · cases h
      exact hP _ _ _ (hP _ _ _ hs)

theorem llAppend_induct {w x : α} (h : st.llAppend nil fuel w x s = some s') (hs : P s) : P s' := by
  simp only [llAppend, Option.bind_eq_bind, Option.bind_eq_some_iff] at h
  obtain ⟨lw, -, lx, -, h⟩ := h
  split at h
  · cases h
    exact hP _ _ _ (hP _ _ _ hs)
  · obtain ⟨lid, -, h⟩ := Option.bind_eq_some_iff.mp h
    split at h
    · exact nomatch h
    · cases h
      exact hP _ _ _ (hP _ _ _ hs)

/-- What every change of links keeps, moving a node keeps. -/
theorem relink_induct {x old new : α} {hasOld hasNew : Bool}
    (h : st.relink nil fuel x old new hasOld hasNew s = some s') (hs : P s) : P s' := by
  simp only [relink, Option.bind_eq_bind, Option.bind_eq_some_iff] at h
  obtain ⟨s1, h1, s2, h2, h⟩ := h
  cases h
  have hs1 : P s1 := by
    split at h1
    · exact llRemove_induct hP h1 hs
    · cases h1
      exact hs
  have hs2 : P s2 := by
    split at h2
    · exact llAppend_induct hP h2 hs1
    · cases h2
      exact hs1
  exact hP _ _ _ hs2

theorem replaceLink_induct {p old new : α} (h : st.replaceLink nil fuel p old new s = some s')
    (hs : P s) : P s' := by
  simp only [replaceLink, Option.bind_eq_bind, Option.bind_eq_some_iff] at h
  obtain ⟨lp, -, h⟩ := h
  split at h
  · cases h
    exact hP _ _ _ hs
  · obtain ⟨lid, -, h⟩ := Option.bind_eq_some_iff.mp h
    split at h
    · exact nomatch h
    · cases h
      exact hP _ _ _ hs

/-- And renaming one. -/
theorem renameLinks_induct {old new : α} (h : st.renameLinks nil fuel old new s = some s')
    (hs : P s) : P s' := by
  simp only [renameLinks, Option.bind_eq_bind, Option.bind_eq_some_iff] at h
  obtain ⟨lo, -, s1, h1, cs, -, h⟩ := h
  cases h
  have hs1 : P s1 := by
    split at h1
    · exact replaceLink_induct hP h1 hs
    · cases h1
      exact hs
  clear h1
  induction cs generalizing s1 with
  | nil => exact hs1
  | cons c cs ih => exact ih _ (hP _ _ _ hs1)

end Frame

/-! ### What they do to lists -/

section Lists

variable {st} {s : σ} {nil w x : α} {L : α → List α} {fuel : Nat}

/-- The list of `w` has become `cs`, which took only unlisted nodes in. -/
theorem setList {g g' : Graph α} {cs : List α} {a b : α}
    (hl : Listed nil g L) (hvalid : ∀ y, g' y = none ↔ g y = none) (hw : firstOf g w = some b)
    (hfirst : firstOf g' = setAt (firstOf g) w a) (hseg : Seg (nextOf g') a cs nil)
    (hcs : ∀ c ∈ cs, c ∈ L w ∨ ∀ p, c ∉ L p)
    (hnext : ∀ y, y ∉ L w → y ∉ cs → nextOf g' y = nextOf g y)
    (hout : ∀ y ∈ L w, y ∉ cs → nextOf g' y = some nil) :
    Listed nil g' (Function.update L w cs) := by
  have hmem : ∀ {p c}, c ∈ Function.update L w cs p → c ∈ L p ∨ (∀ q, c ∉ L q) ∧ p = w := by
    intro p c hc
    by_cases hpw : p = w
    · subst hpw
      rw [Function.update_self] at hc
      rcases hcs c hc with h | h
      · exact .inl h
      · exact .inr ⟨h, rfl⟩
    · rw [Function.update_of_ne hpw] at hc
      exact .inl hc
  refine ⟨(hvalid nil).mpr hl.nil_none, ?_, ?_, ?_, ?_⟩
  · intro p d hp
    rw [hfirst] at hp
    by_cases hpw : p = w
    · subst hpw
      rw [setAt_self hw] at hp
      cases hp
      rw [Function.update_self]
      exact hseg
    · rw [setAt_ne hpw] at hp
      rw [Function.update_of_ne hpw]
      refine (hl.seg hp).congr fun y hy => hnext y (fun hyw => hpw (hl.disjoint hy hyw)) ?_
      intro hyc
      rcases hcs y hyc with h | h
      · exact hpw (hl.disjoint hy h)
      · exact h p hy
  · intro p hp
    have hpn := (hvalid p).mp hp
    have hpw : p ≠ w := by
      rintro rfl
      rw [firstOf, hpn] at hw
      cases hw
    rw [Function.update_of_ne hpw]
    exact hl.empty hpn
  · intro p q c hp hq
    rcases hmem hp with hp' | ⟨hfree, hpw⟩
    · rcases hmem hq with hq' | ⟨hfree, -⟩
      · exact hl.disjoint hp' hq'
      · exact absurd hp' (hfree p)
    · rcases hmem hq with hq' | ⟨-, hqw⟩
      · exact absurd hq' (hfree q)
      · rw [hpw, hqw]
  · intro c d hc hnot
    have hcc : c ∉ cs := by
      have := hnot w
      rwa [Function.update_self] at this
    by_cases hcw : c ∈ L w
    · rw [hout c hcw hcc] at hc
      exact (Option.some.inj hc).symm
    · rw [hnext c hcw hcc] at hc
      refine hl.free hc fun p hp => ?_
      by_cases hpw : p = w
      · exact hcw (hpw ▸ hp)
      · refine hnot p ?_
        rw [Function.update_of_ne hpw]
        exact hp

/-- The last node before `x` in a list is the one that the code finds. -/
theorem seek_last {f : α → Option α} {a p : α} {cs ds : List α} (hnil : f nil = none)
    (h : Seg f a (cs ++ p :: ds) nil) (hp : f p = some x) (hfuel : cs.length < fuel) :
    seek nil f x fuel a = some p := by
  obtain ⟨m, hm, hmp, -⟩ := seg_append.mp h
  subst hmp
  refine seek_eq hnil hm hp (fun y hy hyx => ?_) hfuel
  have heq := h.succ_inj hnil (List.mem_append_left _ hy)
    (List.mem_append_right _ List.mem_cons_self) (hyx.trans hp.symm)
  subst heq
  exact (List.nodup_append.mp (h.nodup hnil)).2.2 y hy y List.mem_cons_self rfl

/-- `x` is the first of the list of `w`. -/
theorem llRemove_first (hl : Listed nil (st.get s) L) {ds : List α} (hL : L w = x :: ds) :
    ∃ s', st.llRemove nil fuel w x s = some s' ∧
      Listed nil (st.get s') (Function.update L w ds) ∧ upOf (st.get s') = upOf (st.get s) := by
  have hx : x ∈ L w := by
    rw [hL]
    exact List.mem_cons_self
  obtain ⟨lw, hw⟩ := hl.owner_valid hx
  have hfirst : firstOf (st.get s) w = some lw.first := by rw [firstOf, hw]; rfl
  have hwalk : Seg (nextOf (st.get s)) lw.first (L w) nil := hl.seg hfirst
  have hnd : (L w).Nodup := hl.list_nodup w
  rw [hL] at hwalk hnd
  obtain ⟨hhead, m, hm, htail⟩ := hwalk
  obtain ⟨lx, hlx, rfl⟩ := Option.map_eq_some_iff.mp hm
  have hrun : st.llRemove nil fuel w x s = some (st.setNext x nil (st.setFirst w lx.next s)) := by
    simp only [llRemove, hw, hlx, Option.bind_eq_bind, Option.bind_some, if_pos hhead]
  have hnext : nextOf (st.get (st.setNext x nil (st.setFirst w lx.next s)))
      = setAt (nextOf (st.get s)) x nil := by simp
  have hsub : ∀ c ∈ ds, c ∈ L w ∨ ∀ p, c ∉ L p := by
    intro c hc
    rw [hL]
    exact .inl (List.mem_cons_of_mem x hc)
  refine ⟨_, hrun, setList (a := lx.next) hl ?_ hfirst ?_ ?_ hsub ?_ ?_, ?_⟩
  · simp [setNext, setFirst]
  · simp
  · rw [hnext]
    exact htail.congr fun y hy => setAt_ne fun heq => (List.nodup_cons.mp hnd).1 (heq ▸ hy)
  · intro y hy _
    rw [hnext, setAt_ne]
    rintro rfl
    exact hy hx
  · intro y hy hye
    rw [hL, List.mem_cons] at hy
    rw [hnext, hy.resolve_right hye]
    exact setAt_self hm
  · simp

/-- `x` stands behind `p` in the list of `w`. -/
theorem llRemove_after (hl : Listed nil (st.get s) L) {cs ds : List α} {p : α}
    (hL : L w = cs ++ p :: x :: ds) (hfuel : (L w).length ≤ fuel) :
    ∃ s', st.llRemove nil fuel w x s = some s' ∧
      Listed nil (st.get s') (Function.update L w (cs ++ p :: ds)) ∧
      upOf (st.get s') = upOf (st.get s) := by
  have hx : x ∈ L w := by
    rw [hL]
    exact List.mem_append_right _ (List.mem_cons_of_mem p List.mem_cons_self)
  have hpw : p ∈ L w := by
    rw [hL]
    exact List.mem_append_right _ List.mem_cons_self
  obtain ⟨lw, hw⟩ := hl.owner_valid hx
  have hfirst : firstOf (st.get s) w = some lw.first := by rw [firstOf, hw]; rfl
  have hwalk : Seg (nextOf (st.get s)) lw.first (L w) nil := hl.seg hfirst
  have hnd : (L w).Nodup := hl.list_nodup w
  rw [hL] at hwalk hnd hfuel
  obtain ⟨hcs, htl, hdisj⟩ := List.nodup_append.mp hnd
  obtain ⟨hptl, hxds, -⟩ : p ∉ x :: ds ∧ x ∉ ds ∧ ds.Nodup :=
    ⟨(List.nodup_cons.mp htl).1, List.nodup_cons.mp (List.nodup_cons.mp htl).2⟩
  have hpx : p ≠ x := fun heq => hptl (heq ▸ List.mem_cons_self)
  have hcsp : ∀ y ∈ cs, y ≠ p := fun y hy => hdisj y hy p List.mem_cons_self
  have hcsx : ∀ y ∈ cs, y ≠ x := fun y hy => hdisj y hy x (List.mem_cons_of_mem p List.mem_cons_self)
  obtain ⟨m, hp, hmp, m', hpm, hmx, k, hm, htail⟩ := seg_append.mp hwalk
  subst hmp hmx
  obtain ⟨lx, hlx, rfl⟩ := Option.map_eq_some_iff.mp hm
  have hne : lw.first ≠ m' := by
    intro heq
    cases cs with
    | nil => exact hpx ((show lw.first = m from hp).symm.trans heq)
    | cons z cs => exact hcsx z List.mem_cons_self (hp.1.symm.trans heq)
  have hseek : seek nil (nextOf (st.get s)) m' fuel lw.first = some m := by
    refine seek_last hl.nextOf_nil hwalk hpm ?_
    simp only [List.length_append, List.length_cons] at hfuel
    omega
  have hpn : m ≠ nil := by
    rintro rfl
    rw [hl.nextOf_nil] at hpm
    cases hpm
  have hrun : st.llRemove nil fuel w m' s = some (st.setNext m' nil (st.setNext m lx.next s)) := by
    simp only [llRemove, hw, hlx, Option.bind_eq_bind, Option.bind_some, if_neg hne, hseek,
      if_neg hpn]
  have hnext : nextOf (st.get (st.setNext m' nil (st.setNext m lx.next s)))
      = setAt (setAt (nextOf (st.get s)) m lx.next) m' nil := by simp
  have hsub : ∀ c ∈ cs ++ m :: ds, c ∈ L w ∨ ∀ p, c ∉ L p := by
    intro c hc
    rw [hL]
    rcases List.mem_append.mp hc with hc | hc
    · exact .inl (List.mem_append_left _ hc)
    rcases List.mem_cons.mp hc with rfl | hc
    · exact .inl (List.mem_append_right _ List.mem_cons_self)
    · exact .inl (List.mem_append_right _ (List.mem_cons_of_mem _ (List.mem_cons_of_mem _ hc)))
  refine ⟨_, hrun, setList (a := lw.first) hl ?_ hfirst ?_ ?_ hsub ?_ ?_, ?_⟩
  · simp [setNext]
  · rw [firstOf_setNext, firstOf_setNext]
    exact (setAt_eq hfirst).symm
  · -- up to `p`, then past `x`
    rw [hnext]
    refine seg_append.mpr ⟨m, hp.congr fun y hy => ?_, rfl, lx.next, ?_, htail.congr fun y hy => ?_⟩
    · rw [setAt_ne (hcsx y hy), setAt_ne (hcsp y hy)]
    · rw [setAt_ne hpx]
      exact setAt_self hpm
    · have hyx : y ≠ m' := fun heq => hxds (heq ▸ hy)
      have hyp : y ≠ m := fun heq => hptl (heq ▸ List.mem_cons_of_mem _ hy)
      rw [setAt_ne hyx, setAt_ne hyp]
  · intro y hy _
    have hyx : y ≠ m' := fun heq => hy (heq ▸ hx)
    have hyp : y ≠ m := fun heq => hy (heq ▸ hpw)
    rw [hnext, setAt_ne hyx, setAt_ne hyp]
  · intro y hy hye
    have hyx : y = m' := by
      rw [hL] at hy
      simp only [List.mem_append, List.mem_cons, not_or] at hy hye
      tauto
    rw [hnext, hyx]
    refine setAt_self (w := lx.next) ?_
    rw [setAt_ne (Ne.symm hpx)]
    exact hm
  · simp

/-- `x` leaves the list of `w`. -/
theorem llRemove_spec (hl : Listed nil (st.get s) L) (hx : x ∈ L w)
    (hfuel : (L w).length ≤ fuel) :
    ∃ s', st.llRemove nil fuel w x s = some s' ∧
      Listed nil (st.get s') (Function.update L w ((L w).erase x)) ∧
      upOf (st.get s') = upOf (st.get s) := by
  have hnd : (L w).Nodup := hl.list_nodup w
  obtain ⟨cs, ds, hL⟩ := List.append_of_mem hx
  have hxcs : x ∉ cs := by
    rw [hL] at hnd
    exact fun h => (List.nodup_append.mp hnd).2.2 x h x List.mem_cons_self rfl
  have herase : (L w).erase x = cs ++ ds := by
    rw [hL, List.erase_append_right _ hxcs, List.erase_cons_head]
  rw [herase]
  rcases cs.eq_nil_or_concat' with rfl | ⟨cs, p, rfl⟩
  · exact llRemove_first hl hL
  · rw [List.append_assoc] at hL ⊢
    exact llRemove_after hl hL hfuel

/-- The list of `w` was empty. -/
theorem llAppend_empty (hl : Listed nil (st.get s) L) {lw lx : Links α}
    (hw : st.get s w = some lw) (hx : st.get s x = some lx) (hfree : ∀ p, x ∉ L p)
    (hL : L w = []) :
    ∃ s', st.llAppend nil fuel w x s = some s' ∧
      Listed nil (st.get s') (Function.update L w [x]) ∧ upOf (st.get s') = upOf (st.get s) := by
  have hfirst : firstOf (st.get s) w = some lw.first := by rw [firstOf, hw]; rfl
  have hnextx : nextOf (st.get s) x = some lx.next := by rw [nextOf, hx]; rfl
  have hk : lw.first = nil := by
    have hwalk := hl.seg hfirst
    rw [hL] at hwalk
    exact hwalk
  have hrun : st.llAppend nil fuel w x s = some (st.setNext x nil (st.setFirst w x s)) := by
    simp only [llAppend, hw, hx, Option.bind_eq_bind, Option.bind_some, if_pos hk]
  have hnext : nextOf (st.get (st.setNext x nil (st.setFirst w x s)))
      = setAt (nextOf (st.get s)) x nil := by simp
  refine ⟨_, hrun, setList (a := x) hl ?_ hfirst ?_ ?_ ?_ ?_ ?_, ?_⟩
  · simp [setNext, setFirst]
  · simp
  · rw [hnext]
    exact ⟨rfl, nil, setAt_self hnextx, rfl⟩
  · exact fun c hc => .inr (List.mem_singleton.mp hc ▸ hfree)
  · intro y _ hyc
    rw [hnext, setAt_ne]
    exact fun heq => hyc (List.mem_singleton.mpr heq)
  · intro y hy
    rw [hL] at hy
    exact absurd hy List.not_mem_nil
  · simp

/-- `p` was the last of the list of `w`. -/
theorem llAppend_after (hl : Listed nil (st.get s) L) {lw lx : Links α}
    (hw : st.get s w = some lw) (hx : st.get s x = some lx) (hfree : ∀ p, x ∉ L p)
    {cs : List α} {p : α} (hL : L w = cs ++ [p]) (hfuel : (L w).length ≤ fuel) :
    ∃ s', st.llAppend nil fuel w x s = some s' ∧
      Listed nil (st.get s') (Function.update L w (cs ++ [p, x])) ∧
      upOf (st.get s') = upOf (st.get s) := by
  have hfirst : firstOf (st.get s) w = some lw.first := by rw [firstOf, hw]; rfl
  have hnextx : nextOf (st.get s) x = some lx.next := by rw [nextOf, hx]; rfl
  have hwalk : Seg (nextOf (st.get s)) lw.first (L w) nil := hl.seg hfirst
  have hpw : p ∈ L w := by
    rw [hL]
    exact List.mem_append_right _ List.mem_cons_self
  have hxw : x ∉ L w := hfree w
  have hxp : x ≠ p := fun heq => hxw (heq ▸ hpw)
  rw [hL] at hwalk hfuel
  have hcsp : ∀ y ∈ cs, y ≠ p := fun y hy =>
    (List.nodup_append.mp (hwalk.nodup hl.nextOf_nil)).2.2 y hy p List.mem_cons_self
  obtain ⟨m, hp, hmp, k, hpm, hkn⟩ := seg_append.mp hwalk
  have hkn : k = nil := hkn
  subst hmp hkn
  have hpn : m ≠ k := by
    rintro rfl
    rw [hl.nextOf_nil] at hpm
    cases hpm
  have hne : lw.first ≠ k := by
    intro heq
    rw [heq] at hwalk
    exact absurd (hwalk.from_nil hl.nextOf_nil).1 (by simp)
  have hseek : seek k (nextOf (st.get s)) k fuel lw.first = some m := by
    refine seek_last hl.nextOf_nil hwalk hpm ?_
    simp only [List.length_append, List.length_cons, List.length_nil] at hfuel
    omega
  have hrun : st.llAppend k fuel w x s = some (st.setNext x k (st.setNext m x s)) := by
    simp only [llAppend, hw, hx, Option.bind_eq_bind, Option.bind_some, if_neg hne, hseek,
      if_neg hpn]
  have hnext : nextOf (st.get (st.setNext x k (st.setNext m x s)))
      = setAt (setAt (nextOf (st.get s)) m x) x k := by simp
  have hold : ∀ c, c ∈ cs ++ [m, x] ↔ c ∈ L w ∨ c = x := by
    intro c
    rw [hL]
    simp [or_assoc]
  refine ⟨_, hrun, setList (a := lw.first) hl ?_ hfirst ?_ ?_ ?_ ?_ ?_, ?_⟩
  · simp [setNext]
  · rw [firstOf_setNext, firstOf_setNext]
    exact (setAt_eq hfirst).symm
  · rw [hnext]
    refine seg_append.mpr ⟨m, hp.congr fun y hy => ?_, rfl, x, ?_, rfl, k, ?_, rfl⟩
    · have hyx : y ≠ x := by
        rintro rfl
        exact hxw (by rw [hL]; exact List.mem_append_left _ hy)
      rw [setAt_ne hyx, setAt_ne (hcsp y hy)]
    · rw [setAt_ne (Ne.symm hxp)]
      exact setAt_self hpm
    · refine setAt_self (w := lx.next) ?_
      rw [setAt_ne hxp]
      exact hnextx
  · intro c hc
    refine ((hold c).mp hc).imp_right fun heq => ?_
    rw [heq]
    exact hfree
  · intro y hy hyc
    have hyx : y ≠ x := fun heq => hyc ((hold y).mpr (.inr heq))
    have hyp : y ≠ m := fun heq => hy (heq ▸ hpw)
    rw [hnext, setAt_ne hyx, setAt_ne hyp]
  · intro y hy hyn
    exact absurd ((hold y).mpr (.inl hy)) hyn
  · simp

/-- `x`, which was in no list, comes to the end of the list of `w`. -/
theorem llAppend_spec (hl : Listed nil (st.get s) L) {lw lx : Links α}
    (hw : st.get s w = some lw) (hx : st.get s x = some lx) (hfree : ∀ p, x ∉ L p)
    (hfuel : (L w).length ≤ fuel) :
    ∃ s', st.llAppend nil fuel w x s = some s' ∧
      Listed nil (st.get s') (Function.update L w (L w ++ [x])) ∧
      upOf (st.get s') = upOf (st.get s) := by
  rcases (L w).eq_nil_or_concat' with hL | ⟨cs, p, hL⟩
  · rw [hL]
    exact llAppend_empty hl hw hx hfree hL
  · have happ : L w ++ [x] = cs ++ [p, x] := by rw [hL, List.append_assoc]; rfl
    rw [happ]
    exact llAppend_after hl hw hx hfree hL hfuel

/-- Nothing but `up` tells what the nodes are. -/
theorem get_none_congr {s1 : σ} (hup : upOf (st.get s1) = upOf (st.get s)) (y : α) :
    st.get s1 y = none ↔ st.get s y = none := by
  have h := congrFun hup y
  rw [upOf, upOf] at h
  rw [← Option.map_eq_none_iff (f := Links.up), h, Option.map_eq_none_iff]

section Relink

variable (hg : Forest nil (st.get s) L) {lx : Links α} {new : α} (hx : st.get s x = some lx)
  (hfuel : ∀ p, (L p).length ≤ fuel)
include hg hx

include hfuel in
/-- Out of the old list, if there is one. -/
theorem relink_remove :
    ∃ s1 L1,
      (if decide (lx.up ≠ nil) = true then st.llRemove nil fuel lx.up x s else some s) = some s1 ∧
      Listed nil (st.get s1) L1 ∧ upOf (st.get s1) = upOf (st.get s) ∧
      ∀ p c, c ∈ L1 p ↔ c ∈ L p ∧ c ≠ x := by
  by_cases hold : lx.up = nil
  · refine ⟨s, L, by simp [hold], hg.toListed, rfl, fun p c => ?_⟩
    constructor
    · intro hc
      refine ⟨hc, ?_⟩
      rintro rfl
      obtain ⟨hp, hcp⟩ := hg.mem_iff.mp hc
      rw [upOf, hx, Option.map_some, hold] at hcp
      exact hp (Option.some.inj hcp).symm
    · exact fun h => h.1
  · have hmem := hg.mem_up hx hold
    obtain ⟨s1, hs1, hl1, hup1⟩ := llRemove_spec hg.toListed hmem (hfuel lx.up)
    refine ⟨s1, _, by simp [hold, hs1], hl1, hup1, fun p c => ?_⟩
    by_cases hp : p = lx.up
    · subst hp
      rw [Function.update_self, (hg.list_nodup lx.up).mem_erase_iff]
      exact And.comm
    · rw [Function.update_of_ne hp]
      constructor
      · intro hc
        refine ⟨hc, ?_⟩
        rintro rfl
        exact hp (hg.disjoint hc hmem)
      · exact fun h => h.1

omit hg in
include hfuel in
/-- Into the new one, if there is one. -/
theorem relink_append {s1 : σ} {L1 : α → List α} (hl1 : Listed nil (st.get s1) L1)
    (hup1 : upOf (st.get s1) = upOf (st.get s)) (hmem1 : ∀ p c, c ∈ L1 p ↔ c ∈ L p ∧ c ≠ x)
    (hnew : new = nil ∨ ∃ ln, st.get s new = some ln) :
    ∃ s2 L2,
      (if decide (new ≠ nil) = true then st.llAppend nil fuel new x s1 else some s1) = some s2 ∧
      Listed nil (st.get s2) L2 ∧ upOf (st.get s2) = upOf (st.get s) ∧
      ∀ p c, c ∈ L2 p ↔ c ∈ L p ∧ c ≠ x ∨ c = x ∧ p = new ∧ new ≠ nil := by
  have hvalid : ∀ {y l}, st.get s y = some l → ∃ l', st.get s1 y = some l' := by
    intro y l hy
    refine Option.ne_none_iff_exists'.mp fun h => ?_
    rw [(get_none_congr hup1 y).mp h] at hy
    exact nomatch hy
  by_cases hn : new = nil
  · refine ⟨s1, L1, by simp [hn], hl1, hup1, fun p c => ?_⟩
    rw [hmem1]
    simp [hn]
  · obtain ⟨ln, hln⟩ := hnew.resolve_left hn
    obtain ⟨ln', hln'⟩ := hvalid hln
    obtain ⟨lx', hlx'⟩ := hvalid hx
    have hfree : ∀ p, x ∉ L1 p := fun p hp => ((hmem1 p x).mp hp).2 rfl
    have hfuel1 : (L1 new).length ≤ fuel :=
      Nat.le_trans (List.subperm_of_subset (hl1.list_nodup new) fun c hc =>
        ((hmem1 new c).mp hc).1).length_le (hfuel new)
    obtain ⟨s2, hs2, hl2, hup2⟩ := llAppend_spec hl1 hln' hlx' hfree hfuel1
    refine ⟨s2, _, by simp [hn, hs2], hl2, hup2.trans hup1, fun p c => ?_⟩
    by_cases hp : p = new
    · subst hp
      rw [Function.update_self, List.mem_append, hmem1, List.mem_singleton]
      simp [hn]
    · rw [Function.update_of_ne hp, hmem1]
      simp [hp]

/-- With `x` hung up at a place that is not below it, the way up from each node still ends. -/
theorem relink_path {c : α} {lc : Links α} (hc : st.get s c = some lc)
    (hnew : new = nil ∨ (∃ ln, st.get s new = some ln) ∧ ¬ Below (st.get s) x new) :
    ∃ ps, Seg (setAt (upOf (st.get s)) x new) c ps nil := by
  -- above `new` nothing has changed
  have habove : ∀ {c l}, st.get s c = some l → ¬ Below (st.get s) x c →
      ∃ ps, Seg (setAt (upOf (st.get s)) x new) c ps nil := by
    intro c l hc hnb
    obtain ⟨ps, hps⟩ := hg.path hc
    refine ⟨ps, hps.congr fun y hy => setAt_ne ?_⟩
    rintro rfl
    obtain ⟨l1, r, rfl⟩ := List.append_of_mem hy
    obtain ⟨m, hm, hmy, -⟩ := seg_append.mp hps
    exact hnb ⟨l1, hmy ▸ hm⟩
  by_cases hbelow : Below (st.get s) x c
  · obtain ⟨ps, hps⟩ := hbelow
    have hxps : x ∉ ps := hg.not_mem_path hx hps
    have hps' : Seg (setAt (upOf (st.get s)) x new) c ps x :=
      hps.congr fun y hy => setAt_ne fun heq => hxps (heq ▸ hy)
    obtain ⟨qs, hqs⟩ : ∃ qs, Seg (setAt (upOf (st.get s)) x new) new qs nil := by
      rcases hnew with rfl | ⟨⟨ln, hln⟩, hnb⟩
      · exact ⟨[], rfl⟩
      · exact habove hln hnb
    have hupx : upOf (st.get s) x = some lx.up := by rw [upOf, hx]; rfl
    exact ⟨ps ++ x :: qs, seg_append.mpr ⟨x, hps', rfl, new, setAt_self hupx, hqs⟩⟩
  · exact habove hc hbelow

include hfuel in
/-- Moving a node, with all below it, to a place that is not below it. -/
theorem relink_spec
    (hnew : new = nil ∨ (∃ ln, st.get s new = some ln) ∧ ¬ Below (st.get s) x new) :
    ∃ s' L', st.relink nil fuel x lx.up new (decide (lx.up ≠ nil)) (decide (new ≠ nil)) s = some s' ∧
      Forest nil (st.get s') L' ∧ upOf (st.get s') = setAt (upOf (st.get s)) x new ∧
      ∀ p c, c ∈ L' p ↔ c ∈ L p ∧ c ≠ x ∨ c = x ∧ p = new ∧ new ≠ nil := by
  have hupx : upOf (st.get s) x = some lx.up := by rw [upOf, hx]; rfl
  obtain ⟨s1, L1, hrun1, hl1, hup1, hmem1⟩ := relink_remove hg hx hfuel
  obtain ⟨s2, L2, hrun2, hl2, hup2, hmem2⟩ :=
    relink_append hx hfuel hl1 hup1 hmem1 (hnew.imp_right And.left)
  have hrun : st.relink nil fuel x lx.up new (decide (lx.up ≠ nil)) (decide (new ≠ nil)) s
      = some (st.setUp x new s2) := by
    simp only [relink, hrun1, hrun2, Option.bind_eq_bind, Option.bind_some]
  have hup : upOf (st.get (st.setUp x new s2)) = setAt (upOf (st.get s)) x new := by
    rw [upOf_setUp, hup2]
  refine ⟨_, L2, hrun, ⟨⟨?_, ?_, ?_, hl2.disjoint, ?_⟩, ?_, ?_⟩, hup, hmem2⟩
  · simp [setUp, hl2.nil_none]
  · intro p a hp
    rw [firstOf_setUp] at hp
    rw [nextOf_setUp]
    exact hl2.seg hp
  · intro p hp
    exact hl2.empty (by simpa [setUp] using hp)
  · intro c d hc hfree
    rw [nextOf_setUp] at hc
    exact hl2.free hc hfree
  · intro p c
    rw [hmem2, hup]
    by_cases hcx : c = x
    · subst hcx
      rw [setAt_self hupx]
      constructor
      · rintro (⟨-, h⟩ | ⟨-, rfl, hp⟩)
        · exact absurd rfl h
        · exact ⟨hp, rfl⟩
      · rintro ⟨hp, heq⟩
        cases heq
        exact .inr ⟨rfl, rfl, hp⟩
    · rw [setAt_ne hcx, ← hg.mem_iff]
      simp [hcx]
  · intro c l hc
    obtain ⟨lc, hlc⟩ : ∃ lc, st.get s c = some lc := by
      refine Option.ne_none_iff_exists'.mp fun h => ?_
      have hnone := (get_none_congr hup2 c).mpr h
      rw [← st.get_modify_eq_none x s2 fun l => { l with up := new }] at hnone
      cases hc.symm.trans hnone
    rw [hup]
    exact relink_path hg hx hlc hnew

end Relink

/-- Making `p` the parent of several nodes. -/
theorem setUps_spec (st : Store σ α) (cs : List α) (p : α) (s : σ) :
    (upOf (st.get (cs.foldl (fun s c => st.setUp c p s) s)) = fun y =>
        if y ∈ cs then (upOf (st.get s) y).map fun _ => p else upOf (st.get s) y) ∧
      firstOf (st.get (cs.foldl (fun s c => st.setUp c p s) s)) = firstOf (st.get s) ∧
      nextOf (st.get (cs.foldl (fun s c => st.setUp c p s) s)) = nextOf (st.get s) := by
  induction cs generalizing s with
  | nil => exact ⟨by funext y; rw [if_neg List.not_mem_nil]; rfl, rfl, rfl⟩
  | cons c cs ih =>
      obtain ⟨h1, h2, h3⟩ := ih (st.setUp c p s)
      refine ⟨?_, h2.trans (by simp), h3.trans (by simp)⟩
      refine h1.trans ?_
      funext y
      rw [upOf_setUp]
      by_cases hyc : y = c
      · subst hyc
        rw [if_pos List.mem_cons_self, setAt, if_pos rfl, Option.map_map]
        split <;> rfl
      · rw [setAt_ne hyc]
        simp [hyc]

section Rename

variable {g : Graph α} {old new : α} {lo : Links α} (hg : Forest nil g L)
  (hold : g old = some lo) (hnew : g new = none)
  (hfuel : ∀ p, (L p).length ≤ fuel) (hs : st.get s = fun y => g (Equiv.swap old new y))
include hnew

/-- A link that does not lead to `old` stays. -/
theorem swap_link {d : α} (hd : d = nil ∨ ∃ l, g d = some l) (hne : d ≠ old) (hnn : new ≠ nil) :
    Equiv.swap old new d = d := by
  refine Equiv.swap_apply_of_ne_of_ne hne ?_
  rintro rfl
  rcases hd with h | ⟨l, hl⟩
  · exact hnn h
  · rw [hnew] at hl
    exact nomatch hl

/-- A field of links all of which lead to nodes, where none leads to `old`. -/
theorem map_swap {f : Option α} (hf : ∀ d, f = some d → d = nil ∨ ∃ l, g d = some l)
    (hne : f ≠ some old) (hnn : new ≠ nil) : f = f.map (Equiv.swap old new) := by
  cases f with
  | none => rfl
  | some d =>
      rw [Option.map_some, swap_link hnew (hf d rfl) (fun h => hne (congrArg some h)) hnn]

include hg

/-- Nodes other than `old` and `new` stay what they are. -/
theorem swap_listed {p y : α} (hy : y ∈ L p) (hne : y ≠ old) : Equiv.swap old new y = y := by
  refine Equiv.swap_apply_of_ne_of_ne hne ?_
  rintro rfl
  obtain ⟨l, hl, -⟩ := hg.mem_valid hy
  rw [hnew] at hl
  exact nomatch hl

include hs

/-- Links that do not lead to `old` are what they are to be. -/
theorem first_kept (hnn : new ≠ nil) {y : α} (hy : firstOf (st.get s) y ≠ some old) :
    firstOf (st.get s) y = (firstOf (st.get s) y).map (Equiv.swap old new) := by
  have hF : firstOf (st.get s) y = firstOf g (Equiv.swap old new y) := by
    rw [firstOf, hs]
    rfl
  rw [hF] at hy ⊢
  exact map_swap hnew (fun d hd => hg.first_leads hd) hy hnn

theorem next_kept (hnn : new ≠ nil) {y : α} (hy : nextOf (st.get s) y ≠ some old) :
    nextOf (st.get s) y = (nextOf (st.get s) y).map (Equiv.swap old new) := by
  have hN : nextOf (st.get s) y = nextOf g (Equiv.swap old new y) := by
    rw [nextOf, hs]
    rfl
  rw [hN] at hy ⊢
  exact map_swap hnew (fun d hd => hg.next_leads hd) hy hnn

include hold

/-- The parent of `old` is where it was. -/
theorem parent_kept (hnn : new ≠ nil) (hroot : lo.up ≠ nil) :
    Equiv.swap old new lo.up = lo.up ∧ ∃ lp, g lo.up = some lp ∧ st.get s lo.up = some lp := by
  obtain ⟨lp, hlp⟩ := hg.up_valid hold hroot
  have hpold : lo.up ≠ old := by
    intro heq
    refine hg.not_below_child (hg.mem_up hold hroot) ?_
    rw [heq]
    exact Below.refl g old
  have hswap : Equiv.swap old new lo.up = lo.up := swap_link hnew (.inr ⟨lp, hlp⟩) hpold hnn
  refine ⟨hswap, lp, hlp, ?_⟩
  rw [hs]
  show g (Equiv.swap old new lo.up) = some lp
  rw [hswap, hlp]

/-- `old` was the first of its list. -/
theorem replaceLink_first (hnn : new ≠ nil) (hroot : lo.up ≠ nil)
    (hhead : firstOf g lo.up = some old) :
    ∃ s', st.replaceLink nil fuel lo.up old new s = some s' ∧ upOf (st.get s') = upOf (st.get s) ∧
      (∀ y, firstOf (st.get s') y = (firstOf (st.get s) y).map (Equiv.swap old new)) ∧
      ∀ y, nextOf (st.get s') y = (nextOf (st.get s) y).map (Equiv.swap old new) := by
  obtain ⟨hswap, lp, hlp, hget⟩ := parent_kept hg hold hnew hs hnn hroot
  have hfirst : lp.first = old := by
    rw [firstOf, hlp] at hhead
    exact Option.some.inj hhead
  have hrun : st.replaceLink nil fuel lo.up old new s = some (st.setFirst lo.up new s) := by
    simp only [replaceLink, hget, Option.bind_eq_bind, Option.bind_some, if_pos hfirst]
  have hF : ∀ y, firstOf (st.get s) y = firstOf g (Equiv.swap old new y) := fun y => by
    rw [firstOf, hs]
    rfl
  obtain ⟨-, -, r, hr⟩ := hg.first_owner hold hhead
  have hnd : (L lo.up).Nodup := hg.list_nodup lo.up
  refine ⟨_, hrun, by simp, fun y => ?_, fun y => ?_⟩
  · rw [firstOf_setFirst]
    by_cases hy : y = lo.up
    · subst hy
      have hFp : firstOf (st.get s) lo.up = some old := by rw [hF, hswap, hhead]
      rw [setAt_self hFp, hFp, Option.map_some, Equiv.swap_apply_left]
    · rw [setAt_ne hy]
      refine first_kept hg hnew hs hnn fun h => hy ?_
      rw [hF] at h
      have h1 := (hg.first_owner hold h).1
      rw [← hswap] at h1
      exact (Equiv.swap old new).injective h1
  · rw [nextOf_setFirst]
    refine next_kept hg hnew hs hnn fun h => ?_
    rw [nextOf, hs] at h
    obtain ⟨-, ds, es, hds⟩ := hg.next_owner hold h
    -- `old` would be in the list twice
    rw [hds] at hnd hr
    cases ds with
    | nil =>
        rw [List.nil_append] at hr hnd
        have hyo := (List.cons.inj hr).1
        exact (List.nodup_cons.mp hnd).1 (by rw [hyo]; exact List.mem_cons_self)
    | cons z ds =>
        have hzo := (List.cons.inj hr).1
        refine (List.nodup_cons.mp hnd).1 ?_
        rw [hzo]
        exact List.mem_append_right _ (List.mem_cons_of_mem _ List.mem_cons_self)

include hfuel

/-- `old` stood behind `p`. -/
theorem replaceLink_after (hnn : new ≠ nil) (hroot : lo.up ≠ nil) {cs ds : List α} {p : α}
    (hL : L lo.up = cs ++ p :: old :: ds) :
    ∃ s', st.replaceLink nil fuel lo.up old new s = some s' ∧ upOf (st.get s') = upOf (st.get s) ∧
      (∀ y, firstOf (st.get s') y = (firstOf (st.get s) y).map (Equiv.swap old new)) ∧
      ∀ y, nextOf (st.get s') y = (nextOf (st.get s) y).map (Equiv.swap old new) := by
  obtain ⟨-, lp, hlp, hget⟩ := parent_kept hg hold hnew hs hnn hroot
  have hf : firstOf g lo.up = some lp.first := by rw [firstOf, hlp]; rfl
  have hN : ∀ y, nextOf (st.get s) y = nextOf g (Equiv.swap old new y) := fun y => by
    rw [nextOf, hs]
    rfl
  have hwalk := hg.seg hf
  have hnd := hg.list_nodup lo.up
  have hcsL : ∀ y ∈ cs, y ∈ L lo.up := fun y hy => by rw [hL]; exact List.mem_append_left _ hy
  have hpL : p ∈ L lo.up := by
    rw [hL]
    exact List.mem_append_right _ List.mem_cons_self
  rw [hL] at hwalk hnd
  obtain ⟨-, hptl, hdisj⟩ := List.nodup_append.mp hnd
  have hcso : ∀ y ∈ cs, y ≠ old := fun y hy =>
    hdisj y hy old (List.mem_cons_of_mem p List.mem_cons_self)
  have hpo : p ≠ old := by
    rintro rfl
    exact (List.nodup_cons.mp hptl).1 List.mem_cons_self
  obtain ⟨m, hm, hmp, k, hpk, hko, -⟩ := seg_append.mp hwalk
  subst hmp hko
  -- up to `old` the list is where it was
  have hsame : ∀ {y}, y ∈ L lo.up → y ≠ k → nextOf (st.get s) y = nextOf g y := by
    intro y hy hyk
    rw [hN, swap_listed hg hnew hy hyk]
  have hNp : nextOf (st.get s) m = some k := by rw [hsame hpL hpo, hpk]
  have hne : lp.first ≠ k := by
    intro heq
    cases cs with
    | nil => exact hpo ((show lp.first = m from hm).symm.trans heq)
    | cons z cs => exact hcso z List.mem_cons_self (hm.1.symm.trans heq)
  have hseek : seek nil (nextOf (st.get s)) k fuel lp.first = some m := by
    have hNnil : nextOf (st.get s) nil = none := by
      rw [hN, swap_link hnew (.inl rfl) (Ne.symm (hg.ne_nil hold)) hnn, hg.toListed.nextOf_nil]
    refine seek_eq hNnil (hm.congr fun y hy => hsame (hcsL y hy) (hcso y hy)) hNp ?_ ?_
    · intro y hy hyk
      rw [hsame (hcsL y hy) (hcso y hy)] at hyk
      have heq := hwalk.succ_inj hg.toListed.nextOf_nil (List.mem_append_left _ hy)
        (List.mem_append_right _ List.mem_cons_self) (hyk.trans hpk.symm)
      exact hdisj y hy m List.mem_cons_self heq
    · have := hfuel lo.up
      rw [hL] at this
      simp only [List.length_append, List.length_cons] at this
      omega
  have hmnil : m ≠ nil := by
    obtain ⟨l, hl, -⟩ := hg.mem_valid hpL
    exact hg.ne_nil hl
  have hrun : st.replaceLink nil fuel lo.up k new s = some (st.setNext m new s) := by
    simp only [replaceLink, hget, Option.bind_eq_bind, Option.bind_some, if_neg hne, hseek,
      if_neg hmnil]
  refine ⟨_, hrun, by simp, fun y => ?_, fun y => ?_⟩
  · rw [firstOf_setNext]
    refine first_kept hg hnew hs hnn fun h => ?_
    rw [firstOf, hs] at h
    have h : firstOf g (Equiv.swap k new y) = some k := h
    rw [(hg.first_owner hold h).1, hf] at h
    exact hne (Option.some.inj h)
  · rw [nextOf_setNext]
    by_cases hy : y = m
    · subst hy
      rw [setAt_self hNp, hNp, Option.map_some, Equiv.swap_apply_left]
    · rw [setAt_ne hy]
      refine next_kept hg hnew hs hnn fun h => hy ?_
      rw [hN] at h
      obtain ⟨-, ds', es, hds⟩ := hg.next_owner hold h
      have hyL : Equiv.swap k new y ∈ L lo.up := by
        rw [hds]
        exact List.mem_append_right _ List.mem_cons_self
      have heq : Equiv.swap k new y = m :=
        (hg.seg hf).succ_inj hg.toListed.nextOf_nil hyL hpL (h.trans hpk.symm)
      rw [← swap_listed hg hnew hpL hpo] at heq
      exact (Equiv.swap k new).injective heq

/-- Then no link leads to `old`. -/
theorem replaceLink_spec (hnn : new ≠ nil) :
    ∃ s', (if lo.up ≠ nil then st.replaceLink nil fuel lo.up old new s else some s) = some s' ∧
      upOf (st.get s') = upOf (st.get s) ∧
      (∀ y, firstOf (st.get s') y = (firstOf (st.get s) y).map (Equiv.swap old new)) ∧
      ∀ y, nextOf (st.get s') y = (nextOf (st.get s) y).map (Equiv.swap old new) := by
  by_cases hroot : lo.up = nil
  · refine ⟨s, by rw [if_neg (not_not.mpr hroot)], rfl, fun y => ?_, fun y => ?_⟩
    · refine first_kept hg hnew hs hnn fun h => ?_
      rw [firstOf, hs] at h
      obtain ⟨h1, h2, -⟩ := hg.first_owner hold h
      exact h2 (h1.trans hroot)
    · refine next_kept hg hnew hs hnn fun h => ?_
      rw [nextOf, hs] at h
      exact (hg.next_owner hold h).1 hroot
  · rw [if_pos hroot]
    obtain ⟨cs, ds, hL⟩ := List.append_of_mem (hg.mem_up hold hroot)
    rcases cs.eq_nil_or_concat' with rfl | ⟨cs, p, rfl⟩
    · obtain ⟨lp, hlp⟩ := hg.up_valid hold hroot
      have hf : firstOf g lo.up = some lp.first := by rw [firstOf, hlp]; rfl
      have hwalk := hg.seg hf
      rw [hL] at hwalk
      rw [hwalk.1] at hf
      exact replaceLink_first hg hold hnew hs hnn hroot hf
    · rw [List.append_assoc] at hL
      exact replaceLink_after hg hold hnew hfuel hs hnn hroot hL

omit hfuel in
/-- The list of `old` is still that of `new`. -/
theorem rename_list (hnn : new ≠ nil) {s1 : σ}
    (hnext1 : ∀ y, nextOf (st.get s1) y = (nextOf (st.get s) y).map (Equiv.swap old new)) :
    Seg (nextOf (st.get s1)) lo.first (L old) nil := by
  have hfo : firstOf g old = some lo.first := by rw [firstOf, hold]; rfl
  have holdL : old ∉ L old := fun h => hg.not_below_child h (Below.refl g old)
  refine (hg.seg hfo).congr fun y hy => ?_
  have hyo : y ≠ old := fun h => holdL (h ▸ hy)
  have hN : nextOf (st.get s) y = nextOf g y := by
    rw [nextOf, hs]
    show (g (Equiv.swap old new y)).map Links.next = nextOf g y
    rw [swap_listed hg hnew hy hyo]
    rfl
  rw [hnext1, hN]
  refine (map_swap hnew (fun d hd => hg.next_leads hd) (fun hd => ?_) hnn).symm
  obtain ⟨q, ds, es, hq⟩ := hg.next_mem hd (hg.ne_nil hold)
  have hyq : y ∈ L q := by
    rw [hq]
    exact List.mem_append_right _ List.mem_cons_self
  have hoq : old ∈ L q := by
    rw [hq]
    exact List.mem_append_right _ (List.mem_cons_of_mem y List.mem_cons_self)
  rw [hg.disjoint hyq hy] at hoq
  exact holdL hoq

omit hfuel in
/-- The nodes in the list of `old` get `new` as their parent, and the others keep theirs. -/
theorem rename_ups (hnn : new ≠ nil) (y : α) :
    (if y ∈ L old then (upOf (st.get s) y).map fun _ => new else upOf (st.get s) y) =
      (upOf (st.get s) y).map (Equiv.swap old new) := by
  have holdL : old ∉ L old := fun h => hg.not_below_child h (Below.refl g old)
  have hU : upOf (st.get s) y = upOf g (Equiv.swap old new y) := by
    rw [upOf, hs]
    rfl
  rw [hU]
  split
  next hy =>
    have hyo : y ≠ old := fun h => holdL (h ▸ hy)
    obtain ⟨-, hyup⟩ := hg.mem_iff.mp hy
    rw [swap_listed hg hnew hy hyo, hyup, Option.map_some, Option.map_some, Equiv.swap_apply_left]
  next hy =>
    refine map_swap hnew (fun d hd => ?_) (fun hd => ?_) hnn
    · obtain ⟨l, hl, rfl⟩ := Option.map_eq_some_iff.mp hd
      exact (Decidable.em (l.up = nil)).imp_right (hg.up_valid hl)
    · -- then `y` is in the list of `old`
      have hmem := hg.mem_iff.mpr ⟨hg.ne_nil hold, hd⟩
      have hne : Equiv.swap old new y ≠ old := by
        intro h
        rw [h] at hmem
        exact holdL hmem
      have heq := swap_listed hg hnew hmem hne
      rw [Equiv.swap_apply_self] at heq
      rw [← heq] at hmem
      exact hy hmem

/-- After `old` has become `new`, the links are renamed. -/
theorem renameLinks_spec (hnn : new ≠ nil) :
    ∃ s', st.renameLinks nil fuel old new s = some s' ∧
      st.get s' = rename (Equiv.swap old new) g := by
  obtain ⟨s1, hrun1, hup1, hfirst1, hnext1⟩ := replaceLink_spec hg hold hnew hfuel hs hnn
  have hlo : st.get s new = some lo := by
    rw [hs]
    show g (Equiv.swap old new new) = some lo
    rw [Equiv.swap_apply_right, hold]
  have hN : ∀ y, nextOf (st.get s) y = nextOf g (Equiv.swap old new y) := fun y => by
    rw [nextOf, hs]
    rfl
  have hnil1 : nextOf (st.get s1) nil = none := by
    rw [hnext1, hN, swap_link hnew (.inl rfl) (Ne.symm (hg.ne_nil hold)) hnn,
      hg.toListed.nextOf_nil]
    rfl
  have hfollow := follow_eq hnil1 (rename_list hg hold hnew hs hnn hnext1) (hfuel old)
  have hrun : st.renameLinks nil fuel old new s
      = some ((L old).foldl (fun s c => st.setUp c new s) s1) := by
    simp only [renameLinks, hlo, hrun1, hfollow, Option.bind_eq_bind, Option.bind_some]
  obtain ⟨hups, hfirsts, hnexts⟩ := setUps_spec st (L old) new s1
  refine ⟨_, hrun, graph_ext ?_ ?_ ?_⟩
  · funext y
    rw [hups, hup1, upOf_rename, Equiv.symm_swap]
    refine (rename_ups hg hold hnew hs hnn y).trans ?_
    rw [upOf, hs]
    rfl
  · funext y
    rw [hfirsts, hfirst1, firstOf_rename, Equiv.symm_swap]
    show _ = (firstOf g (Equiv.swap old new y)).map (Equiv.swap old new)
    rw [firstOf, hs]
    rfl
  · funext y
    rw [hnexts, hnext1, nextOf_rename, Equiv.symm_swap, hN]

end Rename

end Lists

end Store

end LinkedForest
