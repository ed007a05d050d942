import Mathlib.Logic.Function.Basic
import Mathlib.Data.Finset.Card
import Mathlib.Data.List.Perm.Basic

/-! # Reference-counted heaps

    A heap is a list of blocks; a block has a reference count, a tag and cells,
    and a cell is an immediate or a reference to a block.  `Counted h roots` says
    that the counts are exact for the references from the cells `roots` and from
    the blocks.  `Consistent val h` says that `val` gives every live block the
    value its contents spell.  Counting up, freeing and allocating keep the
    values that exist; changing a block in place keeps those of all other roots
    when the count of the block is 1. -/

namespace RefHeap

/-- What a holder, or a place in a block, holds. -/
inductive Cell (α : Type*) where
  | imm (a : α)
  | ref (r : Nat)
  deriving DecidableEq, Repr

/-- A block of the heap; a freed one has count 0 and no cells. -/
structure Block (α β : Type*) where
  refs : Nat
  tag : β
  cells : List (Cell α)
  deriving DecidableEq, Repr

/-- Blocks are found by their position. -/
abbrev Heap (α β : Type*) := List (Block α β)

variable {α β : Type*}

/-- A reference to block `r`. -/
def Cell.isRef (r : Nat) : Cell α → Bool
  | .imm _ => false
  | .ref r' => r' == r

/-- The references to block `r` among some cells. -/
def refsTo (r : Nat) (cs : List (Cell α)) : Nat := cs.countP (Cell.isRef r)

/-- All cells in blocks. -/
def heapCells (h : Heap α β) : List (Cell α) := h.flatMap Block.cells

/-- The count of block `r`, or 0 where there is none. -/
def count (h : Heap α β) (r : Nat) : Nat := (h[r]?.map Block.refs).getD 0

/-- The counts are the numbers of references from `roots` and from the blocks. -/
def Counted (h : Heap α β) (roots : List (Cell α)) : Prop :=
  ∀ r, count h r = refsTo r roots + refsTo r (heapCells h)

/-! ## Operations -/

/-- One more reference to what the cell refers to. -/
def addRef (c : Cell α) (h : Heap α β) : Heap α β :=
  match c with
  | .imm _ => h
  | .ref r => h.modify r fun b => { b with refs := b.refs + 1 }

/-- One more reference for each of the cells. -/
def refAll (cs : List (Cell α)) (h : Heap α β) : Heap α β := cs.foldl (fun h c => addRef c h) h

/-- A new block, which takes the cells over. -/
def alloc (tag : β) (cs : List (Cell α)) (h : Heap α β) : Cell α × Heap α β :=
  (.ref h.length, h ++ [{ refs := 1, tag, cells := cs }])

/-- Give up the cells one after the other, and those of the blocks this frees. -/
def freeAll : Nat → List (Cell α) → Heap α β → Heap α β
  | 0, _, h => h
  | _ + 1, [], h => h
  | n + 1, .imm _ :: cs, h => freeAll n cs h
  | n + 1, .ref r :: cs, h =>
      match h[r]? with
      | none => freeAll n cs h
      | some b =>
          if b.refs = 1 then freeAll n (b.cells ++ cs) (h.set r { b with refs := 0, cells := [] })
          else freeAll n cs (h.set r { b with refs := b.refs - 1 })

/-- Every cell, of those given and of the blocks, is given up at most once. -/
def free (cs : List (Cell α)) (h : Heap α β) : Heap α β :=
  freeAll (cs.length + (heapCells h).length) cs h

/-- Store new contents into block `r`. -/
def setBlock (r : Nat) (tag : β) (cs : List (Cell α)) (h : Heap α β) : Heap α β :=
  h.modify r fun b => { b with tag, cells := cs }

/-! ## Counting references -/

@[simp] theorem refsTo_nil (r : Nat) : refsTo r ([] : List (Cell α)) = 0 := rfl

theorem refsTo_cons (r : Nat) (c : Cell α) (cs : List (Cell α)) :
    refsTo r (c :: cs) = refsTo r [c] + refsTo r cs := by
  simp only [refsTo, List.countP_cons, List.countP_nil]
  omega

@[simp] theorem refsTo_append (r : Nat) (cs ds : List (Cell α)) :
    refsTo r (cs ++ ds) = refsTo r cs + refsTo r ds := List.countP_append

@[simp] theorem refsTo_imm (r : Nat) (a : α) : refsTo r [Cell.imm a] = 0 := rfl

theorem refsTo_ref (r r' : Nat) : refsTo r [(Cell.ref r' : Cell α)] = if r' = r then 1 else 0 := by
  simp [refsTo, Cell.isRef]

theorem refsTo_ref_self (r : Nat) : refsTo r [(Cell.ref r : Cell α)] = 1 := by
  rw [refsTo_ref, if_pos rfl]

theorem refsTo_pos_of_mem {r : Nat} {cs : List (Cell α)} (h : Cell.ref r ∈ cs) :
    0 < refsTo r cs := List.countP_pos_iff.mpr ⟨_, h, by simp [Cell.isRef]⟩

/-- Exchanging one cell of a list. -/
theorem refsTo_set (r : Nat) {cs : List (Cell α)} {i : Nat} (hi : i < cs.length) (c : Cell α) :
    refsTo r (cs.set i c) + refsTo r [cs[i]] = refsTo r cs + refsTo r [c] := by
  induction cs generalizing i with
  | nil => exact absurd hi (Nat.not_lt_zero i)
  | cons d cs ih =>
      cases i with
      | zero =>
          rw [List.set_cons_zero, refsTo_cons r c cs, refsTo_cons r d cs, List.getElem_cons_zero]
          omega
      | succ i =>
          have hi' : i < cs.length := Nat.lt_of_succ_lt_succ hi
          have := ih hi'
          rw [List.set_cons_succ, refsTo_cons r d (cs.set i c), refsTo_cons r d cs,
            List.getElem_cons_succ]
          omega

theorem refsTo_perm {cs ds : List (Cell α)} (h : cs.Perm ds) (r : Nat) :
    refsTo r cs = refsTo r ds := h.countP_eq _

theorem heapCells_append (h h' : Heap α β) : heapCells (h ++ h') = heapCells h ++ heapCells h' :=
  List.flatMap_append

theorem count_eq {h : Heap α β} {r : Nat} {b : Block α β} (hb : h[r]? = some b) :
    count h r = b.refs := by simp [count, hb]

theorem lt_of_count {h : Heap α β} {r : Nat} (hc : count h r ≠ 0) : r < h.length := by
  by_contra hr
  rw [count, List.getElem?_eq_none (Nat.le_of_not_lt hr)] at hc
  exact hc rfl

theorem exists_of_count {h : Heap α β} {r : Nat} (hc : count h r ≠ 0) :
    ∃ b, h[r]? = some b ∧ b.refs ≠ 0 := by
  have hr := lt_of_count hc
  refine ⟨h[r], List.getElem?_eq_getElem hr, ?_⟩
  rw [count_eq (List.getElem?_eq_getElem hr)] at hc
  exact hc

/-- Exchanging the block at `r` exchanges its cells. -/
theorem refsTo_heapCells_set {h : Heap α β} {r : Nat} {b : Block α β} (hb : h[r]? = some b)
    (b' : Block α β) (r' : Nat) :
    refsTo r' (heapCells (h.set r b')) + refsTo r' b.cells
      = refsTo r' (heapCells h) + refsTo r' b'.cells := by
  induction h generalizing r with
  | nil => exact nomatch hb
  | cons a h ih =>
      cases r with
      | zero =>
          cases hb
          simp only [heapCells, List.set_cons_zero, List.flatMap_cons, refsTo_append]
          omega
      | succ r =>
          have := ih hb
          simp only [heapCells, List.set_cons_succ, List.flatMap_cons, refsTo_append] at this ⊢
          omega

theorem length_heapCells_set {h : Heap α β} {r : Nat} {b : Block α β} (hb : h[r]? = some b)
    (b' : Block α β) :
    (heapCells (h.set r b')).length + b.cells.length
      = (heapCells h).length + b'.cells.length := by
  induction h generalizing r with
  | nil => exact nomatch hb
  | cons a h ih =>
      cases r with
      | zero =>
          cases hb
          simp only [heapCells, List.set_cons_zero, List.flatMap_cons, List.length_append]
          omega
      | succ r =>
          have := ih hb
          simp only [heapCells, List.set_cons_succ, List.flatMap_cons, List.length_append]
            at this ⊢
          omega

theorem count_set {h : Heap α β} {r : Nat} {b b' : Block α β} (hb : h[r]? = some b) (r' : Nat) :
    count (h.set r b') r' = if r' = r then b'.refs else count h r' := by
  have hr : r < h.length := (List.getElem?_eq_some_iff.mp hb).1
  by_cases hrr : r' = r
  · subst hrr
    simp [count, hr]
  · rw [if_neg hrr, count, count, List.getElem?_set_ne (Ne.symm hrr)]

theorem modify_eq_set {h : Heap α β} {r : Nat} {b : Block α β} (hb : h[r]? = some b)
    (f : Block α β → Block α β) : h.modify r f = h.set r (f b) := by
  refine List.ext_getElem? fun i => ?_
  rw [List.getElem?_modify, List.getElem?_set]
  have hr : r < h.length := (List.getElem?_eq_some_iff.mp hb).1
  by_cases hi : r = i
  · subst hi
    rw [if_pos rfl, if_pos hr, hb]
    simp
  · simp [hi]

/-! ### What a root says about the heap -/

section Roots

variable {h : Heap α β} {roots : List (Cell α)}

theorem Counted.of_perm {roots' : List (Cell α)} (hc : Counted h roots)
    (hp : roots.Perm roots') : Counted h roots' := fun r => by
  rw [← refsTo_perm hp r]
  exact hc r

theorem Counted.live {r : Nat} (hc : Counted h roots) (hr : Cell.ref r ∈ roots) :
    count h r ≠ 0 := by
  have := refsTo_pos_of_mem hr
  have := hc r
  omega

theorem mem_heapCells {r : Nat} {b : Block α β} {c : Cell α} (hb : h[r]? = some b)
    (hmem : c ∈ b.cells) : c ∈ heapCells h :=
  List.mem_flatMap.mpr ⟨b, List.mem_of_getElem? hb, hmem⟩

theorem refsTo_cells_le {r : Nat} {b : Block α β} (hb : h[r]? = some b) (r' : Nat) :
    refsTo r' b.cells ≤ refsTo r' (heapCells h) := by
  obtain ⟨l1, l2, hl⟩ := List.append_of_mem (List.mem_of_getElem? hb)
  rw [hl, heapCells_append, refsTo_append]
  simp only [heapCells, List.flatMap_cons, refsTo_append]
  omega

theorem Counted.live_of_block {r r' : Nat} {b : Block α β} (hc : Counted h roots)
    (hb : h[r]? = some b) (hr : Cell.ref r' ∈ b.cells) : count h r' ≠ 0 := by
  have := refsTo_pos_of_mem (mem_heapCells hb hr)
  have := hc r'
  omega

/-- A block with count 1 and a root that refers to it has no other reference. -/
theorem Counted.unique {r : Nat} (hc : Counted h (.ref r :: roots)) (h1 : count h r = 1) :
    refsTo r roots = 0 ∧ refsTo r (heapCells h) = 0 := by
  have := hc r
  rw [refsTo_cons, refsTo_ref_self] at this
  omega

/-! ### The operations keep the counts exact -/

theorem Counted.addRef (hc : Counted h roots) {c : Cell α}
    (hlive : ∀ r, c = .ref r → count h r ≠ 0) : Counted (addRef c h) (c :: roots) := by
  intro r'
  rw [refsTo_cons]
  cases c with
  | imm a =>
      rw [refsTo_imm, RefHeap.addRef]
      have := hc r'
      omega
  | ref r =>
      obtain ⟨b, hb, -⟩ := exists_of_count (hlive r rfl)
      have hcells := refsTo_heapCells_set hb { b with refs := b.refs + 1 } r'
      have hr' := hc r'
      have hcount := count_eq hb
      rw [RefHeap.addRef, modify_eq_set hb, count_set hb, refsTo_ref]
      dsimp only at hcells ⊢
      by_cases hrr : r' = r
      · subst hrr
        rw [if_pos rfl, if_pos rfl]
        omega
      · rw [if_neg hrr, if_neg (Ne.symm hrr)]
        omega

theorem count_addRef_ne_zero {c : Cell α} {r : Nat} (hr : count h r ≠ 0) :
    count (addRef c h) r ≠ 0 := by
  cases c with
  | imm a => exact hr
  | ref r' =>
      by_cases hlive : count h r' = 0
      · by_cases hr' : r' < h.length
        · rw [RefHeap.addRef, modify_eq_set (List.getElem?_eq_getElem hr'), count_set
            (List.getElem?_eq_getElem hr')]
          split
          · exact Nat.succ_ne_zero _
          · exact hr
        · have : RefHeap.addRef (.ref r' : Cell α) h = h := by
            rw [RefHeap.addRef]
            exact List.modify_eq_self (Nat.le_of_not_lt hr')
          rw [this]
          exact hr
      · obtain ⟨b, hb, -⟩ := exists_of_count hlive
        rw [RefHeap.addRef, modify_eq_set hb, count_set hb]
        split
        · exact Nat.succ_ne_zero _
        · exact hr

theorem Counted.refAll (hc : Counted h roots) {cs : List (Cell α)}
    (hlive : ∀ r, Cell.ref r ∈ cs → count h r ≠ 0) : Counted (refAll cs h) (cs ++ roots) := by
  induction cs generalizing h roots with
  | nil => exact hc
  | cons c cs ih =>
      have h1 : Counted (RefHeap.addRef c h) (c :: roots) :=
        hc.addRef fun r hr => hlive r (hr ▸ List.mem_cons_self)
      have h2 := ih h1 fun r hr =>
        count_addRef_ne_zero (hlive r (List.mem_cons_of_mem c hr))
      exact h2.of_perm List.perm_middle

theorem Counted.alloc (tag : β) {cs : List (Cell α)} (hc : Counted h (cs ++ roots)) :
    Counted (alloc tag cs h).2 ((alloc tag cs h).1 :: roots) := by
  intro r
  have hr := hc r
  have hcells : heapCells (h ++ [{ refs := 1, tag, cells := cs }]) = heapCells h ++ cs := by
    rw [heapCells_append]
    simp [heapCells]
  simp only [RefHeap.alloc]
  rw [hcells, refsTo_cons, refsTo_append, refsTo_ref]
  rw [refsTo_append] at hr
  by_cases hrl : h.length = r
  · rw [if_pos hrl]
    have h0 : count h r = 0 := by
      by_contra hne
      have := lt_of_count hne
      omega
    have h1 : count (h ++ [{ refs := 1, tag, cells := cs }]) r = 1 := by
      simp [count, ← hrl]
    omega
  · rw [if_neg hrl]
    have h1 : count (h ++ [{ refs := 1, tag, cells := cs }]) r = count h r := by
      by_cases hlt : r < h.length
      · simp [count, List.getElem?_append_left hlt]
      · have hle : h.length + 1 ≤ r := by omega
        rw [count, count, List.getElem?_eq_none (by simpa using hle),
          List.getElem?_eq_none (by omega)]
    omega

theorem Counted.freeAll (n : Nat) {cs : List (Cell α)}
    (hn : cs.length + (heapCells h).length ≤ n) (hc : Counted h (cs ++ roots)) :
    Counted (freeAll n cs h) roots := by
  induction n generalizing h cs with
  | zero =>
      have hcs : cs = [] := List.length_eq_zero_iff.mp (by omega)
      subst hcs
      exact hc
  | succ n ih =>
      cases cs with
      | nil => exact hc
      | cons c cs =>
          rw [List.length_cons] at hn
          cases c with
          | imm a =>
              refine ih (by omega) fun r => ?_
              have := hc r
              rw [List.cons_append, refsTo_cons, refsTo_imm] at this
              omega
          | ref r =>
              obtain ⟨b, hb, hbrefs⟩ := exists_of_count (hc.live List.mem_cons_self)
              have hcount := count_eq hb
              simp only [RefHeap.freeAll, hb]
              -- the reference given up is one of those counted
              have hstep : ∀ b' : Block α β, b'.refs + 1 = b.refs → ∀ ds,
                  (∀ r', refsTo r' ds + refsTo r' b'.cells = refsTo r' b.cells + refsTo r' cs) →
                  Counted (h.set r b') (ds ++ roots) := by
                intro b' hrefs ds hds r'
                have h1 := hc r'
                have h2 := refsTo_heapCells_set hb b' r'
                have h3 := hds r'
                rw [List.cons_append, refsTo_cons, refsTo_append, refsTo_ref] at h1
                rw [count_set hb, refsTo_append]
                by_cases hrr : r' = r
                · subst hrr
                  rw [if_pos rfl] at h1 ⊢
                  omega
                · rw [if_neg (Ne.symm hrr)] at h1
                  rw [if_neg hrr]
                  omega
              split
              next hone =>
                refine ih ?_ (hstep _ (by simp [hone]) _ fun r' => by simp)
                have := length_heapCells_set hb { b with refs := 0, cells := [] }
                rw [List.length_append]
                simp only [List.length_nil] at this
                omega
              next hne =>
                refine ih ?_ (hstep _ (by simp only []; omega) _ fun r' => by simp only []; omega)
                have := length_heapCells_set hb { b with refs := b.refs - 1 }
                simp only [] at this
                omega

/-- Giving cells up raises no count. -/
theorem count_freeAll_le (n : Nat) (cs : List (Cell α)) (h : Heap α β) (r : Nat) :
    count (RefHeap.freeAll n cs h) r ≤ count h r := by
  induction n generalizing cs h with
  | zero => exact Nat.le_refl _
  | succ n ih =>
      cases cs with
      | nil => exact Nat.le_refl _
      | cons c cs =>
          cases c with
          | imm a => exact ih cs h
          | ref r' =>
              cases hb : h[r']? with
              | none =>
                  simp only [RefHeap.freeAll, hb]
                  exact ih cs h
              | some b =>
                  have hcount := count_eq hb
                  have hset : ∀ b' : Block α β, b'.refs ≤ b.refs →
                      count (h.set r' b') r ≤ count h r := by
                    intro b' hle
                    rw [count_set hb]
                    split
                    next hrr => rw [hrr, hcount]; exact hle
                    next => exact Nat.le_refl _
                  simp only [RefHeap.freeAll, hb]
                  split
                  · exact (ih _ _).trans (hset _ (Nat.zero_le _))
                  · exact (ih _ _).trans (hset _ (Nat.sub_le _ _))

theorem Counted.free {cs : List (Cell α)} (hc : Counted h (cs ++ roots)) :
    Counted (free cs h) roots := hc.freeAll _ (Nat.le_refl _)

/-- Storing `new` into block `r`, which takes `used` over and gives `unused` back. -/
theorem Counted.setBlock {r : Nat} {b : Block α β} (tag : β) {new used unused : List (Cell α)}
    (hb : h[r]? = some b) (hc : Counted h (used ++ roots))
    (hcells : ∀ r', refsTo r' new + refsTo r' unused = refsTo r' b.cells + refsTo r' used) :
    Counted (setBlock r tag new h) (unused ++ roots) := by
  intro r'
  have h1 := hc r'
  have h2 := refsTo_heapCells_set hb { b with tag, cells := new } r'
  have h3 := hcells r'
  have h4 : count (h.set r { b with tag, cells := new }) r' = count h r' := by
    rw [count_set hb]
    split
    next hrr => rw [hrr, count_eq hb]
    next => rfl
  rw [RefHeap.setBlock, modify_eq_set hb, h4, refsTo_append]
  rw [refsTo_append] at h1
  simp only [] at h2
  omega

end Roots

/-! ## Values -/

section Values

variable {V : Type*} (leaf : α → V) (build : β → List V → V)

/-- The value of a cell, given those of the blocks. -/
def cellVal (val : Nat → V) : Cell α → V
  | .imm a => leaf a
  | .ref r => val r

/-- Every live block has the value its contents spell. -/
def Consistent (val : Nat → V) (h : Heap α β) : Prop :=
  ∀ r b, h[r]? = some b → b.refs ≠ 0 → val r = build b.tag (b.cells.map (cellVal leaf val))

/-- Every live block of `h'` is a live block of `h`, with the same contents. -/
def Within (h' h : Heap α β) : Prop :=
  ∀ (r : Nat) b', h'[r]? = some b' → b'.refs ≠ 0 →
    ∃ b, h[r]? = some b ∧ b.refs ≠ 0 ∧ b.tag = b'.tag ∧ b.cells = b'.cells

theorem Within.refl (h : Heap α β) : Within h h := fun _ b hb hrefs => ⟨b, hb, hrefs, rfl, rfl⟩

theorem Within.trans {h h' h'' : Heap α β} (h1 : Within h'' h') (h2 : Within h' h) :
    Within h'' h := by
  intro r b hb hrefs
  obtain ⟨b', hb', hrefs', htag, hcells⟩ := h1 r b hb hrefs
  obtain ⟨b'', hb'', hrefs'', htag', hcells'⟩ := h2 r b' hb' hrefs'
  exact ⟨b'', hb'', hrefs'', htag'.trans htag, hcells'.trans hcells⟩

variable {leaf build} {val : Nat → V} {h h' : Heap α β}

theorem Consistent.within (hv : Consistent leaf build val h) (hw : Within h' h) :
    Consistent leaf build val h' := by
  intro r b hb hrefs
  obtain ⟨b', hb', hrefs', htag, hcells⟩ := hw r b hb hrefs
  rw [hv r b' hb' hrefs', htag, hcells]

theorem Within.set {r : Nat} {b b' : Block α β} (hb : h[r]? = some b)
    (hkeep : b'.refs ≠ 0 → b.refs ≠ 0 ∧ b.tag = b'.tag ∧ b.cells = b'.cells) :
    Within (h.set r b') h := by
  intro i c hc hrefs
  have hr : r < h.length := (List.getElem?_eq_some_iff.mp hb).1
  by_cases hi : r = i
  · subst hi
    rw [List.getElem?_set_self hr] at hc
    cases hc
    exact ⟨b, hb, hkeep hrefs⟩
  · rw [List.getElem?_set_ne hi] at hc
    exact ⟨c, hc, hrefs, rfl, rfl⟩

theorem Within.addRef {c : Cell α} (hlive : ∀ r, c = .ref r → count h r ≠ 0) :
    Within (addRef c h) h := by
  cases c with
  | imm a => exact Within.refl h
  | ref r =>
      obtain ⟨b, hb, hrefs⟩ := exists_of_count (hlive r rfl)
      rw [RefHeap.addRef, modify_eq_set hb]
      exact Within.set hb fun _ => ⟨hrefs, rfl, rfl⟩

theorem Within.refAll {cs : List (Cell α)}
    (hlive : ∀ r, Cell.ref r ∈ cs → count h r ≠ 0) : Within (refAll cs h) h := by
  induction cs generalizing h with
  | nil => exact Within.refl h
  | cons c cs ih =>
      have h1 : Within (RefHeap.addRef c h) h :=
        Within.addRef fun r hr => hlive r (hr ▸ List.mem_cons_self)
      have h2 := ih (h := RefHeap.addRef c h) fun r hr =>
        count_addRef_ne_zero (hlive r (List.mem_cons_of_mem c hr))
      exact h2.trans h1

theorem Within.freeAll (n : Nat) (cs : List (Cell α)) (h : Heap α β) :
    Within (freeAll n cs h) h := by
  induction n generalizing cs h with
  | zero => exact Within.refl h
  | succ n ih =>
      cases cs with
      | nil => exact Within.refl h
      | cons c cs =>
          cases c with
          | imm a => exact ih cs h
          | ref r =>
              cases hb : h[r]? with
              | none =>
                  simp only [RefHeap.freeAll, hb]
                  exact ih cs h
              | some b =>
                  simp only [RefHeap.freeAll, hb]
                  split
                  · refine (ih _ _).trans (Within.set hb ?_)
                    intro hne
                    exact absurd rfl hne
                  · refine (ih _ _).trans (Within.set hb ?_)
                    intro hne
                    simp only [] at hne
                    exact ⟨by omega, rfl, rfl⟩

theorem Within.free (cs : List (Cell α)) (h : Heap α β) : Within (free cs h) h :=
  Within.freeAll _ cs h

/-- A change of the value of block `r` is not seen by cells that do not refer to it. -/
theorem cellVal_update {c : Cell α} {r : Nat} (v : V) (hc : c ≠ .ref r) :
    cellVal leaf (Function.update val r v) c = cellVal leaf val c := by
  cases c with
  | imm a => rfl
  | ref r' =>
      have hr : r' ≠ r := fun he => hc (by rw [he])
      simp [cellVal, hr]

theorem map_cellVal_update {cs : List (Cell α)} {r : Nat} (v : V) (hcs : refsTo r cs = 0) :
    cs.map (cellVal leaf (Function.update val r v)) = cs.map (cellVal leaf val) := by
  refine List.map_congr_left fun c hc => cellVal_update v ?_
  rintro rfl
  have := refsTo_pos_of_mem hc
  omega

/-- A new block leaves every value that exists alone. -/
theorem Consistent.alloc {roots cs : List (Cell α)} (hv : Consistent leaf build val h) (tag : β)
    (hc : Counted h (cs ++ roots)) :
    ∃ val', Consistent leaf build val' (alloc tag cs h).2 ∧
      cellVal leaf val' (alloc tag cs h).1 = build tag (cs.map (cellVal leaf val)) ∧
      ∀ c ∈ roots, cellVal leaf val' c = cellVal leaf val c := by
  -- nothing refers to the new block yet
  have hnew : ∀ c : Cell α, c ∈ (cs ++ roots) ++ heapCells h → c ≠ .ref h.length := by
    rintro c hmem rfl
    have hpos := refsTo_pos_of_mem hmem
    have := hc h.length
    rw [refsTo_append] at hpos
    have hlt := lt_of_count (h := h) (r := h.length) (by omega)
    omega
  refine ⟨Function.update val h.length (build tag (cs.map (cellVal leaf val))), ?_, ?_, ?_⟩
  · intro r b hb hrefs
    have hsame : ∀ ds : List (Cell α), (∀ c ∈ ds, c ∈ (cs ++ roots) ++ heapCells h) →
        ds.map (cellVal leaf (Function.update val h.length
          (build tag (cs.map (cellVal leaf val))))) = ds.map (cellVal leaf val) := fun ds hds =>
      List.map_congr_left fun c hcm => cellVal_update _ (hnew c (hds c hcm))
    by_cases hr : r < h.length
    · rw [RefHeap.alloc, List.getElem?_append_left hr] at hb
      rw [hsame b.cells fun c hcm => List.mem_append_right _ (mem_heapCells hb hcm),
        ← hv r b hb hrefs]
      simp [Nat.ne_of_lt hr]
    · have hrl : r = h.length := by
        have := (List.getElem?_eq_some_iff.mp hb).1
        simp only [RefHeap.alloc, List.length_append, List.length_singleton] at this
        omega
      subst hrl
      have hbeq : b = { refs := 1, tag, cells := cs } := by
        simpa [RefHeap.alloc] using hb.symm
      subst hbeq
      rw [hsame cs fun c hcm => List.mem_append_left _ (List.mem_append_left _ hcm)]
      simp
  · simp [RefHeap.alloc, cellVal]
  · intro c hcm
    exact cellVal_update _ (hnew c (List.mem_append_left _ (List.mem_append_right _ hcm)))

/-- Changing a block in place, when one root alone refers to it, leaves the values
    of all other roots alone. -/
theorem Consistent.setBlock {roots cs : List (Cell α)} {r : Nat} {b : Block α β} (tag : β)
    (hv : Consistent leaf build val h) (hb : h[r]? = some b) (hc : Counted h (.ref r :: roots))
    (h1 : count h r = 1) (hcs : refsTo r cs = 0) :
    ∃ val', Consistent leaf build val' (setBlock r tag cs h) ∧
      val' r = build tag (cs.map (cellVal leaf val)) ∧
      ∀ c ∈ roots, cellVal leaf val' c = cellVal leaf val c := by
  obtain ⟨hroots, hcells⟩ := hc.unique h1
  have hne : ∀ c : Cell α, c ∈ roots → c ≠ .ref r := by
    rintro c hmem rfl
    have := refsTo_pos_of_mem hmem
    omega
  refine ⟨Function.update val r (build tag (cs.map (cellVal leaf val))), ?_, by simp,
    fun c hmem => cellVal_update _ (hne c hmem)⟩
  intro i d hd hrefs
  have hr : r < h.length := (List.getElem?_eq_some_iff.mp hb).1
  rw [RefHeap.setBlock, modify_eq_set hb] at hd
  by_cases hi : r = i
  · subst hi
    rw [List.getElem?_set_self hr] at hd
    cases hd
    rw [map_cellVal_update _ hcs]
    simp
  · rw [List.getElem?_set_ne hi] at hd
    have hdcells : refsTo r d.cells = 0 := by
      have := refsTo_cells_le hd r
      omega
    rw [map_cellVal_update _ hdcells, ← hv i d hd hrefs]
    simp [Ne.symm hi]

/-! ### Reading a value -/

variable (leaf build) in
/-- The value of a cell, as far as `n` levels of blocks go. -/
def decode (h : Heap α β) : Nat → Cell α → Option V
  | _, .imm a => some (leaf a)
  | 0, .ref _ => none
  | n + 1, .ref r =>
      match h[r]? with
      | none => none
      | some b => (b.cells.mapM (decode h n)).map (build b.tag)

theorem mapM_eq_some {γ δ : Type*} {f : γ → Option δ} {g : γ → δ} {l : List γ}
    (hf : ∀ x ∈ l, f x = some (g x)) : l.mapM f = some (l.map g) := by
  induction l with
  | nil => rfl
  | cons x l ih =>
      rw [List.mapM_cons, hf x List.mem_cons_self, ih fun y hy => hf y (List.mem_cons_of_mem x hy)]
      rfl

/-- As many levels as there are blocks reach the bottom of every value, since a
    part is smaller than the whole. -/
theorem decode_eq {roots : List (Cell α)} (size : V → Nat)
    (hsize : ∀ tag vs, ∀ v ∈ vs, size v < size (build tag vs))
    (hv : Consistent leaf build val h) (hc : Counted h roots) {c : Cell α}
    (hlive : ∀ r, c = .ref r → count h r ≠ 0) :
    decode leaf build h h.length c = some (cellVal leaf val c) := by
  -- the blocks whose values are smaller than that of block `r`
  let below : Nat → Finset Nat := fun r =>
    (Finset.range h.length).filter fun x => size (val x) < size (val r)
  have hlevels : ∀ n r, count h r ≠ 0 → (below r).card < n →
      decode leaf build h n (.ref r) = some (val r) := by
    intro n
    induction n with
    | zero => intro r _ hlt; exact absurd hlt (Nat.not_lt_zero _)
    | succ n ih =>
        intro r hr hlt
        obtain ⟨b, hb, hrefs⟩ := exists_of_count hr
        have hval := hv r b hb hrefs
        have hcells : ∀ d ∈ b.cells, decode leaf build h n d = some (cellVal leaf val d) := by
          intro d hd
          cases d with
          | imm a =>
              cases n <;> rfl
          | ref r' =>
              have hr' : count h r' ≠ 0 := hc.live_of_block hb hd
              have hsmall : size (val r') < size (val r) := by
                rw [hval]
                exact hsize _ _ _ (List.mem_map.mpr ⟨_, hd, rfl⟩)
              refine ih r' hr' (Nat.lt_of_lt_of_le ?_ (Nat.le_of_lt_succ hlt))
              refine Finset.card_lt_card (Finset.ssubset_iff_subset_ne.mpr ⟨?_, ?_⟩)
              · intro x hx
                obtain ⟨hxr, hxs⟩ := Finset.mem_filter.mp hx
                exact Finset.mem_filter.mpr ⟨hxr, Nat.lt_trans hxs hsmall⟩
              · intro heq
                have hin : r' ∈ below r :=
                  Finset.mem_filter.mpr ⟨Finset.mem_range.mpr (lt_of_count hr'), hsmall⟩
                rw [← heq] at hin
                exact Nat.lt_irrefl _ (Finset.mem_filter.mp hin).2
        simp only [decode, hb]
        rw [mapM_eq_some hcells, hval]
        rfl
  cases c with
  | imm a => cases hl : h.length <;> rfl
  | ref r =>
      have hr : count h r ≠ 0 := hlive r rfl
      refine hlevels h.length r hr ?_
      have hsub : below r ⊂ Finset.range h.length := by
        refine Finset.ssubset_iff_subset_ne.mpr ⟨Finset.filter_subset _ _, fun heq => ?_⟩
        have hin : r ∈ below r := by
          rw [heq]
          exact Finset.mem_range.mpr (lt_of_count hr)
        exact Nat.lt_irrefl _ (Finset.mem_filter.mp hin).2
      have := Finset.card_lt_card hsub
      rwa [Finset.card_range] at this

end Values

end RefHeap
