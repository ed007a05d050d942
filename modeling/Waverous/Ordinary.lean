import Waverous.Evaluator
import Waverous.ActivStackHandlers

/-! # Values without markers — `execute.c`

    `TYPE_CATCH` and `TYPE_FINALLY` mark handlers on the run-time stack, and no value has one in it.
    So the operators make values of values, and `unwind_stack` passes over what an expression has
    left on the stack. -/

namespace Waverous

open ActivStack (isMarker popHandlers hasHandler Reason)
open Blocks (Fault Block copyLoop)

mutual

/-- There is no marker in a value. -/
def Var.ordinary : Var → Bool
  | .list l => ordinaryList l
  | .catch _ | .finally _ => false
  | _ => true

def ordinaryList : List Var → Bool
  | [] => true
  | v :: l => v.ordinary && ordinaryList l

end

/-- Values without markers. -/
def Ordinary (l : List Var) : Prop := ∀ v ∈ l, v.ordinary = true

variable {l l' : List Var} {v w : Var}

theorem ordinary_list : (Var.list l).ordinary = true ↔ Ordinary l := by
  rw [Var.ordinary]
  induction l with
  | nil =>
      refine ⟨fun _ v hv => ?_, fun _ => rfl⟩
      cases hv
  | cons v l ih =>
      rw [ordinaryList, Bool.and_eq_true, ih]
      exact (List.forall_mem_cons (p := fun v : Var => v.ordinary = true)).symm

theorem Ordinary.nil : Ordinary [] := fun _ hv => by cases hv

theorem Ordinary.cons (hv : v.ordinary = true) (h : Ordinary l) : Ordinary (v :: l) :=
  List.forall_mem_cons.mpr ⟨hv, h⟩

theorem Ordinary.append (h : Ordinary l) (h' : Ordinary l') : Ordinary (l ++ l') :=
  List.forall_mem_append.mpr ⟨h, h'⟩

theorem Ordinary.of_subset (h : Ordinary l) (hsub : ∀ v ∈ l', v ∈ l) : Ordinary l' :=
  fun v hv => h v (hsub v hv)

theorem Ordinary.set (h : Ordinary l) (hv : v.ordinary = true) (i : Nat) : Ordinary (l.set i v) := by
  intro w hw
  rcases List.mem_or_eq_of_mem_set hw with hw | rfl
  · exact h w hw
  · exact hv

theorem Ordinary.getElem? (h : Ordinary l) {i : Nat} (hi : l[i]? = some v) : v.ordinary = true :=
  h v (List.mem_of_getElem? hi)

theorem not_marker (h : v.ordinary = true) : isMarker v = false := by
  cases v with
  | «catch» | «finally» => cases h
  | _ => rfl

/-! ## Unwinding -/

/-- Cells that are no values. -/
def Unmarked (l : List Var) : Prop := ∀ v ∈ l, isMarker v = false

theorem Ordinary.unmarked (h : Ordinary l) : Unmarked l := fun v hv => not_marker (h v hv)

theorem popHandlers_unmarked (h : Unmarked l) (why : Reason) (code value : Var) (rts : List Var) :
    popHandlers why code value 0 (l ++ rts) = popHandlers why code value 0 rts := by
  induction l with
  | nil => rfl
  | cons v l ih =>
      have hv := h v List.mem_cons_self
      have hrest := ih fun w hw => h w (List.mem_cons_of_mem _ hw)
      cases v with
      | «catch» | «finally» => cases hv
      | _ => exact hrest

theorem hasHandler_unmarked (h : Unmarked l) (code : Var) (rts : List Var) :
    hasHandler code 0 (l ++ rts) = hasHandler code 0 rts := by
  induction l with
  | nil => rfl
  | cons v l ih =>
      have hv := h v List.mem_cons_self
      have hrest := ih fun w hw => h w (List.mem_cons_of_mem _ hw)
      cases v with
      | «catch» | «finally» => cases hv
      | _ => exact hrest

/-! ## Operators -/

/-- A value that an operator gives has no marker. -/
def Answer.Ordinary (ans : Answer) : Prop := ∀ v, ans = .value v → v.ordinary = true

theorem ordinary_value (h : v.ordinary = true) : (Answer.value v).Ordinary := by
  rintro _ ⟨⟩
  exact h

theorem ordinary_error (e : Error) : (Answer.error e).Ordinary := fun _ h => by cases h

theorem ordinary_trap : Answer.trap.Ordinary := fun _ h => by cases h

theorem ordinary_ofVar (h : v.ordinary = true) : (Answer.ofVar v).Ordinary := by
  cases v with
  | err e => exact ordinary_error e
  | _ => exact ordinary_value h

theorem ordinary_ofOption {ans : Option Var} (h : ∀ v, ans = some v → v.ordinary = true) :
    (Answer.ofOption ans).Ordinary := by
  cases ans with
  | none => exact ordinary_trap
  | some v => exact ordinary_ofVar (h v rfl)

theorem ordinary_ofFault {ans : Except Fault Var} (h : ∀ v, ans = .ok v → v.ordinary = true) :
    (Answer.ofFault ans).Ordinary := by
  cases ans with
  | error _ => exact ordinary_trap
  | ok v => exact ordinary_value (h v rfl)

/-! ### Numbers and comparisons -/

theorem newReal_ordinary (bits : UInt64) : (newReal bits).ordinary = true := by
  unfold newReal
  split <;> rfl

theorem simpleBinary_ordinary (iop : Int32 → Int32 → Int32) (fop : UInt64 → UInt64 → UInt64) :
    (simpleBinary iop fop v w).ordinary = true := by
  unfold simpleBinary
  split
  · rfl
  · exact newReal_ordinary _
  · rfl

theorem divisionOp_ordinary {iop : Int32 → Int32 → Option Int32} {fop : UInt64 → UInt64 → UInt64} {r : Var}
    (h : divisionOp iop fop v w = some r) : r.ordinary = true := by
  unfold divisionOp at h
  split at h
  · split at h
    · obtain ⟨q, -, rfl⟩ := Option.map_eq_some_iff.mp h
      rfl
    · cases h
      rfl
  · cases h
    split
    · rfl
    · exact newReal_ordinary _
  · cases h
    rfl

theorem ArithOp.ordinary (fl : FloatOps) (op : ArithOp) (v w : Var) : (arithAnswer fl op v w).Ordinary := by
  refine ordinary_ofOption fun r hr => ?_
  split at hr
  · cases op with
    | mult | minus =>
        cases hr
        exact simpleBinary_ordinary _ _
    | div | mod => exact divisionOp_ordinary hr
  · cases hr
    rfl

theorem addAnswer_ordinary (fl : FloatOps) (v w : Var) : (addAnswer fl v w).Ordinary := by
  unfold addAnswer
  split
  · exact ordinary_ofVar (simpleBinary_ordinary _ _)
  · split
    · exact ordinary_value rfl
    · exact ordinary_error _

theorem expAnswer_ordinary (fl : FloatOps) (v w : Var) : (expAnswer fl v w).Ordinary := by
  refine ordinary_ofOption fun r hr => ?_
  have hfloat : ∀ a d, (floatPower fl a d).ordinary = true := by
    intro a d
    unfold floatPower
    split
    split
    · rfl
    · exact newReal_ordinary _
  unfold doPower at hr
  split at hr
  · unfold intPower at hr
    split at hr
    · split at hr
      · cases hr
        rfl
      · split at hr
        · cases hr
          rfl
        · split at hr <;> cases hr <;> rfl
    · obtain ⟨q, -, rfl⟩ := Option.map_eq_some_iff.mp hr
      rfl
  · cases hr
    exact hfloat _ _
  · cases hr
    exact hfloat _ _
  · cases hr
    rfl

theorem compareAnswer_ordinary (signed : Bool) (holds : Int → Bool) (v w : Var) :
    (compareAnswer signed holds v w).Ordinary := by
  unfold compareAnswer
  split
  · exact ordinary_value rfl
  · exact ordinary_error _

theorem inAnswer_ordinary (v w : Var) : (inAnswer v w).Ordinary := by
  unfold inAnswer
  split
  · exact ordinary_value rfl
  · exact ordinary_error _

/-- The operators with two operands that are not for lists. -/
theorem BinaryKind.ordinary {W : Type} (host : Host W) (kind : BinaryKind) (v w : Var) :
    (kind.answer host v w).Ordinary := by
  cases kind with
  | plus => exact addAnswer_ordinary _ v w
  | minus | times | divide | mod => exact ArithOp.ordinary _ _ v w
  | exp => exact expAnswer_ordinary _ v w
  | eq | ne => exact ordinary_value rfl
  | lt | le | gt | ge => exact compareAnswer_ordinary _ _ v w
  | «in» => exact inAnswer_ordinary v w

theorem unaryMinus_ordinary (v : Var) : (unaryMinusAnswer v).Ordinary := by
  unfold unaryMinusAnswer
  split
  · exact ordinary_value rfl
  · exact ordinary_value rfl
  · exact ordinary_error _

theorem lengthAnswer_ordinary (v : Var) : (lengthAnswer v).Ordinary := by
  unfold lengthAnswer
  split
  · exact ordinary_value rfl
  · exact ordinary_value rfl
  · exact ordinary_error _

/-! ### Lists -/

theorem map_eq_ok {ε α β : Type} {f : α → β} {x : Except ε α} {b : β} (h : f <$> x = .ok b) :
    ∃ a, x = .ok a ∧ b = f a := by
  cases x with
  | error _ => cases h
  | ok a =>
      cases h
      exact ⟨a, rfl, rfl⟩

theorem argAnswer_ordinary (kind : ArgKind) {list : Option Var} (hlist : ∀ w ∈ list, w.ordinary = true)
    (hv : v.ordinary = true) : (argAnswer kind list v).Ordinary := by
  cases kind with
  | normal =>
      cases list with
      | none => exact ordinary_value (ordinary_list.mpr (.cons hv .nil))
      | some w =>
          show (addTailAnswer w v).Ordinary
          unfold addTailAnswer
          split
          · exact ordinary_value (ordinary_list.mpr
              ((ordinary_list.mp (hlist _ rfl)).append (.cons hv .nil)))
          · exact ordinary_error _
  | splice =>
      cases list with
      | none =>
          show (spliceAnswer v).Ordinary
          unfold spliceAnswer
          split
          · exact ordinary_value hv
          · exact ordinary_error _
      | some w =>
          show (appendAnswer w v).Ordinary
          unfold appendAnswer
          split
          · exact ordinary_value (ordinary_list.mpr
              ((ordinary_list.mp (hlist _ rfl)).append (ordinary_list.mp hv)))
          · exact ordinary_error _

theorem refAnswer_ordinary (hv : v.ordinary = true) (w : Var) : (refAnswer v w).Ordinary := by
  unfold refAnswer
  split
  · split
    · split
      next hget => exact ordinary_value ((ordinary_list.mp hv).getElem? hget)
      next => exact ordinary_error _
    · exact ordinary_error _
  · split
    · split
      · exact ordinary_value rfl
      · exact ordinary_error _
    · exact ordinary_error _
  · exact ordinary_error _

theorem pushRefAnswer_ordinary (hv : v.ordinary = true) (w : Var) : (pushRefAnswer v w).Ordinary := by
  unfold pushRefAnswer
  split
  · exact refAnswer_ordinary hv w
  · exact ordinary_error _

theorem indexsetAnswer_ordinary {x : Var} (hv : v.ordinary = true) (hx : x.ordinary = true) (w : Var) :
    (indexsetAnswer v w x).Ordinary := by
  unfold indexsetAnswer
  split
  · split
    · exact ordinary_error _
    · exact ordinary_value (ordinary_list.mpr ((ordinary_list.mp hv).set hx _))
  · split
    · exact ordinary_error _
    · split
      · exact ordinary_value rfl
      · exact ordinary_error _
  · exact ordinary_error _

/-- A loop that copies gives what it has read. -/
theorem copyLoop_forall {α : Type} {P : α → Prop} {read : Int → Except Fault α}
    (hread : ∀ i a, read i = .ok a → P a) {n : Nat} {i : Int} {b b' : Block α}
    (hb : ∀ a ∈ b.data, P a) (h : copyLoop read n i b = .ok b') : ∀ a ∈ b'.data, P a := by
  induction n generalizing i b with
  | zero =>
      cases h
      exact hb
  | succ n ih =>
      rw [copyLoop] at h
      obtain ⟨a, ha, h⟩ := Blocks.bind_eq_ok h
      obtain ⟨b1, hb1, h⟩ := Blocks.bind_eq_ok h
      obtain ⟨j, -, h⟩ := Blocks.bind_eq_ok h
      obtain ⟨-, rfl⟩ := Blocks.put_eq_ok hb1
      refine ih ?_ h
      intro x hx
      rcases List.mem_append.mp hx with hx | hx
      · exact hb x hx
      · exact List.mem_singleton.mp hx ▸ hread i a ha

theorem listElement_ordinary (hl : Ordinary l) (i : Int) (v : Var) (h : Ranges.listElement l i = .ok v) :
    v.ordinary = true := by
  unfold Ranges.listElement Blocks.readAt at h
  split at h
  · split at h
    next hget =>
      cases h
      exact hl.getElem? hget
    next => cases h
  · cases h

theorem newList_data {size : Int} {b : Block Var} (h : Ranges.newList size = .ok b) : b.data = [] :=
  (Ranges.newList_empty h).1

theorem sublist_ordinary (hl : Ordinary l) {i j : Int} (h : Ranges.sublist l i j = .ok l') : Ordinary l' := by
  unfold Ranges.sublist at h
  split at h
  · cases h
    exact .nil
  · obtain ⟨_, -, h⟩ := Blocks.bind_eq_ok h
    obtain ⟨_, -, h⟩ := Blocks.bind_eq_ok h
    obtain ⟨b, hb, h⟩ := Blocks.bind_eq_ok h
    obtain ⟨b', hb', h⟩ := Blocks.bind_eq_ok h
    cases h
    exact copyLoop_forall (listElement_ordinary hl) (newList_data hb ▸ Ordinary.nil) hb'

theorem listrangeset_ordinary {value : List Var} (hl : Ordinary l) (hvalue : Ordinary value) {i j : Int}
    (h : Ranges.listrangeset l i j value = .ok l') : Ordinary l' := by
  unfold Ranges.listrangeset at h
  obtain ⟨_, -, h⟩ := Blocks.bind_eq_ok h
  obtain ⟨_, -, h⟩ := Blocks.bind_eq_ok h
  obtain ⟨_, -, h⟩ := Blocks.bind_eq_ok h
  obtain ⟨_, -, h⟩ := Blocks.bind_eq_ok h
  obtain ⟨b, hb, h⟩ := Blocks.bind_eq_ok h
  obtain ⟨b1, hb1, h⟩ := Blocks.bind_eq_ok h
  obtain ⟨b2, hb2, h⟩ := Blocks.bind_eq_ok h
  obtain ⟨b3, hb3, h⟩ := Blocks.bind_eq_ok h
  cases h
  have h1 := copyLoop_forall (listElement_ordinary hl) (newList_data hb ▸ Ordinary.nil) hb1
  have h2 := copyLoop_forall (listElement_ordinary hvalue) h1 hb2
  refine copyLoop_forall (fun k v hk => ?_) h2 hb3
  obtain ⟨k', -, hk⟩ := Blocks.bind_eq_ok hk
  exact listElement_ordinary hl k' v hk

theorem rangeRefAnswer_ordinary (hv : v.ordinary = true) (w x : Var) : (rangeRefAnswer v w x).Ordinary := by
  have hwithin : ∀ (len i j : Int) (ans : Except Fault Var), (∀ r, ans = .ok r → r.ordinary = true) →
      (withinAnswer len i j ans).Ordinary := by
    intro len i j ans h
    unfold withinAnswer
    split
    · exact ordinary_error _
    · exact ordinary_ofFault h
  unfold rangeRefAnswer
  split
  · refine hwithin _ _ _ _ fun r hr => ?_
    obtain ⟨l', hl', rfl⟩ := map_eq_ok hr
    exact ordinary_list.mpr (sublist_ordinary (ordinary_list.mp hv) hl')
  · refine hwithin _ _ _ _ fun r hr => ?_
    obtain ⟨l', -, rfl⟩ := map_eq_ok hr
    rfl
  · exact ordinary_error _

theorem rangesetAnswer_ordinary {y : Var} (hv : v.ordinary = true) (hy : y.ordinary = true) (w x : Var) :
    (rangesetAnswer v w x y).Ordinary := by
  have hreplace : ∀ (len i j : Int) (ans : Except Fault Var), (∀ r, ans = .ok r → r.ordinary = true) →
      (replaceAnswer len i j ans).Ordinary := by
    intro len i j ans h
    unfold replaceAnswer
    split
    · exact ordinary_trap
    · exact ordinary_error _
    · exact ordinary_ofFault h
  unfold rangesetAnswer
  split
  · refine hreplace _ _ _ _ fun r hr => ?_
    obtain ⟨l', hl', rfl⟩ := map_eq_ok hr
    exact ordinary_list.mpr (listrangeset_ordinary (ordinary_list.mp hv) (ordinary_list.mp hy) hl')
  · refine hreplace _ _ _ _ fun r hr => ?_
    obtain ⟨l', -, rfl⟩ := map_eq_ok hr
    rfl
  · exact ordinary_error _

end Waverous
