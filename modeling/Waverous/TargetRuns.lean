import Waverous.CodeRuns

/-! # Targets of assignments — `execute.c`

    What has been evaluated of a target lies on the stack until the value is put there, with that of an
    element or a range in the register meanwhile. -/

namespace Waverous

open Machines

variable {W : Type}

/-- What lies on the stack for a target. -/
def Ref.cells : Ref → List Var
  | .var _ => []
  | .prop obj name => [name, obj]
  | .index base value i => i :: value :: base.cells
  | .range base value i j => j :: i :: value :: base.cells

/-- The target is one of the expression. -/
def Ref.Of : Ref → Expr → Prop
  | .var slot, .id id => slot = id
  | .prop _ _, .prop _ _ => True
  | .index base _ _, .index lhs _ => base.Of lhs
  | .range base _ _ _, .range lhs _ _ => base.Of lhs
  | _, _ => False

theorem Ref.Of.length : ∀ {r : Ref} {e : Expr}, r.Of e → (r.cells.length : Int) = e.cells
  | .var _, .id _, _ => rfl
  | .prop _ _, .prop _ _, _ => rfl
  | .index base _ _, .index lhs _, h => by
      have hbase : (base.cells.length : Int) = lhs.cells := Ref.Of.length (r := base) h
      show ((base.cells.length + 2 : Nat) : Int) = lhs.cells + 2
      omega
  | .range base _ _ _, .range lhs _ _, h => by
      have hbase : (base.cells.length : Int) = lhs.cells := Ref.Of.length (r := base) h
      show ((base.cells.length + 3 : Nat) : Int) = lhs.cells + 3
      omega

/-- The value of an assignment to an element or a range is what is assigned. -/
theorem Ref.Of.result {r : Ref} {e : Expr} (h : r.Of e) (v stored : Var) :
    r.result v stored = if e.isIndexed = true then v else stored := by
  cases r with
  | var _ =>
      cases e with
      | id _ => rfl
      | _ => exact h.elim
  | prop _ _ =>
      cases e with
      | prop _ _ => rfl
      | _ => exact h.elim
  | index _ _ _ =>
      cases e with
      | index _ _ => rfl
      | _ => exact h.elim
  | range _ _ _ _ =>
      cases e with
      | range _ _ _ => rfl
      | _ => exact h.elim

/-- The parts of the target are on the stack. -/
def Aimed (e : Expr) (pc : Nat) (rts : List Var) (r : Ref) (st : Store W) (c : Config W) : Prop :=
  r.Of e ∧ Ordinary r.cells ∧ ∃ temp, c = .run (st.machine pc (r.cells ++ rts) temp)

/-- What pushes the value of a target. -/
def readCode (bc : Bytecodes) : Expr → Stretch
  | .id id => varOpAt bc .push id
  | .prop _ _ => opAt bc .pushGetProp
  | .index _ _ => opAt bc .pushRef
  | _ => fun _ _ => False

theorem forward_read {bc : Bytecodes} : ∀ e : Expr, (readCode bc e).Forward
  | .id _ => forward_varOp
  | .prop _ _ | .index _ _ => forward_byte
  | .range _ _ _ | .var _ | .verb _ _ _ | .asgn _ _ | .call _ _ | .binary _ _ _ | .negate _ | .and _ _ | .or _ _
  | .not _ | .list _ | .cond _ _ _ | .catch _ _ _ | .length | .scatter _ => forward_none

/-- The value of a target is pushed behind its parts. -/
theorem target_above {bc : Bytecodes} {lits : List Var} {dollar : Bool} {saved depth : Int} {pc pc' : Nat} {e : Expr}
    (he : e.Target dollar) (h : e.targetStands bc lits true saved depth pc pc') :
    Stretch.all [e.targetStands bc lits false saved depth, readCode bc e] pc pc' := by
  cases he with
  | id => exact ⟨pc, rfl, pc', h, rfl⟩
  | prop _ _ | index _ _ =>
      obtain ⟨p1, hlhs, p2, hrhs, _, hop, rfl⟩ := h
      exact ⟨p2, ⟨p1, hlhs, p2, hrhs, p2, rfl, rfl⟩, _, hop, rfl⟩

section

variable {S : Setting W} {n pc pc' : Nat} {rts : List Var} {st : Store W} {temp v : Var} {e : Expr} {r : Ref}

/-- `OP_PUSH_GET_PROP`. -/
theorem gives_pushGetProp {obj name : Var} :
    S.Gives (opAt S.bc .pushGetProp) pc' (name :: obj :: rts) (getPropValue S.host obj name) := by
  intro n pc st temp hat hlt hst
  exact .get (carries_give S.hostSane hst (getPropAnswer_ordinary S.hostSane hst.world obj name)
    (step_op hat)).value

/-- The value that is there. -/
theorem gives_read (hr : r.Of e) (hcells : Ordinary r.cells) :
    S.Gives (readCode S.bc e) pc' (r.cells ++ rts) (r.read S.host) := by
  cases r with
  | var slot =>
      cases e with
      | id id =>
          cases hr
          exact gives_id slot
      | _ => cases hr
  | prop obj name =>
      cases e with
      | prop lhs rhs => exact gives_pushGetProp
      | _ => cases hr
  | index base value i =>
      have hvalue : value.ordinary = true := hcells value (.tail _ (.head _))
      cases e with
      | index lhs rhs => exact does_op (pushRefAnswer_ordinary hvalue i) fun _ _ _ => rfl
      | _ => cases hr
  | range base value i j =>
      cases e with
      | range lhs from' to' => exact fun _ _ _ _ h => h.elim
      | _ => cases hr

/-- `OP_PUT_PROP`. -/
theorem carries_putProp {obj name : Var} (hv : v.ordinary = true) (hst : st.Sane S.sane)
    (hat : opAt S.bc .putProp pc pc') :
    S.Carries n (.run (st.machine pc (v :: name :: obj :: rts) temp)) (setProp S.host obj name v) st rts
      (Kept temp pc' rts) := by
  obtain ⟨hans, hworld⟩ := putPropAnswer_ordinary S.hostSane hst.world obj name hv
  have hst' : Store.Sane S.sane ⟨st.env, (putPropAnswer S.host st.world obj name v).2⟩ := ⟨hst.env, hworld⟩
  refine .get (.set (.step (step_op hat) ?_))
  exact carries_push S.hostSane hst' hans _ ⟨rfl, rfl⟩

/-- The value is put into the target, and the register is left alone. -/
theorem carries_put : ∀ {e : Expr} {r : Ref} {v : Var} {n pc pc' : Nat} {st : Store W} {temp : Var}, r.Of e →
    Ordinary r.cells → v.ordinary = true → st.Sane S.sane → putCode S.bc e pc pc' → pc' < S.bc.vector.length →
    S.Carries n (.run (st.machine pc (v :: (r.cells ++ rts)) temp)) (r.assign S.host v) st rts (Kept temp pc' rts)
  | .id id, .var _, v, n, pc, pc', st, temp, rfl, _, hv, hst, hcode, hlt =>
      .before (leads_put hcode hlt) (.pure (hst.assign hv id) ⟨hv, rfl⟩)
  | .prop _ _, .prop _ _, _, _, _, _, _, _, _, _, hv, hst, hcode, _ => carries_putProp hv hst hcode
  | .index lhs _, .index base value i, v, n, pc, pc', st, temp, hr, hcells, hv, hst, hcode, hlt => by
      obtain ⟨p, hop, _, hbase, rfl⟩ := hcode
      have hvalue : value.ordinary = true := hcells value (.tail _ (.head _))
      have hrest : Ordinary base.cells := hcells.of_subset fun w hw => .tail _ (.tail _ hw)
      refine .bind (J := base.cells)
        (carries_give S.hostSane hst (indexsetAnswer_ordinary hvalue hv i) (step_op hop)) hrest.unmarked ?_
      rintro new st' _ hst' ⟨hnew, rfl⟩
      exact carries_put hr hrest hnew hst' hbase hlt
  | .range lhs _ _, .range base value i j, v, n, pc, pc', st, temp, hr, hcells, hv, hst, hcode, hlt => by
      obtain ⟨p, hop, _, hbase, rfl⟩ := hcode
      have hvalue : value.ordinary = true := hcells value (.tail _ (.tail _ (.head _)))
      have hrest : Ordinary base.cells := hcells.of_subset fun w hw => .tail _ (.tail _ (.tail _ hw))
      refine .bind (J := base.cells)
        (carries_give S.hostSane hst (rangesetAnswer_ordinary hvalue hv i j)
          ((step_extended hop).trans (congrArg (Option.map _) eopRangeset_eq))) hrest.unmarked ?_
      rintro new st' _ hst' ⟨hnew, rfl⟩
      exact carries_put hr hrest hnew hst' hbase hlt

/-- The end of an assignment to anything but a pattern. -/
theorem does_assign (hr : r.Of e) (hcells : Ordinary r.cells) (hv : v.ordinary = true) :
    S.Does (.all [.when (e.isIndexed = true) (opAt S.bc .putTemp), putCode S.bc e,
        .when (e.isIndexed = true) (.all [opAt S.bc .pop, opAt S.bc .pushTemp])]) pc' (v :: (r.cells ++ rts)) rts
      (do let stored ← r.assign S.host v; pure (r.result v stored)) (Value pc' rts) := by
  rintro n pc st temp ⟨p1, htemp, p2, hput, _, hlast, rfl⟩ hlt hst
  by_cases hindexed : e.isIndexed = true
  · rw [Stretch.when, if_pos hindexed] at htemp hlast
    obtain ⟨p3, hpop, _, hpush, rfl⟩ := hlast
    have hp2 : p2 < S.bc.vector.length := by
      have := hpop.2
      have := hpush.2
      omega
    have hassign : S.Carries n (.run (st.machine p1 (v :: (r.cells ++ rts)) v)) (r.assign S.host v) st rts
        (Kept v p2 rts) := carries_put hr hcells hv hst hput hp2
    refine .step (step_op htemp) (.seq hassign ?_)
    rintro stored st' _ hst' ⟨-, rfl⟩
    rw [hr.result, if_pos hindexed]
    exact .step (step_pop hpop) (.step (step_op hpush) (.pure hst' ⟨hv, .none, rfl⟩))
  · rw [Stretch.when, if_neg hindexed] at htemp hlast
    cases htemp
    cases hlast
    refine .seq (carries_put hr hcells hv hst hput hlt) ?_
    rintro stored st' _ hst' ⟨hstored, rfl⟩
    rw [hr.result, if_neg hindexed]
    exact .pure hst' ⟨hstored, temp, rfl⟩

end

end Waverous
