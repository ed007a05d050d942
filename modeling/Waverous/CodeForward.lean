import Waverous.CodePlaces

/-! # Code goes forward

    The code of an expression does not end before it begins, so that what follows it is behind
    all of it. -/

namespace Waverous

/-- A stretch does not end before it begins. -/
def Stretch.Forward (c : Stretch) : Prop := ∀ pc pc', c pc pc' → pc ≤ pc'

theorem Stretch.Forward.nil : (Stretch.all []).Forward := fun _ _ h => Nat.le_of_eq h.symm

theorem Stretch.Forward.cons {c : Stretch} {cs : List Stretch} (h : c.Forward) (hs : (Stretch.all cs).Forward) :
    (Stretch.all (c :: cs)).Forward := by
  rintro pc pc' ⟨p, hc, hcs⟩
  exact Nat.le_trans (h pc p hc) (hs p pc' hcs)

theorem forward_noCode : Stretch.Forward noCode := fun _ _ h => Nat.le_of_eq h.symm

theorem forward_none : Stretch.Forward fun _ _ => False := fun _ _ h => h.elim

theorem Stretch.Forward.when {c : Stretch} {p : Prop} [Decidable p] (h : c.Forward) : (Stretch.when p c).Forward := by
  unfold Stretch.when
  split
  · exact h
  · exact forward_noCode

section

variable {bc : Bytecodes} {lits : List Var}

theorem forward_byte {b : UInt8} : (byteAt bc b).Forward := by
  rintro pc _ ⟨-, rfl⟩
  exact Nat.le_succ pc

theorem forward_extended {eop : ExtendedOpcode} : (extendedAt bc eop).Forward :=
  forward_byte.cons (forward_byte.cons .nil)

theorem forward_operand {size value : Nat} : (operandAt bc size value).Forward := by
  rintro pc _ ⟨-, rfl⟩
  exact Nat.le_add_right pc size

theorem forward_here {place : Nat} : (here place).Forward := fun _ _ h => Nat.le_of_eq h.2.symm

theorem forward_varOp {op : Opcode} {slot : Nat} : (varOpAt bc op slot).Forward := by
  unfold varOpAt
  split
  · exact forward_byte.cons (forward_operand.cons .nil)
  · exact forward_byte

theorem BinaryKind.forward (kind : BinaryKind) : (kind.codeAt bc).Forward := by
  cases kind with
  | exp => exact forward_extended
  | _ => exact forward_byte

theorem forward_literal {v : Var} : (literalCode bc lits v).Forward := by
  have himm : (Stretch.all [opAt bc .imm, literalAt bc lits v]).Forward :=
    forward_byte.cons (Stretch.Forward.cons (fun pc pc' ⟨_, _, h⟩ => forward_operand pc pc' h) .nil)
  unfold literalCode
  split
  · split
    · exact forward_byte
    · exact himm
  · exact himm

theorem forward_arg {first : Bool} {kind : ArgKind} : (argCode bc first kind).Forward := by
  cases kind <;> exact forward_byte

theorem forward_put : ∀ e : Expr, (putCode bc e).Forward
  | .range base _ _ => forward_extended.cons ((forward_put base).cons .nil)
  | .index lhs _ => forward_byte.cons ((forward_put lhs).cons .nil)
  | .id _ => forward_varOp
  | .prop _ _ => forward_byte
  | .var _ | .verb _ _ _ | .asgn _ _ | .call _ _ | .binary _ _ _ | .negate _ | .and _ _ | .or _ _ | .not _
  | .list _ | .cond _ _ _ | .catch _ _ _ | .length | .scatter _ => forward_none

theorem forward_targets : ∀ (sc : Scatter) (places : List Nat), (targetsCode bc sc places).Forward
  | .nil, _ => forward_noCode
  | .cons .optional _ (some _) next, _ :: places =>
      forward_operand.cons (forward_operand.cons ((forward_targets next places).cons .nil))
  | .cons .optional _ none next, places | .cons .required _ _ next, places | .cons .rest _ _ next, places =>
      forward_operand.cons (forward_operand.cons ((forward_targets next places).cons .nil))
  | .cons .optional _ (some _) _, [] => forward_none

theorem forward_scatter {sc : Scatter} {places : List Nat} {done : Nat} :
    (scatterCode bc sc places done).Forward :=
  forward_extended.cons (forward_byte.cons (forward_byte.cons (forward_byte.cons
    ((forward_targets sc places).cons (forward_operand.cons .nil)))))

/-- An assignment to anything but a pattern. -/
theorem asgn_forward {e rhs : Expr} {saved depth : Int} (hne : ∀ sc, e ≠ .scatter sc)
    (htarget : (e.targetStands bc lits false saved depth).Forward)
    (hrhs : (rhs.stands bc lits saved (depth + e.cells)).Forward) :
    ((Expr.asgn e rhs).stands bc lits saved depth).Forward := by
  rw [stands_asgn hne]
  exact htarget.cons (hrhs.cons (forward_byte.when.cons ((forward_put e).cons
    (Stretch.Forward.when (forward_byte.cons (forward_byte.cons .nil)) |>.cons .nil))))

mutual

theorem Expr.forward : ∀ (e : Expr) (saved depth : Int), (e.stands bc lits saved depth).Forward
  | .var _, _, _ => forward_literal
  | .id _, _, _ => forward_varOp
  | .negate e, _, _ | .not e, _, _ => (e.forward _ _).cons (forward_byte.cons .nil)
  | .and lhs rhs, _, _ | .or lhs rhs, _, _ => fun pc pc' =>
      ((lhs.forward _ _).cons (forward_byte.cons (forward_operand.cons ((rhs.forward _ _).cons .nil)))) pc pc'
  | .binary kind lhs rhs, _, _ => (lhs.forward _ _).cons ((rhs.forward _ _).cons (kind.forward.cons .nil))
  | .prop lhs rhs, _, _ | .index lhs rhs, _, _ =>
      (lhs.forward _ _).cons ((rhs.forward _ _).cons (forward_byte.cons .nil))
  | .range base from' to', _, _ =>
      (base.forward _ _).cons ((from'.forward _ _).cons ((to'.forward _ _).cons (forward_byte.cons .nil)))
  | .length, _, _ => forward_extended.cons (forward_operand.cons .nil)
  | .list args, _, _ => args.forward true _ _
  | .call _ args, _, _ => (args.forward true _ _).cons (forward_byte.cons (forward_byte.cons .nil))
  | .verb obj verb args, _, _ =>
      (obj.forward _ _).cons ((verb.forward _ _).cons ((args.forward true _ _).cons (forward_byte.cons .nil)))
  | .cond e e' e'', _, _ => by
      rintro pc pc' ⟨_, h⟩
      exact ((e.forward _ _).cons (forward_byte.cons (forward_operand.cons ((e'.forward _ _).cons
        (forward_byte.cons (forward_operand.cons (forward_here.cons ((e''.forward _ _).cons .nil)))))))) pc pc' h
  | .asgn (.scatter sc) rhs, _, _ => by
      rintro pc pc' ⟨_, h⟩
      exact ((rhs.forward _ _).cons (forward_scatter.cons ((sc.forward _ _ _).cons .nil))) pc pc' h
  | .asgn (.range base from' to') rhs, _, _ => asgn_forward nofun
      (Expr.targetForward (.range base from' to') _ _ _) (rhs.forward _ _)
  | .asgn (.index lhs i) rhs, _, _ => asgn_forward nofun (Expr.targetForward (.index lhs i) _ _ _) (rhs.forward _ _)
  | .asgn (.id i) rhs, _, _ => asgn_forward nofun (Expr.targetForward (.id i) _ _ _) (rhs.forward _ _)
  | .asgn (.prop lhs i) rhs, _, _ => asgn_forward nofun (Expr.targetForward (.prop lhs i) _ _ _) (rhs.forward _ _)
  | .asgn (.var _) rhs, _, _ | .asgn (.and _ _) rhs, _, _ | .asgn (.or _ _) rhs, _, _
  | .asgn (.negate _) rhs, _, _ | .asgn (.not _) rhs, _, _ | .asgn (.binary _ _ _) rhs, _, _
  | .asgn .length rhs, _, _ | .asgn (.list _) rhs, _, _ | .asgn (.call _ _) rhs, _, _
  | .asgn (.verb _ _ _) rhs, _, _ | .asgn (.cond _ _ _) rhs, _, _ | .asgn (.asgn _ _) rhs, _, _
  | .asgn (.catch _ _ _) rhs, _, _ => asgn_forward nofun forward_none (rhs.forward _ _)
  | .catch e codes except, _, _ => by
      rintro pc pc' ⟨_, h⟩
      exact ((codes.handlerForward _ _).cons (forward_extended.cons (forward_operand.cons (forward_extended.cons
        ((e.forward _ _).cons (forward_extended.cons (forward_operand.cons (forward_here.cons
          ((except_forward except _ _).cons .nil))))))))) pc pc' h
  | .scatter _, _, _ => forward_none

theorem except_forward : ∀ (except : Option Expr) (saved depth : Int),
    (exceptStands bc lits except saved depth).Forward
  | some e, _, _ => forward_byte.cons ((e.forward _ _).cons .nil)
  | none, _, _ => forward_byte.cons (forward_byte.cons .nil)

theorem Expr.targetForward : ∀ (e : Expr) (above : Bool) (saved depth : Int),
    (e.targetStands bc lits above saved depth).Forward
  | .range base from' to', _, _, _ =>
      (base.targetForward true _ _).cons ((from'.forward _ _).cons ((to'.forward _ _).cons .nil))
  | .index lhs rhs, _, _, _ => (lhs.targetForward true _ _).cons ((rhs.forward _ _).cons (forward_byte.when.cons .nil))
  | .id _, _, _, _ => forward_varOp.when
  | .prop lhs rhs, _, _, _ => (lhs.forward _ _).cons ((rhs.forward _ _).cons (forward_byte.when.cons .nil))
  | .var _, _, _, _ | .verb _ _ _, _, _, _ | .asgn _ _, _, _, _ | .call _ _, _, _, _ | .binary _ _ _, _, _, _
  | .negate _, _, _, _ | .and _ _, _, _, _ | .or _ _, _, _, _ | .not _, _, _, _ | .list _, _, _, _
  | .cond _ _ _, _, _, _ | .catch _ _ _, _, _, _ | .length, _, _, _ | .scatter _, _, _, _ => forward_none

theorem ArgList.forward : ∀ (args : ArgList) (first : Bool) (saved depth : Int),
    (args.stands bc lits first saved depth).Forward
  | .nil, _, _, _ => forward_byte.when
  | .cons _ e next, _, _, _ => (e.forward _ _).cons (forward_arg.cons ((next.forward false _ _).cons .nil))

theorem ArgList.handlerForward : ∀ (args : ArgList) (saved depth : Int),
    (args.handlerStands bc lits saved depth).Forward
  | .nil, _, _ => forward_byte
  | .cons _ e next, _, _ => (e.forward _ _).cons (forward_arg.cons ((next.forward false _ _).cons .nil))

theorem Scatter.forward : ∀ (sc : Scatter) (places : List Nat) (saved depth : Int),
    (sc.stands bc lits places saved depth).Forward
  | .nil, _, _, _ => forward_noCode
  | .cons .optional _ (some e) next, _, _, _ =>
      Stretch.Forward.cons (fun _ _ h => Nat.le_of_eq h.2.symm) ((e.forward _ _).cons (forward_varOp.cons
        (forward_byte.cons ((next.forward _ _ _).cons .nil))))
  | .cons .optional _ none next, _, _, _ | .cons .required _ _ next, _, _, _ | .cons .rest _ _ next, _, _, _ =>
      next.forward _ _ _

end

/-! ## Statements -/

theorem forward_exit {exit : Int} : (exitCode bc exit).Forward := by
  unfold exitCode
  split
  · exact forward_extended
  · exact forward_extended.cons (forward_operand.cons .nil)

theorem forward_while {id : Int} : (whileCode bc id).Forward := by
  unfold whileCode
  split
  · exact forward_byte
  · exact forward_extended.cons (forward_operand.cons .nil)

theorem forward_codes : ∀ (excepts : ExceptArm) (places : List Nat) (depth : Int),
    (excepts.codesStand bc lits places depth).Forward
  | .cons _ codes _ next, _ :: places, _ => (codes.handlerForward _ _).cons (forward_extended.cons
      (forward_operand.cons ((forward_codes next places _).cons .nil)))
  | .nil, [], _ => forward_noCode
  | .cons _ _ _ _, [], _ | .nil, _ :: _, _ => forward_none

theorem forward_jump {next : ExceptArm} {stop : Nat} : (jumpCode bc next stop).Forward := by
  cases next with
  | nil => exact forward_noCode
  | cons _ _ _ _ => exact forward_byte.cons (forward_operand.cons .nil)

mutual

theorem Stmt.forward : ∀ (stmt : Stmt), stmt.Plain → ∀ (loops : List LoopPlace) (depth : Int),
    (stmt.stands bc lits loops depth).Forward
  | .cond arms otherwise, hp, loops, depth => fun pc pc' =>
      ((arms.forward hp.1 .if pc' loops depth).cons ((otherwise.forward hp.2 loops depth).cons .nil)) pc pc'
  | .list _ e body, hp, loops, depth => by
      rintro pc pc' ⟨_, h⟩
      exact ((e.forward _ _).cons (forward_byte.cons (forward_here.cons (forward_byte.cons (forward_operand.cons
        (forward_operand.cons ((body.forward hp.2 _ _).cons (forward_byte.cons (forward_operand.cons .nil))))))))) pc pc' h
  | .range _ from' to' body, hp, loops, depth => by
      rintro pc pc' ⟨_, h⟩
      exact ((from'.forward _ _).cons ((to'.forward _ _).cons (forward_here.cons (forward_byte.cons (forward_operand.cons
        (forward_operand.cons ((body.forward hp.2.2 _ _).cons (forward_byte.cons (forward_operand.cons .nil))))))))) pc pc' h
  | .while _ e body, hp, loops, depth => by
      rintro pc pc' ⟨_, h⟩
      exact (forward_here.cons ((e.forward _ _).cons (forward_while.cons (forward_operand.cons
        ((body.forward hp.2 _ _).cons (forward_byte.cons (forward_operand.cons .nil))))))) pc pc' h
  | .expr e, _, _, _ => (e.forward _ _).cons (forward_byte.cons .nil)
  | .return (some e), _, _, _ => (e.forward _ _).cons (forward_byte.cons .nil)
  | .return none, _, _, _ => forward_byte
  | .tryExcept body excepts, hp, loops, depth => by
      rintro pc pc' ⟨places, h⟩
      exact ((forward_codes excepts places depth).cons (forward_extended.cons (forward_byte.cons
        ((body.forward hp.1 _ _).cons (forward_extended.cons (forward_operand.cons
          ((excepts.forward hp.2.2 places pc' _ _).cons .nil))))))) pc pc' h
  | .tryFinally body handler, hp, loops, depth => by
      rintro pc pc' ⟨_, h⟩
      exact (forward_extended.cons (forward_operand.cons ((body.forward hp.1 _ _).cons (forward_extended.cons
        (forward_here.cons ((handler.forward hp.2 _ _).cons (forward_extended.cons .nil))))))) pc pc' h
  | .break _, _, _, _ | .continue _, _, _, _ => by
      rintro pc pc' ⟨_, _, h⟩
      exact (forward_exit.cons (forward_operand.cons (forward_operand.cons .nil))) pc pc' h

theorem StmtList.forward : ∀ (stmts : StmtList), stmts.Plain → ∀ (loops : List LoopPlace) (depth : Int),
    (stmts.stands bc lits loops depth).Forward
  | .nil, _, _, _ => forward_noCode
  | .cons stmt next, hp, _, _ => (stmt.forward hp.1 _ _).cons ((next.forward hp.2 _ _).cons .nil)

theorem CondArm.forward : ∀ (arms : CondArm), arms.Plain → ∀ (op : Opcode) (stop : Nat) (loops : List LoopPlace)
    (depth : Int), (arms.stands bc lits op stop loops depth).Forward
  | .nil, _, _, _, _, _ => forward_noCode
  | .cons e stmts next, hp, op, stop, loops, depth => by
      rintro pc pc' ⟨_, h⟩
      exact ((e.forward _ _).cons (forward_byte.cons (forward_operand.cons ((stmts.forward hp.2.1 _ _).cons
        (forward_byte.cons (forward_operand.cons (forward_here.cons ((next.forward hp.2.2 _ _ _ _).cons .nil)))))))) pc
          pc' h

theorem ExceptArm.forward : ∀ (excepts : ExceptArm), excepts.Plain → ∀ (places : List Nat) (stop : Nat)
    (loops : List LoopPlace) (depth : Int), (excepts.stands bc lits places stop loops depth).Forward
  | .nil, _, _, _, _, _ => forward_noCode
  | .cons _ _ stmts next, hp, _, _, _, _ => Stretch.Forward.cons (fun _ _ h => Nat.le_of_eq h.2.symm)
      (forward_varOp.when.cons (forward_byte.cons ((stmts.forward hp.2.1 _ _).cons (forward_jump.cons
        ((next.forward hp.2.2 _ _ _ _).cons .nil)))))

end

end

end Waverous
