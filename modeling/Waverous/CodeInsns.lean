import Waverous.CodeLayout
import Waverous.CodeGenProofs

/-! # The generator emits instructions — `code_gen.c`

    Each function of the generator begins and ends where an instruction begins, and defines the
    labels that it has made or got.  That the number of targets of a scatter fits in a byte is
    checked by `vet_scatter`. -/

namespace Waverous

open Views

mutual

/-- No scatter has more than 255 targets. -/
def Expr.Narrow : Expr → Prop
  | .var _ | .id _ | .length => True
  | .and lhs rhs | .or lhs rhs | .binary _ lhs rhs | .prop lhs rhs | .index lhs rhs | .asgn lhs rhs =>
      lhs.Narrow ∧ rhs.Narrow
  | .negate e | .not e => e.Narrow
  | .range base «from» «to» => base.Narrow ∧ «from».Narrow ∧ «to».Narrow
  | .list args | .call _ args => args.Narrow
  | .verb obj verb args => obj.Narrow ∧ verb.Narrow ∧ args.Narrow
  | .cond condition consequent alternate =>
      condition.Narrow ∧ consequent.Narrow ∧ alternate.Narrow
  | .catch e codes except => e.Narrow ∧ codes.Narrow ∧ defaultNarrow except
  | .scatter sc => sc.nargs < 256 ∧ sc.Narrow

def defaultNarrow : Option Expr → Prop
  | none => True
  | some e => e.Narrow

def ArgList.Narrow : ArgList → Prop
  | .nil => True
  | .cons _ e next => e.Narrow ∧ next.Narrow

def Scatter.Narrow : Scatter → Prop
  | .nil => True
  | .cons _ _ default next => defaultNarrow default ∧ next.Narrow

end

mutual

def Stmt.Narrow : Stmt → Prop
  | .cond arms otherwise => arms.Narrow ∧ otherwise.Narrow
  | .list _ e body | .while _ e body => e.Narrow ∧ body.Narrow
  | .range _ «from» «to» body => «from».Narrow ∧ «to».Narrow ∧ body.Narrow
  | .fork _ time _ => time.Narrow
  | .expr e => e.Narrow
  | .return e => defaultNarrow e
  | .tryExcept body excepts => body.Narrow ∧ excepts.Narrow
  | .tryFinally body handler => body.Narrow ∧ handler.Narrow
  | .break _ | .continue _ => True

/-- No scatter of the vector has more than 255 targets; the body of a `fork` has its own vector. -/
def StmtList.Narrow : StmtList → Prop
  | .nil => True
  | .cons stmt next => stmt.Narrow ∧ next.Narrow

def CondArm.Narrow : CondArm → Prop
  | .nil => True
  | .cons e stmts next => e.Narrow ∧ stmts.Narrow ∧ next.Narrow

def ExceptArm.Narrow : ExceptArm → Prop
  | .nil => True
  | .cons _ codes stmts next => codes.Narrow ∧ stmts.Narrow ∧ next.Narrow

end

variable {α β : Type} {s s' : GenState} {H H' : List Nat} {T : List Fixup} {q : Prop}

/-! ## Instructions -/

theorem lays_emitOp (op : Opcode) {p : Phase}
    (hstep : Phase.start.step (.byte op.byte) = some p := by decide) :
    Triple (Sound .start H T q) (emitOp op) fun _ => Sound p H T q := lays_emitByte hstep

theorem lays_emitExtended (op : ExtendedOpcode) {p : Phase}
    (hstep : Phase.extended.step (.byte op.byte) = some p := by decide) :
    Triple (Sound .start H T q) (emitExtended op) fun _ => Sound p H T q :=
  (lays_emitOp .extended).bind fun _ => lays_emitByte hstep

theorem lays_optimNum {n : Int} (h : inOptimNumRange n = true) :
    Triple (Sound .start H T q) (emitByte (optimNumToOpcode n)) fun _ => Sound .start H T q := by
  have hquick : Opcode.optimNumStart.byte ≤ optimNumToOpcode n := by
    obtain ⟨hlow, hhi⟩ := of_decide_eq_true h
    simp only [optimNumLow, optimNumHi] at hlow hhi
    rw [UInt8.le_iff_toNat_le, optimNumToOpcode, UInt8.toNat_ofNat', optimNumLow]
    show 113 ≤ _
    omega
  exact lays_plain (not_operandOps (.inl hquick)).1 (not_operandOps (.inl hquick)).2

/-- The opcodes of the first variables are in the opcode. -/
theorem varOp_plain (k : Fin 32) :
    (Opcode.push.byte + UInt8.ofNat k ∉ operandOps ∧
      Opcode.push.byte + UInt8.ofNat k ≠ Opcode.extended.byte) ∧
    (Opcode.put.byte + UInt8.ofNat k ∉ operandOps ∧
      Opcode.put.byte + UInt8.ofNat k ≠ Opcode.extended.byte) := by
  revert k
  decide

theorem lays_emitVarOp {op : Opcode} (hop : op = .push ∨ op = .put) (slot : Nat) :
    Triple (Sound .start H T q) (emitVarOp op slot) fun _ => Sound .start H T q := by
  refine .ite (fun _ => ?_) fun hslot => ?_
  · have hstep : Phase.start.step (.byte (op.byte + UInt8.ofNat numReadyVars)) =
        some (.slots [.operand .varRef]) := by
      rcases hop with rfl | rfl
      · decide
      · decide
    exact (lays_emitByte hstep).bind fun _ => lays_addVarRef slot
  · have hk := varOp_plain ⟨slot, Nat.lt_of_not_le hslot⟩
    rcases hop with rfl | rfl
    · exact lays_plain hk.1.1 hk.1.2
    · exact lays_plain hk.2.1 hk.2.2

theorem BinaryKind.lays_emit (kind : BinaryKind) :
    Triple (Sound .start H T q) kind.emit fun _ => Sound .start H T q := by
  cases kind
  case exp => exact lays_emitExtended .exp
  all_goals exact lays_emitOp _

theorem lays_generateVar (v : Var) :
    Triple (Sound .start H T q) (generateVar v) fun _ => Sound .start H T q := by
  have himm : ∀ v : Var, Triple (Sound .start H T q) (do emitOp .imm; addLiteral v)
      fun _ => Sound .start H T q := fun v => (lays_emitOp .imm).bind fun _ => lays_addLiteral v
  have hvar : Triple (Sound .start H T q) (generateVar.emitVar v) fun _ => Sound .start H T q := by
    cases v with
    | int num => exact .ite (fun h => lays_optimNum h) fun _ => himm _
    | _ => exact himm _
  exact hvar.bind fun _ => (silent_pushStack 1).lays

theorem lays_emitArg (first : Bool) (kind : ArgKind) :
    Triple (Sound .start H T q) (emitArg first kind) fun _ => Sound .start H T q := by
  cases kind with
  | normal =>
      cases first with
      | false => exact lays_emitOp .listAddTail
      | true => exact lays_emitOp .makeSingletonList
  | splice =>
      cases first with
      | false => exact lays_emitOp .listAppend
      | true => exact lays_emitOp .checkListForSplice

theorem lays_putLvalue : ∀ e : Expr,
    Triple (Sound .start H T q) (putLvalue e) fun _ => Sound .start H T q
  | .range base _ _ => (lays_emitExtended .rangeset).bind fun _ =>
      (silent_popStack 3).lays.bind fun _ => lays_putLvalue base
  | .index lhs _ => (lays_emitOp .indexset).bind fun _ =>
      (silent_popStack 2).lays.bind fun _ => lays_putLvalue lhs
  | .id _ => lays_emitVarOp (.inr rfl) _
  | .prop _ _ => (lays_emitOp .putProp).bind fun _ => (silent_popStack 2).lays
  | .var _ | .and _ _ | .or _ _ | .negate _ | .not _ | .binary _ _ _ | .length | .list _ | .call _ _
  | .verb _ _ _ | .cond _ _ _ | .asgn _ _ | .catch _ _ _ | .scatter _ => lays_panic

theorem lays_whenIndexed (e : Expr) {emit : Gen Unit}
    (h : Triple (Sound .start H T q) emit fun _ => Sound .start H T q) :
    Triple (Sound .start H T q) (whenIndexed e emit) fun _ => Sound .start H T q := by
  cases e
  case range => exact h
  case index => exact h
  all_goals exact .pure fun _ hs => hs

theorem lays_emitCodes {codes : ArgList} {argList : Gen Unit}
    (h : Triple (Sound .start H T q) argList fun _ => Sound .start H T q) :
    Triple (Sound .start H T q) (emitCodes codes argList) fun _ => Sound .start H T q := by
  cases codes with
  | nil => exact (lays_optimNum (by decide)).bind fun _ => (silent_pushStack 1).lays
  | cons => exact h

theorem lays_generateLength :
    Triple (Sound .start H T q) generateLength fun _ => Sound .start H T q :=
  silent_savedStackTop.lays.bind fun saved => .ite (fun _ => lays_panic) fun _ =>
    (lays_emitExtended .length).bind fun _ => (lays_addStackRef saved).bind fun _ =>
      (silent_pushStack 1).lays

/-! ### The order of labels -/

/-- Labels may come in another order. -/
theorem lays_labels {p : Phase} {m : Gen α} {Q : α → GenState → Prop} (hsub : ∀ l ∈ H, l ∈ H')
    (h : Triple (Sound p H' T q) m Q) : Triple (Sound p H T q) m Q :=
  h.before fun _ hs => hs.mono hsub

theorem swap_labels {l l' : Nat} : ∀ n ∈ l :: l' :: H, n ∈ l' :: l :: H := by
  intro n hn
  simp only [List.mem_cons] at hn ⊢
  tauto

theorem behind_labels {l : Nat} {labels : List Nat} : ∀ n ∈ l :: (labels ++ H), n ∈ labels ++ l :: H := by
  intro n hn
  simp only [List.mem_cons, List.mem_append] at hn ⊢
  tauto

theorem swap_lists {labels labels' : List Nat} :
    ∀ n ∈ labels ++ (labels' ++ H), n ∈ labels' ++ (labels ++ H) := by
  intro n hn
  simp only [List.mem_append] at hn ⊢
  tauto

theorem new_labels {l : Nat} {labels : List Nat} :
    ∀ n ∈ labels ++ l :: H, n ∈ (l :: labels) ++ H := by
  intro n hn
  simp only [List.mem_append, List.mem_cons] at hn ⊢
  tauto

/-! ## Scatters -/

/-- The targets that have a default. -/
def Scatter.defaults : Scatter → Nat
  | .nil => 0
  | .cons .optional _ (some _) next => next.defaults + 1
  | .cons _ _ _ next => next.defaults

/-- The targets, before the other operands of the instruction. -/
theorem lays_emitTargets {slot : Slot} {slots : List Slot} : ∀ (sc : Scatter) {H : List Nat},
    Triple (Sound (.slots (targetSlots sc.nargs ++ slot :: slots)) H T q) (emitTargets sc)
      fun labels s => labels.length = sc.defaults ∧ Sound (.slots (slot :: slots)) (labels ++ H) T q s
  | .nil, _ => .pure fun _ hs => ⟨rfl, hs⟩
  | .cons kind _ default next, _ => by
      cases kind with
      | optional =>
          cases default with
          | some _ =>
              exact (lays_addVarRef _).bind fun _ => lays_addLabel.bind fun l =>
                (lays_emitTargets next).knowing fun labels hlabels => .pure fun s hs =>
                  ⟨congrArg (· + 1) hlabels, hs.mono new_labels⟩
          | none =>
              exact (lays_addVarRef _).bind fun _ =>
                (lays_addPseudoLabel (Nat.le_refl 1) (by simp)).bind fun _ => lays_emitTargets next
      | required | rest =>
          exact (lays_addVarRef _).bind fun _ =>
            (lays_addPseudoLabel (Nat.zero_le 1) (by simp)).bind fun _ => lays_emitTargets next

theorem lays_emitScatter {sc : Scatter} (h : sc.nargs < 256) :
    Triple (Sound .start H T q) (emitScatter sc) fun labels s => labels.length = sc.defaults ∧
      Sound (.slots [.operand .label]) (labels ++ H) T q s := by
  have hnargs : (UInt8.ofNat sc.nargs).toNat = sc.nargs := by
    rw [UInt8.toNat_ofNat']
    omega
  have hstep : Phase.scatter.step (.byte (UInt8.ofNat sc.nargs)) =
      some (.slots (.byte :: .byte :: (targetSlots sc.nargs ++ [.operand .label]))) := by
    rw [Phase.step, hnargs]
  exact (lays_emitExtended .scatter).bind fun _ => (lays_emitByte hstep).bind fun _ =>
    (lays_emitByte rfl).bind fun _ => (lays_emitByte rfl).bind fun _ => lays_emitTargets sc

/-! ## Expressions -/

theorem lays_asgn {e rhs : Expr} (hne : ∀ sc, e ≠ .scatter sc)
    (hpush : Triple (Sound .start H T q) (pushLvalue e false) fun _ => Sound .start H T q)
    (hrhs : Triple (Sound .start H T q) (generateExpr rhs) fun _ => Sound .start H T q) :
    Triple (Sound .start H T q) (generateExpr (.asgn e rhs)) fun _ => Sound .start H T q := by
  rw [generateExpr_asgn hne]
  exact hpush.bind fun _ => hrhs.bind fun _ => (lays_whenIndexed e (lays_emitOp .putTemp)).bind fun _ =>
    (lays_putLvalue e).bind fun _ =>
      lays_whenIndexed e ((lays_emitOp .pop).bind fun _ => lays_emitOp .pushTemp)

/-- The label that has just been made is defined. -/
theorem lays_define {l : Nat} :
    Triple (Sound .start (l :: H) T q) (defineLabel (some l)) fun _ => Sound .start H T q :=
  show Triple (Sound .start ((some l).toList ++ H) T q) _ _ from lays_defineLabel

mutual

theorem lays_generateExpr : ∀ e : Expr, e.Narrow → ∀ {H : List Nat},
    Triple (Sound .start H T q) (generateExpr e) fun _ => Sound .start H T q
  | .var v, _, _ => lays_generateVar v
  | .id _, _, _ => (lays_emitVarOp (.inl rfl) _).bind fun _ => (silent_pushStack 1).lays
  | .and lhs rhs, hn, _ =>
      (lays_generateExpr lhs hn.1).bind fun _ => (lays_emitOp .and).bind fun _ =>
        lays_addLabel.bind fun _ => (silent_popStack 1).lays.bind fun _ =>
          (lays_generateExpr rhs hn.2).bind fun _ => lays_define
  | .or lhs rhs, hn, _ =>
      (lays_generateExpr lhs hn.1).bind fun _ => (lays_emitOp .or).bind fun _ =>
        lays_addLabel.bind fun _ => (silent_popStack 1).lays.bind fun _ =>
          (lays_generateExpr rhs hn.2).bind fun _ => lays_define
  | .negate e, hn, _ => (lays_generateExpr e hn).bind fun _ => lays_emitOp .unaryMinus
  | .not e, hn, _ => (lays_generateExpr e hn).bind fun _ => lays_emitOp .not
  | .binary kind lhs rhs, hn, _ =>
      (lays_generateExpr lhs hn.1).bind fun _ => (lays_generateExpr rhs hn.2).bind fun _ =>
        kind.lays_emit.bind fun _ => (silent_popStack 1).lays
  | .prop lhs rhs, hn, _ =>
      (lays_generateExpr lhs hn.1).bind fun _ => (lays_generateExpr rhs hn.2).bind fun _ =>
        (lays_emitOp .getProp).bind fun _ => (silent_popStack 1).lays
  | .index lhs rhs, hn, _ =>
      (lays_generateExpr lhs hn.1).bind fun _ => silent_saveStackTop.lays.bind fun _ =>
        (lays_generateExpr rhs hn.2).bind fun _ => (silent_restoreStackTop _).lays.bind fun _ =>
          (lays_emitOp .ref).bind fun _ => (silent_popStack 1).lays
  | .range base from' to', hn, _ =>
      (lays_generateExpr base hn.1).bind fun _ => silent_saveStackTop.lays.bind fun _ =>
        (lays_generateExpr from' hn.2.1).bind fun _ => (lays_generateExpr to' hn.2.2).bind fun _ =>
          (silent_restoreStackTop _).lays.bind fun _ => (lays_emitOp .rangeRef).bind fun _ =>
            (silent_popStack 2).lays
  | .length, _, _ => lays_generateLength
  | .list args, hn, _ => lays_generateArgList args hn true
  | .call func args, hn, _ =>
      (lays_generateArgList args hn true).bind fun _ => (lays_emitOp .biFuncCall).bind fun _ =>
        lays_emitByte (p := .slots [.byte]) rfl
  | .verb obj verb args, hn, _ =>
      (lays_generateExpr obj hn.1).bind fun _ => (lays_generateExpr verb hn.2.1).bind fun _ =>
        (lays_generateArgList args hn.2.2 true).bind fun _ => (lays_emitOp .callVerb).bind fun _ =>
          (silent_popStack 2).lays
  | .cond condition consequent alternate, hn, _ =>
      (lays_generateExpr condition hn.1).bind fun _ => (lays_emitOp .ifQues).bind fun _ =>
        lays_addLabel.bind fun elseLabel => (silent_popStack 1).lays.bind fun _ =>
          (lays_generateExpr consequent hn.2.1).bind fun _ => (lays_emitOp .jump).bind fun _ =>
            lays_addLabel.bind fun endLabel => (silent_popStack 1).lays.bind fun _ =>
              (lays_labels swap_labels lays_define).bind fun _ =>
                (lays_generateExpr alternate hn.2.2).bind fun _ => lays_define
  | .asgn (.scatter sc) rhs, hn, H =>
      (lays_generateExpr rhs hn.2).bind fun _ => (lays_emitScatter hn.1.1).knowing fun labels hlabels =>
        lays_addLabel.bind fun done =>
          (lays_labels behind_labels (lays_generateDefaults sc hn.1.2 hlabels)).bind fun _ => lays_define
  | .asgn (.range base from' to') rhs, hn, _ =>
      lays_asgn nofun (lays_pushLvalue (.range base from' to') hn.1 false) (lays_generateExpr rhs hn.2)
  | .asgn (.index lhs i) rhs, hn, _ =>
      lays_asgn nofun (lays_pushLvalue (.index lhs i) hn.1 false) (lays_generateExpr rhs hn.2)
  | .asgn (.id i) rhs, hn, _ =>
      lays_asgn nofun (lays_pushLvalue (.id i) hn.1 false) (lays_generateExpr rhs hn.2)
  | .asgn (.prop lhs i) rhs, hn, _ =>
      lays_asgn nofun (lays_pushLvalue (.prop lhs i) hn.1 false) (lays_generateExpr rhs hn.2)
  | .asgn (.var _) rhs, hn, _ | .asgn (.and _ _) rhs, hn, _ | .asgn (.or _ _) rhs, hn, _
  | .asgn (.negate _) rhs, hn, _ | .asgn (.not _) rhs, hn, _ | .asgn (.binary _ _ _) rhs, hn, _
  | .asgn .length rhs, hn, _ | .asgn (.list _) rhs, hn, _ | .asgn (.call _ _) rhs, hn, _
  | .asgn (.verb _ _ _) rhs, hn, _ | .asgn (.cond _ _ _) rhs, hn, _ | .asgn (.asgn _ _) rhs, hn, _
  | .asgn (.catch _ _ _) rhs, hn, _ =>
      lays_asgn nofun lays_panic (lays_generateExpr rhs hn.2)
  | .catch e codes except, hn, _ =>
      (lays_emitCodes (lays_generateArgList codes hn.2.1 true)).bind fun _ =>
        (lays_emitExtended .pushLabel).bind fun _ => lays_addLabel.bind fun handlerLabel =>
          (silent_pushStack 1).lays.bind fun _ => (lays_emitExtended .catch).bind fun _ =>
            (silent_pushStack 1).lays.bind fun _ => (lays_generateExpr e hn.1).bind fun _ =>
              (lays_emitExtended .endCatch).bind fun _ => lays_addLabel.bind fun endLabel =>
                (silent_popStack 3).lays.bind fun _ => (lays_labels swap_labels lays_define).bind fun _ =>
                  (lays_generateExcept except hn.2.2).bind fun _ => lays_define
  | .scatter _, _, _ => lays_panic

theorem lays_generateExcept : ∀ except : Option Expr, defaultNarrow except → ∀ {H : List Nat},
    Triple (Sound .start H T q) (generateExcept except) fun _ => Sound .start H T q
  | some e, hn, _ =>
      (lays_emitOp .pop).bind fun _ => (silent_popStack 1).lays.bind fun _ => lays_generateExpr e hn
  | none, _, _ => (lays_optimNum (by decide)).bind fun _ => lays_emitOp .ref

theorem lays_pushLvalue : ∀ e : Expr, e.Narrow → ∀ (above : Bool) {H : List Nat},
    Triple (Sound .start H T q) (pushLvalue e above) fun _ => Sound .start H T q
  | .range base from' to', hn, _, _ =>
      (lays_pushLvalue base hn.1 true).bind fun _ => silent_saveStackTop.lays.bind fun _ =>
        (lays_generateExpr from' hn.2.1).bind fun _ => (lays_generateExpr to' hn.2.2).bind fun _ =>
          (silent_restoreStackTop _).lays
  | .index lhs rhs, hn, _, _ =>
      (lays_pushLvalue lhs hn.1 true).bind fun _ => silent_saveStackTop.lays.bind fun _ =>
        (lays_generateExpr rhs hn.2).bind fun _ => (silent_restoreStackTop _).lays.bind fun _ =>
          .ite (fun _ => (lays_emitOp .pushRef).bind fun _ => (silent_pushStack 1).lays) fun _ =>
            .pure fun _ hs => hs
  | .id _, _, _, _ =>
      .ite (fun _ => (lays_emitVarOp (.inl rfl) _).bind fun _ => (silent_pushStack 1).lays) fun _ =>
        .pure fun _ hs => hs
  | .prop lhs rhs, hn, _, _ =>
      (lays_generateExpr lhs hn.1).bind fun _ => (lays_generateExpr rhs hn.2).bind fun _ =>
        .ite (fun _ => (lays_emitOp .pushGetProp).bind fun _ => (silent_pushStack 1).lays) fun _ =>
          .pure fun _ hs => hs
  | .var _, _, _, _ | .and _ _, _, _, _ | .or _ _, _, _, _ | .negate _, _, _, _ | .not _, _, _, _
  | .binary _ _ _, _, _, _ | .length, _, _, _ | .list _, _, _, _ | .call _ _, _, _, _
  | .verb _ _ _, _, _, _ | .cond _ _ _, _, _, _ | .asgn _ _, _, _, _ | .catch _ _ _, _, _, _
  | .scatter _, _, _, _ => lays_panic

theorem lays_generateArgList : ∀ args : ArgList, args.Narrow → ∀ (first : Bool) {H : List Nat},
    Triple (Sound .start H T q) (generateArgList args first) fun _ => Sound .start H T q
  | .nil, _, _, _ =>
      .ite (fun _ => (lays_emitOp .makeEmptyList).bind fun _ => (silent_pushStack 1).lays) fun _ =>
        .pure fun _ hs => hs
  | .cons kind e next, hn, first, _ =>
      (lays_generateExpr e hn.1).bind fun _ => (lays_emitArg first kind).bind fun _ =>
        (silent_popStack _).lays.bind fun _ => lays_generateArgList next hn.2 false

/-- Each label of the targets is defined. -/
theorem lays_generateDefaults : ∀ sc : Scatter, sc.Narrow → ∀ {labels : List Nat},
    labels.length = sc.defaults → ∀ {H : List Nat},
    Triple (Sound .start (labels ++ H) T q) (generateDefaults sc labels) fun _ => Sound .start H T q
  | .nil, _, [], _, _ => .pure fun _ hs => hs
  | .cons .optional _ (some e) next, hn, l :: labels, hlen, _ =>
      lays_define.bind fun _ => (lays_generateExpr e hn.1).bind fun _ =>
        (lays_emitVarOp (.inr rfl) _).bind fun _ => (lays_emitOp .pop).bind fun _ =>
          (silent_popStack 1).lays.bind fun _ => lays_generateDefaults next hn.2 (Nat.succ.inj hlen)
  | .cons .optional _ none next, hn, _, hlen, _ | .cons .required _ _ next, hn, _, hlen, _
  | .cons .rest _ _ next, hn, _, hlen, _ => lays_generateDefaults next hn.2 hlen

end

/-! ## Statements -/

theorem lays_generateCodes {codes : ArgList} (h : codes.Narrow) :
    Triple (Sound .start H T q) (generateCodes codes) fun _ => Sound .start H T q :=
  lays_emitCodes (lays_generateArgList codes h true)

theorem lays_emitWhile (id : Int) :
    Triple (Sound .start H T q) (emitWhile id) fun _ => Sound (.slots [.operand .label]) H T q :=
  .ite (fun _ => lays_emitOp .while) fun _ =>
    (lays_emitExtended .whileId).bind fun _ => lays_addVarRef _

theorem lays_emitExit (exit : Int) :
    Triple (Sound .start H T q) (emitExit exit)
      fun _ => Sound (.slots [.operand .stack, .operand .label]) H T q :=
  .ite (fun _ => lays_emitExtended .exit) fun _ =>
    (lays_emitExtended .exitId).bind fun _ => lays_addVarRef _

theorem lays_putId (id : Int) :
    Triple (Sound .start H T q) (whenId id (emitVarOp .put)) fun _ => Sound .start H T q :=
  .ite (fun _ => lays_emitVarOp (.inr rfl) _) fun _ => .pure fun _ hs => hs

theorem lays_jumpToEnd (next : ExceptArm) (endLabel : Option Nat) :
    Triple (Sound .start (endLabel.toList ++ H) T q) (jumpToEnd next endLabel)
      fun b => Sound .start (b.toList ++ H) T q := by
  cases next with
  | nil => exact .pure fun _ hs => hs
  | cons => exact (lays_emitOp .jump).bind fun _ => lays_addLinkedLabel.bind fun _ => .pure fun _ hs => hs

/-- The loop that is left is there, and its top is a known label. -/
theorem lays_findExit (exit : Int) : Triple (Sound .start H T q) (findExit exit) fun r s =>
    s.loops[r.1]? = some r.2 ∧
      Sound (.slots [.operand .stack, .operand .label]) H (r.2.topLabel :: T) True s := by
  rintro s ⟨i, loop⟩ s' hs hrun
  obtain ⟨hemit, hloop⟩ := findExit_run hrun
  have hs' := lays_emitExit exit s _ s' hs hemit
  have hmem : loop ∈ s'.loops := List.mem_of_getElem? hloop
  refine ⟨hloop, { hs' with known := fun top htop => ?_, labelled := fun _ => ?_ }⟩
  · rcases List.mem_cons.mp htop with rfl | htop
    · exact ⟨hs'.tidy.tops loop hmem, hs'.tops loop hmem⟩
    · exact hs'.known top htop
  · exact hs'.entered (List.ne_nil_of_mem hmem)

/-- What is not needed is forgotten. -/
theorem Sound.forgetTop {top : Fixup} (h : Sound .start H (top :: T) True s) :
    Sound .start H T q s := h.forget (fun _ hmem => List.mem_cons_of_mem _ hmem) fun _ => trivial

theorem lays_continue (exit : Int) :
    Triple (Sound .start H T q) (generateStmt (.continue exit)) fun _ => Sound .start H T q := by
  refine ((lays_findExit exit).after fun _ _ h => h.2).bind ?_
  rintro ⟨i, loop⟩
  exact (lays_addStackRef _).bind fun _ => (lays_addKnownLabel List.mem_cons_self).bind fun _ =>
    .pure fun _ hs => hs.forgetTop

/-- The label of a `break` waits for the loop, in front of those that have waited for it. -/
theorem Sound.pushExit {i l : Nat} {loop : Loop} (h : Sound .start (l :: H) T q s)
    (hloop : s.loops[i]? = some loop) (hnext : nextLabel s.fixups l = some loop.bottomLabel)
    (hlast : s.fixups.length = l + 1)
    (hloops : s'.loops = s.loops.modify i fun loop => { loop with bottomLabel := some l })
    (hsame : s' = { s with loops := s'.loops }) (ht : s'.Tidy) : Sound .start H T q s' := by
  have hitems : s'.items = s.items := by rw [hsame]; rfl
  have hfixups : s'.fixups = s.fixups := by rw [hsame]
  have hnum : s'.numLabels = s.numLabels := by rw [hsame]
  have hnew : s'.loops[i]? = some { loop with bottomLabel := some l } := by
    rw [hloops, List.getElem?_modify_eq, hloop]
    rfl
  refine ⟨ht, hitems ▸ h.phase, fun r f hf hkind => ?_, hitems ▸ h.known, fun loop' hmem => ?_,
    hnum ▸ h.labelled, fun _ => hnum ▸ h.entered ?_, fun kind => by rw [hitems, hfixups, h.counted]⟩
  · rw [hitems]
    rw [hfixups] at hf
    have hwait : Links.On (nextLabel s.fixups) r l → s'.Waits H r := fun hon =>
      .inr ⟨_, List.mem_of_getElem? hnew, l, rfl, hfixups ▸ hon⟩
    refine (h.labels r f hf hkind).imp_right ?_
    rintro (⟨l', hl', hon⟩ | ⟨loop', hmem, b, hb, hon⟩)
    · rcases List.mem_cons.mp hl' with rfl | hl'
      · exact hwait hon
      · exact .inl ⟨l', hl', hfixups ▸ hon⟩
    · obtain ⟨j, hj⟩ := List.getElem?_of_mem hmem
      by_cases hij : i = j
      · subst hij
        rw [hloop] at hj
        cases hj
        -- the loop has the new label now, which links to the one that it had
        obtain ⟨x, hx⟩ := Option.isSome_iff_exists.mp hon.isSome
        obtain ⟨g, hg, -⟩ := nextLabel_some.mp hx
        have hlt := (List.getElem?_eq_some_iff.mp hg).1
        by_cases hbl : b = l
        · exact hwait (hbl ▸ hon)
        · exact hwait (.link (hb ▸ hnext) (by omega) hon)
      · refine .inr ⟨loop', List.mem_of_getElem? (i := j) ?_, b, hb, hfixups ▸ hon⟩
        rw [hloops, List.getElem?_modify_ne _ _ hij, hj]
  · rw [hitems]
    obtain ⟨j, hj⟩ := List.getElem?_of_mem hmem
    rw [hloops] at hj
    by_cases hij : i = j
    · rw [hij, List.getElem?_modify_eq] at hj
      obtain ⟨loop'', hj', rfl⟩ := Option.map_eq_some_iff.mp hj
      exact h.tops loop'' (List.mem_of_getElem? hj')
    · rw [List.getElem?_modify_ne _ _ hij] at hj
      exact h.tops loop' (List.mem_of_getElem? hj)
  · exact List.ne_nil_of_mem (List.mem_of_getElem? hloop)

theorem lays_break (exit : Int) :
    Triple (Sound .start H T q) (generateStmt (.break exit)) fun _ => Sound .start H T q := by
  intro s u s' hs hrun
  have ht := (does_break exit s u s' hrun hs.tidy (H := [])).tidy
  obtain ⟨⟨i, loop⟩, s1, hfind, hrun⟩ := bind_eq_some hrun
  obtain ⟨hloop, hs1⟩ := lays_findExit exit s _ s1 hs hfind
  obtain ⟨_, s2, hstack, hrun⟩ := bind_eq_some hrun
  have hs2 := lays_addStackRef loop.bottomStack s1 _ s2 hs1 hstack
  have hloop2 : s2.loops[i]? = some loop := by
    cases hstack
    exact hloop
  obtain ⟨l, s3, hlabel, hrun⟩ := bind_eq_some hrun
  obtain ⟨-, rfl, hloops, f, hkind, hnext, hfixups⟩ :=
    addLinkedLabel_spec hlabel hs2.tidy (H := [])
  have hs2' : Sound _ (loop.bottomLabel.toList ++ H) _ _ s2 := hs2.mono fun _ => List.mem_append_right _
  have hs3 := lays_addLinkedLabel s2 _ s3 hs2' hlabel
  have hnext3 : nextLabel s3.fixups s2.fixups.length = some loop.bottomLabel :=
    nextLabel_some.mpr ⟨{ f with pc := s2.bytes.length },
      by rw [hfixups, List.getElem?_concat_length], hkind, hnext⟩
  cases hrun
  exact hs3.forgetTop.pushExit (hloops ▸ hloop2) hnext3 (by rw [hfixups, List.length_append]; rfl)
    rfl rfl ht

/-- A loop from its body on: back to its top, and past it. -/
theorem lays_loop {id topStack bottomStack : Int} {top : Fixup} {l : Nat} {body : Gen Unit}
    {k : Option Nat → Gen Unit}
    (hbody : Triple (Sound .start H (top :: T) True) body fun _ => Sound .start H (top :: T) True)
    (hk : ∀ b : Option Nat, Triple (Sound .start (b.toList ++ H) (top :: T) True) (k b)
      fun _ => Sound .start H (top :: T) True) :
    Triple (Sound .start (l :: H) (top :: T) True) (do
      enterLoop id top topStack (some l) bottomStack
      body
      let b ← exitLoop
      emitOp .jump
      let _ ← addKnownLabel top
      k b) fun _ => Sound .start H T q := by
  have henter : Triple (Sound .start (l :: H) (top :: T) True)
      (enterLoop id top topStack (some l) bottomStack) fun _ => Sound .start H (top :: T) True :=
    show Triple (Sound .start ((some l).toList ++ H) _ _) _ _ from lays_enterLoop List.mem_cons_self
  exact henter.bind fun _ => hbody.bind fun _ => lays_exitLoop.bind fun b =>
    (lays_emitOp .jump).bind fun _ => (lays_addKnownLabel List.mem_cons_self).bind fun _ =>
      (hk b).after fun _ _ hs => hs.forgetTop

/-- The label of the end of a loop is the first one after its top. -/
theorem lays_loopLabel :
    Triple (Sound (.slots [.operand .label]) H T q) addLabel fun l => Sound .start (l :: H) T True :=
  show Triple (Sound _ (Option.toList none ++ H) T q) (addLinkedLabel none) _ from lays_addLoopLabel

theorem lays_ifOp {op : Opcode} (h : op = .if ∨ op = .eif) :
    Triple (Sound .start H T q) (emitOp op) fun _ => Sound (.slots [.operand .label]) H T q := by
  rcases h with rfl | rfl
  · exact lays_emitOp .if
  · exact lays_emitOp .eif

/-- The instructions of a `fork`, with and without an identifier. -/
theorem lays_fork (id : Int) (body : Gen Unit) : Triple (Sound .start H T q) (do
    emitOp (if 0 ≤ id then .forkWithId else .fork)
    let bc ← forkVector body
    addFork bc
    whenId id addVarRef
    popStack 1) fun _ => Sound .start H T q := by
  unfold whenId
  by_cases hid : 0 ≤ id
  · rw [if_pos hid, if_pos hid]
    exact (lays_emitOp .forkWithId).bind fun _ => (silent_forkVector body).lays.bind fun bc =>
      (lays_addFork bc).bind fun _ => (lays_addVarRef _).bind fun _ => (silent_popStack 1).lays
  · rw [if_neg hid, if_neg hid]
    exact (lays_emitOp .fork).bind fun _ => (silent_forkVector body).lays.bind fun bc =>
      (lays_addFork bc).bind fun _ => .bind (.pure fun _ hs => hs) fun _ => (silent_popStack 1).lays

mutual

theorem lays_generateStmt : ∀ stmt : Stmt, stmt.Narrow →
    ∀ {H : List Nat} {T : List Fixup} {q : Prop},
    Triple (Sound .start H T q) (generateStmt stmt) fun _ => Sound .start H T q
  | .cond arms otherwise, hn, _, _, _ =>
      (lays_generateArms arms hn.1 (.inl rfl) none).bind fun _ =>
        (lays_generateStmts otherwise hn.2).bind fun _ => lays_defineLabel
  | .list id e body, hn, _, _, _ =>
      (lays_generateExpr e hn.1).bind fun _ => (lays_optimNum (by decide)).bind fun _ =>
        (silent_pushStack 1).lays.bind fun _ => lays_captureLabel.bind fun _ =>
          (lays_emitOp .forList).bind fun _ => (lays_addVarRef id).bind fun _ =>
            lays_loopLabel.bind fun _ => silent_curStackNow.lays.bind fun _ =>
              lays_loop (lays_generateStmts body hn.2) fun _ =>
                lays_defineLabel.bind fun _ => (silent_popStack 2).lays
  | .range id from' to' body, hn, _, _, _ =>
      (lays_generateExpr from' hn.1).bind fun _ => (lays_generateExpr to' hn.2.1).bind fun _ =>
        lays_captureLabel.bind fun _ => (lays_emitOp .forRange).bind fun _ =>
          (lays_addVarRef id).bind fun _ => lays_loopLabel.bind fun _ =>
            silent_curStackNow.lays.bind fun _ =>
              lays_loop (lays_generateStmts body hn.2.2) fun _ =>
                lays_defineLabel.bind fun _ => (silent_popStack 2).lays
  | .while id condition body, hn, _, _, _ =>
      lays_captureLabel.bind fun _ => (lays_generateExpr condition hn.1).bind fun _ =>
        (lays_emitWhile id).bind fun _ => lays_loopLabel.bind fun _ =>
          (silent_popStack 1).lays.bind fun _ => silent_curStackNow.lays.bind fun _ =>
            lays_loop (lays_generateStmts body hn.2) fun _ => lays_defineLabel
  | .fork id time body, hn, _, _, _ =>
      (lays_generateExpr time hn).bind fun _ => lays_fork id (generateStmts body)
  | .expr e, hn, _, _, _ =>
      (lays_generateExpr e hn).bind fun _ => (lays_emitOp .pop).bind fun _ => (silent_popStack 1).lays
  | .return (some e), hn, _, _, _ =>
      (lays_generateExpr e hn).bind fun _ => (lays_emitOp .return).bind fun _ =>
        (silent_popStack 1).lays
  | .return none, _, _, _, _ => lays_emitOp .return0
  | .tryExcept body excepts, hn, _, _, _ =>
      (lays_generateHandlerCodes excepts hn.2).knowing fun labels hlabels =>
        (lays_emitExtended .tryExcept).bind fun _ => (lays_emitByte (p := .slots [.byte]) rfl).bind fun _ =>
          (silent_pushStack 1).lays.bind fun _ => (lays_generateStmts body hn.1).bind fun _ =>
            (lays_emitExtended .endExcept).bind fun _ => lays_addLabel.bind fun l =>
              (silent_popStack _).lays.bind fun _ =>
                (lays_labels behind_labels (lays_generateHandlers excepts hn.2 hlabels (some l))).bind
                  fun _ => lays_defineLabel
  | .tryFinally body handler, hn, _, _, _ =>
      (lays_emitExtended .tryFinally).bind fun _ => lays_addLabel.bind fun _ =>
        (silent_pushStack 1).lays.bind fun _ => (lays_generateStmts body hn.1).bind fun _ =>
          (lays_emitExtended .endFinally).bind fun _ => (silent_popStack 1).lays.bind fun _ =>
            lays_define.bind fun _ => (silent_pushStack 2).lays.bind fun _ =>
              (lays_generateStmts handler hn.2).bind fun _ => (lays_emitExtended .continue).bind fun _ =>
                (silent_popStack 2).lays
  | .continue exit, _, _, _, _ => lays_continue exit
  | .break exit, _, _, _, _ => lays_break exit

theorem lays_generateStmts : ∀ stmts : StmtList, stmts.Narrow →
    ∀ {H : List Nat} {T : List Fixup} {q : Prop},
    Triple (Sound .start H T q) (generateStmts stmts) fun _ => Sound .start H T q
  | .nil, _, _, _, _ => .pure fun _ hs => hs
  | .cons stmt next, hn, _, _, _ =>
      (lays_generateStmt stmt hn.1).bind fun _ => lays_generateStmts next hn.2

theorem lays_generateArms : ∀ arms : CondArm, arms.Narrow → ∀ {op : Opcode}, op = .if ∨ op = .eif →
    ∀ (b : Option Nat) {H : List Nat} {T : List Fixup} {q : Prop},
    Triple (Sound .start (b.toList ++ H) T q) (generateArms arms op b)
      fun b' => Sound .start (b'.toList ++ H) T q
  | .nil, _, _, _, _, _, _, _ => .pure fun _ hs => hs
  | .cons condition stmts next, hn, op, hop, b, H, _, _ =>
      (lays_generateExpr condition hn.1).bind fun _ => (lays_ifOp hop).bind fun _ =>
        lays_addLabel.bind fun elseLabel => (silent_popStack 1).lays.bind fun _ =>
          (lays_generateStmts stmts hn.2.1).bind fun _ => (lays_emitOp .jump).bind fun _ =>
            (lays_labels behind_labels lays_addLinkedLabel).bind fun endLabel =>
              (lays_labels swap_labels lays_define).bind fun _ =>
                lays_generateArms next hn.2.2 (.inr rfl) (some endLabel)

theorem lays_generateHandlerCodes : ∀ excepts : ExceptArm, excepts.Narrow →
    ∀ {H : List Nat} {T : List Fixup} {q : Prop},
    Triple (Sound .start H T q) (generateHandlerCodes excepts)
      fun labels s => labels.length = excepts.count ∧ Sound .start (labels ++ H) T q s
  | .nil, _, _, _, _ => .pure fun _ hs => ⟨rfl, hs⟩
  | .cons _ codes _ next, hn, _, _, _ =>
      (lays_generateCodes hn.1).bind fun _ => (lays_emitExtended .pushLabel).bind fun _ =>
        lays_addLabel.bind fun l => (silent_pushStack 1).lays.bind fun _ =>
          (lays_generateHandlerCodes next hn.2.2).knowing fun labels hlabels => .pure fun s hs =>
            ⟨congrArg (· + 1) hlabels, hs.mono new_labels⟩

/-- Each handler defines its label. -/
theorem lays_generateHandlers : ∀ excepts : ExceptArm, excepts.Narrow → ∀ {labels : List Nat},
    labels.length = excepts.count → ∀ (b : Option Nat) {H : List Nat} {T : List Fixup} {q : Prop},
    Triple (Sound .start (labels ++ (b.toList ++ H)) T q) (generateHandlers excepts labels b)
      fun b' => Sound .start (b'.toList ++ H) T q
  | .nil, _, [], _, _, _, _, _ => .pure fun _ hs => hs
  | .cons id _ stmts next, hn, l :: labels, hlen, b, H, _, _ =>
      lays_define.bind fun _ => (silent_pushStack 1).lays.bind fun _ => (lays_putId id).bind fun _ =>
        (lays_emitOp .pop).bind fun _ => (silent_popStack 1).lays.bind fun _ =>
          (lays_generateStmts stmts hn.2.1).bind fun _ =>
            (lays_labels swap_lists (lays_jumpToEnd next b)).bind fun b' =>
              lays_labels swap_lists (lays_generateHandlers next hn.2.2 (Nat.succ.inj hlen) b')

end

/-! ## Vectors -/

/-- The items of a vector are instructions, of which the last one is `OP_DONE`, and its labels
    are settled before it. -/
theorem vector_sound {stmts : StmtList} (h : stmts.Narrow) {gstate : GState} {u : Unit}
    {st : GenState} (hrun : (do generateStmts stmts; emitOp .done : Gen Unit) (initState gstate) =
      some (u, st)) : Sound .start [] [] False st ∧ ∃ items,
    st.items = items ++ [.byte Opcode.done.byte] ∧ phaseOf items = some .start ∧
    ∀ f ∈ st.fixups, f.kind = .label → f.Settled items := by
  have hinit : Sound .start [] [] False (initState gstate) := by
    have htidy : (initState gstate).Tidy := ⟨.nil, nofun, fun kind _ => by cases kind <;> rfl, rfl, nofun⟩
    exact ⟨htidy, rfl, nofun, nofun, nofun, nofun, fun h => absurd rfl h, fun _ => rfl⟩
  obtain ⟨_, s, hbody, hdone⟩ := bind_eq_some hrun
  have hs := lays_generateStmts stmts h _ _ s hinit hbody
  have hlast : Triple (Sound .start [] [] False) (emitOp .done) fun _ => Sound .start [] [] False :=
    lays_emitOp .done
  have hst := hlast s u st hs hdone
  have hloops : s.loops = [] := by
    have hsafe := ((does_generateStmts stmts _ _ s hbody hinit.tidy (H := [])).safe (fun _ => False)
      nofun nofun).1
    exact List.length_eq_zero_iff.mp hsafe.count
  have hitems : st.items = s.items ++ [.byte Opcode.done.byte] := by
    cases hdone
    exact items_byte hs.tidy rfl rfl
  have hfixups : st.fixups = s.fixups := by
    cases hdone
    rfl
  refine ⟨hst, s.items, hitems, hs.phase, fun f hf hkind => ?_⟩
  obtain ⟨r, hr⟩ := List.getElem?_of_mem hf
  rcases hs.labels r f (hfixups ▸ hr) hkind with hsettled | ⟨l, hl, -⟩ | ⟨loop, hloop, -⟩
  · exact hsettled
  · exact absurd hl (List.not_mem_nil)
  · rw [hloops] at hloop
    exact absurd hloop List.not_mem_nil

end Waverous
