import Waverous.CodeGen
import Waverous.AstValid
import Waverous.Lib.Moves

/-! # The code generator does not panic

    Of the generator's state only the depth of the stack, the saved depth and the loops matter for
    the panics.  A valid expression leaves the stack one cell deeper than before and everything
    else as it was; a valid statement leaves all as it was. -/

namespace Waverous

open Views

/-- What the panics depend on. -/
structure StackView where
  cur : Int
  saved : Int
  loops : List Int

/-- The view of a state. -/
def GenState.view (st : GenState) : StackView := ⟨st.curStack, st.savedStack, st.loops.map Loop.id⟩

/-- A function of the generator takes the view from `v` to `v'`. -/
abbrev Emits {α : Type} (v : StackView) (m : Gen α) (v' : StackView) : Prop :=
  Goes GenState.view v m v'

section

variable {v : StackView} {c d s : Int} {l : List Int}

/-! ## What does not touch the view -/

theorem emitByte_emits (b : UInt8) : Emits v (emitByte b) v := goes_modify fun _ hs => hs

theorem emitOp_emits (op : Opcode) : Emits v (emitOp op) v := emitByte_emits _

theorem emitExtended_emits (op : ExtendedOpcode) : Emits v (emitExtended op) v :=
  (emitOp_emits _).seq fun _ => emitByte_emits _

theorem addKnownFixup_emits (f : Fixup) : Emits v (addKnownFixup f) v := by
  refine moves_get.bind fun st hst => ?_
  have hset : Emits v (set { st with fixups := st.fixups ++ [{ f with pc := st.bytes.length }] }) v :=
    goes_set hst
  refine hset.seq fun _ => ?_
  exact (emitByte_emits 0).seq fun _ => Moves.pure trivial

theorem addLinkedFixup_emits (kind : FixupKind) (value : Nat) (next : Option Nat) :
    Emits v (addLinkedFixup kind value next) v :=
  moves_get.seq fun _ => addKnownFixup_emits _

theorem addFixup_emits (kind : FixupKind) (value : Nat) : Emits v (addFixup kind value) v :=
  addLinkedFixup_emits _ _ _

theorem addLiteral_emits (v' : Var) : Emits v (addLiteral v') v := by
  refine moves_get.seq fun st => Moves.seq (goes_modify fun _ hs => hs) fun _ => ?_
  exact (addFixup_emits _ _).seq fun _ => goes_modify fun _ hs => hs

theorem addFork_emits (b : Bytecodes) : Emits v (addFork b) v := by
  refine moves_get.seq fun st => Moves.seq (goes_modify fun _ hs => hs) fun _ => ?_
  exact (addFixup_emits _ _).seq fun _ => goes_modify fun _ hs => hs

theorem addVarRef_emits (slot : Nat) : Emits v (addVarRef slot) v :=
  (addFixup_emits _ _).seq fun _ => goes_modify fun _ hs => hs

theorem countLabel_emits : Emits v countLabel v := goes_modify fun _ hs => hs

theorem addLinkedLabel_emits (next : Option Nat) : Emits v (addLinkedLabel next) v :=
  (addLinkedFixup_emits _ _ _).seq fun _ => countLabel_emits.seq fun _ => Moves.pure trivial

theorem addLabel_emits : Emits v addLabel v := addLinkedLabel_emits _

theorem addPseudoLabel_emits (value : Nat) : Emits v (addPseudoLabel value) v :=
  (addKnownFixup_emits _).seq fun _ => countLabel_emits

theorem addKnownLabel_emits (f : Fixup) : Emits v (addKnownLabel f) v :=
  (addKnownFixup_emits _).seq fun _ => countLabel_emits.seq fun _ => Moves.pure trivial

theorem captureLabel_emits : Emits v captureLabel v := moves_get.seq fun _ => Moves.pure trivial

theorem defineLabel_emits (label : Option Nat) : Emits v (defineLabel label) v :=
  goes_modify fun _ hs => hs

theorem addStackRef_emits (index : Int) : Emits v (addStackRef index) v :=
  (addFixup_emits _ _).seq fun _ => Moves.pure trivial

theorem emitVarOp_emits (op : Opcode) (slot : Nat) : Emits v (emitVarOp op slot) v :=
  Moves.ite (fun _ => (emitByte_emits _).seq fun _ => addVarRef_emits _) fun _ => emitByte_emits _

theorem BinaryKind.emit_emits (kind : BinaryKind) : Emits v kind.emit v := by
  cases kind
  case exp => exact emitExtended_emits _
  all_goals exact emitOp_emits _

theorem emitArg_emits (first : Bool) (kind : ArgKind) : Emits v (emitArg first kind) v := by
  cases kind with
  | normal => exact emitOp_emits _
  | splice => exact emitOp_emits _

theorem whenId_emits (id : Int) {emit : Nat → Gen Unit} (h : ∀ slot, Emits v (emit slot) v) :
    Emits v (whenId id emit) v :=
  Moves.ite (fun _ => h _) fun _ => Moves.pure trivial

theorem emitTargets_emits : ∀ sc : Scatter, Emits v (emitTargets sc) v
  | .nil => Moves.pure trivial
  | .cons .optional _ (some _) next =>
      (addVarRef_emits _).seq fun _ => addLabel_emits.seq fun _ =>
        (emitTargets_emits next).seq fun _ => Moves.pure trivial
  | .cons .optional _ none next =>
      (addVarRef_emits _).seq fun _ => (addPseudoLabel_emits 1).seq fun _ => emitTargets_emits next
  | .cons .required _ _ next | .cons .rest _ _ next =>
      (addVarRef_emits _).seq fun _ => (addPseudoLabel_emits 0).seq fun _ => emitTargets_emits next

theorem emitScatter_emits (sc : Scatter) : Emits v (emitScatter sc) v :=
  (emitExtended_emits _).seq fun _ => (emitByte_emits _).seq fun _ => (emitByte_emits _).seq fun _ =>
    (emitByte_emits _).seq fun _ => emitTargets_emits sc

/-! ## The stack -/

theorem pushStack_emits (n : Nat) (h : d = c + n) : Emits ⟨c, s, l⟩ (pushStack n) ⟨d, s, l⟩ := by
  refine goes_modify fun st hst => ?_
  obtain ⟨rfl, rfl, rfl⟩ := StackView.mk.inj hst
  rw [h]
  rfl

theorem popStack_emits (n : Nat) (h : c = d + n) : Emits ⟨c, s, l⟩ (popStack n) ⟨d, s, l⟩ := by
  refine goes_modify fun st hst => ?_
  obtain ⟨hc, rfl, rfl⟩ := StackView.mk.inj hst
  have hd : st.curStack - n = d := by omega
  rw [← hd]
  rfl

/-- What is saved is the depth below the top, and what had been saved is returned. -/
theorem saveStackTop_moves :
    Moves GenState.view ⟨c, s, l⟩ saveStackTop (fun old => old = s) ⟨c, c - 1, l⟩ := by
  refine moves_get.bind fun st hst => ?_
  obtain ⟨rfl, rfl, rfl⟩ := StackView.mk.inj hst
  exact Moves.seq (goes_set rfl) fun _ => Moves.pure rfl

theorem restoreStackTop_emits (old : Int) :
    Emits ⟨c, s, l⟩ (restoreStackTop old) ⟨c, old, l⟩ := by
  refine goes_modify fun st hst => ?_
  obtain ⟨rfl, rfl, rfl⟩ := StackView.mk.inj hst
  rfl

theorem generateVar_emits (v' : Var) : Emits ⟨c, s, l⟩ (generateVar v') ⟨c + 1, s, l⟩ := by
  have himm : ∀ v'' : Var, Emits ⟨c, s, l⟩ (do emitOp .imm; addLiteral v'') ⟨c, s, l⟩ :=
    fun v'' => (emitOp_emits _).seq fun _ => addLiteral_emits v''
  have hvar : Emits ⟨c, s, l⟩ (generateVar.emitVar v') ⟨c, s, l⟩ := by
    cases v' with
    | int num => exact Moves.ite (fun _ => emitByte_emits _) fun _ => himm _
    | _ => exact himm _
  exact hvar.seq fun _ => pushStack_emits 1 rfl

theorem generateLength_emits (hs : s ≠ -1) : Emits ⟨c, s, l⟩ generateLength ⟨c + 1, s, l⟩ := by
  have hsaved : Moves GenState.view ⟨c, s, l⟩ savedStackTop (fun saved => saved = s) ⟨c, s, l⟩ :=
    moves_get.bind fun st hst => Moves.pure (StackView.mk.inj hst).2.1
  refine hsaved.bind fun saved heq => Moves.ite (fun h => absurd (heq ▸ h) hs) fun _ => ?_
  exact (emitExtended_emits _).seq fun _ => (addStackRef_emits _).seq fun _ => pushStack_emits 1 rfl

/-! ## Expressions -/

/-- How much deeper the stack is for a target: what `put_lvalue` takes from it. -/
def Expr.cells : Expr → Int
  | .range base _ _ => base.cells + 3
  | .index lhs _ => lhs.cells + 2
  | .prop _ _ => 2
  | _ => 0

theorem putLvalue_target {dollar : Bool} : ∀ {e : Expr}, e.Target dollar → ∀ {c},
    Emits ⟨c + e.cells, s, l⟩ (putLvalue e) ⟨c, s, l⟩
  | .id _, .id, c => (emitVarOp_emits _ _).to (by simp [Expr.cells])
  | .prop _ _, .prop _ _, c => (emitOp_emits _).seq fun _ => popStack_emits 2 rfl
  | .index lhs _, .index hlhs _, c => by
      refine (emitOp_emits _).seq fun _ => Moves.seq (popStack_emits (d := c + lhs.cells) 2 ?_)
        fun _ => putLvalue_target hlhs
      show c + (lhs.cells + 2) = c + lhs.cells + 2
      omega

theorem whenIndexed_emits (e : Expr) {emit : Gen Unit} (h : Emits v emit v) :
    Emits v (whenIndexed e emit) v := by
  cases e
  case range => exact h
  case index => exact h
  all_goals exact Moves.pure trivial

/-- An assignment to anything but a pattern. -/
theorem asgn_emits {e rhs : Expr} (hne : ∀ sc, e ≠ .scatter sc)
    (hpush : Emits ⟨c, s, l⟩ (pushLvalue e false) ⟨c + e.cells, s, l⟩)
    (hrhs : Emits ⟨c + e.cells, s, l⟩ (generateExpr rhs) ⟨c + e.cells + 1, s, l⟩)
    (hput : Emits ⟨c + 1 + e.cells, s, l⟩ (putLvalue e) ⟨c + 1, s, l⟩) :
    Emits ⟨c, s, l⟩ (generateExpr (.asgn e rhs)) ⟨c + 1, s, l⟩ := by
  have heq : generateExpr (.asgn e rhs) = (do
      pushLvalue e false
      generateExpr rhs
      whenIndexed e (emitOp .putTemp)
      putLvalue e
      whenIndexed e (do emitOp .pop; emitOp .pushTemp)) := by
    cases e
    case scatter sc => exact absurd rfl (hne sc)
    all_goals rfl
  have hcells : c + e.cells + 1 = c + 1 + e.cells := by omega
  rw [heq]
  refine hpush.seq fun _ => hrhs.seq fun _ => (whenIndexed_emits e (emitOp_emits _)).seq fun _ => ?_
  rw [hcells]
  exact hput.seq fun _ =>
    whenIndexed_emits e ((emitOp_emits _).seq fun _ => emitOp_emits _)

/-- A `try` in an expression, up to its handler. -/
theorem catch_emits {e : Expr} {codes : ArgList} {except : Option Expr}
    (hcodes : Emits ⟨c, s, l⟩ (emitCodes codes (generateArgList codes true)) ⟨c + 1, s, l⟩)
    (he : Emits ⟨c + 1 + 1 + 1, s, l⟩ (generateExpr e) ⟨c + 1 + 1 + 1 + 1, s, l⟩)
    (hexcept : Emits ⟨c + 1, s, l⟩ (generateExcept except) ⟨c + 1, s, l⟩) :
    Emits ⟨c, s, l⟩ (generateExpr (.catch e codes except)) ⟨c + 1, s, l⟩ :=
  hcodes.seq fun _ => (emitExtended_emits _).seq fun _ => addLabel_emits.seq fun _ =>
    (pushStack_emits 1 rfl).seq fun _ => (emitExtended_emits _).seq fun _ =>
      (pushStack_emits 1 rfl).seq fun _ => he.seq fun _ => (emitExtended_emits _).seq fun _ =>
        addLabel_emits.seq fun _ => (popStack_emits (d := c + 1) 3 (by omega)).seq fun _ =>
          (defineLabel_emits _).seq fun _ => hexcept.seq fun _ => defineLabel_emits _

theorem emitCodes_emits {codes : ArgList}
    (h : Emits ⟨c, s, l⟩ (generateArgList codes true) ⟨c + 1, s, l⟩) :
    Emits ⟨c, s, l⟩ (emitCodes codes (generateArgList codes true)) ⟨c + 1, s, l⟩ := by
  cases codes with
  | nil => exact (emitByte_emits _).seq fun _ => pushStack_emits 1 rfl
  | cons => exact h

/-- A target that is not a default. -/
theorem generateDefaults_target (kind : ScatterKind) (i : Nat) (next : Scatter) (labels : List Nat) :
    generateDefaults (.cons kind i none next) labels = generateDefaults next labels := by
  cases kind <;> rfl

theorem Expr.Target.cells_nonneg {dollar : Bool} : ∀ {e : Expr}, e.Target dollar → 0 ≤ e.cells
  | .id _, .id => Int.le_refl 0
  | .prop _ _, .prop _ _ => Int.natCast_nonneg 2
  | .index lhs _, .index hlhs _ => by
      have := hlhs.cells_nonneg
      show 0 ≤ lhs.cells + 2
      omega

theorem Expr.Target.ne_scatter {dollar : Bool} {e : Expr} (h : e.Target dollar) (sc : Scatter) :
    e ≠ .scatter sc := by
  rintro rfl
  cases h

mutual

/-- A valid expression leaves its value on the stack. -/
theorem Expr.Valid.emits {dollar : Bool} : ∀ {e : Expr}, e.Valid dollar → ∀ {c s : Int} {l : List Int},
    0 ≤ c → (dollar = true → s ≠ -1) → Emits ⟨c, s, l⟩ (generateExpr e) ⟨c + 1, s, l⟩
  | _, .var, _, _, _, _, _ => generateVar_emits _
  | _, .id, _, _, _, _, _ => (emitVarOp_emits _ _).seq fun _ => pushStack_emits 1 rfl
  | _, .length, _, _, _, _, hs => generateLength_emits (hs rfl)
  | _, .prop hlhs hrhs, c, s, l, hc, hs =>
      (hlhs.emits hc hs).seq fun _ => (hrhs.emits (by omega) hs).seq fun _ =>
        (emitOp_emits _).seq fun _ => popStack_emits 1 rfl
  | _, .verb hobj hverb hargs, c, s, l, hc, hs =>
      (hobj.emits hc hs).seq fun _ => (hverb.emits (by omega) hs).seq fun _ =>
        (hargs.emits true (by omega) hs).seq fun _ => (emitOp_emits _).seq fun _ =>
          popStack_emits 2 (by rw [if_pos rfl]; omega)
  | _, .index hlhs hrhs, c, s, l, hc, hs =>
      (hlhs.emits hc hs).seq fun _ => saveStackTop_moves.bind fun old hold =>
        (hrhs.emits (by omega) fun _ => by omega).seq fun _ => (restoreStackTop_emits old).seq fun _ =>
          (emitOp_emits _).seq fun _ => hold ▸ popStack_emits 1 rfl
  | _, .range hbase hfrom hto, c, s, l, hc, hs =>
      (hbase.emits hc hs).seq fun _ => saveStackTop_moves.bind fun old hold =>
        (hfrom.emits (by omega) fun _ => by omega).seq fun _ =>
          (hto.emits (by omega) fun _ => by omega).seq fun _ => (restoreStackTop_emits old).seq fun _ =>
            (emitOp_emits _).seq fun _ => hold ▸ popStack_emits 2 (by omega)
  | _, .call hargs, c, s, l, hc, hs =>
      (hargs.emits true hc hs).seq fun _ => (emitOp_emits _).seq fun _ => emitByte_emits _
  | _, .binary hlhs hrhs, c, s, l, hc, hs =>
      (hlhs.emits hc hs).seq fun _ => (hrhs.emits (by omega) hs).seq fun _ =>
        (BinaryKind.emit_emits _).seq fun _ => popStack_emits 1 rfl
  | _, .negate he, c, s, l, hc, hs => (he.emits hc hs).seq fun _ => emitOp_emits _
  | _, .and hlhs hrhs, c, s, l, hc, hs =>
      (hlhs.emits hc hs).seq fun _ => (emitOp_emits _).seq fun _ => addLabel_emits.seq fun _ =>
        (popStack_emits 1 rfl).seq fun _ => (hrhs.emits hc hs).seq fun _ => defineLabel_emits _
  | _, .or hlhs hrhs, c, s, l, hc, hs =>
      (hlhs.emits hc hs).seq fun _ => (emitOp_emits _).seq fun _ => addLabel_emits.seq fun _ =>
        (popStack_emits 1 rfl).seq fun _ => (hrhs.emits hc hs).seq fun _ => defineLabel_emits _
  | _, .not he, c, s, l, hc, hs => (he.emits hc hs).seq fun _ => emitOp_emits _
  | _, .list hargs, c, s, l, hc, hs => hargs.emits true hc hs
  | _, .cond he he' he'', c, s, l, hc, hs =>
      (he.emits hc hs).seq fun _ => (emitOp_emits _).seq fun _ => addLabel_emits.seq fun _ =>
        (popStack_emits 1 rfl).seq fun _ => (he'.emits hc hs).seq fun _ => (emitOp_emits _).seq fun _ =>
          addLabel_emits.seq fun _ => (popStack_emits 1 rfl).seq fun _ =>
            (defineLabel_emits _).seq fun _ => (he''.emits hc hs).seq fun _ => defineLabel_emits _
  | _, .catch he hcodes, c, s, l, hc, hs =>
      catch_emits (emitCodes_emits (hcodes.emits true hc hs)) (he.emits (by omega) hs)
        ((emitByte_emits _).seq fun _ => emitOp_emits _)
  | _, .catchDefault he hcodes he', c, s, l, hc, hs =>
      catch_emits (emitCodes_emits (hcodes.emits true hc hs)) (he.emits (by omega) hs)
        ((emitOp_emits _).seq fun _ => (popStack_emits 1 rfl).seq fun _ => he'.emits hc hs)
  | _, .asgn hlhs hrhs, c, s, l, hc, hs => by
      have hcells := hlhs.cells_nonneg
      exact asgn_emits hlhs.ne_scatter ((hlhs.emits false hc hs).to (by simp))
        (hrhs.emits (by omega) hs) (putLvalue_target hlhs)
  | .asgn (.range base from' to') rhs, .asgnRange hbase hfrom hto hrhs, c, s, l, hc, hs => by
      have hcells := hbase.cells_nonneg
      have hrange : (Expr.range base from' to').cells = base.cells + 3 := rfl
      refine asgn_emits (fun sc h => by cases h) ?_ (hrhs.emits (by omega) hs) ?_
      · refine (hbase.emits true hc hs).seq fun _ => saveStackTop_moves.bind fun old hold => ?_
        rw [if_pos rfl]
        refine (hfrom.emits (by omega) fun _ => by omega).seq fun _ =>
          (hto.emits (by omega) fun _ => by omega).seq fun _ => ?_
        exact hold ▸ (restoreStackTop_emits old).to (by rw [hrange]; congr 1; omega)
      · refine (emitExtended_emits _).seq fun _ => Moves.seq (popStack_emits (d := c + 1 + base.cells) 3 ?_)
          fun _ => putLvalue_target hbase
        rw [hrange]
        omega
  | _, .asgnScatter hsc hrhs, c, s, l, hc, hs =>
      (hrhs.emits hc hs).seq fun _ => (emitScatter_emits _).seq fun labels => addLabel_emits.seq fun _ =>
        (hsc.emits labels (by omega) hs).seq fun _ => defineLabel_emits _

/-- A target is prepared, and its value too if it is to be indexed. -/
theorem Expr.Target.emits {dollar : Bool} : ∀ {e : Expr}, e.Target dollar → ∀ (above : Bool)
    {c s : Int} {l : List Int}, 0 ≤ c → (dollar = true → s ≠ -1) →
      Emits ⟨c, s, l⟩ (pushLvalue e above) ⟨c + e.cells + if above then 1 else 0, s, l⟩
  | .id i, .id, above, c, s, l, _, _ => by
      cases above with
      | false => exact (Moves.pure trivial : Emits _ (pure ()) _).to (by simp [Expr.cells])
      | true =>
          exact (emitVarOp_emits _ _).seq fun _ => pushStack_emits 1 (by simp [Expr.cells])
  | .prop lhs rhs, .prop hlhs hrhs, above, c, s, l, hc, hs => by
      refine (hlhs.emits hc hs).seq fun _ => (hrhs.emits (by omega) hs).seq fun _ => ?_
      have hcells : (Expr.prop lhs rhs).cells = 2 := rfl
      rw [hcells]
      cases above with
      | false =>
          exact (Moves.pure trivial : Emits _ (pure ()) _).to (by congr 1; simp; omega)
      | true => exact (emitOp_emits _).seq fun _ => pushStack_emits 1 (by simp; omega)
  | .index lhs rhs, .index hlhs hrhs, above, c, s, l, hc, hs => by
      have hnonneg := hlhs.cells_nonneg
      have hcells : (Expr.index lhs rhs).cells = lhs.cells + 2 := rfl
      refine (hlhs.emits true hc hs).seq fun _ => saveStackTop_moves.bind fun old hold => ?_
      rw [if_pos rfl, hcells]
      refine (hrhs.emits (by omega) fun _ => by omega).seq fun _ =>
        (restoreStackTop_emits old).seq fun _ => ?_
      subst hold
      cases above with
      | false => exact (Moves.pure trivial : Emits _ (pure ()) _).to (by congr 1; simp; omega)
      | true => exact (emitOp_emits _).seq fun _ => pushStack_emits 1 (by simp; omega)

/-- Arguments leave one list, which is there after the first of them. -/
theorem ArgList.Valid.emits {dollar : Bool} : ∀ {args : ArgList}, args.Valid dollar →
    ∀ (first : Bool) {c s : Int} {l : List Int}, 0 ≤ c → (dollar = true → s ≠ -1) →
      Emits ⟨c, s, l⟩ (generateArgList args first) ⟨c + if first then 1 else 0, s, l⟩
  | .nil, .nil, first, c, s, l, _, _ => by
      cases first with
      | false => exact (Moves.pure trivial : Emits _ (pure ()) _).to (by simp)
      | true => exact (emitOp_emits _).seq fun _ => pushStack_emits 1 (by simp)
  | .cons kind e next, .cons he hnext, first, c, s, l, hc, hs => by
      refine (he.emits hc hs).seq fun _ => (emitArg_emits first kind).seq fun _ => ?_
      cases first with
      | false =>
          exact (popStack_emits (d := c) 1 (by simp)).seq fun _ => hnext.emits false hc hs
      | true =>
          refine Moves.seq (popStack_emits (d := c + 1) 0 (by simp)) fun _ => ?_
          exact (hnext.emits false (by omega) hs).to (by simp)

/-- The defaults of a pattern leave the stack as it is. -/
theorem Scatter.Valid.emits {dollar : Bool} : ∀ {sc : Scatter}, sc.Valid dollar →
    ∀ (labels : List Nat) {c s : Int} {l : List Int}, 0 ≤ c → (dollar = true → s ≠ -1) →
      Emits ⟨c, s, l⟩ (generateDefaults sc labels) ⟨c, s, l⟩
  | .nil, .nil, _, _, _, _, _, _ => Moves.pure trivial
  | .cons kind i none next, .target hnext, labels, c, s, l, hc, hs => by
      rw [generateDefaults_target]
      exact hnext.emits labels hc hs
  | .cons kind i (some e) next, .default he hnext, labels, c, s, l, hc, hs => by
      cases kind with
      | optional =>
          exact (defineLabel_emits _).seq fun _ => (he.emits hc hs).seq fun _ =>
            (emitVarOp_emits _ _).seq fun _ => (emitOp_emits _).seq fun _ =>
              (popStack_emits 1 rfl).seq fun _ => hnext.emits labels.tail hc hs
      | required => exact hnext.emits labels hc hs
      | rest => exact hnext.emits labels hc hs

end

/-! ## Vectors -/

/-- The size of an operand is one that the vector can be filled with. -/
theorem operandBytes_isSome {size : Nat} (h : size = 1 ∨ size = 2 ∨ size = 4) (value : Nat) :
    ∃ bytes, operandBytes size value = some bytes := by
  rcases h with rfl | rfl | rfl
  · exact ⟨_, rfl⟩
  · exact ⟨_, rfl⟩
  · exact ⟨_, rfl⟩

theorem refSize_cases (n : Nat) : refSize n = 1 ∨ refSize n = 2 ∨ refSize n = 4 := by
  unfold refSize
  split
  · exact .inl rfl
  · split
    · exact .inr (.inl rfl)
    · exact .inr (.inr rfl)

theorem labelSize_cases (size numLabels : Nat) :
    labelSize size numLabels = 1 ∨ labelSize size numLabels = 2 ∨ labelSize size numLabels = 4 := by
  unfold labelSize
  split
  · exact .inl rfl
  · split
    · exact .inr (.inl rfl)
    · exact .inr (.inr rfl)

theorem vectorSizes_operandSize (st : GenState) (kind : FixupKind) :
    (vectorSizes st).operandSize kind = 1 ∨ (vectorSizes st).operandSize kind = 2 ∨
      (vectorSizes st).operandSize kind = 4 := by
  cases kind with
  | label => exact labelSize_cases _ _
  | _ => exact refSize_cases _

/-- The loop that fills the vector ends, for any fixups. -/
theorem relocate_isSome {bc : Bytecodes}
    (h : ∀ kind, bc.operandSize kind = 1 ∨ bc.operandSize kind = 2 ∨ bc.operandSize kind = 4)
    (bytes : List UInt8) :
    ∀ (oldI : Nat) (fixups : List Fixup), ∃ vector, relocate bc oldI bytes fixups = some vector := by
  induction bytes with
  | nil => exact fun oldI fixups => ⟨[], by unfold relocate; rfl⟩
  | cons b bytes ih =>
      intro oldI fixups
      cases fixups with
      | nil =>
          obtain ⟨vector, hvector⟩ := ih (oldI + 1) []
          exact ⟨b :: vector, by unfold relocate; rw [hvector]; rfl⟩
      | cons fixup fixups =>
          unfold relocate
          by_cases hpc : fixup.pc = oldI
          · obtain ⟨operand, hoperand⟩ := operandBytes_isSome (h fixup.kind) (bc.operandValue fixup)
            obtain ⟨vector, hvector⟩ := ih (oldI + 1) fixups
            exact ⟨operand ++ vector, by rw [if_pos hpc, hoperand, hvector]; rfl⟩
          · obtain ⟨vector, hvector⟩ := ih (oldI + 1) (fixup :: fixups)
            exact ⟨b :: vector, by rw [if_neg hpc, hvector]; rfl⟩

/-- A body that leaves the stack as it is makes a vector. -/
theorem emitVector_isSome {body : Gen Unit} (h : Emits ⟨0, -1, []⟩ body ⟨0, -1, []⟩)
    (gstate : GState) : ∃ r, emitVector body gstate = some r := by
  have hdone : Emits ⟨0, -1, []⟩ (do body; emitOp .done : Gen Unit) ⟨0, -1, []⟩ :=
    h.seq fun _ => emitOp_emits _
  obtain ⟨u, st, hrun, -, hview⟩ := hdone.run (s := initState gstate) rfl
  obtain ⟨hcur, hsaved, -⟩ := StackView.mk.inj hview
  obtain ⟨vector, hvector⟩ := relocate_isSome (vectorSizes_operandSize st) st.bytes 0 st.fixups
  have hfinish : finishVector st = some { vectorSizes st with vector := vector } := by
    unfold finishVector
    rw [if_neg (fun hne => hne hcur), if_neg (fun hne => hne hsaved)]
    show (relocate (vectorSizes st) 0 st.bytes st.fixups).bind _ = _
    rw [hvector]
    rfl
  refine ⟨({ vectorSizes st with vector := vector }, st.gstate), ?_⟩
  unfold emitVector
  rw [hrun]
  show (finishVector st).bind _ = _
  rw [hfinish]
  rfl

theorem forkVector_emits {body : Gen Unit} (h : Emits ⟨0, -1, []⟩ body ⟨0, -1, []⟩) :
    Emits v (forkVector body) v := by
  intro st hst
  obtain ⟨⟨bc, gstate⟩, hvector⟩ := emitVector_isSome h st.gstate
  refine ⟨bc, { st with gstate := gstate }, ?_, trivial, hst⟩
  unfold forkVector
  rw [hvector]
  rfl

/-! ## Loops -/

theorem curStackNow_emits : Emits v curStackNow v := moves_get.seq fun _ => Moves.pure trivial

theorem enterLoop_emits (id : Int) (topLabel : Fixup) (topStack : Int) (bottomLabel : Option Nat)
    (bottomStack : Int) :
    Emits ⟨c, s, l⟩ (enterLoop id topLabel topStack bottomLabel bottomStack) ⟨c, s, id :: l⟩ := by
  refine goes_modify fun st hst => ?_
  obtain ⟨rfl, rfl, rfl⟩ := StackView.mk.inj hst
  rfl

theorem exitLoop_emits {id : Int} : Emits ⟨c, s, id :: l⟩ exitLoop ⟨c, s, l⟩ := by
  intro st hst
  obtain ⟨rfl, rfl, hloops⟩ := StackView.mk.inj hst
  cases hl : st.loops with
  | nil => rw [hl] at hloops; cases hloops
  | cons loop loops =>
      rw [hl] at hloops
      refine ⟨loop.bottomLabel, { st with loops := loops }, ?_, trivial, ?_⟩
      · unfold exitLoop
        rw [hl]
      · rw [← (List.cons.inj hloops).2]
        rfl

theorem emitWhile_emits (id : Int) : Emits v (emitWhile id) v :=
  Moves.ite (fun _ => emitOp_emits _) fun _ =>
    (emitExtended_emits _).seq fun _ => addVarRef_emits _

theorem emitExit_emits (exit : Int) : Emits v (emitExit exit) v :=
  Moves.ite (fun _ => emitExtended_emits _) fun _ =>
    (emitExtended_emits _).seq fun _ => addVarRef_emits _

/-- The loop of a valid exit is found. -/
theorem exitedLoop_isSome {exit : Int} {loops : List Loop} (h : ExitValid (loops.map Loop.id) exit) :
    ∃ i loop, exitedLoop exit loops = some i ∧ loops[i]? = some loop := by
  unfold ExitValid at h
  unfold exitedLoop
  by_cases hexit : exit = -1
  · rw [if_pos hexit] at h ⊢
    cases loops with
    | nil => exact absurd rfl h
    | cons loop loops => exact ⟨0, loop, rfl, rfl⟩
  · rw [if_neg hexit] at h ⊢
    obtain ⟨loop, hmem, hid⟩ := List.mem_map.mp h
    have hsome : (loops.findIdx? fun loop => loop.id = exit).isSome = true := by
      rw [List.findIdx?_isSome, List.any_eq_true]
      exact ⟨loop, hmem, by simpa using hid⟩
    obtain ⟨i, hi⟩ := Option.isSome_iff_exists.mp hsome
    obtain ⟨hlt, -⟩ := List.findIdx?_eq_some_iff_getElem.mp hi
    exact ⟨i, loops[i], hi, List.getElem?_eq_getElem hlt⟩

theorem findExit_emits {exit : Int} (h : ExitValid l exit) :
    Emits ⟨c, s, l⟩ (findExit exit) ⟨c, s, l⟩ := by
  refine (emitExit_emits exit).seq fun _ => moves_get.bind fun st hst => ?_
  obtain ⟨rfl, rfl, rfl⟩ := StackView.mk.inj hst
  obtain ⟨i, loop, hi, hloop⟩ := exitedLoop_isSome h
  simp only [hi, hloop]
  exact Moves.pure trivial

/-- Only the label of a loop is changed. -/
theorem setBottomLabel_emits (i : Nat) (label : Nat) :
    Emits v (modify fun st : GenState =>
      { st with loops := st.loops.modify i fun loop => { loop with bottomLabel := some label } }) v := by
  refine goes_modify fun st hst => ?_
  rw [← hst]
  show StackView.mk _ _ _ = StackView.mk _ _ _
  congr 1
  apply List.ext_getElem?
  intro j
  simp only [List.getElem?_map, List.getElem?_modify]
  cases st.loops[j]? with
  | none => rfl
  | some loop =>
      show some (ite _ _ _ : Loop).id = _
      split
      · rfl
      · rfl

theorem jumpToEnd_emits (next : ExceptArm) (endLabel : Option Nat) :
    Emits v (jumpToEnd next endLabel) v := by
  cases next with
  | nil => exact Moves.pure trivial
  | cons => exact (emitOp_emits _).seq fun _ => (addLinkedLabel_emits _).seq fun _ => Moves.pure trivial

/-! ## Statements -/

/-- The number of handlers. -/
def ExceptArm.count : ExceptArm → Nat
  | .nil => 0
  | .cons _ _ _ next => next.count + 1

theorem generateCodes_emits {codes : ArgList} (h : codes.Valid false) (hc : 0 ≤ c) :
    Emits ⟨c, s, l⟩ (generateCodes codes) ⟨c + 1, s, l⟩ :=
  emitCodes_emits (h.emits true hc (fun h => by cases h))

/-- The codes of a handler and its label are two cells. -/
theorem generateHandlerCodes_moves : ∀ {excepts : ExceptArm}, excepts.Valid l → ∀ {c : Int}, 0 ≤ c →
    Moves GenState.view ⟨c, s, l⟩ (generateHandlerCodes excepts)
      (fun labels => labels.length = excepts.count) ⟨c + 2 * excepts.count, s, l⟩
  | .nil, .nil, c, _ => by
      have hcells : c = c + 2 * (ExceptArm.nil.count : Nat) := by
        rw [show ExceptArm.nil.count = 0 from rfl]
        omega
      have hnil : Moves GenState.view ⟨c, s, l⟩ (generateHandlerCodes .nil)
          (fun labels => labels.length = ExceptArm.nil.count) ⟨c, s, l⟩ :=
        fun st hst => ⟨[], st, rfl, rfl, hst⟩
      exact hnil.to (by congr 1)
  | .cons id codes stmt next, .cons hcodes hstmt hnext, c, hc => by
      refine (generateCodes_emits hcodes hc).seq fun _ => (emitExtended_emits _).seq fun _ =>
        addLabel_emits.seq fun label => (pushStack_emits 1 rfl).seq fun _ => ?_
      refine (generateHandlerCodes_moves hnext (c := c + 1 + 1) (by omega)).bind fun labels hlabels => ?_
      refine Moves.to (Moves.pure (by rw [List.length_cons, hlabels]; rfl)) ?_
      have hcount : (ExceptArm.cons id codes stmt next).count = next.count + 1 := rfl
      congr 1
      omega

mutual

/-- A valid statement leaves the stack and the loops as they are. -/
theorem Stmt.Valid.emits : ∀ {stmt : Stmt} {l : List Int}, stmt.Valid l → ∀ {c s : Int}, 0 ≤ c →
    Emits ⟨c, s, l⟩ (generateStmt stmt) ⟨c, s, l⟩
  | _, _, .cond harms hother, c, s, hc =>
      (harms.emits _ _ hc).seq fun _ => (hother.emits hc).seq fun _ => defineLabel_emits _
  | _, _, .list he hbody, c, s, hc =>
      (he.emits hc nofun).seq fun _ => (emitByte_emits _).seq fun _ => (pushStack_emits 1 rfl).seq fun _ =>
        captureLabel_emits.seq fun _ => (emitOp_emits _).seq fun _ => (addVarRef_emits _).seq fun _ =>
          addLabel_emits.seq fun _ => curStackNow_emits.seq fun _ => (enterLoop_emits _ _ _ _ _).seq fun _ =>
            (hbody.emits (by omega)).seq fun _ => exitLoop_emits.seq fun _ => (emitOp_emits _).seq fun _ =>
              (addKnownLabel_emits _).seq fun _ => (defineLabel_emits _).seq fun _ =>
                popStack_emits 2 (by omega)
  | _, _, .range hfrom hto hbody, c, s, hc =>
      (hfrom.emits hc nofun).seq fun _ => (hto.emits (by omega) nofun).seq fun _ =>
        captureLabel_emits.seq fun _ => (emitOp_emits _).seq fun _ => (addVarRef_emits _).seq fun _ =>
          addLabel_emits.seq fun _ => curStackNow_emits.seq fun _ => (enterLoop_emits _ _ _ _ _).seq fun _ =>
            (hbody.emits (by omega)).seq fun _ => exitLoop_emits.seq fun _ => (emitOp_emits _).seq fun _ =>
              (addKnownLabel_emits _).seq fun _ => (defineLabel_emits _).seq fun _ =>
                popStack_emits 2 (by omega)
  | _, _, .while he hbody, c, s, hc =>
      captureLabel_emits.seq fun _ => (he.emits hc nofun).seq fun _ => (emitWhile_emits _).seq fun _ =>
        addLabel_emits.seq fun _ => (popStack_emits 1 rfl).seq fun _ => curStackNow_emits.seq fun _ =>
          (enterLoop_emits _ _ _ _ _).seq fun _ => (hbody.emits hc).seq fun _ => exitLoop_emits.seq fun _ =>
            (emitOp_emits _).seq fun _ => (addKnownLabel_emits _).seq fun _ => defineLabel_emits _
  | _, _, .fork he hbody, c, s, hc =>
      (he.emits hc nofun).seq fun _ => (emitOp_emits _).seq fun _ =>
        (forkVector_emits (hbody.emits (Int.le_refl 0))).seq fun _ => (addFork_emits _).seq fun _ =>
          (whenId_emits _ addVarRef_emits).seq fun _ => popStack_emits 1 rfl
  | _, _, .expr he, c, s, hc =>
      (he.emits hc nofun).seq fun _ => (emitOp_emits _).seq fun _ => popStack_emits 1 rfl
  | _, _, .return he, c, s, hc =>
      (he.emits hc nofun).seq fun _ => (emitOp_emits _).seq fun _ => popStack_emits 1 rfl
  | _, _, .return0, _, _, _ => emitOp_emits _
  | .tryExcept body excepts, _, .tryExcept hbody hexcepts, c, s, hc =>
      (generateHandlerCodes_moves hexcepts hc).bind fun labels hlabels =>
        (emitExtended_emits _).seq fun _ => (emitByte_emits _).seq fun _ =>
          (pushStack_emits 1 rfl).seq fun _ => (hbody.emits (by omega)).seq fun _ =>
            (emitExtended_emits _).seq fun _ => addLabel_emits.seq fun _ =>
              (popStack_emits (d := c) (2 * labels.length + 1) (by rw [hlabels]; omega)).seq fun _ =>
                (hexcepts.emits _ _ hc).seq fun _ => defineLabel_emits _
  | _, _, .tryFinally hbody hhandler, c, s, hc =>
      (emitExtended_emits _).seq fun _ => addLabel_emits.seq fun _ => (pushStack_emits 1 rfl).seq fun _ =>
        (hbody.emits (by omega)).seq fun _ => (emitExtended_emits _).seq fun _ =>
          (popStack_emits 1 rfl).seq fun _ => (defineLabel_emits _).seq fun _ =>
            (pushStack_emits 2 rfl).seq fun _ => (hhandler.emits (by omega)).seq fun _ =>
              (emitExtended_emits _).seq fun _ => popStack_emits 2 rfl
  | _, _, .break hexit, c, s, _ =>
      (findExit_emits hexit).seq fun (i, _) => (addStackRef_emits _).seq fun _ =>
        (addLinkedLabel_emits _).seq fun label => setBottomLabel_emits i label
  | _, _, .continue hexit, c, s, _ =>
      (findExit_emits hexit).seq fun _ => (addStackRef_emits _).seq fun _ =>
        (addKnownLabel_emits _).seq fun _ => Moves.pure trivial

theorem StmtList.Valid.emits : ∀ {stmts : StmtList} {l : List Int}, stmts.Valid l → ∀ {c s : Int},
    0 ≤ c → Emits ⟨c, s, l⟩ (generateStmts stmts) ⟨c, s, l⟩
  | _, _, .nil, _, _, _ => Moves.pure trivial
  | _, _, .cons hstmt hnext, _, _, hc => (hstmt.emits hc).seq fun _ => hnext.emits hc

theorem CondArm.Valid.emits : ∀ {arms : CondArm} {l : List Int}, arms.Valid l →
    ∀ (ifOp : Opcode) (endLabel : Option Nat) {c s : Int}, 0 ≤ c →
      Emits ⟨c, s, l⟩ (generateArms arms ifOp endLabel) ⟨c, s, l⟩
  | _, _, .nil, _, _, _, _, _ => Moves.pure trivial
  | _, _, .cons he hstmt hnext, _, _, _, _, hc =>
      (he.emits hc nofun).seq fun _ => (emitOp_emits _).seq fun _ => addLabel_emits.seq fun _ =>
        (popStack_emits 1 rfl).seq fun _ => (hstmt.emits hc).seq fun _ => (emitOp_emits _).seq fun _ =>
          (addLinkedLabel_emits _).seq fun _ => (defineLabel_emits _).seq fun _ => hnext.emits _ _ hc

theorem ExceptArm.Valid.emits : ∀ {excepts : ExceptArm} {l : List Int}, excepts.Valid l →
    ∀ (labels : List Nat) (endLabel : Option Nat) {c s : Int}, 0 ≤ c →
      Emits ⟨c, s, l⟩ (generateHandlers excepts labels endLabel) ⟨c, s, l⟩
  | _, _, .nil, _, _, _, _, _ => Moves.pure trivial
  | _, _, .cons _ hstmt hnext, _, _, _, _, hc =>
      (defineLabel_emits _).seq fun _ => (pushStack_emits 1 rfl).seq fun _ =>
        (whenId_emits _ (emitVarOp_emits _)).seq fun _ => (emitOp_emits _).seq fun _ =>
          (popStack_emits 1 rfl).seq fun _ => (hstmt.emits hc).seq fun _ =>
            (jumpToEnd_emits _ _).seq fun _ => hnext.emits _ _ hc

end

end

/-- For a valid program the generator does not panic. -/
theorem generateCode_isSome {stmts : StmtList} (h : stmts.Valid []) (version : Nat)
    (varNames : List Str) : ∃ p, generateCode stmts version varNames = some p := by
  obtain ⟨⟨bc, gstate⟩, hvector⟩ := emitVector_isSome (h.emits (Int.le_refl 0)) initGstate
  refine ⟨⟨version, bc, gstate.literals, gstate.forkVectors, varNames⟩, ?_⟩
  show (emitVector (generateStmts stmts) initGstate).bind _ = _
  rw [hvector]
  rfl

end Waverous
