import Waverous.CodeLabels
import Waverous.CodeGenProofs

/-! # How deep the stack becomes — `code_gen.c`

    The greatest depth of the stack of a vector, and the number of its operands that are depths
    of the stack, are known from the tree. -/

namespace Waverous

mutual

/-- The cells of the stack that an expression needs, with the one of its value. -/
def Expr.height : Expr → Int
  | .var _ | .id _ | .length | .scatter _ => 1
  | .and lhs rhs | .or lhs rhs => max lhs.height rhs.height
  | .negate e | .not e => e.height
  | .binary _ lhs rhs | .prop lhs rhs | .index lhs rhs => max lhs.height (rhs.height + 1)
  | .range base «from» «to» => max base.height (max («from».height + 1) («to».height + 2))
  | .list args | .call _ args => args.height true
  | .verb obj verb args => max obj.height (max (verb.height + 1) (args.height true + 2))
  | .cond condition consequent alternate =>
      max condition.height (max consequent.height alternate.height)
  | .asgn (.scatter sc) rhs => max rhs.height (sc.height + 1)
  | .asgn lhs rhs => max (lhs.targetHeight false) (lhs.cells + rhs.height)
  | .catch e codes except =>
      max (codes.height true) (max 3 (max (e.height + 3) (defaultHeight except)))

/-- Those of what is done instead after an error. -/
def defaultHeight : Option Expr → Int
  | some e => e.height
  | none => 1

/-- Those of a target that is prepared, and of its value if it is indexed. -/
def Expr.targetHeight : Expr → Bool → Int
  | .range base «from» «to», _ => max (base.targetHeight true)
      (max (base.cells + 1 + «from».height) (base.cells + 2 + «to».height))
  | .index lhs rhs, above => max (lhs.targetHeight true)
      (max (lhs.cells + 1 + rhs.height) (lhs.cells + 2 + if above then 1 else 0))
  | .prop lhs rhs, above => max lhs.height (max (rhs.height + 1) (2 + if above then 1 else 0))
  | _, above => if above then 1 else 0

/-- Those of arguments, besides the list of those before them. -/
def ArgList.height : ArgList → Bool → Int
  | .nil, first => if first then 1 else 0
  | .cons _ e next, first => max e.height (next.height false + if first then 1 else 0)

/-- Those of the defaults of a pattern. -/
def Scatter.height : Scatter → Int
  | .nil => 0
  | .cons .optional _ (some e) next => max e.height next.height
  | .cons _ _ _ next => next.height

end

mutual

/-- How many operands of an expression are depths of the stack: those of `$`. -/
def Expr.stackRefs : Expr → Nat
  | .length => 1
  | .var _ | .id _ => 0
  | .and lhs rhs | .or lhs rhs | .binary _ lhs rhs | .prop lhs rhs | .index lhs rhs | .asgn lhs rhs =>
      lhs.stackRefs + rhs.stackRefs
  | .negate e | .not e => e.stackRefs
  | .range base «from» «to» => base.stackRefs + «from».stackRefs + «to».stackRefs
  | .list args | .call _ args => args.stackRefs
  | .verb obj verb args => obj.stackRefs + verb.stackRefs + args.stackRefs
  | .cond condition consequent alternate =>
      condition.stackRefs + consequent.stackRefs + alternate.stackRefs
  | .catch e codes except => e.stackRefs + codes.stackRefs + defaultStackRefs except
  | .scatter sc => sc.stackRefs

def defaultStackRefs : Option Expr → Nat
  | some e => e.stackRefs
  | none => 0

def ArgList.stackRefs : ArgList → Nat
  | .nil => 0
  | .cons _ e next => e.stackRefs + next.stackRefs

def Scatter.stackRefs : Scatter → Nat
  | .nil => 0
  | .cons .optional _ (some e) next => e.stackRefs + next.stackRefs
  | .cons _ _ _ next => next.stackRefs

end

/-- The cells that the codes of handlers need, which stay on the stack with a label each. -/
def ExceptArm.codesHeight : ExceptArm → Int
  | .nil => 0
  | .cons _ codes _ next => max (codes.height true) (2 + max 0 next.codesHeight)

/-- The operands among them that are depths of the stack. -/
def ExceptArm.codesStackRefs : ExceptArm → Nat
  | .nil => 0
  | .cons _ codes _ next => codes.stackRefs + next.codesStackRefs

mutual

def Stmt.height : Stmt → Int
  | .cond arms otherwise => max arms.height otherwise.height
  | .list _ e body => max e.height (max 2 (body.height + 2))
  | .range _ «from» «to» body => max «from».height (max («to».height + 1) (body.height + 2))
  | .while _ condition body => max condition.height body.height
  | .fork _ time _ => time.height
  | .expr e => e.height
  | .return (some e) => e.height
  | .return none => 0
  | .tryExcept body excepts =>
      max excepts.codesHeight (max (2 * excepts.count + 1 + max 0 body.height) excepts.height)
  | .tryFinally body handler => max (max 1 (body.height + 1)) (max 2 (handler.height + 2))
  | .break _ | .continue _ => 0

/-- The cells of the stack that the vector of some statements needs. -/
def StmtList.height : StmtList → Int
  | .nil => 0
  | .cons stmt next => max stmt.height next.height

def CondArm.height : CondArm → Int
  | .nil => 0
  | .cons e stmts next => max e.height (max stmts.height next.height)

/-- Those of handlers, without their codes. -/
def ExceptArm.height : ExceptArm → Int
  | .nil => 0
  | .cons _ _ stmts next => max 1 (max stmts.height next.height)

end

mutual

def Stmt.stackRefs : Stmt → Nat
  | .cond arms otherwise => arms.stackRefs + otherwise.stackRefs
  | .list _ e body | .while _ e body => e.stackRefs + body.stackRefs
  | .range _ «from» «to» body => «from».stackRefs + «to».stackRefs + body.stackRefs
  | .fork _ time _ => time.stackRefs
  | .expr e => e.stackRefs
  | .return e => defaultStackRefs e
  | .tryExcept body excepts => excepts.codesStackRefs + body.stackRefs + excepts.stackRefs
  | .tryFinally body handler => body.stackRefs + handler.stackRefs
  | .break _ | .continue _ => 1

/-- How many operands of the vector of some statements are depths of the stack: those of `$`, of
    `break` and of `continue`. -/
def StmtList.stackRefs : StmtList → Nat
  | .nil => 0
  | .cons stmt next => stmt.stackRefs + next.stackRefs

def CondArm.stackRefs : CondArm → Nat
  | .nil => 0
  | .cons e stmts next => e.stackRefs + stmts.stackRefs + next.stackRefs

def ExceptArm.stackRefs : ExceptArm → Nat
  | .nil => 0
  | .cons _ _ stmts next => stmts.stackRefs + next.stackRefs

end

variable {α β : Type} {s s' s'' : GenState} {d d' h h' n n' : Int} {k k' : Nat}

/-! ## What is pushed and popped -/

/-- The operands that are depths of the stack. -/
def GenState.refs (s : GenState) : Nat := countKind s.fixups .stack

/-- The tops of the loops are labels. -/
def GenState.Tops (s : GenState) : Prop := ∀ loop ∈ s.loops, loop.topLabel.kind = .label

/-- There are `k` more operands that are depths of the stack. -/
def MoreRefs (k : Nat) (s s' : GenState) : Prop := s.Tops → s'.Tops ∧ s'.refs = s.refs + k

/-- Cells are popped, and none is pushed. -/
def Pops (n : Int) (m : Gen α) : Prop := ∀ s a s', m s = some (a, s') →
  0 ≤ n ∧ s'.curStack = s.curStack - n ∧ s'.maxStack = s.maxStack ∧ MoreRefs 0 s s'

/-- The stack is `d` cells deeper afterwards, and has been `h` cells deeper; there are `k` more
    operands that are depths of it. -/
def Rises (d h : Int) (k : Nat) (m : Gen α) : Prop := ∀ s a s', m s = some (a, s') →
  s.curStack ≤ s.maxStack → d ≤ h ∧ s'.curStack = s.curStack + d ∧
    s'.maxStack = max s.maxStack (s.curStack + h) ∧ MoreRefs k s s'

/-- The stack is as it was. -/
abbrev Level (m : Gen α) : Prop := Pops 0 m

theorem MoreRefs.trans (hk : MoreRefs k s s') (hk' : MoreRefs k' s' s'') :
    MoreRefs (k + k') s s'' := by
  intro htops
  obtain ⟨htops', hrefs⟩ := hk htops
  obtain ⟨htops'', hrefs'⟩ := hk' htops'
  exact ⟨htops'', by omega⟩

theorem MoreRefs.same (hfixups : s'.fixups = s.fixups) (hloops : s'.loops = s.loops) :
    MoreRefs 0 s s' := by
  intro htops
  rw [GenState.Tops, hloops, GenState.refs, hfixups]
  exact ⟨htops, rfl⟩

section

variable {m : Gen α} {f : α → Gen β}

theorem Rises.to (hm : Rises d h k m) (hd : d = d') (hh : h = h') (hk : k = k') :
    Rises d' h' k' m := by
  subst hd hh hk
  exact hm

theorem Pops.rises (hm : Pops n m) : Rises (-n) 0 0 m := by
  intro s a s' hrun hle
  obtain ⟨hn, hcur, hmax, hrefs⟩ := hm s a s' hrun
  exact ⟨by omega, by omega, by omega, hrefs⟩

theorem Level.rises (hm : Level m) : Rises 0 0 0 m := Pops.rises hm

theorem Pops.seq (hm : Pops n m) (hf : ∀ a, Pops n' (f a)) : Pops (n + n') (m >>= f) := by
  intro s b s'' hrun
  obtain ⟨a, s', hrun, hrun'⟩ := bind_eq_some hrun
  obtain ⟨hn, hcur, hmax, hrefs⟩ := hm s a s' hrun
  obtain ⟨hn', hcur', hmax', hrefs'⟩ := hf a s' b s'' hrun'
  exact ⟨by omega, by omega, hmax'.trans hmax, hrefs.trans hrefs'⟩

theorem Level.seq (hm : Level m) (hf : ∀ a, Pops n' (f a)) : Pops n' (m >>= f) := by
  have hseq := Pops.seq hm hf
  rwa [Int.zero_add] at hseq

/-- What is popped first makes the rest less deep. -/
theorem Pops.then (hm : Pops n m) (hf : ∀ a, Rises d h k (f a)) :
    Rises (d - n) (h - n) k (m >>= f) := by
  intro s b s'' hrun hle
  obtain ⟨a, s', hrun, hrun'⟩ := bind_eq_some hrun
  obtain ⟨hn, hcur, hmax, hrefs⟩ := hm s a s' hrun
  obtain ⟨hd, hcur', hmax', hrefs'⟩ := hf a s' b s'' hrun' (by omega)
  refine ⟨by omega, by omega, ?_, Nat.zero_add k ▸ hrefs.trans hrefs'⟩
  rw [hmax', hmax, hcur]
  congr 1
  omega

theorem Level.then (hm : Level m) (hf : ∀ a, Rises d h k (f a)) : Rises d h k (m >>= f) :=
  (Pops.then hm hf).to (Int.sub_zero d) (Int.sub_zero h) rfl

theorem Rises.seq (hm : Rises d h k m) (hf : ∀ a, Rises d' h' k' (f a)) :
    Rises (d + d') (max h (d + h')) (k + k') (m >>= f) := by
  intro s b s'' hrun hle
  obtain ⟨a, s', hrun, hrun'⟩ := bind_eq_some hrun
  obtain ⟨hd, hcur, hmax, hrefs⟩ := hm s a s' hrun hle
  obtain ⟨hd', hcur', hmax', hrefs'⟩ := hf a s' b s'' hrun' (by omega)
  exact ⟨by omega, by omega, by omega, hrefs.trans hrefs'⟩

theorem Rises.pops (hm : Rises d h k m) (hf : ∀ a, Pops n (f a)) :
    Rises (d - n) h k (m >>= f) := by
  intro s b s'' hrun hle
  obtain ⟨a, s', hrun, hrun'⟩ := bind_eq_some hrun
  obtain ⟨hd, hcur, hmax, hrefs⟩ := hm s a s' hrun hle
  obtain ⟨hn, hcur', hmax', hrefs'⟩ := hf a s' b s'' hrun'
  exact ⟨by omega, by omega, hmax'.trans hmax, hrefs.trans hrefs'⟩

theorem Rises.level (hm : Rises d h k m) (hf : ∀ a, Level (f a)) : Rises d h k (m >>= f) :=
  (hm.pops hf).to (Int.sub_zero d) rfl rfl

theorem Level.ite {c : Prop} [Decidable c] {m m' : Gen α} (hm : Level m) (hm' : Level m') :
    Level (if c then m else m') := by
  split
  · exact hm
  · exact hm'

theorem level_pure (a : α) : Level (pure a : Gen α) := by
  intro s b s' hrun
  cases hrun
  exact ⟨Int.le_refl 0, (Int.sub_zero _).symm, rfl, .same rfl rfl⟩

theorem rises_panic : Rises d h k (panic : Gen α) := fun _ _ _ hrun => nomatch hrun

end

/-! ## Functions that emit -/

theorem level_emitByte (b : UInt8) : Level (emitByte b) := by
  intro s u s' hrun
  cases hrun
  exact ⟨Int.le_refl 0, (Int.sub_zero _).symm, rfl, .same rfl rfl⟩

theorem level_emitOp (op : Opcode) : Level (emitOp op) := level_emitByte _

theorem level_emitExtended (op : ExtendedOpcode) : Level (emitExtended op) :=
  (level_emitOp _).seq fun _ => level_emitByte _

/-- A fixup has been added, but no depth of the stack. -/
theorem MoreRefs.other {f : Fixup} (hfixups : s'.fixups = s.fixups ++ [f])
    (hloops : s'.loops = s.loops) (hkind : f.kind ≠ .stack) : MoreRefs 0 s s' := by
  intro htops
  rw [GenState.Tops, hloops, GenState.refs, hfixups, countKind, List.countP_append,
    List.countP_singleton]
  exact ⟨htops, by simp [GenState.refs, countKind, hkind]⟩

theorem level_addLiteral (v : Var) : Level (addLiteral v) := by
  intro s u s' hrun
  cases hrun
  exact ⟨Int.le_refl 0, (Int.sub_zero _).symm, rfl, .other rfl rfl nofun⟩

theorem level_addFork (b : Bytecodes) : Level (addFork b) := by
  intro s u s' hrun
  cases hrun
  exact ⟨Int.le_refl 0, (Int.sub_zero _).symm, rfl, .other rfl rfl nofun⟩

theorem level_addVarRef (slot : Nat) : Level (addVarRef slot) := by
  intro s u s' hrun
  cases hrun
  exact ⟨Int.le_refl 0, (Int.sub_zero _).symm, rfl, .other rfl rfl nofun⟩

theorem level_addLinkedLabel (next : Option Nat) : Level (addLinkedLabel next) := by
  intro s u s' hrun
  cases hrun
  exact ⟨Int.le_refl 0, (Int.sub_zero _).symm, rfl, .other rfl rfl nofun⟩

theorem level_addLabel : Level addLabel := level_addLinkedLabel none

theorem level_addPseudoLabel (value : Nat) : Level (addPseudoLabel value) := by
  intro s u s' hrun
  cases hrun
  exact ⟨Int.le_refl 0, (Int.sub_zero _).symm, rfl, .other rfl rfl nofun⟩

theorem level_defineLabel (label : Option Nat) : Level (defineLabel label) := by
  intro s u s' hrun
  cases hrun
  refine ⟨Int.le_refl 0, (Int.sub_zero _).symm, rfl, fun htops => ⟨htops, ?_⟩⟩
  show countKind (defineChain s s.fixups.length label s.fixups) .stack = _
  rw [countKind_shape, map_shape_defineChain, ← countKind_shape]
  rfl

theorem rises_addStackRef (index : Int) : Rises 0 0 1 (addStackRef index) := by
  intro s u s' hrun hle
  cases hrun
  have hmax : s.maxStack = max s.maxStack (s.curStack + 0) := by omega
  refine ⟨Int.le_refl 0, (Int.add_zero _).symm, hmax, fun htops => ⟨htops, ?_⟩⟩
  show countKind (s.fixups ++ [_]) .stack = _
  rw [countKind, List.countP_append, List.countP_singleton]
  rfl

theorem rises_pushStack (c : Nat) : Rises c c 0 (pushStack c) := by
  intro s u s' hrun hle
  cases hrun
  exact ⟨Int.le_refl _, rfl, rfl, .same rfl rfl⟩

theorem pops_popStack (c : Nat) : Pops c (popStack c) := by
  intro s u s' hrun
  cases hrun
  exact ⟨Int.natCast_nonneg c, rfl, rfl, .same rfl rfl⟩

theorem level_saveStackTop : Level saveStackTop := by
  intro s u s' hrun
  cases hrun
  exact ⟨Int.le_refl 0, (Int.sub_zero _).symm, rfl, .same rfl rfl⟩

theorem level_savedStackTop : Level savedStackTop := by
  intro s u s' hrun
  cases hrun
  exact ⟨Int.le_refl 0, (Int.sub_zero _).symm, rfl, .same rfl rfl⟩

theorem level_restoreStackTop (old : Int) : Level (restoreStackTop old) := by
  intro s u s' hrun
  cases hrun
  exact ⟨Int.le_refl 0, (Int.sub_zero _).symm, rfl, .same rfl rfl⟩

theorem level_curStackNow : Level curStackNow := by
  intro s u s' hrun
  cases hrun
  exact ⟨Int.le_refl 0, (Int.sub_zero _).symm, rfl, .same rfl rfl⟩

theorem level_emitVarOp (op : Opcode) (slot : Nat) : Level (emitVarOp op slot) :=
  .ite ((level_emitByte _).seq fun _ => level_addVarRef _) (level_emitByte _)

theorem BinaryKind.level_emit (kind : BinaryKind) : Level kind.emit := by
  cases kind
  case exp => exact level_emitExtended _
  all_goals exact level_emitOp _

theorem level_emitArg (first : Bool) (kind : ArgKind) : Level (emitArg first kind) := by
  cases kind with
  | normal => exact level_emitOp _
  | splice => exact level_emitOp _

theorem level_emitTargets : ∀ sc : Scatter, Level (emitTargets sc)
  | .nil => level_pure _
  | .cons .optional _ (some _) next =>
      (level_addVarRef _).seq fun _ => level_addLabel.seq fun _ => (level_emitTargets next).seq fun _ =>
        level_pure _
  | .cons .optional _ none next =>
      (level_addVarRef _).seq fun _ => (level_addPseudoLabel 1).seq fun _ => level_emitTargets next
  | .cons .required _ _ next | .cons .rest _ _ next =>
      (level_addVarRef _).seq fun _ => (level_addPseudoLabel 0).seq fun _ => level_emitTargets next

theorem level_emitScatter (sc : Scatter) : Level (emitScatter sc) :=
  (level_emitExtended _).seq fun _ => (level_emitByte _).seq fun _ => (level_emitByte _).seq fun _ =>
    (level_emitByte _).seq fun _ => level_emitTargets sc

theorem level_whenIndexed (e : Expr) {emit : Gen Unit} (hm : Level emit) :
    Level (whenIndexed e emit) := by
  cases e
  case range => exact hm
  case index => exact hm
  all_goals exact level_pure _

/-! ## Expressions -/

theorem rises_generateVar (v : Var) : Rises 1 1 0 (generateVar v) := by
  have himm : ∀ v : Var, Level (do emitOp .imm; addLiteral v) :=
    fun v => (level_emitOp _).seq fun _ => level_addLiteral v
  have hvar : Level (generateVar.emitVar v) := by
    cases v with
    | int num => exact .ite (level_emitByte _) (himm _)
    | _ => exact himm _
  exact hvar.then fun _ => rises_pushStack 1

theorem rises_generateLength : Rises 1 1 1 generateLength := by
  refine level_savedStackTop.then fun saved => ?_
  split
  · exact rises_panic
  · exact (level_emitExtended _).then fun _ =>
      ((rises_addStackRef saved).seq fun _ => rises_pushStack 1).to rfl rfl rfl

theorem pops_putLvalue : ∀ e : Expr, Pops e.cells (putLvalue e)
  | .range base _ _ => by
      have hbase := (level_emitExtended .rangeset).seq fun _ =>
        (pops_popStack 3).seq fun _ => pops_putLvalue base
      have hcells : (3 : Nat) + base.cells = base.cells + 3 := Int.add_comm _ _
      rwa [hcells] at hbase
  | .index lhs _ => by
      have hlhs := (level_emitOp .indexset).seq fun _ =>
        (pops_popStack 2).seq fun _ => pops_putLvalue lhs
      have hcells : (2 : Nat) + lhs.cells = lhs.cells + 2 := Int.add_comm _ _
      rwa [hcells] at hlhs
  | .id _ => level_emitVarOp _ _
  | .prop _ _ => (level_emitOp _).seq fun _ => pops_popStack 2
  | .var _ | .and _ _ | .or _ _ | .negate _ | .not _ | .binary _ _ _ | .length | .list _ | .call _ _
  | .verb _ _ _ | .cond _ _ _ | .asgn _ _ | .catch _ _ _ | .scatter _ => fun _ _ _ hrun => nomatch hrun

theorem rises_emitCodes {codes : ArgList}
    (hm : Rises 1 (codes.height true) codes.stackRefs (generateArgList codes true)) :
    Rises 1 (codes.height true) codes.stackRefs (emitCodes codes (generateArgList codes true)) := by
  cases codes with
  | nil => exact (level_emitByte _).then fun _ => rises_pushStack 1
  | cons => exact hm

/-- An assignment to anything but a pattern. -/
theorem rises_asgn {e rhs : Expr} (hne : ∀ sc, e ≠ .scatter sc)
    (hpush : Rises e.cells (e.targetHeight false) e.stackRefs (pushLvalue e false))
    (hrhs : Rises 1 rhs.height rhs.stackRefs (generateExpr rhs)) :
    Rises 1 (Expr.asgn e rhs).height (Expr.asgn e rhs).stackRefs (generateExpr (.asgn e rhs)) := by
  have hheight : (Expr.asgn e rhs).height = max (e.targetHeight false) (e.cells + rhs.height) := by
    cases e
    case scatter sc => exact absurd rfl (hne sc)
    all_goals rfl
  have hput : Pops e.cells (do putLvalue e; whenIndexed e (do emitOp .pop; emitOp .pushTemp)) := by
    have hseq := (pops_putLvalue e).seq fun _ =>
      level_whenIndexed e ((level_emitOp .pop).seq fun _ => level_emitOp .pushTemp)
    rwa [Int.add_zero] at hseq
  rw [generateExpr_asgn hne, hheight]
  refine (hpush.seq fun _ => hrhs.pops fun _ =>
    (level_whenIndexed e (level_emitOp .putTemp)).seq fun _ => hput).to ?_ rfl rfl
  omega

/-- The value of a target is pushed if it is to be indexed. -/
theorem rises_above (op : Opcode) (above : Bool) :
    Rises (if above then 1 else 0) (if above then 1 else 0) 0
      (if above then do emitOp op; pushStack 1 else pure ()) := by
  cases above with
  | false => exact Level.rises (level_pure _)
  | true => exact (level_emitOp op).then fun _ => rises_pushStack 1

/-- A `try` in an expression, up to its handler. -/
theorem rises_catch {e : Expr} {codes : ArgList} {except : Option Expr}
    (hcodes : Rises 1 (codes.height true) codes.stackRefs (generateArgList codes true))
    (he : Rises 1 e.height e.stackRefs (generateExpr e))
    (hexcept : Rises 0 (defaultHeight except - 1) (defaultStackRefs except) (generateExcept except)) :
    Rises 1 (Expr.catch e codes except).height (Expr.catch e codes except).stackRefs
      (generateExpr (.catch e codes except)) := by
  refine ((rises_emitCodes hcodes).seq fun _ => (level_emitExtended _).then fun _ =>
    level_addLabel.then fun _ => (rises_pushStack 1).seq fun _ => (level_emitExtended _).then fun _ =>
      (rises_pushStack 1).seq fun _ => he.seq fun _ => (level_emitExtended _).then fun _ =>
        level_addLabel.then fun _ => (pops_popStack 3).then fun _ => (level_defineLabel _).then fun _ =>
          hexcept.level fun _ => level_defineLabel _).to ?_ ?_ ?_
  · omega
  · simp only [Expr.height]
    omega
  · simp only [Expr.stackRefs]
    omega

mutual

/-- A valid expression needs as many cells as it says, and leaves one. -/
theorem Expr.Valid.rises : ∀ {dollar : Bool} {e : Expr}, e.Valid dollar →
    Rises 1 e.height e.stackRefs (generateExpr e)
  | _, _, .var => rises_generateVar _
  | _, _, .id => (level_emitVarOp _ _).then fun _ => rises_pushStack 1
  | _, _, .length => rises_generateLength
  | _, _, .and hlhs hrhs | _, _, .or hlhs hrhs =>
      (hlhs.rises.seq fun _ => (level_emitOp _).then fun _ => level_addLabel.then fun _ =>
        (pops_popStack 1).then fun _ => hrhs.rises.level fun _ =>
          level_defineLabel _).to (by omega) (by simp only [Expr.height]; omega) rfl
  | _, _, .negate he | _, _, .not he => he.rises.level fun _ => level_emitOp _
  | _, _, .binary hlhs hrhs =>
      (hlhs.rises.seq fun _ => hrhs.rises.pops fun _ =>
        (BinaryKind.level_emit _).seq fun _ => pops_popStack 1).to
          (by omega) (by simp only [Expr.height]; omega) rfl
  | _, _, .prop hlhs hrhs =>
      (hlhs.rises.seq fun _ => hrhs.rises.pops fun _ =>
        (level_emitOp _).seq fun _ => pops_popStack 1).to
          (by omega) (by simp only [Expr.height]; omega) rfl
  | _, _, .index hlhs hrhs =>
      (hlhs.rises.seq fun _ => level_saveStackTop.then fun _ =>
        hrhs.rises.pops fun _ => (level_restoreStackTop _).seq fun _ =>
          (level_emitOp _).seq fun _ => pops_popStack 1).to
            (by omega) (by simp only [Expr.height]; omega) rfl
  | _, _, .range hbase hfrom hto =>
      (hbase.rises.seq fun _ => level_saveStackTop.then fun _ =>
        hfrom.rises.seq fun _ => hto.rises.pops fun _ =>
          (level_restoreStackTop _).seq fun _ => (level_emitOp _).seq fun _ => pops_popStack 2).to
            (by omega) (by simp only [Expr.height]; omega) (by simp only [Expr.stackRefs]; omega)
  | _, _, .list hargs => hargs.rises true
  | _, _, .call hargs =>
      (hargs.rises true).level fun _ => (level_emitOp _).seq fun _ => level_emitByte _
  | _, _, .verb hobj hverb hargs =>
      (hobj.rises.seq fun _ => hverb.rises.seq fun _ =>
        (hargs.rises true).pops fun _ => (level_emitOp _).seq fun _ =>
          pops_popStack 2).to (by simp) (by simp only [Expr.height]; omega)
            (by simp only [Expr.stackRefs]; omega)
  | _, _, .cond he he' he'' =>
      (he.rises.seq fun _ => (level_emitOp _).then fun _ =>
        level_addLabel.then fun _ => (pops_popStack 1).then fun _ =>
          he'.rises.seq fun _ => (level_emitOp _).then fun _ =>
            level_addLabel.then fun _ => (pops_popStack 1).then fun _ => (level_defineLabel _).then fun _ =>
              he''.rises.level fun _ => level_defineLabel _).to
                (by omega) (by simp only [Expr.height]; omega) (by simp only [Expr.stackRefs]; omega)
  | _, _, .catch he hcodes =>
      rises_catch (hcodes.rises true) he.rises
        (Level.rises ((level_emitByte _).seq fun _ => level_emitOp _))
  | _, _, .catchDefault he hcodes he' =>
      rises_catch (hcodes.rises true) he.rises
        ((level_emitOp _).then fun _ => (pops_popStack 1).then fun _ => he'.rises)
  | _, _, .asgn hlhs hrhs =>
      rises_asgn hlhs.ne_scatter ((hlhs.rises false).to (by simp) rfl rfl) hrhs.rises
  | _, .asgn (.range base from' to') rhs, .asgnRange hbase hfrom hto hrhs => by
      refine rises_asgn nofun ?_ hrhs.rises
      exact ((hbase.rises true).seq fun _ => level_saveStackTop.then fun _ =>
        hfrom.rises.seq fun _ => hto.rises.level fun _ =>
          level_restoreStackTop _).to (by simp only [Expr.cells]; simp; omega)
            (by simp only [Expr.targetHeight]; simp; omega) (by simp only [Expr.stackRefs]; omega)
  | _, _, .asgnScatter hsc hrhs =>
      (hrhs.rises.seq fun _ => (level_emitScatter _).then fun labels =>
        level_addLabel.then fun _ => (hsc.rises labels).level fun _ =>
          level_defineLabel _).to (by omega) (by simp only [Expr.height]; omega)
            (by simp only [Expr.stackRefs]; omega)

/-- A target is prepared, and its value too if it is to be indexed. -/
theorem Expr.Target.rises : ∀ {dollar : Bool} {e : Expr}, e.Target dollar → ∀ above : Bool,
    Rises (e.cells + if above then 1 else 0) (e.targetHeight above) e.stackRefs (pushLvalue e above)
  | _, _, .id, above => by
      cases above with
      | false => exact Level.rises (level_pure _)
      | true => exact (level_emitVarOp _ _).then fun _ => rises_pushStack 1
  | _, _, .prop hlhs hrhs, above =>
      (hlhs.rises.seq fun _ => hrhs.rises.seq fun _ =>
        rises_above .pushGetProp above).to (by simp only [Expr.cells]; omega)
          (by simp only [Expr.targetHeight]; omega) rfl
  | _, _, .index hlhs hrhs, above =>
      ((hlhs.rises true).seq fun _ => level_saveStackTop.then fun _ =>
        hrhs.rises.seq fun _ => (level_restoreStackTop _).then fun _ =>
          rises_above .pushRef above).to (by simp only [Expr.cells]; simp; omega)
            (by simp only [Expr.targetHeight]; simp; omega) rfl

theorem ArgList.Valid.rises : ∀ {dollar : Bool} {args : ArgList}, args.Valid dollar →
    ∀ first : Bool,
    Rises (if first then 1 else 0) (args.height first) args.stackRefs (generateArgList args first)
  | _, _, .nil, first => by
      cases first with
      | false => exact Level.rises (level_pure _)
      | true => exact (level_emitOp _).then fun _ => rises_pushStack 1
  | _, .cons kind e next, .cons he hnext, first => by
      have hrest := hnext.rises false
      cases first with
      | false =>
          exact (he.rises.seq fun _ => (level_emitArg _ kind).then fun _ =>
            (pops_popStack 1).then fun _ => hrest).to (by simp)
              (by simp only [ArgList.height, Bool.false_eq_true, if_false]; omega) rfl
      | true =>
          exact (he.rises.seq fun _ => (level_emitArg _ kind).then fun _ =>
            (pops_popStack 0).then fun _ => hrest).to (by simp)
              (by simp only [ArgList.height]; simp; omega) rfl

theorem Scatter.Valid.rises : ∀ {dollar : Bool} {sc : Scatter}, sc.Valid dollar →
    ∀ labels : List Nat, Rises 0 sc.height sc.stackRefs (generateDefaults sc labels)
  | _, _, .nil, _ => Level.rises (level_pure _)
  | _, .cons kind _ none _, .target hnext, labels => by
      have hrest := hnext.rises labels
      cases kind <;> exact hrest
  | _, .cons kind _ (some _) _, .default he hnext, labels => by
      cases kind with
      | optional =>
          exact ((level_defineLabel _).then fun _ => he.rises.seq fun _ =>
            (level_emitVarOp _ _).then fun _ => (level_emitOp _).then fun _ =>
              (pops_popStack 1).then fun _ => hnext.rises labels.tail).to (by simp)
                (by simp only [Scatter.height]; omega) rfl
      | required => exact hnext.rises labels
      | rest => exact hnext.rises labels

end

/-! ## Statements -/

theorem level_forkVector (body : Gen Unit) : Level (forkVector body) := by
  intro s bc s' hrun
  obtain ⟨⟨bc', gstate⟩, -, hrun⟩ := Option.bind_eq_some_iff.mp hrun
  cases hrun
  exact ⟨Int.le_refl 0, (Int.sub_zero _).symm, rfl, .same rfl rfl⟩

theorem level_enterLoop {top : Fixup} (htop : top.kind = .label) (id topStack : Int)
    (label : Option Nat) (bottomStack : Int) :
    Level (enterLoop id top topStack label bottomStack) := by
  intro s u s' hrun
  cases hrun
  refine ⟨Int.le_refl 0, (Int.sub_zero _).symm, rfl, fun htops => ⟨fun loop hloop => ?_, rfl⟩⟩
  rcases List.mem_cons.mp hloop with rfl | hloop
  · exact htop
  · exact htops loop hloop

theorem level_exitLoop : Level exitLoop := by
  intro s b s' hrun
  rw [exitLoop] at hrun
  split at hrun
  next loop loops hloops =>
    cases hrun
    refine ⟨Int.le_refl 0, (Int.sub_zero _).symm, rfl, fun htops => ⟨fun loop' hloop => ?_, rfl⟩⟩
    exact htops loop' (hloops ▸ List.mem_cons_of_mem _ hloop)
  next => cases hrun

theorem level_whenId (id : Int) {emit : Nat → Gen Unit} (hm : ∀ slot, Level (emit slot)) :
    Level (whenId id emit) := .ite (hm _) (level_pure _)

theorem level_emitWhile (id : Int) : Level (emitWhile id) :=
  .ite (level_emitOp _) ((level_emitExtended _).seq fun _ => level_addVarRef _)

theorem level_emitExit (exit : Int) : Level (emitExit exit) :=
  .ite (level_emitExtended _) ((level_emitExtended _).seq fun _ => level_addVarRef _)

theorem level_findExit (exit : Int) : Level (findExit exit) := by
  rintro s ⟨i, loop⟩ s' hrun
  exact level_emitExit exit s _ s' (findExit_run hrun).1

theorem level_jumpToEnd (next : ExceptArm) (b : Option Nat) : Level (jumpToEnd next b) := by
  cases next with
  | nil => exact level_pure _
  | cons =>
      exact (level_emitOp _).seq fun _ => (level_addLinkedLabel _).seq fun _ => level_pure _

/-- A known label has been added; it is not of another kind. -/
theorem level_addKnownLabel {top : Fixup} (htop : top.kind = .label) : Level (addKnownLabel top) := by
  intro s u s' hrun
  cases hrun
  exact ⟨Int.le_refl 0, (Int.sub_zero _).symm, rfl, .other rfl rfl (by rw [htop]; nofun)⟩

/-- The captured label is a label. -/
theorem Rises.capture {f : Fixup → Gen β} (hf : ∀ top, top.kind = .label → Rises d h k (f top)) :
    Rises d h k (captureLabel >>= f) := by
  intro s b s' hrun
  obtain ⟨top, s1, htop, hrun⟩ := bind_eq_some hrun
  cases htop
  exact hf _ rfl s b s' hrun

/-- Something is known of the first result. -/
theorem Rises.knowing {m : Gen α} {f : α → Gen β} {p : α → Prop} (hm : Rises d h k m)
    (hp : ∀ s a s', m s = some (a, s') → p a) (hf : ∀ a, p a → Rises d' h' k' (f a)) :
    Rises (d + d') (max h (d + h')) (k + k') (m >>= f) := by
  intro s b s'' hrun hle
  obtain ⟨a, s', hrun, hrun'⟩ := bind_eq_some hrun
  obtain ⟨hd, hcur, hmax, hrefs⟩ := hm s a s' hrun hle
  obtain ⟨hd', hcur', hmax', hrefs'⟩ := hf a (hp s a s' hrun) s' b s'' hrun' (by omega)
  exact ⟨by omega, by omega, by omega, hrefs.trans hrefs'⟩

/-- A loop from its body on. -/
theorem rises_loop {id topStack bottomStack : Int} {top : Fixup} (htop : top.kind = .label) {l : Nat}
    {body : Gen Unit} {rest : Option Nat → Gen Unit} (hbody : Rises 0 h k body)
    (hrest : ∀ b, Pops n (rest b)) : Rises (-n) h k (do
      enterLoop id top topStack (some l) bottomStack
      body
      let b ← exitLoop
      emitOp .jump
      let _ ← addKnownLabel top
      rest b) :=
  (level_enterLoop htop _ _ _ _).then fun _ => (hbody.pops fun _ => level_exitLoop.seq fun b =>
    (level_emitOp .jump).seq fun _ => (level_addKnownLabel htop).seq fun _ => hrest b).to
      (Int.zero_sub n) rfl rfl

theorem ArgList.Valid.rises_codes {codes : ArgList} (hcodes : codes.Valid false) :
    Rises 1 (codes.height true) codes.stackRefs (generateCodes codes) :=
  rises_emitCodes (hcodes.rises true)

theorem generateHandlerCodes_length : ∀ (excepts : ExceptArm) (s : GenState) (labels : List Nat)
    (s' : GenState), generateHandlerCodes excepts s = some (labels, s') →
    labels.length = excepts.count
  | .nil, _, _, _, hrun => by
      cases hrun
      rfl
  | .cons _ codes _ next, s, labels, s', hrun => by
      obtain ⟨_, s1, -, hrun⟩ := bind_eq_some hrun
      obtain ⟨_, s2, -, hrun⟩ := bind_eq_some hrun
      obtain ⟨l, s3, -, hrun⟩ := bind_eq_some hrun
      obtain ⟨_, s4, -, hrun⟩ := bind_eq_some hrun
      obtain ⟨labels', s5, hnext, hrun⟩ := bind_eq_some hrun
      cases hrun
      exact congrArg (· + 1) (generateHandlerCodes_length next s4 labels' s' hnext)

theorem ExceptArm.Valid.rises_codes : ∀ {l : List Int} {excepts : ExceptArm}, excepts.Valid l →
    Rises (2 * excepts.count) excepts.codesHeight excepts.codesStackRefs
      (generateHandlerCodes excepts)
  | _, _, .nil => Level.rises (level_pure _)
  | _, .cons _ codes _ next, .cons hcodes _ hnext =>
      (hcodes.rises_codes.seq fun _ => (level_emitExtended _).then fun _ => level_addLabel.then fun _ =>
        (rises_pushStack 1).seq fun _ => hnext.rises_codes.level fun _ => level_pure _).to
          (by simp only [ExceptArm.count]; omega) (by simp only [ExceptArm.codesHeight]; omega)
          (by simp only [ExceptArm.codesStackRefs]; omega)

theorem rises_break (exit : Int) : Rises 0 0 1 (generateStmt (.break exit)) := by
  refine (level_findExit exit).then fun found => (rises_addStackRef _).level fun _ =>
    (level_addLinkedLabel _).seq fun label => ?_
  obtain ⟨i, loop⟩ := found
  intro s u s' hrun
  cases hrun
  refine ⟨Int.le_refl 0, (Int.sub_zero _).symm, rfl, fun htops => ⟨fun loop' hloop => ?_, rfl⟩⟩
  obtain ⟨j, hj⟩ := List.getElem?_of_mem hloop
  by_cases hij : i = j
  · rw [hij, List.getElem?_modify_eq] at hj
    obtain ⟨loop'', hj', rfl⟩ := Option.map_eq_some_iff.mp hj
    exact htops loop'' (List.mem_of_getElem? hj')
  · rw [List.getElem?_modify_ne _ _ hij] at hj
    exact htops loop' (List.mem_of_getElem? hj)

theorem rises_continue (exit : Int) : Rises 0 0 1 (generateStmt (.continue exit)) := by
  intro s u s' hrun hle
  obtain ⟨⟨i, loop⟩, s1, hfind, hrun⟩ := bind_eq_some hrun
  obtain ⟨_, s2, hstack, hrun⟩ := bind_eq_some hrun
  obtain ⟨_, s3, hknown, hrun⟩ := bind_eq_some hrun
  cases hrun
  obtain ⟨-, hcur1, hmax1, hrefs1⟩ := level_findExit exit s _ s1 hfind
  obtain ⟨-, hcur2, hmax2, hrefs2⟩ := rises_addStackRef _ s1 _ s2 hstack (by omega)
  have hsame : s'.curStack = s2.curStack ∧ s'.maxStack = s2.maxStack := by
    cases hknown
    exact ⟨rfl, rfl⟩
  refine ⟨Int.le_refl 0, by omega, by omega, fun htops => ?_⟩
  have htop : loop.topLabel.kind = .label :=
    (hrefs1 htops).1 loop (List.mem_of_getElem? (findExit_run hfind).2)
  obtain ⟨-, -, -, hrefs3⟩ := level_addKnownLabel htop s2 _ s' hknown
  exact hrefs1.trans (hrefs2.trans hrefs3) htops

mutual

/-- Valid statements need as many cells as they say, and leave the stack as it was. -/
theorem Stmt.Valid.rises : ∀ {l : List Int} {stmt : Stmt}, stmt.Valid l →
    Rises 0 stmt.height stmt.stackRefs (generateStmt stmt)
  | _, _, .cond harms hother =>
      ((harms.rises _ _).seq fun _ => hother.rises.level fun _ => level_defineLabel _).to
        (by omega) (by simp only [Stmt.height]; omega) rfl
  | _, _, .list he hbody =>
      (he.rises.seq fun _ => (level_emitByte _).then fun _ => (rises_pushStack 1).seq fun _ =>
        .capture fun _ htop => (level_emitOp _).then fun _ => (level_addVarRef _).then fun _ =>
          level_addLabel.then fun _ => level_curStackNow.then fun _ =>
            rises_loop htop hbody.rises fun _ => (level_defineLabel _).seq fun _ => pops_popStack 2).to
              (by simp) (by simp only [Stmt.height]; omega) (by simp only [Stmt.stackRefs]; omega)
  | _, _, .range hfrom hto hbody =>
      (hfrom.rises.seq fun _ => hto.rises.seq fun _ =>
        .capture fun _ htop => (level_emitOp _).then fun _ => (level_addVarRef _).then fun _ =>
          level_addLabel.then fun _ => level_curStackNow.then fun _ =>
            rises_loop htop hbody.rises fun _ => (level_defineLabel _).seq fun _ => pops_popStack 2).to
              (by simp) (by simp only [Stmt.height]; omega) (by simp only [Stmt.stackRefs]; omega)
  | _, _, .while he hbody =>
      .capture fun _ htop => (he.rises.seq fun _ => (level_emitWhile _).then fun _ =>
        level_addLabel.then fun _ => (pops_popStack 1).then fun _ => level_curStackNow.then fun _ =>
          rises_loop htop hbody.rises fun _ => level_defineLabel _).to
            (by simp) (by simp only [Stmt.height]; omega) rfl
  | _, _, .fork he _ =>
      (he.rises.pops fun _ => (level_emitOp _).seq fun _ => (level_forkVector _).seq fun _ =>
        (level_addFork _).seq fun _ => (level_whenId _ level_addVarRef).seq fun _ =>
          pops_popStack 1).to (by simp) rfl rfl
  | _, _, .expr he =>
      (he.rises.pops fun _ => (level_emitOp _).seq fun _ => pops_popStack 1).to (by simp) rfl rfl
  | _, _, .return he =>
      (he.rises.pops fun _ => (level_emitOp _).seq fun _ => pops_popStack 1).to (by simp) rfl rfl
  | _, _, .return0 => Level.rises (level_emitOp _)
  | _, .tryExcept body excepts, .tryExcept hbody hexcepts =>
      (hexcepts.rises_codes.knowing (generateHandlerCodes_length excepts) fun labels hlabels =>
        show Rises (-(2 * excepts.count))
            (1 + max 0 (max body.height (excepts.height - (2 * excepts.count + 1))))
            (body.stackRefs + excepts.stackRefs) _ from
          ((level_emitExtended _).then fun _ => (level_emitByte _).then fun _ =>
            (rises_pushStack 1).seq fun _ => hbody.rises.seq fun _ => (level_emitExtended _).then fun _ =>
              level_addLabel.then fun _ => (pops_popStack (2 * labels.length + 1)).then fun _ =>
                (hexcepts.rises labels _).level fun _ => level_defineLabel _).to
                  (by omega) (by omega) (by omega)).to
            (by omega) (by simp only [Stmt.height]; omega) (by simp only [Stmt.stackRefs]; omega)
  | _, _, .tryFinally hbody hhandler =>
      ((level_emitExtended _).then fun _ => level_addLabel.then fun _ => (rises_pushStack 1).seq fun _ =>
        hbody.rises.seq fun _ => (level_emitExtended _).then fun _ => (pops_popStack 1).then fun _ =>
          (level_defineLabel _).then fun _ => (rises_pushStack 2).seq fun _ =>
            hhandler.rises.pops fun _ => (level_emitExtended _).seq fun _ => pops_popStack 2).to
              (by simp) (by simp only [Stmt.height]; omega) (by simp only [Stmt.stackRefs]; omega)
  | _, _, .break _ => rises_break _
  | _, _, .continue _ => rises_continue _

theorem StmtList.Valid.rises : ∀ {l : List Int} {stmts : StmtList}, stmts.Valid l →
    Rises 0 stmts.height stmts.stackRefs (generateStmts stmts)
  | _, _, .nil => Level.rises (level_pure _)
  | _, _, .cons hstmt hnext =>
      (hstmt.rises.seq fun _ => hnext.rises).to (by omega) (by simp only [StmtList.height]; omega) rfl

theorem CondArm.Valid.rises : ∀ {l : List Int} {arms : CondArm}, arms.Valid l →
    ∀ (op : Opcode) (b : Option Nat), Rises 0 arms.height arms.stackRefs (generateArms arms op b)
  | _, _, .nil, _, _ => Level.rises (level_pure _)
  | _, _, .cons he hstmts hnext, _, _ =>
      (he.rises.seq fun _ => (level_emitOp _).then fun _ => level_addLabel.then fun _ =>
        (pops_popStack 1).then fun _ => hstmts.rises.seq fun _ => (level_emitOp _).then fun _ =>
          (level_addLinkedLabel _).then fun _ => (level_defineLabel _).then fun _ =>
            hnext.rises _ _).to (by simp) (by simp only [CondArm.height]; omega)
              (by simp only [CondArm.stackRefs]; omega)

theorem ExceptArm.Valid.rises : ∀ {l : List Int} {excepts : ExceptArm}, excepts.Valid l →
    ∀ (labels : List Nat) (b : Option Nat),
    Rises 0 excepts.height excepts.stackRefs (generateHandlers excepts labels b)
  | _, _, .nil, _, _ => Level.rises (level_pure _)
  | _, _, .cons _ hstmts hnext, _, _ =>
      ((level_defineLabel _).then fun _ => (rises_pushStack 1).seq fun _ =>
        (level_whenId _ (level_emitVarOp .put)).then fun _ => (level_emitOp _).then fun _ =>
          (pops_popStack 1).then fun _ => hstmts.rises.seq fun _ => (level_jumpToEnd _ _).then fun _ =>
            hnext.rises _ _).to (by simp) (by simp only [ExceptArm.height]; omega)
              (by simp only [ExceptArm.stackRefs]; omega)

end

/-! ## Vectors -/

/-- The greatest depth of the stack in a vector, and its operands that are depths of it. -/
theorem vector_depth {stmts : StmtList} (hvalid : stmts.Valid []) {gstate : GState} {u : Unit}
    {st : GenState} (hrun : (do generateStmts stmts; emitOp .done : Gen Unit) (initState gstate) =
      some (u, st)) : st.maxStack = max 0 stmts.height ∧
      countKind st.fixups .stack = stmts.stackRefs := by
  have hrises := hvalid.rises.level fun _ => level_emitOp .done
  obtain ⟨-, -, hmax, hrefs⟩ := hrises _ u st hrun (Int.le_refl 0)
  refine ⟨?_, ?_⟩
  · rw [hmax]
    show max 0 (0 + _) = _
    rw [Int.zero_add]
  · have htops : (initState gstate).Tops := nofun
    have hcount := (hrefs htops).2
    rw [GenState.refs, GenState.refs] at hcount
    rw [hcount]
    exact Nat.zero_add _

end Waverous
